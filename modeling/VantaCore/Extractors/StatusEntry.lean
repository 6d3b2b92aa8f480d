import VantaCore.Extractors.ScanStatus

/-! # The entry of the status block

What `execute` reports is the entry `"scan_status"` of the dictionary it returns, and the results are
merged over that entry: it is the block `execute` has computed exactly if no extractor that succeeds
returns a key of this name (`get?_scanStatus_iff`). Under the same condition the report says the runs
(`reports_iff`), and it accounts for every extractor if besides no compatible one reaches a dependency
cycle and none that a later one of its name shadows succeeds by that name (`accounts_iff`). -/

namespace VantaCore.Extractors.StatusEntry

open VantaCore.Lib VantaCore.Lib.TopoOrder VantaCore.Extractors.Base
open VantaCore.Extractors.Base.ExtractorDAGExecutor VantaCore.Extractors.ResolveDag
open VantaCore.Extractors.Execute VantaCore.Extractors.ScanStatus

/-! ### The last one of a list -/

section Last

variable {α β : Type*} {f : α → Option β} {p : α → Prop} [DecidablePred p]

theorem findSome?_reverse_filter_eq_some {l : List α} {b : β} :
    (l.filter p).reverse.findSome? f = some b ↔
      ∃ l₁ a l₂, l = l₁ ++ a :: l₂ ∧ p a ∧ f a = some b ∧ ∀ x ∈ l₂, p x → f x = none := by
  rw [List.findSome?_eq_some_iff]
  constructor
  · rintro ⟨m₁, a, m₂, hm, ha, hnone⟩
    have hm' : l.filter p = m₂.reverse ++ a :: m₁.reverse := by
      rw [← List.reverse_inj, hm]
      simp
    obtain ⟨l₁, l', rfl, -, hl'⟩ := List.filter_eq_append_iff.mp hm'
    obtain ⟨l₂, l₃, rfl, -, hpa, hl₃⟩ := List.filter_eq_cons_iff.mp hl'
    refine ⟨l₁ ++ l₂, a, l₃, by simp, by simpa using hpa, ha, fun x hx hpx => hnone x ?_⟩
    rw [← List.mem_reverse, ← hl₃]
    exact List.mem_filter.mpr ⟨hx, by simpa using hpx⟩
  · rintro ⟨l₁, a, l₂, rfl, hpa, ha, hnone⟩
    refine ⟨(l₂.filter p).reverse, a, (l₁.filter p).reverse, ?_, ha, fun x hx => ?_⟩
    · rw [List.filter_append, List.filter_cons_of_pos (by simpa using hpa)]
      simp
    · obtain ⟨hx, hpx⟩ := List.mem_filter.mp (List.mem_reverse.mp hx)
      exact hnone x hx (by simpa using hpx)

theorem findSome?_reverse_filter_eq_none {l : List α} :
    (l.filter p).reverse.findSome? f = none ↔ ∀ x ∈ l, p x → f x = none := by
  rw [List.findSome?_eq_none_iff]
  constructor
  · intro h x hx hpx
    exact h x (List.mem_reverse.mpr (List.mem_filter.mpr ⟨hx, by simpa using hpx⟩))
  · intro h x hx
    obtain ⟨hx, hpx⟩ := List.mem_filter.mp (List.mem_reverse.mp hx)
    exact h x hx (by simpa using hpx)

end Last

/-! ### The entry -/

variable {ν : Type} {xs : List BaseExtractor} {platform : String} {run : BaseExtractor → Outcome ν}

theorem ran_iff {e : BaseExtractor} (he : e ∈ order (compatible xs platform)) :
    (Ready (final xs platform run).succeeded e ∧ (run e).Returns) ↔
      e.name ∈ (final xs platform run).succeeded := by
  rw [mem_succeeded_iff]
  constructor
  · rintro ⟨hr, ho⟩; exact ⟨e, he, rfl, hr, ho⟩
  · rintro ⟨f, hf, hfe, hr, ho⟩
    obtain rfl := List.inj_on_of_nodup_map nodup_names_order hf he hfe
    exact ⟨hr, ho⟩

theorem merged_eq_none_iff {k : String} :
    (final xs platform run).mergedResults.get? k = none ↔
      ∀ e ∈ order (compatible xs platform), e.name ∈ (final xs platform run).succeeded →
        (returned run e).get? k = none := by
  rw [runForm_final.merged, get?_foldl_mergeInto, Dict.get?_empty, Option.or_none,
    findSome?_reverse_filter_eq_none]
  exact forall₂_congr fun e he => by rw [ran_iff he]

/-- **The entry is the block `execute` has computed** exactly if no extractor that has succeeded returns
the key. -/
theorem get?_scanStatus_iff {block : ScanStatus} :
    ((new xs platform).execute run).get? "scan_status" = some (.status block) ↔
      block = (new xs platform).scanStatus run ∧ ∀ e ∈ order (compatible xs platform),
        e.name ∈ (final xs platform run).succeeded → "scan_status" ∉ (returned run e).keys := by
  have hnone : (final xs platform run).mergedResults.get? "scan_status" = none ↔
      ∀ e ∈ order (compatible xs platform),
        e.name ∈ (final xs platform run).succeeded → "scan_status" ∉ (returned run e).keys := by
    rw [merged_eq_none_iff]
    simp only [Dict.get?_eq_none_iff]
  rw [get?_execute, ← hnone]
  cases (final xs platform run).mergedResults.get? "scan_status" with
  | none => simp [eq_comm]
  | some v => simp

/-- No extractor that succeeds returns the key of the status block. -/
def NoStatusReturned (xs : List BaseExtractor) (platform : String)
    (run : BaseExtractor → Outcome ν) : Prop :=
  ∀ e ∈ compatible xs platform, (nameMap (compatible xs platform)).get? e.name = some e →
    Succeeds (compatible xs platform) run e.name → "scan_status" ∉ (returned run e).keys

theorem noStatusReturned_iff
    (hs : ∀ n, n ∈ (final xs platform run).succeeded ↔ Succeeds (compatible xs platform) run n) :
    NoStatusReturned xs platform run ↔ ∀ e ∈ order (compatible xs platform),
      e.name ∈ (final xs platform run).succeeded → "scan_status" ∉ (returned run e).keys := by
  constructor
  · intro h e he hsucc
    have hlast := (mem_order_iff.mp he).1
    exact h e (nameMap_eq_some hlast).1 hlast ((hs e.name).mp hsucc)
  · intro h e _ hlast hsucc
    obtain ⟨f, hf, hfe, -⟩ := mem_succeeded_iff.mp ((hs e.name).mpr hsucc)
    have hlast' := (mem_order_iff.mp hf).1
    rw [hfe, hlast] at hlast'
    obtain rfl := Option.some.inj hlast'
    exact h e hf ((hs e.name).mpr hsucc)

/-! ### What the report says -/

/-- **`execute` reports the runs**: under `"scan_status"` there is a block that says them, and the names
in it as succeeded and as failed are the same for every order of the list. -/
def Reports (xs : List BaseExtractor) (platform : String) (run : BaseExtractor → Outcome ν) : Prop :=
  ∃ block, ((new xs platform).execute run).get? "scan_status" = some (.status block) ∧
    SaysRuns xs platform run block ((new xs platform).runAll run).trace ∧
    ∀ ys : List BaseExtractor, ys.Perm xs → ∃ block',
      ((new ys platform).execute run).get? "scan_status" = some (.status block') ∧
        (∀ n, n ∈ block'.extractorsSucceeded ↔ n ∈ block.extractorsSucceeded) ∧
        ∀ n, n ∈ block'.extractorsFailed ↔ n ∈ block.extractorsFailed

theorem noStatusReturned_perm (hn : (names xs).Nodup) {ys : List BaseExtractor} (h : ys.Perm xs)
    (hno : NoStatusReturned xs platform run) : NoStatusReturned ys platform run := by
  have hny : (names ys).Nodup := (h.map _).nodup_iff.mpr hn
  have hxs : ∀ n, n ∈ (final xs platform run).succeeded ↔ Succeeds (compatible xs platform) run n :=
    fun _ => mem_succeeded_iff_of_nodup hn
  have hys : ∀ n, n ∈ (final ys platform run).succeeded ↔ Succeeds (compatible ys platform) run n :=
    fun _ => mem_succeeded_iff_of_nodup hny
  intro e he _ hsucc
  have hex : e ∈ compatible xs platform := (h.filter _).mem_iff.mp he
  refine hno e hex (nameMap_of_nodup (hn.sublist (List.filter_sublist.map _)) hex) ?_
  rwa [← hxs, ← mem_succeeded_perm hn h, hys]

/-- **When the report says the runs**, for distinct names: no extractor that succeeds returns a key
`"scan_status"`. -/
theorem reports_iff (xs : List BaseExtractor) (platform : String) (run : BaseExtractor → Outcome ν)
    (hn : (xs.map (·.name)).Nodup) : Reports xs platform run ↔ NoStatusReturned xs platform run := by
  have hentry : ∀ ys : List BaseExtractor, (names ys).Nodup → ∀ block,
      ((new ys platform).execute run).get? "scan_status" = some (.status block) ↔
        block = (new ys platform).scanStatus run ∧ NoStatusReturned ys platform run :=
    fun ys hny block => by
      rw [noStatusReturned_iff fun _ => mem_succeeded_iff_of_nodup hny, get?_scanStatus_iff]
  constructor
  · rintro ⟨block, hblock, -⟩
    exact ((hentry xs hn block).mp hblock).2
  · intro hno
    refine ⟨_, (hentry xs hn _).mpr ⟨rfl, hno⟩, saysRuns_scanStatus hn, fun ys h => ?_⟩
    have hny : (names ys).Nodup := (h.map _).nodup_iff.mpr hn
    exact ⟨_, (hentry ys hny _).mpr ⟨rfl, noStatusReturned_perm hn h hno⟩,
      mem_succeeded_perm hn h, mem_failed_perm hn h⟩

/-- The process, network and module extractors, and one whose dependency is not in the list. -/
def linuxExtractors : List BaseExtractor :=
  [⟨0, "linux/network", ["linux", "cisco_iosxe"], ["linux/process"]⟩,
    ⟨1, "linux/process", ["linux", "cisco_iosxe"], []⟩,
    ⟨2, "linux/modules", ["linux", "cisco_iosxe"], []⟩,
    ⟨3, "linux/sockets", ["linux"], ["linux/files"]⟩]

/-- The module extractor raises, and the others return the artefacts they found. -/
def modulesRaise (e : BaseExtractor) : Outcome (List String) :=
  if e.name = "linux/modules" then .raises else .returns (some (Dict.ofList [(e.name, ["init"])]))

theorem reports_iff_linux : Reports linuxExtractors "linux" modulesRaise := by
  refine (reports_iff linuxExtractors "linux" modulesRaise (by decide)).mpr fun e he _ _ => ?_
  have hkeys : ∀ e ∈ linuxExtractors, "scan_status" ∉ (returned modulesRaise e).keys := by decide
  exact hkeys e (List.mem_of_mem_filter he)

/-- An extractor that returns a status of its own, with the name of one that does not exist. -/
def ghostStatus (_ : BaseExtractor) : Outcome (Dict String (List String)) :=
  .returns (some (Dict.ofList
    [("scan_status", Dict.ofList [("extractors_succeeded", ["ghost"])])]))

/-- The extractor. -/
def ghostExtractors : List BaseExtractor := [⟨0, "acme/status", ["*"], []⟩]

/-- **A returned status replaces the block.** -/
theorem not_reports_ghost : (ghostExtractors.map (·.name)).Nodup ∧
    ¬ Reports ghostExtractors "linux" ghostStatus := by
  refine ⟨by decide, ?_⟩
  rintro ⟨block, hblock, -⟩
  have hentry : ((new ghostExtractors "linux").execute ghostStatus).get? "scan_status" =
      some (.artefact (Dict.ofList [("extractors_succeeded", ["ghost"])])) := rfl
  rw [hentry] at hblock
  cases hblock

/-! ### What the report accounts for -/

/-- **`execute` accounts for every compatible extractor**: under `"scan_status"` there is a block that
says `"COMPLETE"` exactly if all of their runs returned, and otherwise `"PARTIAL"`, with those missing
among the failed or the skipped. -/
def Accounts (xs : List BaseExtractor) (platform : String) (run : BaseExtractor → Outcome ν) :
    Prop :=
  let trace := ((new xs platform).runAll run).trace
  ∃ block, ((new xs platform).execute run).get? "scan_status" = some (.status block) ∧
    (block.overall = "COMPLETE" ↔ ∀ e ∈ xs, Compatible platform e → .ret e ∈ trace) ∧
    ∀ e ∈ xs, Compatible platform e → .ret e ∉ trace → block.overall = "PARTIAL" ∧
      (e.name ∈ block.extractorsFailed ∨ e.name ∈ block.extractorsSkipped)

/-- What is missing is reported only if it was ordered. -/
theorem Accounts.not_reachesCycle (h : Accounts xs platform run) {e : BaseExtractor}
    (he : e ∈ compatible xs platform) :
    ¬ ReachesCycle (DependsOn (compatible xs platform)) e.name := by
  intro hc
  obtain ⟨hx, hp⟩ := mem_compatible.mp he
  have hno : ∀ f ∈ order (compatible xs platform), f.name ≠ e.name := by
    intro f hf hfe
    exact (mem_order_iff.mp hf).2 (hfe ▸ hc)
  obtain ⟨block, hblock, -, hmissing⟩ := h
  obtain ⟨rfl, -⟩ := get?_scanStatus_iff.mp hblock
  rcases (hmissing e hx hp fun h => hno e (ret_mem_iff.mp h).1 rfl).2 with h | h
  · obtain ⟨f, hf, hfe, -⟩ := mem_failed_iff.mp h
    exact hno f hf hfe
  · obtain ⟨f, hf, hfe, -⟩ := mem_skipped_iff.mp h
    exact hno f hf hfe

/-- **When the report accounts for all extractors**: no compatible extractor reaches a dependency
cycle, none that a later one of its name replaces succeeds by that name, and none that succeeds returns
a key `"scan_status"`. -/
theorem accounts_iff (xs : List BaseExtractor) (platform : String)
    (run : BaseExtractor → Outcome ν) :
    Accounts xs platform run ↔
      (∀ e ∈ compatible xs platform,
        ¬ ReachesCycle (DependsOn (compatible xs platform)) e.name) ∧
      (∀ e ∈ compatible xs platform, (nameMap (compatible xs platform)).get? e.name ≠ some e →
        ¬ Succeeds (compatible xs platform) run e.name) ∧
      NoStatusReturned xs platform run := by
  constructor
  · intro h
    have hcycle : ∀ e ∈ compatible xs platform,
        ¬ ReachesCycle (DependsOn (compatible xs platform)) e.name :=
      fun e he => h.not_reachesCycle he
    have hsucceeds : ∀ n, n ∈ (final xs platform run).succeeded ↔
        Succeeds (compatible xs platform) run n := fun _ => mem_succeeded_iff_of_acyclic hcycle
    obtain ⟨block, hblock, -, hmissing⟩ := h
    obtain ⟨rfl, hno⟩ := get?_scanStatus_iff.mp hblock
    refine ⟨hcycle, fun e he hlast hs => ?_, (noStatusReturned_iff hsucceeds).mpr hno⟩
    obtain ⟨hx, hp⟩ := mem_compatible.mp he
    have hret : Event.ret e ∉ (final xs platform run).trace := fun h =>
      hlast (mem_order_iff.mp (ret_mem_iff.mp h).1).1
    exact not_mem_failed_or_skipped_of_succeeded ((hsucceeds _).mpr hs) (hmissing e hx hp hret).2
  · rintro ⟨hcycle, hlast, hno⟩
    have hmiss : ∀ e ∈ xs, Compatible platform e → .ret e ∉ (final xs platform run).trace →
        e.name ∈ (final xs platform run).failed ∨ e.name ∈ (final xs platform run).skipped :=
      fun e hx hp => reported_of_not_ret hcycle hlast (mem_compatible.mpr ⟨hx, hp⟩)
    have hblock := get?_scanStatus_iff.mpr
      ⟨rfl, (noStatusReturned_iff fun _ => mem_succeeded_iff_of_acyclic hcycle).mp hno⟩
    refine ⟨_, hblock, ?_, fun e hx hp hret =>
      ⟨overall_of_failed_or_skipped (hmiss e hx hp hret), hmiss e hx hp hret⟩⟩
    rw [overall_eq_complete_iff]
    constructor
    · rintro ⟨hf, hs⟩ e hx hp
      by_contra hret
      have hreported := hmiss e hx hp hret
      rw [hf, hs] at hreported
      simp at hreported
    · exact not_reported_of_ret

/-- An extractor that depends on itself is never run, and the report says `"COMPLETE"`. -/
theorem not_accounts_selfDependency :
    ¬ Accounts [⟨0, "cycle/self", ["*"], ["cycle/self"]⟩] "linux"
      (fun _ => (.returns none : Outcome Unit)) := by
  rintro ⟨block, hblock, hcomplete, -⟩
  obtain ⟨rfl, -⟩ := get?_scanStatus_iff.mp hblock
  have := hcomplete.mp (by decide) ⟨0, "cycle/self", ["*"], ["cycle/self"]⟩ (by decide) (by decide)
  exact absurd this (by decide)

end VantaCore.Extractors.StatusEntry
