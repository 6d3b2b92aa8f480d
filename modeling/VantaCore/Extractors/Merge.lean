import VantaCore.Extractors.StatusEntry

/-! # The merged results

`execute` merges what the extractors return with `dict.update`, so of two extractors that return one
key the later in the execution order wins, and what is merged is put over the status block. With
distinct names, nothing is lost exactly if what the last extractor returns under a key holds what
the earlier ones return under it, and no extractor returns the key of the block (`lossFree_iff`). -/

namespace VantaCore.Extractors.Merge

open VantaCore.Lib VantaCore.Extractors.Base VantaCore.Extractors.Base.ExtractorDAGExecutor
open VantaCore.Extractors.ResolveDag VantaCore.Extractors.Execute
open VantaCore.Extractors.ScanStatus VantaCore.Extractors.StatusEntry

/-! ### What is merged -/

variable {α : Type} {xs : List BaseExtractor} {platform : String}
  {run : BaseExtractor → Outcome (List α)}

theorem merged_eq_some_iff {k : String} {m : List α} :
    (final xs platform run).mergedResults.get? k = some m ↔
      ∃ l₁ f l₂, order (compatible xs platform) = l₁ ++ f :: l₂ ∧
        f.name ∈ (final xs platform run).succeeded ∧ (returned run f).get? k = some m ∧
        ∀ g ∈ l₂, g.name ∈ (final xs platform run).succeeded → (returned run g).get? k = none := by
  rw [runForm_final.merged, get?_foldl_mergeInto, Dict.get?_empty, Option.or_none,
    findSome?_reverse_filter_eq_some]
  have key : ∀ l₁ f l₂, order (compatible xs platform) = l₁ ++ f :: l₂ → ∀ g ∈ f :: l₂,
      ((Ready (final xs platform run).succeeded g ∧ (run g).Returns) ↔
        g.name ∈ (final xs platform run).succeeded) := by
    intro l₁ f l₂ hl g hg
    exact ran_iff (by rw [hl]; exact List.mem_append_right _ hg)
  constructor
  · rintro ⟨l₁, f, l₂, hl, hf, hm, hnone⟩
    exact ⟨l₁, f, l₂, hl, (key l₁ f l₂ hl f List.mem_cons_self).mp hf, hm, fun g hg hgs =>
      hnone g hg ((key l₁ f l₂ hl g (List.mem_cons_of_mem _ hg)).mpr hgs)⟩
  · rintro ⟨l₁, f, l₂, hl, hf, hm, hnone⟩
    exact ⟨l₁, f, l₂, hl, (key l₁ f l₂ hl f List.mem_cons_self).mpr hf, hm, fun g hg hgs =>
      hnone g hg ((key l₁ f l₂ hl g (List.mem_cons_of_mem _ hg)).mp hgs)⟩

/-! ### What is lost -/

/-- Every item a succeeded extractor returned under a key is under the key in the dictionary of
`execute`, and the entry of the status block is the block. -/
def LossFree (xs : List BaseExtractor) (platform : String)
    (run : BaseExtractor → Outcome (List α)) : Prop :=
  let block := (new xs platform).scanStatus run
  let result := (new xs platform).execute run
  (∀ e ∈ xs, Compatible platform e → e.name ∈ block.extractorsSucceeded →
    ∀ k l, (returned run e).get? k = some l → ∀ a ∈ l,
      ∃ m, result.get? k = some (.artefact m) ∧ a ∈ m) ∧
  result.get? "scan_status" = some (.status block)

/-- No extractor that succeeds returns the key of the status block, and the last one to return a key
returns under it every item the earlier ones return. -/
def LastHoldsAll (xs : List BaseExtractor) (platform : String)
    (run : BaseExtractor → Outcome (List α)) : Prop :=
  let ok := fun e : BaseExtractor => Succeeds (compatible xs platform) run e.name
  (∀ e ∈ order (compatible xs platform), ok e → "scan_status" ∉ (returned run e).keys) ∧
  ∀ l₁ f l₂, order (compatible xs platform) = l₁ ++ f :: l₂ → ok f →
    ∀ k m, (returned run f).get? k = some m → (∀ g ∈ l₂, ok g → k ∉ (returned run g).keys) →
      ∀ e ∈ l₁, ok e → ∀ l, (returned run e).get? k = some l → l ⊆ m

theorem get?_execute_of_merged {k : String} {m : List α}
    (h : (final xs platform run).mergedResults.get? k = some m) :
    ((new xs platform).execute run).get? k = some (.artefact m) := by
  rw [get?_execute, h, Option.map_some, Option.some_or]

/-- An extractor whose name succeeded is in the order, if no two have one name. -/
theorem mem_order_of_succeeded (hn : (xs.map (·.name)).Nodup) {e : BaseExtractor} (hx : e ∈ xs)
    (hs : e.name ∈ (final xs platform run).succeeded) : e ∈ order (compatible xs platform) := by
  obtain ⟨f, hf, hfe, -⟩ := mem_succeeded_iff.mp hs
  obtain ⟨hfx, -⟩ := mem_compatible.mp (nameMap_eq_some (mem_order_iff.mp hf).1).1
  obtain rfl := List.inj_on_of_nodup_map hn hfx hx hfe
  exact hf

theorem LossFree.lastHoldsAll (hn : (xs.map (·.name)).Nodup) (h : LossFree xs platform run) :
    LastHoldsAll xs platform run := by
  have hok : ∀ e : BaseExtractor, e.name ∈ (final xs platform run).succeeded ↔
      Succeeds (compatible xs platform) run e.name := fun e => mem_succeeded_iff_of_nodup hn
  obtain ⟨hitems, hstatus⟩ := h
  constructor
  · intro e he hs hk
    have hnone : (final xs platform run).mergedResults.get? "scan_status" = none := by
      cases hm : (final xs platform run).mergedResults.get? "scan_status" with
      | none => rfl
      | some m =>
        rw [get?_execute_of_merged hm] at hstatus
        cases hstatus
    exact Dict.get?_eq_none_iff.mp (merged_eq_none_iff.mp hnone e he ((hok e).mpr hs)) hk
  · intro l₁ f l₂ hl hf k m hm hlast e he hs l hel a ha
    have hmerged : (final xs platform run).mergedResults.get? k = some m :=
      merged_eq_some_iff.mpr ⟨l₁, f, l₂, hl, (hok f).mpr hf, hm, fun g hg hgs =>
        Dict.get?_eq_none_iff.mpr (hlast g hg ((hok g).mp hgs))⟩
    have heo : e ∈ order (compatible xs platform) := by
      rw [hl]
      exact List.mem_append_left _ he
    obtain ⟨hx, hp⟩ := mem_compatible.mp (nameMap_eq_some (mem_order_iff.mp heo).1).1
    obtain ⟨m', hm', ham'⟩ := hitems e hx hp ((hok e).mpr hs) k l hel a ha
    rw [get?_execute_of_merged hmerged] at hm'
    obtain rfl : m = m' := by injection hm' with h; injection h
    exact ham'

theorem LastHoldsAll.lossFree (hn : (xs.map (·.name)).Nodup) (h : LastHoldsAll xs platform run) :
    LossFree xs platform run := by
  have hok : ∀ e : BaseExtractor, e.name ∈ (final xs platform run).succeeded ↔
      Succeeds (compatible xs platform) run e.name := fun e => mem_succeeded_iff_of_nodup hn
  obtain ⟨hkey, hlast⟩ := h
  constructor
  · intro e hx hp hs k l hel a ha
    have heo := mem_order_of_succeeded hn hx hs
    cases hm : (final xs platform run).mergedResults.get? k with
    | none =>
      rw [merged_eq_none_iff.mp hm e heo hs] at hel
      cases hel
    | some m =>
      refine ⟨m, get?_execute_of_merged hm, ?_⟩
      obtain ⟨l₁, f, l₂, hl, hf, hfm, hnone⟩ := merged_eq_some_iff.mp hm
      -- `f` is the last one that returned the key: `e` stands before it, is it, or stands behind it
      rw [hl] at heo
      rcases List.mem_append.mp heo with he | he
      · exact hlast l₁ f l₂ hl ((hok f).mp hf) k m hfm (fun g hg hgs =>
          Dict.get?_eq_none_iff.mp (hnone g hg ((hok g).mpr hgs))) e he ((hok e).mp hs) l hel ha
      · rcases List.mem_cons.mp he with rfl | he
        · rw [hel] at hfm
          obtain rfl := Option.some.inj hfm
          exact ha
        · rw [hnone e he hs] at hel
          cases hel
  · rw [get?_execute, merged_eq_none_iff.mpr]
    · rfl
    · intro e he hs
      exact Dict.get?_eq_none_iff.mpr (hkey e he ((hok e).mp hs))

/-- **When nothing is lost.** -/
theorem lossFree_iff (xs : List BaseExtractor) (platform : String)
    (run : BaseExtractor → Outcome (List α)) (hn : (xs.map (·.name)).Nodup) :
    LossFree xs platform run ↔ LastHoldsAll xs platform run :=
  ⟨fun h => h.lastHoldsAll hn, fun h => h.lossFree hn⟩

/-- The process and the module extractor of Linux. -/
def linuxCarvers : List BaseExtractor :=
  [⟨0, "linux/process", ["linux", "cisco_iosxe"], []⟩,
    ⟨1, "linux/modules", ["linux", "cisco_iosxe"], []⟩]

/-- Both return the anomalies they carved under one key. -/
def carve (e : BaseExtractor) : Outcome (List String) :=
  .returns (some (if e.name = "linux/process" then
    Dict.ofList [("processes", ["init"]), ("dkom_anomalies", ["hidden process"])]
  else Dict.ofList [("modules", ["ext4"]), ("dkom_anomalies", ["hidden module"])]))

/-- The anomalies of the process extractor are lost. -/
theorem not_lossFree_linuxCarvers :
    (linuxCarvers.map (·.name)).Nodup ∧ ¬ LossFree linuxCarvers "linux" carve := by
  refine ⟨by decide, ?_⟩
  rintro ⟨hitems, -⟩
  obtain ⟨m, hm, ha⟩ := hitems ⟨0, "linux/process", ["linux", "cisco_iosxe"], []⟩ (by decide)
    (by decide) (by decide) "dkom_anomalies" ["hidden process"] rfl "hidden process" (by decide)
  have hm' : ((new linuxCarvers "linux").execute carve).get? "dkom_anomalies" =
      some (.artefact ["hidden module"]) := rfl
  rw [hm'] at hm
  injection hm with h
  injection h with h
  rw [← h] at ha
  exact absurd ha (by decide)

/-- The process and the network extractor of Linux, each with keys of its own. -/
def walkers : List BaseExtractor :=
  [⟨0, "linux/network", ["linux", "cisco_iosxe"], ["linux/process"]⟩,
    ⟨1, "linux/process", ["linux", "cisco_iosxe"], []⟩]

/-- What they return. -/
def walk (e : BaseExtractor) : Outcome (List String) :=
  .returns (some (if e.name = "linux/process" then
    Dict.ofList [("processes", ["init"]), ("dkom_anomalies", ["hidden process"])]
  else Dict.ofList [("connections", ["tcp"])]))

theorem lossFree_iff_walkers : LossFree walkers "linux" walk := by
  refine (lossFree_iff walkers "linux" walk (by decide)).mpr ⟨fun e he _ => ?_, ?_⟩
  · have hkeys : ∀ e ∈ walkers, "scan_status" ∉ (returned walk e).keys := by decide
    exact hkeys e (List.mem_of_mem_filter (nameMap_eq_some (mem_order_iff.mp he).1).1)
  · intro l₁ f l₂ hl _ k m hm _ e he _ l hel
    have hord : order (compatible walkers "linux") = walkers.reverse := by decide
    obtain ⟨rfl, rfl⟩ : l₁ = [walkers[1]] ∧ f = walkers[0] := by
      rw [hord] at hl
      rcases l₁ with _ | ⟨x, _ | ⟨y, l₁⟩⟩
      · simp at he
      · simp only [walkers, List.reverse_cons, List.reverse_nil, List.nil_append,
          List.cons_append, List.cons.injEq] at hl
        exact ⟨by rw [← hl.1]; rfl, hl.2.1.symm⟩
      · simp [walkers] at hl
    rw [List.mem_singleton] at he
    subst he
    have hk : k ∈ (returned walk walkers[0]).keys := Dict.mem_keys_iff.mpr ⟨m, hm⟩
    have hk' : k ∈ (returned walk walkers[1]).keys := Dict.mem_keys_iff.mpr ⟨l, hel⟩
    have hdisj : ∀ k ∈ (returned walk walkers[0]).keys, k ∉ (returned walk walkers[1]).keys := by
      decide
    exact absurd hk' (hdisj k hk)

end VantaCore.Extractors.Merge
