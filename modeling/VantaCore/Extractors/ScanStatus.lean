import VantaCore.Extractors.Execute
import Mathlib.Order.Bounds.Basic

/-! # What the status block says

With distinct names, the names in the block as succeeded are the least set that holds every compatible
extractor whose dependencies are in it and whose run returns, and up to the order of its entries the
block does not depend on the order of the list (`saysRuns_scanStatus`, `mem_succeeded_perm`). Without
a dependency cycle, and if no extractor that a later one of its name shadows succeeds by that name,
whatever has not returned is in the block as failed or skipped (`reported_of_not_ret`). -/

namespace VantaCore.Extractors.ScanStatus

open VantaCore.Lib VantaCore.Lib.TopoOrder VantaCore.Extractors.Base
open VantaCore.Extractors.Base.ExtractorDAGExecutor VantaCore.Extractors.ResolveDag
open VantaCore.Extractors.Execute

/-- The compatible extractors of the list. -/
abbrev compatible (xs : List BaseExtractor) (platform : String) : List BaseExtractor :=
  xs.filter (Compatible platform)

variable {ν : Type} {xs : List BaseExtractor} {platform : String} {run : BaseExtractor → Outcome ν}

theorem mem_compatible {e : BaseExtractor} :
    e ∈ compatible xs platform ↔ e ∈ xs ∧ Compatible platform e := by
  rw [List.mem_filter, decide_eq_true_eq]

/-- The state in which the loop of `execute` ends. -/
abbrev final (xs : List BaseExtractor) (platform : String) (run : BaseExtractor → Outcome ν) :
    ExecState ν :=
  (new xs platform).runAll run

theorem runForm_final : RunForm run (order (compatible xs platform)) (final xs platform run) :=
  runForm_order run

theorem mem_names_filter {l : List BaseExtractor} {p : BaseExtractor → Prop} [DecidablePred p]
    {n : String} : n ∈ names (l.filter fun e => p e) ↔ ∃ e ∈ l, e.name = n ∧ p e := by
  simp only [names, List.mem_map, List.mem_filter, decide_eq_true_eq]
  constructor
  · rintro ⟨e, ⟨he, hp⟩, rfl⟩; exact ⟨e, he, rfl, hp⟩
  · rintro ⟨e, he, rfl, hp⟩; exact ⟨e, ⟨he, hp⟩, rfl⟩

theorem mem_succeeded_iff {n : String} : n ∈ (final xs platform run).succeeded ↔
    ∃ e ∈ order (compatible xs platform), e.name = n ∧
      Ready (final xs platform run).succeeded e ∧ (run e).Returns := by
  conv_lhs => rw [runForm_final.succeeded]
  exact mem_names_filter

theorem mem_failed_iff {n : String} : n ∈ (final xs platform run).failed ↔
    ∃ e ∈ order (compatible xs platform), e.name = n ∧
      Ready (final xs platform run).succeeded e ∧ ¬ (run e).Returns := by
  rw [runForm_final.failed]
  exact mem_names_filter

theorem mem_skipped_iff {n : String} : n ∈ (final xs platform run).skipped ↔
    ∃ e ∈ order (compatible xs platform), e.name = n ∧
      ¬ Ready (final xs platform run).succeeded e := by
  rw [runForm_final.skipped]
  exact mem_names_filter

/-! ### The calls -/

theorem mem_eventsOf_call {e f : BaseExtractor} : .call f ∈ eventsOf run e ↔ f = e := by
  unfold eventsOf
  split_ifs <;> simp

theorem mem_eventsOf_ret {e f : BaseExtractor} :
    .ret f ∈ eventsOf run e ↔ f = e ∧ (run e).Returns := by
  unfold eventsOf
  split_ifs with h <;> simp [h]

theorem call_mem_iff {e : BaseExtractor} : .call e ∈ (final xs platform run).trace ↔
    e ∈ order (compatible xs platform) ∧ Ready (final xs platform run).succeeded e := by
  rw [runForm_final.trace]
  simp [List.mem_flatMap, mem_eventsOf_call]

/-- The run of the extractor was called and returned. -/
theorem ret_mem_iff {e : BaseExtractor} : .ret e ∈ (final xs platform run).trace ↔
    e ∈ order (compatible xs platform) ∧ Ready (final xs platform run).succeeded e ∧
      (run e).Returns := by
  rw [runForm_final.trace]
  simp only [List.mem_flatMap, List.mem_filter, decide_eq_true_eq, mem_eventsOf_ret]
  constructor
  · rintro ⟨f, ⟨hf, hr⟩, rfl, ho⟩; exact ⟨hf, hr, ho⟩
  · rintro ⟨he, hr, ho⟩; exact ⟨e, ⟨he, hr⟩, rfl, ho⟩

/-- The extractors of the calls of a trace. -/
def callsOf (t : List Event) : List BaseExtractor :=
  t.filterMap fun
    | .call e => some e
    | _ => none

theorem callsOf_flatMap (l : List BaseExtractor) : callsOf (l.flatMap (eventsOf run)) = l := by
  induction l with
  | nil => rfl
  | cons e l ih =>
    rw [List.flatMap_cons, callsOf, List.filterMap_append]
    have : (eventsOf run e).filterMap (fun | .call e => some e | _ => none) = [e] := by
      unfold eventsOf
      split_ifs <;> rfl
    rw [this]
    exact congrArg _ ih

/-- **No extractor is called twice.** -/
theorem nodup_calls : (callsOf (final xs platform run).trace).Nodup := by
  rw [runForm_final.trace, callsOf_flatMap]
  have : (order (compatible xs platform)).Nodup := (nodup_names_order).of_map _
  exact this.filter _

/-! ### The succeeded names -/

/-- Every compatible extractor of the list whose dependencies are in `S` and whose run returns is in
`S`. -/
def ClosedUnderRuns (xs : List BaseExtractor) (platform : String)
    (run : BaseExtractor → Outcome ν) (S : Set String) : Prop :=
  ∀ e ∈ xs, Compatible platform e → (∀ d ∈ e.dependencies, d ∈ S) → (run e).Returns → e.name ∈ S

/-- What is in every set that is closed under the runs of the order has succeeded only if it is in
the set. -/
theorem succeeded_subset {S : Set String}
    (hS : ∀ e ∈ order (compatible xs platform), (∀ d ∈ e.dependencies, d ∈ S) →
      (run e).Returns → e.name ∈ S) :
    ∀ n ∈ (final xs platform run).succeeded, n ∈ S := by
  let P : List BaseExtractor → ExecState ν → Prop := fun _ s =>
    (∀ n, n ∈ s.succeededSet ↔ n ∈ s.succeeded) ∧ ∀ n ∈ s.succeeded, n ∈ S
  have hP : P (order (compatible xs platform)) (final xs platform run) := by
    refine runAll_induction run (P := P) (order (compatible xs platform))
      ⟨by simp [execInit], by simp [execInit]⟩ ?_
    rintro l₁ e l₂ hl s ⟨hset, hsub⟩
    rcases execStep_cases run s e hset with ⟨hr, hs⟩ | ⟨hr, ho, hs⟩ | ⟨hr, ho, hs⟩
    · rw [hs]; exact ⟨hset, hsub⟩
    · rw [hs]
      refine ⟨by intro n; simp [hset, or_comm], fun n hn => ?_⟩
      rcases List.mem_append.mp hn with hn | hn
      · exact hsub n hn
      · rw [List.mem_singleton.mp hn]
        exact hS e (by rw [hl]; simp) (fun d hd => hsub d (hr d hd)) ho
    · rw [hs]; exact ⟨hset, hsub⟩
  exact hP.2

/-- A succeeded name reaches no dependency cycle. -/
theorem not_reachesCycle_of_succeeded {n : String} (h : n ∈ (final xs platform run).succeeded) :
    ¬ ReachesCycle (DependsOn (compatible xs platform)) n := by
  obtain ⟨e, he, rfl, -⟩ := mem_succeeded_iff.mp h
  exact (mem_order_iff.mp he).2

/-- With distinct names, an extractor whose dependencies have succeeded is in the order: a cycle it
reached would be reached from a dependency. -/
theorem mem_order_of_ready (hn : (names xs).Nodup) {e : BaseExtractor}
    (he : e ∈ compatible xs platform) (hr : Ready (final xs platform run).succeeded e) :
    e ∈ order (compatible xs platform) := by
  have hnc : (names (compatible xs platform)).Nodup :=
    hn.sublist (List.filter_sublist.map _)
  refine mem_order_iff.mpr ⟨nameMap_of_nodup hnc he, fun hc => ?_⟩
  obtain ⟨d, hed, hd⟩ := hc.exists_step
  obtain ⟨-, f, hf, hfe, hdf⟩ := dependsOn_iff.mp hed
  obtain rfl : f = e := List.inj_on_of_nodup_map hnc hf he hfe
  exact not_reachesCycle_of_succeeded (hr d hdf) hd

/-- **The succeeded names are the least set closed under the runs.** -/
theorem isLeast_succeeded (hn : (names xs).Nodup) :
    IsLeast {S | ClosedUnderRuns xs platform run S}
      {n | n ∈ (final xs platform run).succeeded} := by
  constructor
  · intro e he hp hd ho
    exact mem_succeeded_iff.mpr
      ⟨e, mem_order_of_ready hn (mem_compatible.mpr ⟨he, hp⟩) hd, rfl, hd, ho⟩
  · intro S hS n hn'
    refine succeeded_subset (fun e he hd ho => ?_) n hn'
    have hec := mem_compatible.mp (nameMap_eq_some (mem_order_iff.mp he).1).1
    exact hS e hec.1 hec.2 hd ho

theorem mem_failed_iff_of_nodup (hn : (names xs).Nodup) {n : String} :
    n ∈ (final xs platform run).failed ↔ ∃ e ∈ xs, Compatible platform e ∧ e.name = n ∧
      (∀ d ∈ e.dependencies, d ∈ (final xs platform run).succeeded) ∧ run e = .raises := by
  have hraises : ∀ e, ¬ (run e).Returns ↔ run e = .raises := by
    intro e
    cases h : run e with
    | returns res => simp [Outcome.Returns]
    | raises => simp [Outcome.Returns]
  rw [mem_failed_iff]
  constructor
  · rintro ⟨e, he, rfl, hr, ho⟩
    have hec := mem_compatible.mp (nameMap_eq_some (mem_order_iff.mp he).1).1
    exact ⟨e, hec.1, hec.2, rfl, hr, (hraises e).mp ho⟩
  · rintro ⟨e, he, hp, rfl, hr, ho⟩
    exact ⟨e, mem_order_of_ready hn (mem_compatible.mpr ⟨he, hp⟩) hr, rfl, hr, (hraises e).mpr ho⟩

theorem nodup_succeeded : (final xs platform run).succeeded.Nodup := by
  rw [runForm_final.succeeded]
  exact nodup_names_order.sublist (List.filter_sublist.map _)

theorem nodup_failed : (final xs platform run).failed.Nodup := by
  rw [runForm_final.failed]
  exact nodup_names_order.sublist (List.filter_sublist.map _)

/-! ### The order of the list -/

theorem closedUnderRuns_perm {ys : List BaseExtractor} (h : ys.Perm xs) {S : Set String} :
    ClosedUnderRuns ys platform run S ↔ ClosedUnderRuns xs platform run S :=
  forall_congr' fun _ => by rw [h.mem_iff]

/-- **The order of the list** does not change what succeeds. -/
theorem mem_succeeded_perm (hn : (names xs).Nodup) {ys : List BaseExtractor} (h : ys.Perm xs)
    (n : String) :
    n ∈ (final ys platform run).succeeded ↔ n ∈ (final xs platform run).succeeded := by
  have hny : (names ys).Nodup := (h.map _).nodup_iff.mpr hn
  have hys : IsLeast {S | ClosedUnderRuns ys platform run S}
      {n | n ∈ (final ys platform run).succeeded} := isLeast_succeeded hny
  simp only [closedUnderRuns_perm h] at hys
  exact Set.ext_iff.mp (hys.unique (isLeast_succeeded hn)) n

theorem mem_failed_perm (hn : (names xs).Nodup) {ys : List BaseExtractor} (h : ys.Perm xs)
    (n : String) : n ∈ (final ys platform run).failed ↔ n ∈ (final xs platform run).failed := by
  have hny : (names ys).Nodup := (h.map _).nodup_iff.mpr hn
  simp only [mem_failed_iff_of_nodup hny, mem_failed_iff_of_nodup hn, h.mem_iff,
    mem_succeeded_perm hn h]

/-! ### The status block -/

/-- What a status block and a trace must say of the runs: what has succeeded is the least set closed
under them, an extractor is called at most once, with its dependencies succeeded and after they have
returned, and what has failed raised with its dependencies succeeded. -/
structure SaysRuns (xs : List BaseExtractor) (platform : String) (run : BaseExtractor → Outcome ν)
    (block : ScanStatus) (trace : List Event) : Prop where
  least : IsLeast {S | ClosedUnderRuns xs platform run S} {n | n ∈ block.extractorsSucceeded}
  nodup_succeeded : block.extractorsSucceeded.Nodup
  nodup_calls : (callsOf trace).Nodup
  ready : ∀ e, .call e ∈ trace → e ∈ xs ∧ Compatible platform e ∧
    ∀ d ∈ e.dependencies, d ∈ block.extractorsSucceeded
  after : CalledAfter trace
  failed : ∀ n, n ∈ block.extractorsFailed ↔ ∃ e ∈ xs, Compatible platform e ∧ e.name = n ∧
    (∀ d ∈ e.dependencies, d ∈ block.extractorsSucceeded) ∧ run e = .raises
  nodup_failed : block.extractorsFailed.Nodup

/-- **The block `execute` computes**, for distinct names. -/
theorem saysRuns_scanStatus (hn : (names xs).Nodup) : SaysRuns xs platform run
    ((new xs platform).scanStatus run) (final xs platform run).trace where
  least := isLeast_succeeded hn
  nodup_succeeded := nodup_succeeded
  nodup_calls := nodup_calls
  ready e he := by
    obtain ⟨heo, hr⟩ := call_mem_iff.mp he
    obtain ⟨hx, hc⟩ := mem_compatible.mp (nameMap_eq_some (mem_order_iff.mp heo).1).1
    exact ⟨hx, hc, hr⟩
  after := calledAfter_order run
  failed _ := mem_failed_iff_of_nodup hn
  nodup_failed := nodup_failed

/-! ### What the block accounts for -/

/-- An extractor of this name is the last one of the name, its dependencies succeed and its run
returns. -/
inductive Succeeds (xs : List BaseExtractor) (run : BaseExtractor → Outcome ν) : String → Prop
  | intro (e : BaseExtractor) (last : (nameMap xs).get? e.name = some e)
      (deps : ∀ d ∈ e.dependencies, Succeeds xs run d) (ret : (run e).Returns) :
      Succeeds xs run e.name

theorem mem_succeeded_iff_succeeds
    (hord : ∀ e, (nameMap (compatible xs platform)).get? e.name = some e →
      Ready (final xs platform run).succeeded e → e ∈ order (compatible xs platform))
    {n : String} :
    n ∈ (final xs platform run).succeeded ↔ Succeeds (compatible xs platform) run n := by
  constructor
  · intro h
    refine succeeded_subset (S := {n | Succeeds (compatible xs platform) run n}) ?_ n h
    intro e he hd ho
    exact .intro e (mem_order_iff.mp he).1 hd ho
  · intro h
    induction h with
    | intro e last deps ret ih =>
      exact mem_succeeded_iff.mpr ⟨e, hord e last ih, rfl, ih, ret⟩

theorem mem_succeeded_iff_of_acyclic
    (hc : ∀ e ∈ compatible xs platform, ¬ ReachesCycle (DependsOn (compatible xs platform)) e.name)
    {n : String} :
    n ∈ (final xs platform run).succeeded ↔ Succeeds (compatible xs platform) run n :=
  mem_succeeded_iff_succeeds fun e last _ =>
    mem_order_iff.mpr ⟨last, hc e (nameMap_eq_some last).1⟩

theorem mem_succeeded_iff_of_nodup (hn : (names xs).Nodup) {n : String} :
    n ∈ (final xs platform run).succeeded ↔ Succeeds (compatible xs platform) run n :=
  mem_succeeded_iff_succeeds fun _ last hr => mem_order_of_ready hn (nameMap_eq_some last).1 hr

theorem not_mem_failed_or_skipped_of_succeeded {n : String}
    (h : n ∈ (final xs platform run).succeeded) :
    ¬ (n ∈ (final xs platform run).failed ∨ n ∈ (final xs platform run).skipped) := by
  obtain ⟨e, he, rfl, hr, ho⟩ := mem_succeeded_iff.mp h
  have hinj : ∀ f ∈ order (compatible xs platform), f.name = e.name → f = e := fun f hf hfe =>
    List.inj_on_of_nodup_map nodup_names_order hf he hfe
  rintro (hf | hs)
  · obtain ⟨f, hf, hfe, -, hno⟩ := mem_failed_iff.mp hf
    obtain rfl := hinj f hf hfe
    exact hno ho
  · obtain ⟨f, hf, hfe, hnr⟩ := mem_skipped_iff.mp hs
    obtain rfl := hinj f hf hfe
    exact hnr hr

theorem mem_failed_or_skipped {e : BaseExtractor} (he : e ∈ order (compatible xs platform))
    (h : e.name ∉ (final xs platform run).succeeded) :
    e.name ∈ (final xs platform run).failed ∨ e.name ∈ (final xs platform run).skipped := by
  by_cases hr : Ready (final xs platform run).succeeded e
  · refine Or.inl (mem_failed_iff.mpr ⟨e, he, rfl, hr, fun ho => h ?_⟩)
    exact mem_succeeded_iff.mpr ⟨e, he, rfl, hr, ho⟩
  · exact Or.inr (mem_skipped_iff.mpr ⟨e, he, rfl, hr⟩)

theorem overall_eq_complete_iff : ((new xs platform).scanStatus run).overall = "COMPLETE" ↔
    (final xs platform run).failed = [] ∧ (final xs platform run).skipped = [] := by
  rw [scanStatus]
  dsimp only
  split_ifs with h
  · exact ⟨fun _ => h, fun _ => rfl⟩
  · exact ⟨fun h' => absurd h' (by decide), fun h' => absurd h' h⟩

theorem overall_of_failed_or_skipped {n : String}
    (h : n ∈ (final xs platform run).failed ∨ n ∈ (final xs platform run).skipped) :
    ((new xs platform).scanStatus run).overall = "PARTIAL" := by
  rw [scanStatus]
  refine if_neg ?_
  rintro ⟨hf, hs⟩
  rw [hf, hs] at h
  simp at h

/-- A compatible extractor without a cycle, of whose name the last one succeeds only if it is that
one, has returned or is reported. -/
theorem reported_of_not_ret
    (hcycle : ∀ e ∈ compatible xs platform,
      ¬ ReachesCycle (DependsOn (compatible xs platform)) e.name)
    (hlast : ∀ e ∈ compatible xs platform,
      (nameMap (compatible xs platform)).get? e.name ≠ some e →
        ¬ Succeeds (compatible xs platform) run e.name)
    {e : BaseExtractor} (he : e ∈ compatible xs platform)
    (hret : .ret e ∉ (final xs platform run).trace) :
    e.name ∈ (final xs platform run).failed ∨ e.name ∈ (final xs platform run).skipped := by
  obtain ⟨f, hf⟩ := exists_nameMap (List.mem_map_of_mem he : e.name ∈ names _)
  obtain ⟨hfx, hfe⟩ := nameMap_eq_some hf
  have hfo : f ∈ order (compatible xs platform) :=
    mem_order_iff.mpr ⟨by rw [hfe]; exact hf, hcycle f hfx⟩
  rw [← hfe]
  refine mem_failed_or_skipped hfo fun hs => ?_
  by_cases hef : f = e
  · subst hef
    obtain ⟨g, hg, hge, hr, ho⟩ := mem_succeeded_iff.mp hs
    obtain rfl := List.inj_on_of_nodup_map nodup_names_order hg hfo hge
    exact hret (ret_mem_iff.mpr ⟨hg, hr, ho⟩)
  · refine hlast e he (by rw [hf]; simpa using hef) ?_
    rw [← hfe]
    exact (mem_succeeded_iff_of_acyclic hcycle).mp hs

/-- Nothing is reported if every compatible extractor has returned. -/
theorem not_reported_of_ret
    (hall : ∀ e ∈ xs, Compatible platform e → .ret e ∈ (final xs platform run).trace) :
    (final xs platform run).failed = [] ∧ (final xs platform run).skipped = [] := by
  have hret : ∀ e ∈ order (compatible xs platform), .ret e ∈ (final xs platform run).trace := by
    intro e he
    obtain ⟨hx, hp⟩ := mem_compatible.mp (nameMap_eq_some (mem_order_iff.mp he).1).1
    exact hall e hx hp
  constructor <;> rw [List.eq_nil_iff_forall_not_mem] <;> intro n hn
  · obtain ⟨e, he, -, -, ho⟩ := mem_failed_iff.mp hn
    exact ho (ret_mem_iff.mp (hret e he)).2.2
  · obtain ⟨e, he, -, hr⟩ := mem_skipped_iff.mp hn
    exact hr (ret_mem_iff.mp (hret e he)).2.1

end VantaCore.Extractors.ScanStatus
