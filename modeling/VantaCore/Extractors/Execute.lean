import VantaCore.Extractors.ResolveDag

/-! # The run of the extractors

The loop of `execute` along an order with dependencies first. At every point of the run what has
succeeded, failed and been skipped is decided by the names that have succeeded so far (`RunForm`),
since no extractor names one that stands at or behind it. An extractor is called at most once, and
after the runs of its dependencies have returned (`CalledAfter`). -/

namespace VantaCore.Extractors.Execute

open VantaCore.Lib VantaCore.Lib.TopoOrder VantaCore.Extractors.Base
open VantaCore.Extractors.Base.ExtractorDAGExecutor VantaCore.Extractors.ResolveDag

variable {xs : List BaseExtractor}

/-! ### The execution order -/

theorem nameMap_eq_some {n : String} {e : BaseExtractor} (h : (nameMap xs).get? n = some e) :
    e ∈ xs ∧ e.name = n := by
  rw [nameMap, Dict.get?_ofList, Option.map_eq_some_iff] at h
  obtain ⟨p, hp, rfl⟩ := h
  obtain ⟨e, he, rfl⟩ := List.mem_map.mp (List.mem_reverse.mp (List.mem_of_find?_eq_some hp))
  exact ⟨he, by simpa using List.find?_some hp⟩

theorem exists_nameMap {n : String} (h : n ∈ names xs) : ∃ e, (nameMap xs).get? n = some e := by
  rw [← Dict.mem_keys_iff, nameMap, Dict.mem_keys_ofList, List.map_map]
  exact h

theorem nameMap_of_nodup (hn : (names xs).Nodup) {e : BaseExtractor} (he : e ∈ xs) :
    (nameMap xs).get? e.name = some e := by
  obtain ⟨f, hf⟩ := exists_nameMap (List.mem_map_of_mem he : e.name ∈ names xs)
  obtain ⟨hfx, hname⟩ := nameMap_eq_some hf
  rw [hf, List.inj_on_of_nodup_map hn hfx he hname]

/-- The execution order of `_resolve_dag`. -/
abbrev order (xs : List BaseExtractor) : List BaseExtractor := (resolveDag xs).1

theorem mem_order_iff {e : BaseExtractor} : e ∈ order xs ↔
    (nameMap xs).get? e.name = some e ∧ ¬ ReachesCycle (DependsOn xs) e.name := by
  rw [order, resolveDag, List.mem_filterMap]
  constructor
  · rintro ⟨n, hn, h⟩
    obtain ⟨-, rfl⟩ := nameMap_eq_some h
    exact ⟨h, (mem_sortedNames_iff.mp hn).2⟩
  · rintro ⟨h, hc⟩
    obtain ⟨he, -⟩ := nameMap_eq_some h
    exact ⟨e.name, mem_sortedNames_iff.mpr ⟨List.mem_map_of_mem he, hc⟩, h⟩

theorem names_order : names (order xs) = (kahn xs).sortedNames := by
  have key : ∀ ns : List String, (∀ n ∈ ns, n ∈ names xs) →
      names (ns.filterMap (nameMap xs).get?) = ns := by
    intro ns
    induction ns with
    | nil => intro _; rfl
    | cons n ns ih =>
      intro h
      obtain ⟨e, he⟩ := exists_nameMap (h n List.mem_cons_self)
      rw [List.filterMap_cons, he, names, List.map_cons, (nameMap_eq_some he).2]
      exact congrArg _ (ih fun m hm => h m (List.mem_cons_of_mem _ hm))
  exact key _ fun n hn => sortedNames_subset hn

theorem nodup_names_order : (names (order xs)).Nodup := by
  rw [names_order]; exact nodup_sortedNames

/-- **Dependencies first**, in terms of the extractors. -/
theorem deps_before {l₁ l₂ : List BaseExtractor} {e : BaseExtractor}
    (h : order xs = l₁ ++ e :: l₂) {d : String} (hd : d ∈ e.dependencies)
    (hdo : d ∈ names (order xs)) : d ∈ names l₁ := by
  have hsorted : (kahn xs).sortedNames = names l₁ ++ e.name :: names l₂ := by
    rw [← names_order, h, names, List.map_append, List.map_cons]; rfl
  have he : e ∈ xs := (nameMap_eq_some (mem_order_iff.mp (show e ∈ order xs by rw [h]; simp)).1).1
  refine closed_sortedNames _ _ _ hsorted d (dependsOn_iff.mpr ⟨?_, e, he, rfl, hd⟩)
  rw [names_order] at hdo
  exact sortedNames_subset hdo

/-- No extractor of the order names one that stands at or behind it. -/
theorem not_dep_of_order {l₁ l₂ : List BaseExtractor} {e : BaseExtractor}
    (h : order xs = l₁ ++ e :: l₂) : ∀ f ∈ l₁ ++ [e], e.name ∉ f.dependencies := by
  have hn : (names l₁ ++ e.name :: names l₂).Nodup := by
    have : (names (order xs)).Nodup := nodup_names_order
    rwa [h, names, List.map_append, List.map_cons] at this
  have heo : e.name ∈ names (order xs) := List.mem_map_of_mem (by rw [h]; simp)
  have hel : e.name ∉ names l₁ := fun hm =>
    (List.nodup_append.mp hn).2.2 e.name hm e.name List.mem_cons_self rfl
  intro f hf hd
  rcases List.mem_append.mp hf with hf | hf
  · obtain ⟨m₁, m₂, rfl⟩ := List.append_of_mem hf
    have h' : order xs = m₁ ++ f :: (m₂ ++ e :: l₂) := by rw [h]; simp
    have := deps_before h' hd heo
    exact hel (by rw [names, List.map_append]; exact List.mem_append_left _ this)
  · rw [List.mem_singleton.mp hf] at hd
    exact hel (deps_before h hd heo)

/-- What an order and the names beside it must be for a list of extractors with distinct names. -/
structure Resolved (xs order : List BaseExtractor) (disabled : List String) : Prop where
  mem_order : ∀ e, e ∈ order ↔ e ∈ xs ∧ ¬ ReachesCycle (DependsOn xs) e.name
  nodup_order : (names order).Nodup
  deps_first : ∀ l₁ e l₂, order = l₁ ++ e :: l₂ →
    ∀ d ∈ e.dependencies, d ∈ names xs → d ∈ names l₁
  mem_disabled : ∀ n, n ∈ disabled ↔ n ∈ names xs ∧ n ∉ names order
  nodup_disabled : disabled.Nodup

theorem mem_order_of_nodup (hn : (names xs).Nodup) {e : BaseExtractor} :
    e ∈ order xs ↔ e ∈ xs ∧ ¬ ReachesCycle (DependsOn xs) e.name := by
  rw [mem_order_iff]
  refine and_congr_left fun _ => ?_
  exact ⟨fun h => (nameMap_eq_some h).1, nameMap_of_nodup hn⟩

/-- With as many names sorted as there are extractors, none is left over. -/
theorem leftover_eq_nil (h : ¬ (kahn xs).sortedNames.length < xs.length) :
    xs.filter (fun e => e.name ∉ (kahn xs).sortedNames) = [] := by
  have hsub : (kahn xs).sortedNames.Subperm (names xs) :=
    List.subperm_of_subset nodup_sortedNames fun _ => sortedNames_subset
  have hlen : (names xs).length ≤ (kahn xs).sortedNames.length := by
    rw [names, List.length_map]; omega
  have hperm := hsub.perm_of_length_le hlen
  rw [List.filter_eq_nil_iff]
  intro e he
  have hs : e.name ∈ (kahn xs).sortedNames := hperm.mem_iff.mpr (List.mem_map_of_mem he)
  simpa using hs

theorem disabled_eq (xs : List BaseExtractor) :
    (resolveDag xs).2 = names (xs.filter fun e => e.name ∉ names (order xs)) := by
  rw [names_order]
  unfold resolveDag
  by_cases h : (kahn xs).sortedNames.length < xs.length
  · exact if_pos h
  · rw [leftover_eq_nil h]
    exact if_neg h

theorem resolved_order (hn : (names xs).Nodup) : Resolved xs (order xs) (resolveDag xs).2 where
  mem_order _ := mem_order_of_nodup hn
  nodup_order := nodup_names_order
  deps_first l₁ e l₂ h d hd hdx := by
    -- an extractor of the order reaches no cycle, so neither does what it depends on
    have he := (mem_order_of_nodup hn).mp (show e ∈ order xs by rw [h]; simp)
    have hdep : DependsOn xs e.name d := dependsOn_iff.mpr ⟨hdx, e, he.1, rfl, hd⟩
    have hes : e.name ∈ (kahn xs).sortedNames := mem_sortedNames_iff.mpr ⟨hdep.left, he.2⟩
    have hds : d ∈ (kahn xs).sortedNames := closed_sortedNames.mem_of_step hes hdep
    exact deps_before h hd (by rw [names_order]; exact hds)
  mem_disabled n := by
    rw [disabled_eq, names, List.mem_map]
    constructor
    · rintro ⟨e, he, rfl⟩
      obtain ⟨hex, hno⟩ := List.mem_filter.mp he
      exact ⟨List.mem_map_of_mem hex, by simpa using hno⟩
    · rintro ⟨hx, hno⟩
      obtain ⟨e, he, rfl⟩ := List.mem_map.mp hx
      exact ⟨e, List.mem_filter.mpr ⟨he, by simpa using hno⟩, rfl⟩
  nodup_disabled := by
    rw [disabled_eq]
    exact hn.sublist (List.filter_sublist.map _)

/-- **What `_resolve_dag` computes.** Its loop ends, and more rounds change nothing; it sorts the
compatible extractors that reach no dependency cycle, dependencies first, and disables the rest. -/
theorem resolved_new (extractors : List BaseExtractor) (platformName : String)
    (hn : (names extractors).Nodup) :
    let compatible := extractors.filter (Compatible platformName)
    let x := new extractors platformName
    (kahn compatible).queue = [] ∧
    (∀ rounds, compatible.length ≤ rounds →
      kahnLoop (buildTables compatible).dependents rounds (kahnInit (buildTables compatible)) =
        kahn compatible) ∧
    Resolved compatible x.executionOrder x.disabled := by
  intro compatible x
  have hnc : (names compatible).Nodup := hn.sublist (List.filter_sublist.map _)
  exact ⟨queue_kahn, fun _ => kahnLoop_eq_kahn, resolved_order hnc⟩

/-- Of four extractors the last names itself and the third is above it: both are disabled. -/
theorem resolved_new_sample :
    let xs : List BaseExtractor :=
      [⟨1, "b", ["*"], ["a", "a", "absent"]⟩, ⟨2, "a", ["linux"], []⟩, ⟨3, "c", ["*"], ["d"]⟩,
        ⟨4, "d", ["*"], ["d"]⟩]
    (new xs "linux").disabled = ["c", "d"] ∧
      Resolved (xs.filter (Compatible "linux")) (new xs "linux").executionOrder
        (new xs "linux").disabled :=
  ⟨by decide +kernel, (resolved_new _ "linux" (by decide)).2.2⟩

/-! ### The loop -/

section Loop

variable {ν : Type} (run : BaseExtractor → Outcome ν)

/-- All dependencies are among the names. -/
def Ready (S : List String) (e : BaseExtractor) : Prop := ∀ d ∈ e.dependencies, d ∈ S

instance (S : List String) (e : BaseExtractor) : Decidable (Ready S e) :=
  inferInstanceAs (Decidable (∀ d ∈ e.dependencies, d ∈ S))

instance (o : Outcome ν) : Decidable o.Returns :=
  match o with
  | .returns res => isTrue ⟨res, rfl⟩
  | .raises => isFalse fun ⟨_, h⟩ => by cases h

/-- What a call of `run` leaves in the trace. -/
def eventsOf (e : BaseExtractor) : List Event :=
  [.call e, if (run e).Returns then .ret e else .raise e]

/-- What a call of `run` adds to the merged results. -/
def mergeInto (d : Dict String ν) (e : BaseExtractor) : Dict String ν :=
  match run e with
  | .returns (some res) => d.update res
  | _ => d

/-- **A step of the loop**: skipped, returned or raised. -/
theorem execStep_cases (s : ExecState ν) (e : BaseExtractor)
    (hset : ∀ n, n ∈ s.succeededSet ↔ n ∈ s.succeeded) :
    (¬ Ready s.succeeded e ∧ execStep run s e = { s with skipped := s.skipped ++ [e.name] }) ∨
    (Ready s.succeeded e ∧ (run e).Returns ∧ execStep run s e =
      { s with
        mergedResults := mergeInto run s.mergedResults e
        succeeded := s.succeeded ++ [e.name]
        succeededSet := insert e.name s.succeededSet
        trace := s.trace ++ eventsOf run e }) ∨
    (Ready s.succeeded e ∧ ¬ (run e).Returns ∧ execStep run s e =
      { s with
        failed := s.failed ++ [e.name]
        trace := s.trace ++ eventsOf run e }) := by
  unfold execStep
  cases hf : e.dependencies.find? (· ∉ s.succeededSet) with
  | some d =>
    refine Or.inl ⟨fun hr => ?_, rfl⟩
    have := List.find?_some hf
    rw [decide_eq_true_eq, hset] at this
    exact this (hr d (List.mem_of_find?_eq_some hf))
  | none =>
    have hr : Ready s.succeeded e := by
      intro d hd
      have := List.find?_eq_none.mp hf d hd
      rwa [decide_eq_true_eq, not_not, hset] at this
    cases ho : run e with
    | returns res =>
      refine Or.inr (Or.inl ⟨hr, ⟨res, rfl⟩, ?_⟩)
      have : (run e).Returns := ⟨res, ho⟩
      rw [eventsOf, if_pos this, mergeInto, ho]
      cases res <;> rfl
    | raises =>
      have hn : ¬ (run e).Returns := by rw [ho]; rintro ⟨_, h⟩; cases h
      refine Or.inr (Or.inr ⟨hr, by rw [ho] at hn; exact hn, ?_⟩)
      rw [eventsOf, if_neg hn]

/-- **Induction along the run**: a property of the extractors done and the state. -/
theorem runAll_induction {P : List BaseExtractor → ExecState ν → Prop} (ord : List BaseExtractor)
    (h0 : P [] (execInit ν))
    (hstep : ∀ l₁ e l₂, ord = l₁ ++ e :: l₂ → ∀ s, P l₁ s → P (l₁ ++ [e]) (execStep run s e)) :
    P ord (ord.foldl (execStep run) (execInit ν)) := by
  have key : ∀ l₁ l₂, ord = l₁ ++ l₂ → P l₁ (l₁.foldl (execStep run) (execInit ν)) := by
    intro l₁
    induction l₁ using List.reverseRecOn with
    | nil => intro _ _; exact h0
    | append_singleton l₁ e ih =>
      intro l₂ h
      rw [List.append_assoc] at h
      rw [List.foldl_append]
      exact hstep l₁ e l₂ h _ (ih _ h)
  exact key ord [] (List.append_nil ord).symm

/-- **The state after the extractors `done`**, by the names that have succeeded. -/
structure RunForm (done : List BaseExtractor) (s : ExecState ν) : Prop where
  set : ∀ n, n ∈ s.succeededSet ↔ n ∈ s.succeeded
  succeeded : s.succeeded = names (done.filter fun e => Ready s.succeeded e ∧ (run e).Returns)
  failed : s.failed = names (done.filter fun e => Ready s.succeeded e ∧ ¬ (run e).Returns)
  skipped : s.skipped = names (done.filter fun e => ¬ Ready s.succeeded e)
  trace : s.trace = (done.filter fun e => Ready s.succeeded e).flatMap (eventsOf run)
  merged : s.mergedResults =
    (done.filter fun e => Ready s.succeeded e ∧ (run e).Returns).foldl (mergeInto run) Dict.empty

theorem ready_snoc {S : List String} {n : String} {e : BaseExtractor} (h : n ∉ e.dependencies) :
    Ready (S ++ [n]) e ↔ Ready S e := by
  refine forall₂_congr fun d hd => ?_
  rw [List.mem_append, List.mem_singleton, or_iff_left]
  rintro rfl
  exact h hd

theorem runForm_init : RunForm run [] (execInit ν) := by
  constructor <;> simp [execInit, names]

/-- Among extractors that do not name `n`, the success of `n` changes nothing. -/
theorem filter_ready_snoc {S : List String} {n : String} {done : List BaseExtractor}
    (h : ∀ f ∈ done, n ∉ f.dependencies) (p : BaseExtractor → Prop) [DecidablePred p] :
    (done.filter fun f => Ready (S ++ [n]) f ∧ p f) = done.filter fun f => Ready S f ∧ p f :=
  List.filter_congr fun f hf => by simp only [ready_snoc (h f hf)]

theorem RunForm.step {done : List BaseExtractor} {s : ExecState ν} {e : BaseExtractor}
    (h : RunForm run done s) (he : ∀ f ∈ done ++ [e], e.name ∉ f.dependencies) :
    RunForm run (done ++ [e]) (execStep run s e) := by
  rcases execStep_cases run s e h.set with ⟨hr, hs⟩ | ⟨hr, ho, hs⟩ | ⟨hr, ho, hs⟩
  · rw [hs]
    constructor
    · exact h.set
    · simpa [List.filter_append, hr] using h.succeeded
    · simpa [List.filter_append, hr] using h.failed
    · simpa [List.filter_append, hr, names] using h.skipped
    · simpa [List.filter_append, hr] using h.trace
    · simpa [List.filter_append, hr] using h.merged
  · have hd : ∀ f ∈ done, e.name ∉ f.dependencies := fun f hf => he f (List.mem_append_left _ hf)
    have hre : Ready (s.succeeded ++ [e.name]) e := (ready_snoc (he e (by simp))).mpr hr
    have hyes : (done.filter fun f => Ready (s.succeeded ++ [e.name]) f) =
        done.filter fun f => Ready s.succeeded f :=
      List.filter_congr fun f hf => by simp only [ready_snoc (hd f hf)]
    have hno : (done.filter fun f => ¬ Ready (s.succeeded ++ [e.name]) f) =
        done.filter fun f => ¬ Ready s.succeeded f :=
      List.filter_congr fun f hf => by simp only [ready_snoc (hd f hf)]
    rw [hs]
    constructor
    · intro n
      simp [h.set, or_comm]
    · simp only [List.filter_append, filter_ready_snoc hd]
      simpa [hre, ho, names] using h.succeeded
    · simp only [List.filter_append, filter_ready_snoc hd]
      simpa [hre, ho] using h.failed
    · simp only [List.filter_append, hno]
      simpa [hre] using h.skipped
    · simp only [List.filter_append, hyes]
      rw [h.trace]
      simp [hre]
    · simp only [List.filter_append, filter_ready_snoc hd]
      rw [h.merged]
      simp [hre, ho]
  · rw [hs]
    constructor
    · exact h.set
    · simpa [List.filter_append, hr, ho] using h.succeeded
    · simpa [List.filter_append, hr, ho, names] using h.failed
    · simpa [List.filter_append, hr] using h.skipped
    · simpa [List.filter_append, hr] using h.trace
    · simpa [List.filter_append, hr, ho] using h.merged

/-- **The state in which the loop ends.** -/
theorem runForm_order : RunForm run (order xs) ((order xs).foldl (execStep run) (execInit ν)) :=
  runAll_induction run (order xs) (runForm_init run) fun _ _ _ h _ hs =>
    hs.step run (not_dep_of_order h)

/-! ### The calls -/

/-- In the trace, a call comes after the runs of the dependencies of its extractor have returned. -/
def CalledAfter (t : List Event) : Prop :=
  ∀ p e q, t = p ++ .call e :: q → ∀ d ∈ e.dependencies, ∃ f, f.name = d ∧ .ret f ∈ p

theorem CalledAfter.append {t : List Event} (h : CalledAfter t) {e : BaseExtractor}
    (he : ∀ d ∈ e.dependencies, ∃ f, f.name = d ∧ .ret f ∈ t) :
    CalledAfter (t ++ eventsOf run e) := by
  intro p f q hp
  rcases List.append_eq_append_iff.mp hp with ⟨m, rfl, hm⟩ | ⟨m, rfl, hm⟩
  · rcases m with _ | ⟨x, m⟩
    · obtain rfl : e = f := by simpa [eventsOf] using (List.cons.inj hm).1
      rwa [List.append_nil]
    · have hm' := (List.cons.inj hm).2
      rcases m with _ | ⟨y, m⟩
      · have := (List.cons.inj hm').1
        split_ifs at this
      · have := (List.cons.inj hm').2
        simp at this
  · rcases m with _ | ⟨x, m⟩
    · obtain rfl : f = e := by simpa [eventsOf] using (List.cons.inj hm).1
      rwa [List.append_nil] at he
    · obtain ⟨rfl, -⟩ := List.cons.inj hm
      exact h p f m rfl

/-- What has succeeded has returned, and calls come after the dependencies. -/
theorem calledAfter_order :
    CalledAfter ((order xs).foldl (execStep run) (execInit ν)).trace := by
  let P : List BaseExtractor → ExecState ν → Prop := fun _ s =>
    (∀ n, n ∈ s.succeededSet ↔ n ∈ s.succeeded) ∧
      (∀ n ∈ s.succeeded, ∃ f, f.name = n ∧ .ret f ∈ s.trace) ∧ CalledAfter s.trace
  have hP : P (order xs) ((order xs).foldl (execStep run) (execInit ν)) := by
    refine runAll_induction run (P := P) (order xs) ⟨by simp [execInit], by simp [execInit], ?_⟩ ?_
    · intro p e q h
      simp [execInit] at h
    · rintro l₁ e l₂ - s ⟨hset, hret, hcall⟩
      have hdeps : Ready s.succeeded e → ∀ d ∈ e.dependencies, ∃ f, f.name = d ∧ .ret f ∈ s.trace :=
        fun hr d hd => hret d (hr d hd)
      rcases execStep_cases run s e hset with ⟨hr, hs⟩ | ⟨hr, ho, hs⟩ | ⟨hr, ho, hs⟩
      · rw [hs]; exact ⟨hset, hret, hcall⟩
      · rw [hs]
        refine ⟨by intro n; simp [hset, or_comm], ?_, hcall.append run (hdeps hr)⟩
        intro n hn
        rcases List.mem_append.mp hn with hn | hn
        · obtain ⟨f, hf, hm⟩ := hret n hn
          exact ⟨f, hf, List.mem_append_left _ hm⟩
        · exact ⟨e, (List.mem_singleton.mp hn).symm, by simp [eventsOf, ho]⟩
      · rw [hs]
        refine ⟨hset, fun n hn => ?_, hcall.append run (hdeps hr)⟩
        obtain ⟨f, hf, hm⟩ := hret n hn
        exact ⟨f, hf, List.mem_append_left _ hm⟩
  exact hP.2.2

/-! ### The dictionary -/

/-- What the run of an extractor returned; nothing if it raised or returned no dictionary. -/
def returned (e : BaseExtractor) : Dict String ν :=
  match run e with
  | .returns (some res) => res
  | _ => Dict.empty

theorem mergeInto_eq (d : Dict String ν) (e : BaseExtractor) :
    mergeInto run d e = d.update (returned run e) := by
  unfold mergeInto returned
  rcases run e with (_ | res) | _ <;> rfl

/-- **The last extractor that returned a key wins.** -/
theorem get?_foldl_mergeInto (k : String) : ∀ (l : List BaseExtractor) (d : Dict String ν),
    (l.foldl (mergeInto run) d).get? k =
      (l.reverse.findSome? fun e => (returned run e).get? k).or (d.get? k)
  | [], _ => by simp
  | e :: l, d => by
    rw [List.foldl_cons, get?_foldl_mergeInto k l, mergeInto_eq, Dict.get?_update,
      List.reverse_cons, List.findSome?_append, List.findSome?_singleton, Option.or_assoc]

/-- The dictionary `execute` returns: a merged result, or else the status block. -/
theorem get?_execute (x : ExtractorDAGExecutor) (k : String) : (x.execute run).get? k =
    (((x.runAll run).mergedResults.get? k).map Entry.artefact).or
      (if k = "scan_status" then some (.status (x.scanStatus run)) else none) := by
  rw [execute, Dict.get?_update, Dict.get?_mapValues, Dict.get?_ofList]
  by_cases hk : k = "scan_status"
  · rw [if_pos hk]
    simp [hk]
  · rw [if_neg hk]
    simp [Ne.symm hk]

end Loop

end VantaCore.Extractors.Execute
