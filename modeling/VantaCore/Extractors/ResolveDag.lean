import VantaCore.Extractors.Base
import VantaCore.Lib.TopoOrder

/-! # The execution order

Kahn's algorithm on the names of the extractors. The dependencies that are in the list are the
`edges`, one for every time a dependency is named. In the loop the degree of a name counts its edges
from names not yet taken, and the names taken and queued are those all of whose dependencies are
taken (`KahnInv`). So the names sorted are those that reach no dependency cycle, dependencies first
(`mem_sortedNames_iff`, `closed_sortedNames`), whatever the list: names may repeat. -/

namespace VantaCore.Extractors.ResolveDag

open VantaCore.Lib VantaCore.Lib.TopoOrder VantaCore.Extractors.Base

/-- The names of the extractors. -/
def names (xs : List BaseExtractor) : List String := xs.map (·.name)

/-- The dependencies that are in the list: `(d, n)` for every time an extractor `n` names `d`. -/
def edges (xs : List BaseExtractor) : List (String × String) :=
  xs.flatMap fun e => (e.dependencies.filter (· ∈ names xs)).map fun d => (d, e.name)

/-- `n` depends on `d`, which is in the list. -/
def DependsOn (xs : List BaseExtractor) (n d : String) : Prop := (d, n) ∈ edges xs

variable {xs : List BaseExtractor}

theorem dependsOn_iff {n d : String} :
    DependsOn xs n d ↔ d ∈ names xs ∧ ∃ e ∈ xs, e.name = n ∧ d ∈ e.dependencies := by
  simp only [DependsOn, edges, List.mem_flatMap, List.mem_map, List.mem_filter, decide_eq_true_eq,
    Prod.mk.injEq]
  constructor
  · rintro ⟨e, he, d', ⟨hd, hn⟩, rfl, rfl⟩; exact ⟨hn, e, he, rfl, hd⟩
  · rintro ⟨hn, e, he, rfl, hd⟩; exact ⟨e, he, d, ⟨hd, hn⟩, rfl, rfl⟩

theorem DependsOn.left {n d : String} (h : DependsOn xs n d) : n ∈ names xs := by
  obtain ⟨-, e, he, rfl, -⟩ := dependsOn_iff.mp h
  exact List.mem_map_of_mem he

theorem DependsOn.right {n d : String} (h : DependsOn xs n d) : d ∈ names xs :=
  (dependsOn_iff.mp h).1

/-! ### The tables -/

/-- The tables hold the edges `E`. -/
structure TablesFor (N : List String) (E : List (String × String)) (t : Tables) : Prop where
  degree : ∀ n, t.inDegree.get? n =
    if n ∈ N then some ((E.countP fun e => e.2 = n : ℕ) : ℤ) else none
  dependents : ∀ d, t.dependents.get? d =
    if d ∈ N then some ((E.filter fun e => e.1 = d).map Prod.snd) else none

theorem TablesFor.mem_keys {N : List String} {E : List (String × String)} {t : Tables}
    (h : TablesFor N E t) {n : String} : n ∈ t.inDegree.keys ↔ n ∈ N := by
  rw [Dict.mem_keys_iff, h.degree]
  split_ifs with hn <;> simp [hn]

theorem tablesFor_init : TablesFor (names xs) [] (initTables xs) where
  degree _ := Dict.get?_ofList_const _ _ _ _
  dependents _ := Dict.get?_ofList_const _ _ _ _

theorem TablesFor.addDependency {N : List String} {E : List (String × String)} {t : Tables}
    (h : TablesFor N E t) {n d : String} :
    TablesFor N (E ++ if d ∈ N then [(d, n)] else []) (Base.addDependency t n d) := by
  unfold Base.addDependency
  simp only [h.mem_keys]
  by_cases hd : d ∈ N
  · rw [if_pos hd, if_pos hd]
    constructor
    · intro m
      rw [Dict.get?_modify, h.degree]
      by_cases hnm : n = m
      · by_cases hm : m ∈ N <;> simp [hnm, hm]
      · simp [hnm]
    · intro m
      rw [Dict.get?_modify, h.dependents]
      by_cases hdm : d = m
      · subst hdm; simp [hd]
      · simp [hdm]
  · rw [if_neg hd, if_neg hd, List.append_nil]
    exact h

theorem TablesFor.addDependencies {N : List String} (n : String) : ∀ (ds : List String)
    {E : List (String × String)} {t : Tables}, TablesFor N E t →
      TablesFor N (E ++ (ds.filter (· ∈ N)).map fun d => (d, n))
        (ds.foldl (fun t d => Base.addDependency t n d) t)
  | [], E, t, h => by simpa using h
  | d :: ds, E, t, h => by
    have ih := TablesFor.addDependencies n ds (h.addDependency (n := n) (d := d))
    rw [List.foldl_cons, List.filter_cons]
    by_cases hd : d ∈ N
    · simpa [hd] using ih
    · simpa [hd] using ih

/-- **The tables hold the edges of the list.** -/
theorem tablesFor_buildTables (xs : List BaseExtractor) :
    TablesFor (names xs) (edges xs) (buildTables xs) := by
  have key : ∀ (ys : List BaseExtractor) {E : List (String × String)} {t : Tables},
      TablesFor (names xs) E t → TablesFor (names xs)
        (E ++ ys.flatMap fun e => (e.dependencies.filter (· ∈ names xs)).map fun d => (d, e.name))
        (ys.foldl (fun t e =>
          e.dependencies.foldl (fun t d => Base.addDependency t e.name d) t) t) := by
    intro ys
    induction ys with
    | nil => intro E t h; simpa using h
    | cons e ys ih =>
      intro E t h
      rw [List.foldl_cons, List.flatMap_cons, ← List.append_assoc]
      exact ih (h.addDependencies e.name e.dependencies)
  exact key xs tablesFor_init

/-! ### One round of the loop -/

/-- The edges into `n` from names that are not taken. -/
def openEdges (E : List (String × String)) (taken : List String) (n : String) : ℕ :=
  E.countP fun e => e.2 = n ∧ e.1 ∉ taken

/-- Taking `d` closes the edges from `d`. -/
theorem openEdges_snoc (E : List (String × String)) {taken : List String} {d : String}
    (hd : d ∉ taken) (n : String) :
    openEdges E taken n =
      openEdges E (taken ++ [d]) n + ((E.filter fun e => e.1 = d).map Prod.snd).count n := by
  induction E with
  | nil => rfl
  | cons e E ih =>
    simp only [openEdges, List.countP_cons, List.filter_cons] at ih ⊢
    by_cases hn : e.2 = n <;> by_cases he : e.1 = d
    · simp [hn, he, hd] at ih ⊢; omega
    · simp [hn, he] at ih ⊢; omega
    · simp [hn, he] at ih ⊢; omega
    · simp [hn, he] at ih ⊢; omega

/-- The dependents `R` of the node taken are still to be relaxed, and `added` went into the queue:
the names of `P`, those relaxed before, without an open edge. -/
structure Relaxing (N : List String) (cnt : String → ℕ) (s₀ : KahnState) (P R added : List String)
    (s : KahnState) : Prop where
  degree : ∀ n ∈ N, s.inDegree.get? n = some ((cnt n + R.count n : ℕ) : ℤ)
  queue : s.queue = s₀.queue ++ added
  sorted : s.sortedNames = s₀.sortedNames
  nodup : added.Nodup
  mem : ∀ n, n ∈ added ↔ n ∈ P ∧ cnt n = 0 ∧ n ∉ R

theorem Relaxing.relax {N : List String} {cnt : String → ℕ} {s₀ s : KahnState} {d : String}
    {P R added : List String} (h : Relaxing N cnt s₀ P (d :: R) added s) (hd : d ∈ N) :
    ∃ added', Relaxing N cnt s₀ (P ++ [d]) R added' (Base.relax s d) := by
  have hdeg : ∀ n ∈ N,
      (s.inDegree.modify d (· - 1)).get? n = some ((cnt n + R.count n : ℕ) : ℤ) := by
    intro n hn
    rw [Dict.get?_modify, h.degree n hn]
    by_cases hdn : d = n
    · subst hdn; simp; omega
    · simp [hdn]
  have hzero : (s.inDegree.modify d (· - 1)).get? d = some 0 ↔ cnt d = 0 ∧ d ∉ R := by
    rw [hdeg d hd, Option.some.injEq, Nat.cast_eq_zero, Nat.add_eq_zero_iff, List.count_eq_zero]
  have hnew : d ∉ added := fun hm => ((h.mem d).mp hm).2.2 List.mem_cons_self
  by_cases hz : (s.inDegree.modify d (· - 1)).get? d = some 0
  · refine ⟨added ++ [d], hdeg, ?_, h.sorted, ?_, fun n => ?_⟩
    · simp only [Base.relax, if_pos hz, h.queue, List.append_assoc]
    · exact List.nodup_append.mpr ⟨h.nodup, List.nodup_singleton d, fun a ha b hb => by
        rw [List.mem_singleton.mp hb]; rintro rfl; exact hnew ha⟩
    · rw [List.mem_append, List.mem_append, h.mem, List.mem_singleton, List.mem_cons, not_or]
      obtain ⟨h0, hR⟩ := hzero.mp hz
      constructor
      · rintro (⟨hP, hn, -, hnR⟩ | rfl)
        · exact ⟨Or.inl hP, hn, hnR⟩
        · exact ⟨Or.inr rfl, h0, hR⟩
      · rintro ⟨hP | rfl, hn, hnR⟩
        · by_cases hnd : n = d
          · exact Or.inr hnd
          · exact Or.inl ⟨hP, hn, hnd, hnR⟩
        · exact Or.inr rfl
  · refine ⟨added, hdeg, ?_, h.sorted, h.nodup, fun n => ?_⟩
    · simp only [Base.relax, if_neg hz, h.queue]
    · rw [h.mem, List.mem_append, List.mem_singleton, List.mem_cons, not_or]
      constructor
      · rintro ⟨hP, hn, -, hnR⟩
        exact ⟨Or.inl hP, hn, hnR⟩
      · rintro ⟨hP, hn, hnR⟩
        have hnd : n ≠ d := by rintro rfl; exact hz (hzero.mpr ⟨hn, hnR⟩)
        exact ⟨hP.resolve_right hnd, hn, hnd, hnR⟩

theorem Relaxing.foldl {N : List String} {cnt : String → ℕ} {s₀ : KahnState} :
    ∀ (R : List String) {P added : List String} {s : KahnState}, (∀ d ∈ R, d ∈ N) →
      Relaxing N cnt s₀ P R added s →
        ∃ added', Relaxing N cnt s₀ (P ++ R) [] added' (R.foldl Base.relax s)
  | [], P, added, s, _, h => ⟨added, by simpa using h⟩
  | d :: R, P, added, s, hR, h => by
    obtain ⟨added', h'⟩ := h.relax (hR d List.mem_cons_self)
    obtain ⟨added'', h''⟩ := Relaxing.foldl R (fun x hx => hR x (List.mem_cons_of_mem _ hx)) h'
    exact ⟨added'', by simpa using h''⟩

/-! ### The invariant of the loop -/

/-- **The invariant**: degrees count open edges; the names taken and queued are, each once, the
names without an open edge, dependencies first. -/
structure KahnInv (N : List String) (E : List (String × String)) (s : KahnState) : Prop where
  degree : ∀ n ∈ N, s.inDegree.get? n = some (openEdges E s.sortedNames n : ℤ)
  nodup : (s.sortedNames ++ s.queue).Nodup
  mem : ∀ n, n ∈ s.sortedNames ++ s.queue ↔ n ∈ N ∧ openEdges E s.sortedNames n = 0
  closed : Closed (fun n d => (d, n) ∈ E) (s.sortedNames ++ s.queue)

theorem openEdges_eq_zero_iff {E : List (String × String)} {taken : List String} {n : String} :
    openEdges E taken n = 0 ↔ ∀ d, (d, n) ∈ E → d ∈ taken := by
  rw [openEdges, List.countP_eq_zero]
  constructor
  · intro h d hd
    have := h (d, n) hd
    simpa using this
  · rintro h ⟨d, m⟩ hd
    simp only [decide_eq_true_eq, not_and, not_not]
    rintro rfl
    exact h d hd

variable {N : List String} {E : List (String × String)}

theorem mem_kahnInit_queue {t : Tables} {n : String} :
    n ∈ (kahnInit t).queue ↔ t.inDegree.get? n = some 0 := by
  rw [Dict.get?_eq_some_iff, kahnInit]
  simp only [List.mem_map, List.mem_filter, decide_eq_true_eq]
  constructor
  · rintro ⟨⟨m, v⟩, ⟨hm, rfl⟩, rfl⟩; exact hm
  · intro h; exact ⟨(n, 0), ⟨h, rfl⟩, rfl⟩

theorem kahnInv_init {t : Tables} (ht : TablesFor N E t) : KahnInv N E (kahnInit t) := by
  have hdeg : ∀ n ∈ N, t.inDegree.get? n = some (openEdges E [] n : ℤ) := by
    intro n hn
    rw [ht.degree, if_pos hn, openEdges]
    simp
  have hmem : ∀ n, n ∈ (kahnInit t).queue ↔ n ∈ N ∧ openEdges E [] n = 0 := by
    intro n
    rw [mem_kahnInit_queue]
    by_cases hn : n ∈ N
    · rw [hdeg n hn, Option.some.injEq, Nat.cast_eq_zero, and_iff_right hn]
    · rw [ht.degree, if_neg hn]; simp [hn]
  refine ⟨hdeg, ?_, hmem, Closed.nil.append fun n hn d hd => ?_⟩
  · have hkeys : (t.inDegree.entries.map Prod.fst).Nodup := t.inDegree.nodup
    exact hkeys.sublist (List.filter_sublist.map Prod.fst)
  · exact openEdges_eq_zero_iff.mp ((hmem n).mp hn).2 d hd

/-- Taking `d` leaves a name without an open edge if it had none, or `d` was the last. -/
theorem openEdges_snoc_eq_zero_iff {taken : List String} {d : String} (hd : d ∉ taken) (n : String) :
    openEdges E (taken ++ [d]) n = 0 ↔
      openEdges E taken n = 0 ∨ (d, n) ∈ E ∧ openEdges E (taken ++ [d]) n = 0 := by
  have hopen := openEdges_snoc E hd n
  constructor
  · intro h0
    by_cases hn : (d, n) ∈ E
    · exact Or.inr ⟨hn, h0⟩
    · have hcount : ((E.filter fun e => e.1 = d).map Prod.snd).count n = 0 :=
        List.count_eq_zero.mpr (by simpa using hn)
      exact Or.inl (by omega)
  · rintro (h0 | ⟨-, h0⟩)
    · omega
    · exact h0

/-- What a round does: it takes the first name of the queue, and queues those of its dependents that
have no open edge then. -/
structure Round (N : List String) (E : List (String × String)) (s s' : KahnState) (node : String)
    (queue added : List String) : Prop where
  queue_eq : s.queue = node :: queue
  sorted : s'.sortedNames = s.sortedNames ++ [node]
  queued : s'.queue = queue ++ added
  degree : ∀ n ∈ N, s'.inDegree.get? n = some (openEdges E s'.sortedNames n : ℤ)
  nodup : added.Nodup
  mem : ∀ n, n ∈ added ↔ (node, n) ∈ E ∧ openEdges E s'.sortedNames n = 0

theorem KahnInv.not_taken {s : KahnState} (h : KahnInv N E s) {node : String} {queue : List String}
    (hq : s.queue = node :: queue) : node ∉ s.sortedNames := by
  have hnodup := h.nodup
  rw [hq] at hnodup
  exact fun hm => (List.nodup_append.mp hnodup).2.2 node hm node List.mem_cons_self rfl

theorem KahnInv.round {t : Tables} (ht : TablesFor N E t) (hE : ∀ e ∈ E, e.1 ∈ N ∧ e.2 ∈ N)
    {s s' : KahnState} (h : KahnInv N E s) (hs : kahnStep t.dependents s = some s') :
    ∃ node queue added, Round N E s s' node queue added := by
  unfold kahnStep at hs
  cases hq : s.queue with
  | nil =>
    rw [hq] at hs
    cases hs
  | cons node queue =>
    rw [hq] at hs
    simp only [Option.some.injEq] at hs
    have hmem := h.mem
    rw [hq] at hmem
    have hnode : node ∈ N := ((hmem node).mp (by simp)).1
    set L := (E.filter fun e => e.1 = node).map Prod.snd with hL
    rw [ht.dependents, if_pos hnode, Option.getD_some] at hs
    have hLN : ∀ n ∈ L, n ∈ N := by
      intro n hn
      obtain ⟨e, he, rfl⟩ := List.mem_map.mp hn
      exact (hE e (List.mem_filter.mp he).1).2
    have hLmem : ∀ n, n ∈ L ↔ (node, n) ∈ E := by
      intro n
      simp [hL]
    have hopen : ∀ n, openEdges E s.sortedNames n =
        openEdges E (s.sortedNames ++ [node]) n + L.count n :=
      openEdges_snoc E (h.not_taken hq)
    set s₁ : KahnState := { s with queue, sortedNames := s.sortedNames ++ [node] }
    have h₁ : Relaxing N (openEdges E (s.sortedNames ++ [node])) s₁ [] L [] s₁ :=
      ⟨fun n hn => by rw [← hopen n]; exact h.degree n hn, by simp, rfl, List.nodup_nil, by simp⟩
    obtain ⟨added, hr⟩ := Relaxing.foldl L hLN h₁
    rw [hs, List.nil_append] at hr
    have hsorted : s'.sortedNames = s.sortedNames ++ [node] := hr.sorted
    refine ⟨node, queue, added, hq, hsorted, hr.queue, fun n hn => ?_, hr.nodup, fun n => ?_⟩
    · rw [hr.degree n hn, hsorted]
      simp
    · rw [hr.mem, hLmem, hsorted]
      simp

/-- **A round keeps the invariant** and takes one name. -/
theorem KahnInv.step {t : Tables} (ht : TablesFor N E t) (hE : ∀ e ∈ E, e.1 ∈ N ∧ e.2 ∈ N)
    {s s' : KahnState} (h : KahnInv N E s) (hs : kahnStep t.dependents s = some s') :
    KahnInv N E s' ∧ s'.sortedNames.length = s.sortedNames.length + 1 := by
  obtain ⟨node, queue, added, hr⟩ := h.round ht hE hs
  have htaken := h.not_taken hr.queue_eq
  obtain ⟨-, hnodup, hmem, hclosed⟩ := h
  rw [hr.queue_eq] at hnodup hmem hclosed
  have hlist : s'.sortedNames ++ s'.queue = (s.sortedNames ++ node :: queue) ++ added := by
    rw [hr.sorted, hr.queued]
    simp
  refine ⟨⟨hr.degree, ?_, fun n => ?_, ?_⟩, by rw [hr.sorted]; simp⟩
  · rw [hlist]
    refine List.nodup_append.mpr ⟨hnodup, hr.nodup, fun a ha b hb => ?_⟩
    rintro rfl
    exact htaken (openEdges_eq_zero_iff.mp ((hmem a).mp ha).2 node ((hr.mem a).mp hb).1)
  · have hzero := openEdges_snoc_eq_zero_iff (E := E) htaken n
    rw [← hr.sorted] at hzero
    rw [hlist, List.mem_append, hmem, hr.mem]
    constructor
    · rintro (⟨hn, h0⟩ | ⟨he, h0⟩)
      · exact ⟨hn, hzero.mpr (Or.inl h0)⟩
      · exact ⟨(hE _ he).2, h0⟩
    · rintro ⟨hn, h0⟩
      rcases hzero.mp h0 with h1 | h1
      · exact Or.inl ⟨hn, h1⟩
      · exact Or.inr h1
  · rw [hlist]
    refine hclosed.append fun n hn d hd => ?_
    have hopened := openEdges_eq_zero_iff.mp ((hr.mem n).mp hn).2 d hd
    rw [hr.sorted] at hopened
    rcases List.mem_append.mp hopened with h1 | h1
    · exact List.mem_append_left _ h1
    · rw [List.mem_singleton.mp h1]
      simp

/-- A run of the loop keeps the invariant, and either ends with an empty queue or takes a name in
every round. -/
theorem KahnInv.loop {t : Tables} (ht : TablesFor N E t) (hE : ∀ e ∈ E, e.1 ∈ N ∧ e.2 ∈ N) :
    ∀ (fuel : ℕ) {s : KahnState}, KahnInv N E s →
      KahnInv N E (kahnLoop t.dependents fuel s) ∧
        ((kahnLoop t.dependents fuel s).queue = [] ∨
          (kahnLoop t.dependents fuel s).sortedNames.length = s.sortedNames.length + fuel)
  | 0, s, h => ⟨h, Or.inr rfl⟩
  | fuel + 1, s, h => by
    unfold kahnLoop
    cases hs : kahnStep t.dependents s with
    | none =>
      refine ⟨h, Or.inl ?_⟩
      unfold kahnStep at hs
      cases hq : s.queue with
      | nil => rfl
      | cons node queue => rw [hq] at hs; cases hs
    | some s' =>
      obtain ⟨h', hlen⟩ := h.step ht hE hs
      obtain ⟨h1, h2⟩ := KahnInv.loop ht hE fuel h'
      refine ⟨h1, h2.imp_right fun h3 => ?_⟩
      simp only at h3 ⊢
      omega

/-! ### The result -/

theorem edges_mem_names : ∀ e ∈ edges xs, e.1 ∈ names xs ∧ e.2 ∈ names xs := by
  rintro ⟨d, n⟩ h
  have h' : DependsOn xs n d := h
  exact ⟨h'.right, h'.left⟩

theorem kahnInv_kahn (xs : List BaseExtractor) : KahnInv (names xs) (edges xs) (kahn xs) :=
  (KahnInv.loop (tablesFor_buildTables xs) edges_mem_names xs.length
    (kahnInv_init (tablesFor_buildTables xs))).1

/-- **The loop ends**: the rounds given to it empty the queue. -/
theorem queue_kahn : (kahn xs).queue = [] := by
  obtain ⟨hinv, hq | hlen⟩ := KahnInv.loop (tablesFor_buildTables xs) edges_mem_names xs.length
    (kahnInv_init (tablesFor_buildTables xs))
  · exact hq
  · by_contra hne
    have hlen' : (kahn xs).sortedNames.length = xs.length := by
      rw [kahnInit, List.length_nil, Nat.zero_add] at hlen
      exact hlen
    have hsub : (kahn xs).sortedNames ++ (kahn xs).queue ⊆ names xs := fun n hn =>
      (((kahnInv_kahn xs).mem n).mp hn).1
    have := (List.subperm_of_subset (kahnInv_kahn xs).nodup hsub).length_le
    have hpos : 0 < (kahn xs).queue.length := List.length_pos_of_ne_nil hne
    simp only [List.length_append, names, List.length_map] at this
    omega

theorem kahnStep_eq_none {dependents : Dict String (List String)} {s : KahnState}
    (h : s.queue = []) : kahnStep dependents s = none := by
  unfold kahnStep
  rw [h]

/-- Rounds behind the end of the loop change nothing. -/
theorem kahnLoop_of_le {dependents : Dict String (List String)} : ∀ (fuel : ℕ) {rounds : ℕ}
    {s : KahnState}, (kahnLoop dependents fuel s).queue = [] → fuel ≤ rounds →
      kahnLoop dependents rounds s = kahnLoop dependents fuel s
  | 0, rounds, s, hq, _ => by
    cases rounds with
    | zero => rfl
    | succ rounds =>
      have hs : kahnStep dependents s = none := kahnStep_eq_none hq
      unfold kahnLoop
      rw [hs]
  | fuel + 1, rounds, s, hq, hle => by
    obtain ⟨rounds, rfl⟩ : ∃ k, rounds = k + 1 := ⟨rounds - 1, by omega⟩
    unfold kahnLoop at hq ⊢
    cases hs : kahnStep dependents s with
    | none => rfl
    | some s' =>
      rw [hs] at hq
      exact kahnLoop_of_le fuel hq (by omega)

theorem kahnLoop_eq_kahn {rounds : ℕ} (h : xs.length ≤ rounds) :
    kahnLoop (buildTables xs).dependents rounds (kahnInit (buildTables xs)) = kahn xs :=
  kahnLoop_of_le xs.length queue_kahn h

theorem nodup_sortedNames : (kahn xs).sortedNames.Nodup := by
  have := (kahnInv_kahn xs).nodup
  rwa [queue_kahn, List.append_nil] at this

/-- **Dependencies first.** -/
theorem closed_sortedNames : Closed (DependsOn xs) (kahn xs).sortedNames := by
  have := (kahnInv_kahn xs).closed
  rwa [queue_kahn, List.append_nil] at this

theorem sortedNames_subset {n : String} (h : n ∈ (kahn xs).sortedNames) : n ∈ names xs := by
  have := (kahnInv_kahn xs).mem n
  rw [queue_kahn, List.append_nil] at this
  exact (this.mp h).1

theorem saturated_sortedNames :
    Saturated (DependsOn xs) {n | n ∈ names xs} (kahn xs).sortedNames := by
  intro n hn hall
  have := (kahnInv_kahn xs).mem n
  rw [queue_kahn, List.append_nil] at this
  exact this.mpr ⟨hn, openEdges_eq_zero_iff.mpr hall⟩

/-- **The names sorted are those that reach no dependency cycle.** -/
theorem mem_sortedNames_iff {n : String} :
    n ∈ (kahn xs).sortedNames ↔ n ∈ names xs ∧ ¬ ReachesCycle (DependsOn xs) n :=
  mem_iff_not_reachesCycle (names xs).finite_toSet (fun _ _ h => h.right)
    (fun _ h => sortedNames_subset h) closed_sortedNames saturated_sortedNames

end VantaCore.Extractors.ResolveDag
