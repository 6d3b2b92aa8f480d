import VantaCore.Lib.Chunks

/-! # Searching lists

`find` gives the first occurrence of a pattern from a position on, `findAll` what the loop finds that
searches again behind every occurrence: occurrences in order that do not overlap. -/

namespace VantaCore.Lib.Search

open VantaCore.Lib.Chunks

variable {α : Type*} [DecidableEq α]

/-- The pattern occurs at the position. -/
def OccursAt (p xs : List α) (i : ℕ) : Prop := chunkAt p.length xs i = p

instance (p xs : List α) (i : ℕ) : Decidable (OccursAt p xs i) :=
  inferInstanceAs (Decidable (_ = _))

/-- `xs.find(p, start)`. -/
def find (p xs : List α) (start : ℕ) : Option ℕ :=
  (List.range' start (xs.length + 1 - start)).find? fun i => OccursAt p xs i

variable {p xs : List α} {start i n c a : ℕ}

omit [DecidableEq α] in
theorem OccursAt.le (h : OccursAt p xs i) (hp : p ≠ []) : i + p.length ≤ xs.length := by
  have hlen := congrArg List.length h
  rw [length_chunkAt] at hlen
  have := List.length_pos_of_ne_nil hp
  omega

omit [DecidableEq α] in
theorem OccursAt.getElem? {k : ℕ} (h : OccursAt p xs i) (hk : k < p.length) :
    xs[i + k]? = p[k]? := by
  have hchunk : p[k]? = (chunkAt p.length xs i)[k]? := by rw [h]
  rw [hchunk, chunkAt, List.getElem?_take_of_lt hk, List.getElem?_drop]

omit [DecidableEq α] in
theorem OccursAt.exists_chunkAt_eq {m : ℕ} (h : OccursAt p xs i) (hm : p.length ≤ m) :
    ∃ rest, chunkAt m xs i = p ++ rest := by
  have htake : (chunkAt m xs i).take p.length = p := by
    unfold chunkAt
    rw [List.take_take, min_eq_left hm]
    exact h
  refine ⟨(chunkAt m xs i).drop p.length, ?_⟩
  conv_lhs => rw [← List.take_append_drop p.length (chunkAt m xs i), htake]

omit [DecidableEq α] in
/-- **An occurrence within a chunk is one of the list.** -/
theorem occursAt_chunkAt (h : a + p.length ≤ (chunkAt n xs c).length) :
    OccursAt p (chunkAt n xs c) a ↔ OccursAt p xs (c + a) := by
  rw [OccursAt, OccursAt, chunkAt_chunkAt h]

/-- **`find` gives the first occurrence.** -/
theorem find_eq_some_iff (hp : p ≠ []) : find p xs start = some i ↔
    start ≤ i ∧ OccursAt p xs i ∧ ∀ j, start ≤ j → j < i → ¬ OccursAt p xs j := by
  unfold find
  rw [List.find?_range'_eq_some]
  simp only [decide_eq_true_eq, List.mem_range'_1, Bool.not_eq_true', decide_eq_false_iff_not]
  constructor
  · rintro ⟨hocc, ⟨hle, -⟩, hfirst⟩
    exact ⟨hle, hocc, hfirst⟩
  · rintro ⟨hle, hocc, hfirst⟩
    have := hocc.le hp
    have := List.length_pos_of_ne_nil hp
    exact ⟨hocc, ⟨hle, by omega⟩, hfirst⟩

theorem find_eq_none_iff (hp : p ≠ []) :
    find p xs start = none ↔ ∀ j, start ≤ j → ¬ OccursAt p xs j := by
  unfold find
  rw [List.find?_eq_none]
  simp only [decide_eq_true_eq, List.mem_range'_1]
  constructor
  · intro h j hj hocc
    have := hocc.le hp
    have := List.length_pos_of_ne_nil hp
    exact h j ⟨hj, by omega⟩ hocc
  · exact fun h j hj => h j hj.1

omit [DecidableEq α] in
theorem chunkAt_append {pre t : List α} {j : ℕ} :
    chunkAt n (pre ++ t) (pre.length + j) = chunkAt n t j := by
  unfold chunkAt
  rw [← List.drop_drop, List.drop_left]

omit [DecidableEq α] in
/-- **Padding that does not hold the first element of the pattern** holds no start of an occurrence. -/
theorem occursAt_append_iff {pre t : List α} {x : α} {q : List α} (hpre : x ∉ pre) :
    OccursAt (x :: q) (pre ++ t) i ↔ ∃ j, i = pre.length + j ∧ OccursAt (x :: q) t j := by
  constructor
  · intro hocc
    have hfirst := hocc.getElem? (k := 0) (Nat.succ_pos _)
    rw [Nat.add_zero, List.getElem?_cons_zero] at hfirst
    have hle : pre.length ≤ i := by
      by_contra hlt
      rw [List.getElem?_append_left (not_le.mp hlt)] at hfirst
      exact hpre (List.mem_of_getElem? hfirst)
    refine ⟨i - pre.length, by omega, ?_⟩
    rw [← Nat.add_sub_cancel' hle, OccursAt, chunkAt_append] at hocc
    exact hocc
  · rintro ⟨j, rfl, hocc⟩
    rw [OccursAt, chunkAt_append]
    exact hocc

/-! ### All occurrences -/

/-- The loop `idx = xs.find(p, pos)`, `pos = idx + len(p)`, while `pos` is in the list. -/
def findLoop (p xs : List α) : ℕ → ℕ → List ℕ
  | 0, _ => []
  | fuel + 1, pos =>
    if pos < xs.length then
      match find p xs pos with
      | none => []
      | some idx => idx :: findLoop p xs fuel (idx + p.length)
    else []

/-- The occurrences the loop finds from the start; every turn moves on. -/
def findAll (p xs : List α) : List ℕ := findLoop p xs (xs.length + 1) 0

theorem mem_findLoop (hp : p ≠ []) : ∀ (fuel pos : ℕ), ∀ i ∈ findLoop p xs fuel pos,
    pos ≤ i ∧ OccursAt p xs i
  | 0, _, i, hi => by cases hi
  | fuel + 1, pos, i, hi => by
    rw [findLoop] at hi
    split_ifs at hi
    · cases hfind : find p xs pos with
      | none =>
        rw [hfind] at hi
        cases hi
      | some idx =>
        rw [hfind] at hi
        obtain ⟨hle, hocc, -⟩ := (find_eq_some_iff hp).mp hfind
        rcases List.mem_cons.mp hi with rfl | hi
        · exact ⟨hle, hocc⟩
        · obtain ⟨hle', hocc'⟩ := mem_findLoop hp fuel _ i hi
          exact ⟨by omega, hocc'⟩
    · cases hi

theorem occursAt_of_mem_findAll (hp : p ≠ []) (h : i ∈ findAll p xs) : OccursAt p xs i :=
  (mem_findLoop hp _ _ i h).2

/-- What the loop finds does not overlap. -/
theorem spaced_findLoop (hp : p ≠ []) : ∀ (fuel pos : ℕ),
    (findLoop p xs fuel pos).Pairwise fun i j => i + p.length ≤ j
  | 0, _ => List.Pairwise.nil
  | fuel + 1, pos => by
    rw [findLoop]
    split_ifs
    · cases find p xs pos with
      | none => exact List.Pairwise.nil
      | some idx =>
        refine List.pairwise_cons.mpr ⟨fun i hi => ?_, spaced_findLoop hp fuel _⟩
        exact (mem_findLoop hp fuel _ i hi).1
    · exact List.Pairwise.nil

theorem sorted_findAll (hp : p ≠ []) : (findAll p xs).Pairwise (· < ·) := by
  have hpat := List.length_pos_of_ne_nil hp
  refine (spaced_findLoop hp _ _).imp fun {i j} hij => ?_
  omega

theorem mem_findLoop_of_not_overlapped (hp : p ≠ []) (hocc : OccursAt p xs i) : ∀ (fuel pos : ℕ),
    xs.length - pos < fuel → pos ≤ i →
    (∀ j ∈ findLoop p xs fuel pos, j < i → j + p.length ≤ i) → i ∈ findLoop p xs fuel pos
  | 0, _, h, _, _ => absurd h (Nat.not_lt_zero _)
  | fuel + 1, pos, h, hpos, hover => by
    have hlen := hocc.le hp
    have hpat := List.length_pos_of_ne_nil hp
    rw [findLoop, if_pos (by omega)] at hover ⊢
    cases hfind : find p xs pos with
    | none => exact absurd hocc ((find_eq_none_iff hp).mp hfind i hpos)
    | some idx =>
      rw [hfind] at hover
      obtain ⟨hle, -, hfirst⟩ := (find_eq_some_iff hp).mp hfind
      have hidx : idx ≤ i := not_lt.mp fun hlt => hfirst i hpos hlt hocc
      rcases Nat.eq_or_lt_of_le hidx with rfl | hlt
      · exact List.mem_cons_self
      · have hnext : idx + p.length ≤ i := hover idx List.mem_cons_self hlt
        have hmem := mem_findLoop_of_not_overlapped hp hocc fuel (idx + p.length) (by omega) hnext
          fun j hj => hover j (List.mem_cons_of_mem idx hj)
        exact List.mem_cons_of_mem idx hmem

/-- **The loop finds an occurrence** exactly if nothing it finds before overlaps it. -/
theorem mem_findAll_iff_not_overlapped (hp : p ≠ []) : i ∈ findAll p xs ↔
    OccursAt p xs i ∧ ∀ j ∈ findAll p xs, j < i → j + p.length ≤ i := by
  constructor
  · refine fun hi => ⟨occursAt_of_mem_findAll hp hi, fun j hj hlt => ?_⟩
    obtain ⟨a, ha, hia⟩ := List.getElem_of_mem hi
    obtain ⟨b, hb, hjb⟩ := List.getElem_of_mem hj
    have hspaced : (findAll p xs).Pairwise fun i j => i + p.length ≤ j := spaced_findLoop hp _ _
    have hsorted := List.pairwise_iff_getElem.mp (show (findAll p xs).Pairwise (· < ·) from
      sorted_findAll hp)
    rw [List.pairwise_iff_getElem] at hspaced
    rcases Nat.lt_trichotomy a b with hab | rfl | hba
    · have := hsorted a b ha hb hab
      omega
    · omega
    · have := hspaced b a hb ha hba
      subst hia hjb
      exact this
  · rintro ⟨hocc, hover⟩
    exact mem_findLoop_of_not_overlapped hp hocc _ _ (by omega) (Nat.zero_le i) hover

/-- **The loop finds every occurrence that no earlier one overlaps.** -/
theorem mem_findAll_of_not_overlapped (hp : p ≠ []) (hocc : OccursAt p xs i)
    (hover : ∀ j, j < i → i < j + p.length → ¬ OccursAt p xs j) : i ∈ findAll p xs := by
  refine (mem_findAll_iff_not_overlapped hp).mpr ⟨hocc, fun j hj hlt => ?_⟩
  exact not_lt.mp fun hin => hover j hlt hin (occursAt_of_mem_findAll hp hj)

/-- No end of the pattern is a beginning of it. -/
def Borderless (p : List α) : Prop := ∀ k < p.length, 0 < k → p.drop k ≠ p.take (p.length - k)

instance (p : List α) : Decidable (Borderless p) := by unfold Borderless; infer_instance

omit [DecidableEq α] in
theorem Borderless.le {j : ℕ} (h : Borderless p) (hj : OccursAt p xs j) (hi : OccursAt p xs i)
    (hlt : j < i) : j + p.length ≤ i := by
  by_contra hover
  refine h (i - j) (by omega) (by omega) ?_
  have hdrop : p.drop (i - j) = (xs.drop i).take (p.length - (i - j)) := by
    have hj' : (xs.drop j).take p.length = p := hj
    calc p.drop (i - j) = ((xs.drop j).take p.length).drop (i - j) := by rw [hj']
      _ = (xs.drop i).take (p.length - (i - j)) := by
        rw [List.drop_take, List.drop_drop, Nat.add_sub_cancel' hlt.le]
  have htake : p.take (p.length - (i - j)) = (xs.drop i).take (p.length - (i - j)) := by
    have hi' : (xs.drop i).take p.length = p := hi
    calc p.take (p.length - (i - j))
        = ((xs.drop i).take p.length).take (p.length - (i - j)) := by rw [hi']
      _ = (xs.drop i).take (p.length - (i - j)) := by
        rw [List.take_take, min_eq_left (Nat.sub_le _ _)]
  rw [hdrop, htake]

/-- **The loop finds every occurrence** of a pattern without a border. -/
theorem mem_findAll_iff (hp : p ≠ []) (h : Borderless p) : i ∈ findAll p xs ↔ OccursAt p xs i := by
  refine ⟨occursAt_of_mem_findAll hp, fun hocc => ?_⟩
  refine mem_findAll_of_not_overlapped hp hocc fun j hlt hin hocc' => ?_
  have := h.le hocc' hocc hlt
  omega

end VantaCore.Lib.Search
