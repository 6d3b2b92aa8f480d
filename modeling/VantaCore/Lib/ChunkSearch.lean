import VantaCore.Lib.Search

/-! # Searching chunk by chunk

A pattern is searched for in one chunk of a list after the other. If it has no border, what is found
are its occurrences that no end of a chunk cuts, in order (`found_eq_uncut`). A loop that records what
it finds until it has `cap` records has the first `cap` of them (`records_collect`), also if it is
taken up again in every chunk (`foldl_collectChunk`). -/

namespace VantaCore.Lib.ChunkSearch

open VantaCore.Lib.Chunks VantaCore.Lib.Search

section Occurrences

variable {α : Type*} [DecidableEq α]

/-- What the searches of the chunks find. -/
def found (n : ℕ) (p xs : List α) : List ℕ :=
  (steps xs.length n).flatMap fun c => (findAll p (chunkAt n xs c)).map (c + ·)

/-- The pattern occurs at the position and ends in the chunk it starts in. -/
def Uncut (n : ℕ) (p xs : List α) (o : ℕ) : Prop := OccursAt p xs o ∧ o % n + p.length ≤ n

instance (n : ℕ) (p xs : List α) (o : ℕ) : Decidable (Uncut n p xs o) :=
  inferInstanceAs (Decidable (_ ∧ _))

/-- The occurrences that no end of a chunk cuts, in order. -/
def uncut (n : ℕ) (p xs : List α) : List ℕ := (List.range xs.length).filter (Uncut n p xs ·)

variable {n o : ℕ} {p xs : List α}

theorem mem_uncut_iff (hp : p ≠ []) : o ∈ uncut n p xs ↔ Uncut n p xs o := by
  unfold uncut
  rw [List.mem_filter, decide_eq_true_iff, List.mem_range]
  refine and_iff_right_of_imp fun h => ?_
  have hle := h.1.le hp
  have hpos := List.length_pos_of_ne_nil hp
  omega

theorem lt_of_mem_findAll_chunkAt {c a : ℕ} (hp : p ≠ []) (ha : a ∈ findAll p (chunkAt n xs c)) :
    a < n := by
  have hle := (occursAt_of_mem_findAll hp ha).le hp
  have hpos := List.length_pos_of_ne_nil hp
  rw [length_chunkAt] at hle
  omega

/-- **The searches find the occurrences that no end of a chunk cuts.** -/
theorem mem_found_iff (hn : 0 < n) (hp : p ≠ []) (hborder : Borderless p) :
    o ∈ found n p xs ↔ Uncut n p xs o := by
  unfold found Uncut
  simp only [List.mem_flatMap, List.mem_map, mem_steps_iff hn, mem_findAll_iff hp hborder]
  constructor
  · rintro ⟨c, ⟨hc, -⟩, a, hocc, rfl⟩
    have hle := hocc.le hp
    have hpos := List.length_pos_of_ne_nil hp
    have hlen : (chunkAt n xs c).length = min n (xs.length - c) := length_chunkAt
    obtain ⟨-, hmod⟩ := div_mul_of_add (a := a) hc (by omega)
    exact ⟨(occursAt_chunkAt hle).mp hocc, by omega⟩
  · rintro ⟨hocc, hfit⟩
    have hle := hocc.le hp
    have hpos := List.length_pos_of_ne_nil hp
    have hmod : o / n * n + o % n = o := Nat.div_add_mod' o n
    have hlen : (chunkAt n xs (o / n * n)).length = min n (xs.length - o / n * n) := length_chunkAt
    refine ⟨o / n * n, ⟨Nat.dvd_mul_left n _, by omega⟩, o % n, ?_, hmod⟩
    rw [occursAt_chunkAt (by omega), hmod]
    exact hocc

theorem sorted_found (hn : 0 < n) (hp : p ≠ []) : (found n p xs).Pairwise (· < ·) := by
  refine List.pairwise_flatMap.mpr ⟨fun c _ => ?_, ?_⟩
  · exact (sorted_findAll hp).map _ fun _ _ h => Nat.add_lt_add_left h c
  · refine (sorted_steps hn).imp_of_mem fun {c d} hc hd hlt x hx y hy => ?_
    obtain ⟨a, ha, rfl⟩ := List.mem_map.mp hx
    obtain ⟨b, -, rfl⟩ := List.mem_map.mp hy
    have ha' := lt_of_mem_findAll_chunkAt hp ha
    obtain ⟨k, rfl⟩ := ((mem_steps_iff hn).mp hc).1
    obtain ⟨l, rfl⟩ := ((mem_steps_iff hn).mp hd).1
    have hkl : k + 1 ≤ l := Nat.lt_of_mul_lt_mul_left hlt
    have hmul := Nat.mul_le_mul_left n hkl
    rw [Nat.mul_add, Nat.mul_one] at hmul
    omega

/-- **What is found, in order.** -/
theorem found_eq_uncut (hn : 0 < n) (hp : p ≠ []) (hborder : Borderless p) :
    found n p xs = uncut n p xs := by
  refine (sorted_found hn hp).eq_of_mem_iff (List.pairwise_lt_range.filter _) fun o => ?_
  rw [mem_found_iff hn hp hborder, ← mem_uncut_iff hp, uncut]

end Occurrences

/-! ### Recording up to a cap -/

/-- What a loop has seen and recorded. -/
structure Collected (φ : Type*) where
  seen : List ℕ
  records : List φ

variable {φ : Type*}

/-- The loop over positions that records what it has not seen and stops at `cap` records. -/
def collect (cap : ℕ) (value : ℕ → φ) : List ℕ → Collected φ → Collected φ
  | [], s => s
  | o :: l, s =>
    if o ∈ s.seen then collect cap value l s
    else
      let s' : Collected φ := ⟨o :: s.seen, s.records ++ [value o]⟩
      if cap ≤ s'.records.length then s' else collect cap value l s'

/-- The loop is only entered below the cap. -/
def collectChunk (cap : ℕ) (value : ℕ → φ) (l : List ℕ) (s : Collected φ) : Collected φ :=
  if s.records.length < cap then collect cap value l s else s

variable {cap : ℕ} {value : ℕ → φ} {s : Collected φ}

theorem collectChunk_of_le (h : cap ≤ s.records.length) (l : List ℕ) :
    collectChunk cap value l s = s := if_neg (Nat.not_lt.mpr h)

theorem collectChunk_nil (s : Collected φ) : collectChunk cap value [] s = s := by
  unfold collectChunk
  split_ifs <;> rfl

theorem collectChunk_cons (o : ℕ) (l : List ℕ) (h : s.records.length < cap) :
    collectChunk cap value (o :: l) s =
      if o ∈ s.seen then collectChunk cap value l s
      else collectChunk cap value l ⟨o :: s.seen, s.records ++ [value o]⟩ := by
  unfold collectChunk
  rw [if_pos h, if_pos h, collect]
  by_cases hcap : cap ≤ (s.records ++ [value o]).length
  · rw [if_neg (Nat.not_lt.mpr hcap)]
    dsimp only
    rw [if_pos hcap]
  · rw [if_pos (Nat.lt_of_not_le hcap)]
    dsimp only
    rw [if_neg hcap]

/-- **Taking the loop up again** is going on with it. -/
theorem collectChunk_append : ∀ (l l' : List ℕ) (s : Collected φ),
    collectChunk cap value l' (collectChunk cap value l s) = collectChunk cap value (l ++ l') s
  | [], l', s => by rw [collectChunk_nil, List.nil_append]
  | o :: l, l', s => by
    by_cases h : s.records.length < cap
    · rw [List.cons_append, collectChunk_cons o l h, collectChunk_cons o (l ++ l') h]
      split_ifs
      · exact collectChunk_append l l' s
      · exact collectChunk_append l l' _
    · rw [collectChunk_of_le (not_lt.mp h), collectChunk_of_le (not_lt.mp h),
        collectChunk_of_le (not_lt.mp h)]

/-- **The loop over the chunks** is one loop over what is found in them. -/
theorem foldl_collectChunk {β : Type*} (g : β → List ℕ) : ∀ (l : List β) (s : Collected φ),
    l.foldl (fun s c => collectChunk cap value (g c) s) s = collectChunk cap value (l.flatMap g) s
  | [], s => (collectChunk_nil s).symm
  | c :: l, s => by
    rw [List.foldl_cons, foldl_collectChunk g l, List.flatMap_cons, collectChunk_append]

/-- Of positions that differ and were not seen, those up to the cap are recorded. -/
theorem records_collectChunk : ∀ (l : List ℕ) (s : Collected φ), l.Nodup →
    (∀ o ∈ l, o ∉ s.seen) →
    (collectChunk cap value l s).records =
      s.records ++ (l.take (cap - s.records.length)).map value
  | [], s, _, _ => by rw [collectChunk_nil, List.take_nil, List.map_nil, List.append_nil]
  | o :: l, s, hnodup, hseen => by
    obtain ⟨ho, hl⟩ := List.nodup_cons.mp hnodup
    by_cases h : s.records.length < cap
    · have hnew : ∀ x ∈ l, x ∉ o :: s.seen := by
        intro x hx hmem
        rcases List.mem_cons.mp hmem with rfl | hmem
        exacts [ho hx, hseen x (List.mem_cons_of_mem o hx) hmem]
      have hroom : cap - s.records.length = cap - (s.records ++ [value o]).length + 1 := by
        rw [List.length_append, List.length_singleton]
        omega
      rw [collectChunk_cons o l h, if_neg (hseen o List.mem_cons_self),
        records_collectChunk l _ hl hnew, hroom, List.take_succ_cons, List.map_cons,
        List.append_assoc, List.singleton_append]
    · rw [collectChunk_of_le (not_lt.mp h), Nat.sub_eq_zero_of_le (not_lt.mp h), List.take_zero,
        List.map_nil, List.append_nil]

/-- **The first `cap` occurrences are recorded.** -/
theorem records_foldl {α : Type*} [DecidableEq α] {n : ℕ} {p xs : List α} (hn : 0 < n) (hp : p ≠ [])
    (hborder : Borderless p) :
    ((steps xs.length n).foldl
      (fun s c => collectChunk cap value ((findAll p (chunkAt n xs c)).map (c + ·)) s)
      ⟨[], []⟩).records = ((uncut n p xs).take cap).map value := by
  have hnodup : (found n p xs).Nodup := (sorted_found hn hp).imp fun h => h.ne
  rw [foldl_collectChunk, ← found_eq_uncut hn hp hborder]
  exact records_collectChunk _ _ hnodup fun _ _ => List.not_mem_nil

/-! ### A loop that ends at the cap -/

section Scan

variable {α : Type*} [DecidableEq α] {n limit : ℕ} {p xs : List α}

/-- The loop over the chunks that ends behind `limit` of them, or with `cap` records. -/
def collectScan (limit cap n : ℕ) (value : ℕ → φ) (p xs : List α) : List φ :=
  (scan n (fun t : Collected φ × ℕ => cap ≤ t.1.records.length || limit ≤ t.2)
    (fun offset chunk t => (collect cap value ((findAll p chunk).map (offset + ·)) t.1, t.2 + 1)) xs
    (⟨[], []⟩, 0)).1.records

/-- A loop that ends at the cap records what one does that goes on without recording. -/
theorem foldl_collect (g : ℕ → List ℕ) : ∀ (l : List ℕ) (t t' : Collected φ × ℕ), t.1 = t'.1 →
    (t.2 = t'.2 ∨ cap ≤ t.1.records.length) →
    (l.foldl (fun t c => if (cap ≤ t.1.records.length || limit ≤ t.2) = true then t
      else (collect cap value (g c) t.1, t.2 + 1)) t).1 =
      (l.foldl (fun t c => if decide (limit ≤ t.2) = true then t
        else (collectChunk cap value (g c) t.1, t.2 + 1)) t').1
  | [], _, _, heq, _ => heq
  | c :: l, t, t', heq, hops => by
    rw [List.foldl_cons, List.foldl_cons]
    by_cases hcap : cap ≤ t.1.records.length
    · rw [if_pos (by simp [hcap])]
      refine foldl_collect g l t _ ?_ (Or.inr hcap)
      split_ifs
      · exact heq
      · exact heq.trans (collectChunk_of_le (heq ▸ hcap) _).symm
    · obtain hhops := hops.resolve_right hcap
      rw [← hhops]
      by_cases hlimit : limit ≤ t.2
      · rw [if_pos (by simp [hlimit]), if_pos (decide_eq_true hlimit)]
        exact foldl_collect g l t t' heq hops
      · have hgo : collectChunk cap value (g c) t'.1 = collect cap value (g c) t.1 := by
          rw [← heq]
          exact if_pos (not_le.mp hcap)
        rw [if_neg (by simp [hcap, hlimit]), if_neg (by simp [hlimit])]
        exact foldl_collect g l _ _ hgo.symm (Or.inl rfl)

/-- **The first `cap` occurrences in the first `limit` chunks are recorded.** -/
theorem collectScan_eq (hn : 0 < n) (hp : p ≠ []) (hborder : Borderless p) :
    collectScan limit cap n value p xs =
      ((uncut n p (xs.take (limit * n))).take cap).map value := by
  have hloop := @scan_eq_foldl_take _ (Collected φ × ℕ) n xs (fun t => decide (limit ≤ t.2))
    (fun offset chunk t =>
      (collectChunk cap value ((findAll p chunk).map (offset + ·)) t.1, t.2 + 1))
    hn Prod.snd limit (fun _ => decide_eq_true_iff) (fun _ _ _ => rfl) (⟨[], []⟩, 0) rfl
  have hproj : ∀ (l : List ℕ) (t : Collected φ × ℕ),
      (l.foldl (fun t c => (collectChunk cap value
        ((findAll p (chunkAt n (xs.take (limit * n)) c)).map (c + ·)) t.1, t.2 + 1)) t).1 =
        l.foldl (fun s c => collectChunk cap value
          ((findAll p (chunkAt n (xs.take (limit * n)) c)).map (c + ·)) s) t.1 := by
    intro l
    induction l with
    | nil => exact fun _ => rfl
    | cons c l ih => exact fun t => ih _
  rw [scan_eq_foldl hn] at hloop
  unfold collectScan
  rw [scan_eq_foldl hn, foldl_collect (fun c => (findAll p (chunkAt n xs c)).map (c + ·)) _ _
    (⟨[], []⟩, 0) rfl (Or.inl rfl), hloop, hproj]
  exact records_foldl hn hp hborder

end Scan

end VantaCore.Lib.ChunkSearch
