import Mathlib.Data.List.Basic
import Mathlib.Data.List.Nodup
import Mathlib.Tactic

/-! # Lists read in chunks

A list is read chunk by chunk (`chunkAt` at the positions `steps`), and in a chunk windows of a fixed
size are looked at whose start is aligned. A position is looked at if its window ends before the end
of its chunk (`mem_windows_iff`). The loop that reads the chunks is a fold over their positions
(`scan_eq_foldl`). -/

namespace VantaCore.Lib.Chunks

variable {α σ : Type*}

/-! ### Positions -/

/-- `range(0, stop, step)`. -/
def steps (stop step : ℕ) : List ℕ := (List.range ((stop + step - 1) / step)).map (· * step)

variable {stop step o : ℕ}

theorem lt_div_iff (hstep : 0 < step) {k : ℕ} : k < (stop + step - 1) / step ↔ k * step < stop := by
  rw [← Nat.succ_le_iff, Nat.le_div_iff_mul_le hstep, Nat.succ_mul]
  omega

theorem mem_steps_iff (hstep : 0 < step) : o ∈ steps stop step ↔ step ∣ o ∧ o < stop := by
  unfold steps
  simp only [List.mem_map, List.mem_range, lt_div_iff hstep]
  constructor
  · rintro ⟨k, hk, rfl⟩
    exact ⟨Nat.dvd_mul_left step k, hk⟩
  · rintro ⟨⟨k, rfl⟩, hk⟩
    exact ⟨k, by rwa [Nat.mul_comm], Nat.mul_comm k step⟩

theorem sorted_steps (hstep : 0 < step) : (steps stop step).Pairwise (· < ·) :=
  List.pairwise_lt_range.map _ fun _ _ h => Nat.mul_lt_mul_of_pos_right h hstep

/-! ### Chunks -/

/-- At most `n` elements from a position on. -/
def chunkAt (n : ℕ) (xs : List α) (i : ℕ) : List α := (xs.drop i).take n

variable {n size align c : ℕ} {xs : List α}

theorem length_chunkAt : (chunkAt n xs c).length = min n (xs.length - c) := by simp [chunkAt]

theorem getElem?_chunkAt {i : ℕ} (h : i < n) : (chunkAt n xs c)[i]? = xs[c + i]? := by
  rw [chunkAt, List.getElem?_take_of_lt h, List.getElem?_drop]

/-- A chunk is what stands before an element of it, the element and what stands behind it. -/
theorem chunkAt_eq_append_cons {k : ℕ} {a : α} (hk : k < n) (h : xs[c + k]? = some a) :
    chunkAt n xs c = chunkAt k xs c ++ a :: chunkAt (n - (k + 1)) xs (c + k + 1) := by
  obtain ⟨hlt, hget⟩ := List.getElem?_eq_some_iff.mp h
  have hcons : xs.drop (c + k) = a :: xs.drop (c + k + 1) := by
    rw [List.drop_eq_getElem_cons hlt, hget]
  have hsum : n = k + (n - (k + 1) + 1) := by omega
  unfold chunkAt
  conv_lhs => rw [hsum, List.take_add, List.drop_drop, hcons, List.take_succ_cons]

theorem exists_of_mem_chunkAt {a : α} (h : a ∈ chunkAt n xs c) : ∃ j < n, xs[c + j]? = some a := by
  obtain ⟨j, hj, hget⟩ := List.getElem_of_mem h
  have hlt : j < n := by
    rw [length_chunkAt] at hj
    omega
  exact ⟨j, hlt, by rw [← getElem?_chunkAt hlt, List.getElem?_eq_getElem hj, hget]⟩

/-- **A window within a chunk is one of the list.** -/
theorem chunkAt_chunkAt {m a : ℕ} (h : a + m ≤ (chunkAt n xs c).length) :
    chunkAt m (chunkAt n xs c) a = chunkAt m xs (c + a) := by
  rw [length_chunkAt] at h
  unfold chunkAt
  rw [List.drop_take, List.drop_drop, List.take_take, min_eq_left (by omega)]

/-- **A window that ends before its chunk, or with the list,** is one of the list. -/
theorem chunkAt_chunkAt_of_le {m a : ℕ} (h : min (c + a + m) xs.length ≤ c + n) :
    chunkAt m (chunkAt n xs c) a = chunkAt m xs (c + a) := by
  unfold chunkAt
  rw [List.drop_take, List.drop_drop, List.take_take]
  rcases Nat.le_total m (n - a) with hm | hm
  · rw [min_eq_left hm]
  · rw [min_eq_right hm]
    refine List.take_eq_take_iff.mpr ?_
    rw [List.length_drop]
    omega

/-- The aligned positions of a chunk whose window ends before the end of the chunk. -/
def windows (size align n : ℕ) (xs : List α) : List ℕ :=
  (steps xs.length n).flatMap fun c =>
    (steps ((chunkAt n xs c).length - size) align).map (c + ·)

/-- The window at a position ends before the end of its chunk. -/
def Inside (size n : ℕ) (xs : List α) (o : ℕ) : Prop :=
  o % n + size < (chunkAt n xs (o / n * n)).length

instance : Decidable (Inside size n xs o) := inferInstanceAs (Decidable (_ < _))

theorem div_mul_of_add {a : ℕ} (hc : n ∣ c) (ha : a < n) :
    (c + a) / n * n = c ∧ (c + a) % n = a := by
  obtain ⟨k, rfl⟩ := hc
  have hn : 0 < n := by omega
  rw [Nat.mul_add_div hn, Nat.div_eq_of_lt ha, Nat.mul_add_mod, Nat.mod_eq_of_lt ha, Nat.add_zero]
  exact ⟨Nat.mul_comm k n, rfl⟩

/-- **The positions that are looked at.** -/
theorem mem_windows_iff (hn : 0 < n) (halign : 0 < align) (hdvd : align ∣ n) :
    o ∈ windows size align n xs ↔ align ∣ o ∧ Inside size n xs o := by
  unfold windows Inside
  simp only [List.mem_flatMap, List.mem_map, mem_steps_iff hn, mem_steps_iff halign]
  constructor
  · rintro ⟨c, ⟨hc, -⟩, a, ⟨ha, hlt⟩, rfl⟩
    have hlen : (chunkAt n xs c).length = min n (xs.length - c) := length_chunkAt
    obtain ⟨hdiv, hmod⟩ := div_mul_of_add (a := a) hc (by omega)
    rw [hdiv, hmod]
    exact ⟨Nat.dvd_add (hdvd.trans hc) ha, by omega⟩
  · rintro ⟨ho, hlt⟩
    have hlen : (chunkAt n xs (o / n * n)).length = min n (xs.length - o / n * n) := length_chunkAt
    have hmod : o / n * n + o % n = o := Nat.div_add_mod' o n
    have hc : n ∣ o / n * n := Nat.dvd_mul_left n _
    refine ⟨o / n * n, ⟨hc, by omega⟩, o % n, ⟨?_, by omega⟩, hmod⟩
    exact (Nat.dvd_add_right (hdvd.trans hc)).mp (by rwa [hmod])

/-- **Windows on a grid that fits the chunks** are not cut: a position is looked at if its window ends
before the list. -/
theorem inside_iff_of_grid (hn : 0 < n) (hsize : size + 1 = align) (hdvd : align ∣ n)
    (ho : align ∣ o) : Inside size n xs o ↔ o + align ≤ xs.length := by
  unfold Inside
  rw [length_chunkAt]
  have hmod : o / n * n + o % n = o := Nat.div_add_mod' o n
  have hin : o % n + align ≤ n := by
    obtain ⟨k, hk⟩ := (Nat.dvd_mod_iff hdvd).mpr ho
    obtain ⟨l, hl⟩ := hdvd
    have hlt : align * k < align * l := by
      rw [← hk, ← hl]
      exact Nat.mod_lt o hn
    have hkl : k + 1 ≤ l := Nat.lt_of_mul_lt_mul_left hlt
    have hmul := Nat.mul_le_mul_left align hkl
    rw [hk, hl]
    rwa [Nat.mul_succ] at hmul
  omega

/-- Every position is looked at once, in order. -/
theorem sorted_windows (hn : 0 < n) (halign : 0 < align) :
    (windows size align n xs).Pairwise (· < ·) := by
  refine List.pairwise_flatMap.mpr ⟨fun c _ => ?_, ?_⟩
  · exact (sorted_steps halign).map _ fun _ _ h => Nat.add_lt_add_left h c
  · refine (sorted_steps hn).imp_of_mem fun {c d} hc hd hlt x hx y hy => ?_
    obtain ⟨a, ha, rfl⟩ := List.mem_map.mp hx
    obtain ⟨b, -, rfl⟩ := List.mem_map.mp hy
    have ha' := ((mem_steps_iff halign).mp ha).2
    have hlen : (chunkAt n xs c).length = min n (xs.length - c) := length_chunkAt
    obtain ⟨k, rfl⟩ := ((mem_steps_iff hn).mp hc).1
    obtain ⟨l, rfl⟩ := ((mem_steps_iff hn).mp hd).1
    have hkl : k + 1 ≤ l := Nat.lt_of_mul_lt_mul_left hlt
    have := Nat.mul_le_mul_left n hkl
    rw [Nat.mul_add, Nat.mul_one] at this
    omega

/-! ### The loop -/

/-- The loop over the chunks: it stops behind the last one, or when `done` says so. -/
def scanLoop (n : ℕ) (done : σ → Bool) (body : ℕ → List α → σ → σ) (xs : List α) : ℕ → ℕ → σ → σ
  | 0, _, s => s
  | fuel + 1, offset, s =>
    if xs.length ≤ offset ∨ done s then s
    else
      let chunk := chunkAt n xs offset
      if chunk.isEmpty then s
      else scanLoop n done body xs fuel (offset + chunk.length) (body offset chunk s)

/-- The loop from the start; every turn moves on. -/
def scan (n : ℕ) (done : σ → Bool) (body : ℕ → List α → σ → σ) (xs : List α) (s : σ) : σ :=
  scanLoop n done body xs (xs.length + 1) 0 s

variable {done : σ → Bool} {body : ℕ → List α → σ → σ}

/-- **What the body keeps, the loop keeps.** -/
theorem scan_induction {P : σ → Prop} (hbody : ∀ offset chunk s, P s → P (body offset chunk s))
    {s : σ} (hs : P s) : P (scan n done body xs s) := by
  have key : ∀ (fuel offset : ℕ) (s : σ), P s → P (scanLoop n done body xs fuel offset s) := by
    intro fuel
    induction fuel with
    | zero => exact fun _ _ h => h
    | succ fuel ih =>
      intro offset s h
      rw [scanLoop]
      dsimp only
      split_ifs
      exacts [h, h, ih _ _ (hbody _ _ _ h)]
  exact key _ _ _ hs

theorem foldl_done {β : Type*} {f : σ → β → σ} {s : σ} (h : ∀ b, f s b = s) :
    ∀ l : List β, l.foldl f s = s
  | [] => rfl
  | b :: l => by rw [List.foldl_cons, h b, foldl_done h l]

theorem scanLoop_eq_foldl (hn : 0 < n) : ∀ (fuel k : ℕ) (s : σ), xs.length - k * n < fuel →
    scanLoop n done body xs fuel (min (k * n) xs.length) s =
      ((List.range' k ((xs.length + n - 1) / n - k)).map (· * n)).foldl
        (fun s c => if done s then s else body c (chunkAt n xs c) s) s
  | 0, _, _, h => absurd h (Nat.not_lt_zero _)
  | fuel + 1, k, s, h => by
    have hlt : k < (xs.length + n - 1) / n ↔ k * n < xs.length := lt_div_iff hn
    rw [scanLoop]
    by_cases hend : xs.length ≤ k * n
    · rw [if_pos (Or.inl (by omega)), Nat.sub_eq_zero_of_le (by omega)]
      rfl
    by_cases hdone : done s = true
    · rw [if_pos (Or.inr hdone)]
      refine (foldl_done (fun c => ?_) _).symm
      exact if_pos hdone
    rw [min_eq_left (by omega), if_neg (by simp [hdone]; omega)]
    have hlen : (chunkAt n xs (k * n)).length = min n (xs.length - k * n) := length_chunkAt
    have hne : (chunkAt n xs (k * n)).isEmpty = false := by
      rw [← Bool.not_eq_true, List.isEmpty_iff_length_eq_zero]
      omega
    have hnext : k * n + (chunkAt n xs (k * n)).length = min ((k + 1) * n) xs.length := by
      rw [Nat.succ_mul]
      omega
    have hrange : (xs.length + n - 1) / n - k = (xs.length + n - 1) / n - (k + 1) + 1 := by omega
    simp only [hne, Bool.false_eq_true, if_false]
    rw [hnext, scanLoop_eq_foldl hn fuel (k + 1) _ (by rw [Nat.succ_mul]; omega), hrange,
      List.range'_succ, List.map_cons, List.foldl_cons, if_neg hdone]

/-- **The loop is a fold over the positions of the chunks.** -/
theorem scan_eq_foldl (hn : 0 < n) (s : σ) : scan n done body xs s =
    (steps xs.length n).foldl (fun s c => if done s then s else body c (chunkAt n xs c) s) s := by
  have hstart : min (0 * n) xs.length = 0 := by rw [Nat.zero_mul, Nat.zero_min]
  unfold scan steps
  rw [← hstart, scanLoop_eq_foldl hn _ 0 s (by omega), Nat.sub_zero, ← List.range_eq_range']

theorem steps_take {cap : ℕ} (hn : 0 < n) :
    (steps xs.length n).take cap = steps (xs.take (cap * n)).length n := by
  have hcount : min cap ((xs.length + n - 1) / n) = (min (cap * n) xs.length + n - 1) / n := by
    refine eq_of_forall_lt_iff fun k => ?_
    rw [lt_min_iff, lt_div_iff hn, lt_div_iff hn, lt_min_iff, Nat.mul_lt_mul_right hn]
  unfold steps
  rw [← List.map_take, List.take_range, List.length_take, hcount]

theorem chunkAt_take {m : ℕ} (h : c + n ≤ m) : chunkAt n (xs.take m) c = chunkAt n xs c := by
  unfold chunkAt
  rw [List.drop_take, List.take_take, min_eq_left (by omega)]

/-- The loop stops at `cap` chunks. -/
theorem foldl_hops {hops : σ → ℕ} {cap : ℕ} (hdone : ∀ s, done s = true ↔ cap ≤ hops s)
    (hbody : ∀ c chunk s, hops (body c chunk s) = hops s + 1) : ∀ (l : List ℕ) (s : σ),
    hops s ≤ cap →
    l.foldl (fun s c => if done s then s else body c (chunkAt n xs c) s) s =
      (l.take (cap - hops s)).foldl (fun s c => body c (chunkAt n xs c) s) s
  | [], s, _ => by rw [List.take_nil]; rfl
  | c :: l, s, hle => by
    rcases Nat.eq_or_lt_of_le hle with heq | hlt
    · have hstop : done s = true := (hdone s).mpr heq.ge
      rw [heq, Nat.sub_self, List.take_zero, List.foldl_nil]
      refine foldl_done (fun c => ?_) _
      exact if_pos hstop
    · have hgo : ¬ done s = true := fun h => absurd ((hdone s).mp h) (Nat.not_le.mpr hlt)
      have hnext : cap - hops s = cap - hops (body c (chunkAt n xs c) s) + 1 := by
        rw [hbody]
        omega
      rw [List.foldl_cons, if_neg hgo, foldl_hops hdone hbody l _ (by rw [hbody]; omega), hnext,
        List.take_succ_cons, List.foldl_cons]

/-- **A loop that counts its chunks** and stops at `cap` of them reads the first `cap` chunks. -/
theorem scan_eq_foldl_take (hn : 0 < n) {hops : σ → ℕ} {cap : ℕ}
    (hdone : ∀ s, done s = true ↔ cap ≤ hops s)
    (hbody : ∀ c chunk s, hops (body c chunk s) = hops s + 1) {s : σ} (hs : hops s = 0) :
    scan n done body xs s = (steps (xs.take (cap * n)).length n).foldl
      (fun s c => body c (chunkAt n (xs.take (cap * n)) c) s) s := by
  rw [scan_eq_foldl hn, foldl_hops hdone hbody _ _ (by omega), hs, Nat.sub_zero, steps_take hn]
  have hchunk : ∀ c ∈ steps (xs.take (cap * n)).length n,
      chunkAt n (xs.take (cap * n)) c = chunkAt n xs c := by
    intro c hc
    obtain ⟨⟨k, rfl⟩, hlt⟩ := (mem_steps_iff hn).mp hc
    rw [List.length_take, Nat.mul_comm n k, lt_min_iff] at hlt
    have hk : k + 1 ≤ cap := Nat.lt_of_mul_lt_mul_right hlt.1
    have hmul := Nat.mul_le_mul_right n hk
    rw [Nat.succ_mul] at hmul
    exact chunkAt_take (by rw [Nat.mul_comm n k]; exact hmul)
  exact List.foldl_ext _ _ _ fun s c hc => by rw [hchunk c hc]

/-- **A loop that counts its chunks** and stops at `cap` of them reads a list of at most `cap`
chunks to its end. -/
theorem scan_eq_foldl_of_hops (hn : 0 < n) {hops : σ → ℕ} {cap : ℕ}
    (hdone : ∀ s, done s = true ↔ cap ≤ hops s)
    (hbody : ∀ c chunk s, hops (body c chunk s) = hops s + 1) (hlen : xs.length ≤ cap * n) {s : σ}
    (hs : hops s = 0) :
    scan n done body xs s =
      (steps xs.length n).foldl (fun s c => body c (chunkAt n xs c) s) s := by
  rw [scan_eq_foldl_take hn hdone hbody hs, List.take_of_length_le hlen]

/-! ### What a loop records -/

variable {β ρ τ : Type*} {results : σ → List ρ}

theorem results_foldl {f : σ → β → σ} {g : β → List ρ}
    (h : ∀ s i, results (f s i) = results s ++ g i) :
    ∀ (l : List β) (s : σ), results (l.foldl f s) = results s ++ l.flatMap g
  | [], s => (List.append_nil _).symm
  | i :: l, s => by
    rw [List.foldl_cons, results_foldl h l, h, List.append_assoc, List.flatMap_cons]

/-- **A loop of loops** does to a part of the state what one loop over all inner elements does. -/
theorem proj_foldl {π : Type*} {proj : σ → π} {f : σ → β → σ} {g : β → List ρ} {r : π → ρ → π}
    (h : ∀ s i, proj (f s i) = (g i).foldl r (proj s)) :
    ∀ (l : List β) (s : σ), proj (l.foldl f s) = (l.flatMap g).foldl r (proj s)
  | [], _ => rfl
  | i :: l, s => by
    rw [List.foldl_cons, proj_foldl h l, h, List.flatMap_cons, List.foldl_append]

theorem results_foldl_of_nil {f : σ → β → σ} {g : β → List ρ}
    (h : ∀ s i, results (f s i) = results s ++ g i) (l : List β) {s : σ} (hs : results s = []) :
    results (l.foldl f s) = l.flatMap g := by
  rw [results_foldl h, hs, List.nil_append]

/-- **A loop that stops at `cap` results** records all results if there are no more than that. -/
theorem results_foldl_capped {f : σ → β → σ} {g : β → List ρ} {hops : σ → ℕ} {cap : ℕ}
    (hstep : ∀ s i, hops s + (g i).length ≤ cap →
      results (f s i) = results s ++ g i ∧ hops (f s i) = hops s + (g i).length) :
    ∀ (l : List β) (s : σ), hops s + (l.flatMap g).length ≤ cap →
      results (l.foldl f s) = results s ++ l.flatMap g ∧
        hops (l.foldl f s) = hops s + (l.flatMap g).length
  | [], s, _ => ⟨(List.append_nil _).symm, rfl⟩
  | i :: l, s, h => by
    rw [List.flatMap_cons, List.length_append] at h ⊢
    obtain ⟨hresults, hhops⟩ := hstep s i (by omega)
    obtain ⟨ih₁, ih₂⟩ := results_foldl_capped hstep l (f s i) (by omega)
    rw [List.foldl_cons, ih₁, ih₂, hresults, hhops, List.append_assoc, Nat.add_assoc]
    exact ⟨rfl, rfl⟩

/-- What the windows of a chunk hold. -/
def chunkHits (size align : ℕ) (test : List α → ℕ → Option τ) (mk : ℕ → τ → ρ) (c : ℕ)
    (chunk : List α) : List ρ :=
  (steps (chunk.length - size) align).flatMap fun a => ((test chunk a).map (mk (c + a))).toList

/-- **What is found in the windows of the chunks is found in the list**, if a test reads no more than
the window and the element behind it. -/
theorem flatMap_chunkHits {test : List α → ℕ → Option τ} {mk : ℕ → τ → ρ} (halign : 0 < align)
    (htest : ∀ c a, a + size < (chunkAt n xs c).length →
      test (chunkAt n xs c) a = test xs (c + a)) :
    ((steps xs.length n).flatMap fun c => chunkHits size align test mk c (chunkAt n xs c)) =
      (windows size align n xs).filterMap fun o => (test xs o).map (mk o) := by
  rw [List.filterMap_eq_flatMap_toList, windows, List.flatMap_assoc]
  refine List.flatMap_congr fun c _ => ?_
  rw [List.flatMap_map]
  refine List.flatMap_congr fun a ha => ?_
  have := ((mem_steps_iff halign).mp ha).2
  rw [htest c a (by omega)]

end VantaCore.Lib.Chunks
