import Mathlib.Data.List.Basic
import Mathlib.Data.List.Pairwise
import Mathlib.Tactic

/-! # Evenly spread samples

`count` pages of a file are sampled: the places are `size / count` apart, at least a page, and
rounded down to the start of a page. The places that fit into the file are the first ones
(`places_eq_map`), and there are as many as pages, up to `count`; they increase (`sorted_places`), and
a file of at most `count` pages is sampled page by page (`place_eq_mul`). -/

namespace VantaCore.Lib.Sampling

/-- The distance of two samples. -/
def stride (page count size : ℕ) : ℕ := max (size / count) page

/-- The place of a sample: the start of the page it falls into. -/
def place (page count size i : ℕ) : ℕ := i * stride page count size / page * page

/-- The places whose page is within the file. -/
def places (page count size : ℕ) : List ℕ :=
  ((List.range count).map (place page count size)).filter fun o => o + page ≤ size

variable {page count size i j : ℕ}

theorem dvd_place : page ∣ place page count size i := Nat.dvd_mul_left page _

theorem place_le : place page count size i ≤ i * stride page count size :=
  Nat.div_mul_le_self _ _

/-- **The places increase**, since they are a page apart before they are rounded. -/
theorem place_lt_place (hpage : 0 < page) (h : i < j) :
    place page count size i < place page count size j := by
  have hstride : page ≤ stride page count size := le_max_right _ _
  have hnext : i * stride page count size + page ≤ j * stride page count size := by
    have := Nat.mul_le_mul_right (stride page count size) (Nat.succ_le_of_lt h)
    rw [Nat.succ_mul] at this
    omega
  have hdiv : i * stride page count size / page + 1 ≤ j * stride page count size / page := by
    rw [← Nat.add_div_right _ hpage]
    exact Nat.div_le_div_right hnext
  exact Nat.mul_lt_mul_of_pos_right hdiv hpage

/-- The places are a page apart where there is no room for more, -/
theorem place_of_le (hpage : 0 < page) (h : size / count ≤ page) :
    place page count size i = i * page := by
  unfold place stride
  rw [max_eq_right h, Nat.mul_div_cancel _ hpage]

/-- and all fit into the file where there is. -/
theorem place_add_le (hi : i < count) (h : page ≤ size / count) :
    place page count size i + page ≤ size := by
  have hstride : stride page count size = size / count := max_eq_left h
  have hplace : place page count size i ≤ i * (size / count) := by
    rw [← hstride]
    exact place_le
  have hnext := Nat.mul_le_mul_right (size / count) (Nat.succ_le_of_lt hi)
  rw [Nat.succ_mul] at hnext
  have hall : count * (size / count) ≤ size := Nat.mul_div_le size count
  omega

/-- **A sample fits into the file** if the file has more pages than there are samples before it. -/
theorem place_add_le_iff (hpage : 0 < page) (hi : i < count) :
    place page count size i + page ≤ size ↔ i < size / page := by
  rw [← Nat.succ_le_iff, Nat.le_div_iff_mul_le hpage, Nat.succ_mul]
  rcases Nat.le_total (size / count) page with hle | hle
  · rw [place_of_le hpage hle]
  · refine iff_of_true (place_add_le hi hle) ?_
    have hnext := Nat.mul_le_mul (Nat.succ_le_of_lt hi) hle
    rw [Nat.succ_mul] at hnext
    have hall : count * (size / count) ≤ size := Nat.mul_div_le size count
    omega

/-- **The places that fit are the first ones.** -/
theorem places_eq_map (hpage : 0 < page) :
    places page count size = (List.range (min count (size / page))).map (place page count size) := by
  have hfirst : (List.range count).filter (fun i => place page count size i + page ≤ size) =
      (List.range count).take (size / page) := by
    rw [List.take_range]
    have hsplit : List.range count = List.range (min (size / page) count) ++
        (List.range (count - size / page)).map (min (size / page) count + ·) := by
      rw [← List.range_add]
      congr 1
      omega
    conv_lhs => rw [hsplit, List.filter_append]
    rw [List.filter_eq_self.mpr, List.filter_eq_nil_iff.mpr, List.append_nil]
    · intro i hi
      obtain ⟨k, hk, rfl⟩ := List.mem_map.mp hi
      have hk := List.mem_range.mp hk
      rw [decide_eq_true_iff, place_add_le_iff hpage (by omega)]
      omega
    · intro i hi
      have hi := List.mem_range.mp hi
      rw [decide_eq_true_iff, place_add_le_iff hpage (by omega)]
      omega
  unfold places
  rw [List.filter_map, Function.comp_def, hfirst, List.take_range, min_comm]

theorem length_places (hpage : 0 < page) :
    (places page count size).length = min count (size / page) := by
  rw [places_eq_map hpage, List.length_map, List.length_range]

theorem sorted_places (hpage : 0 < page) : (places page count size).Pairwise (· < ·) := by
  rw [places_eq_map hpage]
  exact List.pairwise_lt_range.map _ fun _ _ h => place_lt_place hpage h

theorem mem_places {o : ℕ} (h : o ∈ places page count size) : page ∣ o ∧ o + page ≤ size := by
  obtain ⟨hmem, hle⟩ := List.mem_filter.mp h
  obtain ⟨i, -, rfl⟩ := List.mem_map.mp hmem
  exact ⟨dvd_place, of_decide_eq_true hle⟩

/-- **A file of no more pages than samples** is sampled page by page: the rounding takes away what the
distance is more than a page. -/
theorem place_eq_mul (hpage : 0 < page) (hcount : size / page ≤ count) (hi : i < size / page) :
    place page count size i = i * page := by
  rcases Nat.le_total (size / count) page with hle | hle
  · exact place_of_le hpage hle
  obtain ⟨d, hd⟩ := Nat.exists_eq_add_of_le hle
  have hsize : size < (count + 1) * page := (Nat.div_lt_iff_lt_mul hpage).mp (Nat.lt_succ_of_le hcount)
  have hall : count * (page + d) ≤ size := by
    rw [← hd]
    exact Nat.mul_div_le size count
  have hexcess : i * d < page := by
    have hid : i * d ≤ count * d := Nat.mul_le_mul_right d (by omega)
    rw [Nat.mul_add] at hall
    rw [Nat.succ_mul] at hsize
    omega
  have hstride : stride page count size = page + d := (max_eq_left hle).trans hd
  unfold place
  rw [hstride, Nat.mul_add, Nat.mul_comm i page, Nat.mul_add_div hpage, Nat.div_eq_of_lt hexcess,
    Nat.add_zero, Nat.mul_comm]

theorem mul_mem_places (hpage : 0 < page) (hcount : size / page ≤ count) (hi : i < size / page) :
    i * page ∈ places page count size := by
  rw [places_eq_map hpage, ← place_eq_mul hpage hcount hi]
  exact List.mem_map_of_mem (List.mem_range.mpr (by omega))

end VantaCore.Lib.Sampling
