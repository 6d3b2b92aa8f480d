import Mathlib.Data.List.Basic
import Mathlib.Logic.Function.Basic
import Mathlib.Tactic

/-! # The queue in a ring of slots

A ring of `cap` slots with a head and a tail index below `cap` holds the values of the slots from
the head up to the tail, wrapping at the end (`contents`). Writing the slot at the tail changes
nothing, moving the tail appends the value written, moving the head drops the first value
(`contents_update`, `contents_push`, `contents_pop`). One slot stays free: the ring is full when
the slot behind the tail is the head (`dist_of_full`). So the ring is a queue of at most `cap - 1`
values (`FifoStep`). -/

namespace VantaCore.Lib.RingQueue

variable {α : Type*}

/-- The index behind `i`. -/
def next (cap i : ℕ) : ℕ := (i + 1) % cap

/-- The number of slots from the head up to the tail. -/
def dist (cap head tail : ℕ) : ℕ := if head ≤ tail then tail - head else tail + cap - head

/-- The values from the head up to the tail. -/
def contents (cap : ℕ) (data : ℕ → α) (head tail : ℕ) : List α :=
  (List.range (dist cap head tail)).map fun i => data ((head + i) % cap)

/-- A step of a queue of at most `bound` values: it stays, a value goes in at the end, or the first
one comes out. -/
inductive FifoStep (bound : ℕ) : List α → List α → Prop
  | stay (q : List α) : FifoStep bound q q
  | push (q : List α) (a : α) (room : q.length < bound) : FifoStep bound q (q ++ [a])
  | pop (a : α) (q : List α) : FifoStep bound (a :: q) q

/-! ### Distances -/

section Dist

variable {cap head tail : ℕ}

theorem next_lt (hc : 0 < cap) (i : ℕ) : next cap i < cap := Nat.mod_lt _ hc

theorem next_eq (ht : tail < cap) : next cap tail = if tail + 1 = cap then 0 else tail + 1 := by
  unfold next
  split_ifs with h
  · rw [h, Nat.mod_self]
  · exact Nat.mod_eq_of_lt (by omega)

theorem dist_lt (hh : head < cap) (ht : tail < cap) : dist cap head tail < cap := by
  unfold dist
  split_ifs <;> omega

theorem dist_self (cap i : ℕ) : dist cap i i = 0 := by simp [dist]

theorem add_dist (hh : head < cap) (ht : tail < cap) :
    (head + dist cap head tail) % cap = tail := by
  unfold dist
  split_ifs with h
  · rw [show head + (tail - head) = tail by omega, Nat.mod_eq_of_lt ht]
  · rw [show head + (tail + cap - head) = tail + cap by omega, Nat.add_mod_right,
      Nat.mod_eq_of_lt ht]

theorem dist_next_right (hh : head < cap) (ht : tail < cap) (h : dist cap head tail + 1 < cap) :
    dist cap head (next cap tail) = dist cap head tail + 1 := by
  rw [next_eq ht]
  unfold dist at h ⊢
  split_ifs at h ⊢ <;> omega

theorem dist_next_left (hh : head < cap) (ht : tail < cap) (hne : head ≠ tail) :
    dist cap (next cap head) tail + 1 = dist cap head tail := by
  rw [next_eq hh]
  unfold dist
  split_ifs <;> omega

/-- Unless the slot behind the tail is the head, there is room for one value more. -/
theorem dist_succ_lt (hh : head < cap) (ht : tail < cap) (h : next cap tail ≠ head) :
    dist cap head tail + 1 < cap := by
  rw [next_eq ht] at h
  unfold dist
  split_ifs at h ⊢ <;> omega

/-- **A full ring** holds one value less than it has slots. -/
theorem dist_of_full (ht : tail < cap) (h : next cap tail = head) :
    dist cap head tail + 1 = cap := by
  rw [next_eq ht] at h
  unfold dist
  split_ifs at h ⊢ <;> omega

end Dist

/-! ### Contents -/

section Contents

variable {cap head tail : ℕ} (data : ℕ → α)

theorem contents_self (i : ℕ) : contents cap data i i = [] := by simp [contents, dist_self]

@[simp] theorem length_contents (i j : ℕ) : (contents cap data i j).length = dist cap i j := by
  simp [contents]

/-- The slot at the tail holds none of the values. -/
theorem contents_update (hh : head < cap) (ht : tail < cap) (a : α) :
    contents cap (Function.update data tail a) head tail = contents cap data head tail := by
  refine List.map_congr_left fun i hi => Function.update_of_ne ?_ _ _
  have hlt := dist_lt hh ht
  rw [List.mem_range] at hi
  have hmod : ∀ j, j < cap → (head + j) % cap = if head + j < cap then head + j
      else head + j - cap := by
    intro j hj
    split_ifs with h
    · exact Nat.mod_eq_of_lt h
    · rw [Nat.mod_eq_sub_mod (by omega), Nat.mod_eq_of_lt (by omega)]
  rw [← add_dist hh ht, hmod i (by omega), hmod (dist cap head tail) hlt]
  split_ifs <;> omega

/-- Moving the tail appends what its slot holds. -/
theorem contents_push (hh : head < cap) (ht : tail < cap) (h : dist cap head tail + 1 < cap) :
    contents cap data head (next cap tail) = contents cap data head tail ++ [data tail] := by
  unfold contents
  rw [dist_next_right hh ht h, List.range_succ, List.map_append, List.map_singleton,
    add_dist hh ht]

/-- Moving the head drops what its slot holds. -/
theorem contents_pop (hh : head < cap) (ht : tail < cap) (hne : head ≠ tail) :
    contents cap data head tail = data head :: contents cap data (next cap head) tail := by
  unfold contents
  rw [← dist_next_left hh ht hne, List.range_succ_eq_map, List.map_cons, Nat.add_zero,
    Nat.mod_eq_of_lt hh, List.map_map]
  refine congrArg _ (List.map_congr_left fun i _ => ?_)
  simp only [Function.comp_apply, next, Nat.mod_add_mod]
  rw [Nat.succ_eq_add_one, show head + (i + 1) = head + 1 + i by omega]

end Contents

end VantaCore.Lib.RingQueue
