import Mathlib.Data.Nat.Bitwise
import Mathlib.Tactic

/-! # Masks and shifts of natural numbers

A mask of consecutive ones selects a bit field: `x &&& (2 ^ (s + w) - 2 ^ s)` keeps the bits
`s, …, s + w - 1` of `x` in place (`and_field`), and a page offset below `2 ^ s` may be advanced
without touching the bits from `s` on (`add_div_two_pow`, `add_mod_two_pow`). -/

namespace VantaCore.Lib.Bits

/-- The bits `s, …, s + w - 1` of `x`, in place. -/
def field (s w x : ℕ) : ℕ := x / 2 ^ s % 2 ^ w * 2 ^ s

theorem testBit_field (s w x i : ℕ) :
    (field s w x).testBit i = (decide (s ≤ i) && decide (i < s + w) && x.testBit i) := by
  unfold field
  rw [Nat.testBit_mul_two_pow, Nat.testBit_mod_two_pow, Nat.testBit_div_two_pow]
  by_cases h : s ≤ i
  · have h1 : i - s < w ↔ i < s + w := by omega
    simp [h, h1, Nat.sub_add_cancel h]
  · simp [h]

theorem testBit_mask (s w i : ℕ) :
    (2 ^ (s + w) - 2 ^ s).testBit i = (decide (s ≤ i) && decide (i < s + w)) := by
  have h : 2 ^ (s + w) - 2 ^ s = (2 ^ w - 1) * 2 ^ s := by
    rw [Nat.sub_mul, ← pow_add, Nat.add_comm w s, one_mul]
  rw [h, Nat.testBit_mul_two_pow, Nat.testBit_two_pow_sub_one]
  by_cases hs : s ≤ i
  · have h1 : i - s < w ↔ i < s + w := by omega
    simp [hs, h1]
  · simp [hs]

/-- **A mask of consecutive ones selects a bit field.** -/
theorem and_field (s w x : ℕ) : x &&& (2 ^ (s + w) - 2 ^ s) = field s w x := by
  refine Nat.eq_of_testBit_eq fun i => ?_
  rw [Nat.testBit_and, testBit_mask, testBit_field, Bool.and_comm]

/-- A field that reaches up to the last bit of `x` is `x` rounded down. -/
theorem field_eq_of_lt {s w x : ℕ} (h : x < 2 ^ (s + w)) : field s w x = x / 2 ^ s * 2 ^ s := by
  unfold field
  rw [Nat.mod_eq_of_lt]
  rw [Nat.div_lt_iff_lt_mul (by positivity), ← pow_add, Nat.add_comm w s]
  exact h

theorem and_one_eq (x : ℕ) : x &&& 1 = x % 2 := by
  exact Nat.and_two_pow_sub_one_eq_mod x 1

theorem and_two_pow_ne_zero_iff (x i : ℕ) : x &&& 2 ^ i ≠ 0 ↔ x.testBit i = true := by
  rw [Nat.and_two_pow]
  cases x.testBit i <;> simp

/-! ### Advancing inside a block of `2 ^ p` -/

theorem two_pow_dvd_sub {p s : ℕ} (hps : p ≤ s) (x i : ℕ) (h : x % 2 ^ p + i < 2 ^ p) :
    x % 2 ^ s + i < 2 ^ s := by
  obtain ⟨c, rfl⟩ := Nat.exists_eq_add_of_le hps
  have h1 : x % 2 ^ (p + c) % 2 ^ p = x % 2 ^ p :=
    Nat.mod_mod_of_dvd x (pow_dvd_pow 2 (Nat.le_add_right p c))
  have h2 : x % 2 ^ (p + c) < 2 ^ (p + c) := Nat.mod_lt _ (by positivity)
  set y := x % 2 ^ (p + c)
  rw [← h1] at h
  have h3 : y / 2 ^ p < 2 ^ c := by
    rw [Nat.div_lt_iff_lt_mul (by positivity), ← pow_add, Nat.add_comm c p]; exact h2
  have h4 := Nat.div_add_mod y (2 ^ p)
  have h5 : 2 ^ p * (y / 2 ^ p + 1) ≤ 2 ^ p * 2 ^ c := Nat.mul_le_mul_left _ h3
  rw [pow_add]
  rw [Nat.mul_add] at h5
  omega

/-- Advancing inside a block of `2 ^ p` keeps the bits from `s ≥ p` on. -/
theorem add_div_two_pow {p s : ℕ} (hps : p ≤ s) {x i : ℕ} (h : x % 2 ^ p + i < 2 ^ p) :
    (x + i) / 2 ^ s = x / 2 ^ s := by
  have h1 := two_pow_dvd_sub hps x i h
  have h2 := Nat.div_add_mod x (2 ^ s)
  rw [show x + i = x % 2 ^ s + i + 2 ^ s * (x / 2 ^ s) by omega,
    Nat.add_mul_div_left _ _ (by positivity), Nat.div_eq_of_lt h1, Nat.zero_add]

/-- Advancing inside a block of `2 ^ p` advances the low `s ≥ p` bits. -/
theorem add_mod_two_pow {p s : ℕ} (hps : p ≤ s) {x i : ℕ} (h : x % 2 ^ p + i < 2 ^ p) :
    (x + i) % 2 ^ s = x % 2 ^ s + i := by
  have h1 := two_pow_dvd_sub hps x i h
  have h2 := Nat.div_add_mod x (2 ^ s)
  rw [show x + i = x % 2 ^ s + i + 2 ^ s * (x / 2 ^ s) by omega, Nat.add_mul_mod_self_left,
    Nat.mod_eq_of_lt h1]

end VantaCore.Lib.Bits
