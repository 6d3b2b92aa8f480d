import Mathlib.Data.List.Infix
import Mathlib.Data.Nat.Bitwise
import Mathlib.Tactic

/-! # Masks in binary

A binary number is a list of digits, the highest first (`value`). A mask is a number of ones followed
by zeros: a list of digits is one exactly if no zero stands right before a one (`no_rise_iff`), or if
its value is `2 ^ n - 2 ^ (n - k)` for its `k` ones (`isMask_iff`). -/

namespace VantaCore.Lib.BinaryMask

/-- The value of binary digits. -/
def value : List Bool → ℕ
  | [] => 0
  | b :: bits => b.toNat * 2 ^ bits.length + value bits

/-- The `w` lowest binary digits of a number. -/
def digits (w x : ℕ) : List Bool := (List.range w).reverse.map x.testBit

/-- `k` ones in `n` digits. -/
def mask (n k : ℕ) : List Bool := List.replicate k true ++ List.replicate (n - k) false

variable {bits : List Bool} {n k w x : ℕ}

/-! ### Values -/

theorem value_append : ∀ a b : List Bool, value (a ++ b) = value a * 2 ^ b.length + value b
  | [], b => by rw [List.nil_append, value, Nat.zero_mul, Nat.zero_add]
  | x :: a, b => by
    rw [List.cons_append, value, value, value_append a b, List.length_append, pow_add]
    ring

theorem value_lt : ∀ bits : List Bool, value bits < 2 ^ bits.length
  | [] => Nat.one_pos
  | b :: bits => by
    have ih := value_lt bits
    have hb : b.toNat * 2 ^ bits.length ≤ 1 * 2 ^ bits.length :=
      Nat.mul_le_mul_right _ (Bool.toNat_le b)
    rw [value, List.length_cons, pow_succ]
    omega

/-- **Digits are read back from their value.** -/
theorem eq_of_value_eq : ∀ {a b : List Bool}, a.length = b.length → value a = value b → a = b
  | [], [], _, _ => rfl
  | [], _ :: _, hlen, _ => by cases hlen
  | _ :: _, [], hlen, _ => by cases hlen
  | x :: a, y :: b, hlen, h => by
    have hlen' : a.length = b.length := Nat.succ.inj hlen
    have ha := value_lt a
    have hb := value_lt b
    rw [value, value, hlen'] at h
    rw [hlen'] at ha
    have hx : x = y := by
      cases x <;> cases y <;> simp only [Bool.toNat_true, Bool.toNat_false] at h <;>
        first | rfl | omega
    subst hx
    rw [eq_of_value_eq hlen' (by omega)]

theorem value_replicate_false (n : ℕ) : value (List.replicate n false) = 0 := by
  induction n with
  | zero => rfl
  | succ n ih => rw [List.replicate_succ, value, ih, Bool.toNat_false, Nat.zero_mul]

theorem value_replicate_true (n : ℕ) : value (List.replicate n true) + 1 = 2 ^ n := by
  induction n with
  | zero => rfl
  | succ n ih =>
    rw [List.replicate_succ, value, List.length_replicate, Bool.toNat_true, pow_succ]
    omega

theorem length_mask (h : k ≤ n) : (mask n k).length = n := by
  rw [mask, List.length_append, List.length_replicate, List.length_replicate]
  omega

theorem count_mask : (mask n k).count true = k := by
  rw [mask, List.count_append, List.count_replicate_self]
  simp [List.count_replicate]

theorem value_mask (h : k ≤ n) : value (mask n k) = 2 ^ n - 2 ^ (n - k) := by
  have hones := value_replicate_true k
  have hpow : 2 ^ k * 2 ^ (n - k) = 2 ^ n := by rw [← pow_add, Nat.add_sub_cancel' h]
  rw [mask, value_append, value_replicate_false, List.length_replicate, Nat.add_zero, ← hpow,
    ← hones, Nat.add_mul, Nat.one_mul, Nat.add_sub_cancel]

theorem length_digits : (digits w x).length = w := by simp [digits]

theorem value_digits (w x : ℕ) : value (digits w x) = x % 2 ^ w := by
  induction w with
  | zero => rw [pow_zero, Nat.mod_one]; rfl
  | succ w ih =>
    have hcons : digits (w + 1) x = x.testBit w :: digits w x := by
      rw [digits, List.range_succ, List.reverse_append]
      rfl
    rw [hcons, value, length_digits, ih, Nat.toNat_testBit, pow_succ, Nat.mod_mul]
    ring

/-! ### No rise -/

theorem all_false_of_no_rise : ∀ {bits : List Bool}, ¬ [false, true] <:+: false :: bits →
    bits = List.replicate bits.length false
  | [], _ => rfl
  | true :: bits, h => absurd (List.IsPrefix.isInfix ⟨bits, rfl⟩) h
  | false :: bits, h => by
    have hrest : ¬ [false, true] <:+: false :: bits := fun hin =>
      h (List.infix_cons_iff.mpr (Or.inr hin))
    rw [List.length_cons, List.replicate_succ, ← all_false_of_no_rise hrest]

/-- **No zero before a one**: the digits are a mask. -/
theorem no_rise_iff : ∀ {bits : List Bool},
    ¬ [false, true] <:+: bits ↔ bits = mask bits.length (bits.count true)
  | [] => by simp [mask]
  | true :: bits => by
    have hin : [false, true] <:+: true :: bits ↔ [false, true] <:+: bits := by
      rw [List.infix_cons_iff, List.cons_prefix_cons]
      simp
    have hmask : mask (true :: bits).length ((true :: bits).count true) =
        true :: mask bits.length (bits.count true) := by
      rw [mask, mask, List.count_cons_self, List.length_cons, List.replicate_succ,
        Nat.add_sub_add_right, List.cons_append]
    rw [hin, no_rise_iff, hmask, List.cons_inj_right]
  | false :: bits => by
    constructor
    · intro h
      have hall := all_false_of_no_rise h
      have hcount : bits.count true = 0 := by
        rw [hall, List.count_replicate]
        rfl
      rw [List.count_cons_of_ne (by decide), hcount, mask, List.replicate_zero, List.nil_append,
        List.length_cons, Nat.sub_zero, List.replicate_succ, ← hall]
    · intro h hin
      -- a mask that starts with a zero has no ones
      cases hcount : (false :: bits).count true with
      | zero =>
        have hmem : true ∈ false :: bits := hin.subset (by simp)
        exact absurd hmem (List.count_eq_zero.mp hcount)
      | succ k =>
        rw [hcount, mask, List.replicate_succ] at h
        cases h

/-- **A mask by its digits and by its value.** -/
theorem isMask_iff : (¬ [false, true] <:+: bits ∧ bits.count true = k) ↔
    k ≤ bits.length ∧ value bits = 2 ^ bits.length - 2 ^ (bits.length - k) := by
  rw [no_rise_iff]
  constructor
  · rintro ⟨h, rfl⟩
    have hle : bits.count true ≤ bits.length := List.count_le_length
    have hvalue := value_mask hle
    rw [← h] at hvalue
    exact ⟨hle, hvalue⟩
  · rintro ⟨hle, hvalue⟩
    have hmask : bits = mask bits.length k :=
      eq_of_value_eq (length_mask hle).symm (hvalue.trans (value_mask hle).symm)
    have hcount : bits.count true = k := by
      rw [hmask]
      exact count_mask
    rw [hcount]
    exact ⟨hmask, rfl⟩

end VantaCore.Lib.BinaryMask
