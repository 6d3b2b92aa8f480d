import VantaCore.Lib.PyFields

/-! # Printed numbers and joined parts

The decimal digits of a number are read back (`int_toString`), and parts that do not hold the separator
are split again (`splitChar_join`). -/

namespace VantaCore.Lib.PyPrinting

open VantaCore.Lib.PyText VantaCore.Lib.PyFields

/-- The digits of a number, in ASCII. -/
def digitBytes (k : ℕ) : List UInt8 := ascii (toString k)

variable {k : ℕ}

theorem toList_toString : (toString k).toList = Nat.toDigits 10 k := by
  rw [Nat.toString_eq_repr, Nat.repr_eq_ofList_toDigits, String.toList_ofList]

theorem toNat_of_mem_toDigits {c : Char} (h : c ∈ Nat.toDigits 10 k) : 48 ≤ c.toNat ∧ c.toNat ≤ 57 := by
  have hdigit := Nat.isDigit_of_mem_toDigits (by decide) (by decide) h
  obtain ⟨hlow, hhigh⟩ := Char.isDigit_iff_toNat.mp hdigit
  exact ⟨hlow, hhigh⟩

theorem digit_of_mem_digitBytes {b : UInt8} (h : b ∈ digitBytes k) : 48 ≤ b.toNat ∧ b.toNat ≤ 57 := by
  obtain ⟨c, hc, rfl⟩ := List.mem_map.mp h
  rw [toList_toString] at hc
  have hrange := toNat_of_mem_toDigits hc
  rw [UInt8.toNat_ofNat', Nat.mod_eq_of_lt (by omega)]
  exact hrange

theorem length_digitBytes_le {d : ℕ} (hd : 0 < d) (h : k < 10 ^ d) : (digitBytes k).length ≤ d := by
  unfold digitBytes ascii
  rw [List.length_map, toList_toString]
  exact (Nat.length_toDigits_le_iff (by decide) hd).mpr h

theorem ofBytes_digitBytes : ofBytes (digitBytes k) = ofString (toString k) := by
  unfold digitBytes ascii ofBytes ofString
  rw [List.map_map]
  refine List.map_congr_left fun c hc => ?_
  rw [toList_toString] at hc
  have hrange := toNat_of_mem_toDigits hc
  show Fin.ofNat 0x110000 (UInt8.ofNat c.toNat).toNat = _
  rw [UInt8.toNat_ofNat', Nat.mod_eq_of_lt (by omega)]

/-- **A printed number is read back.** -/
theorem int_toString : int (ofString (toString k)) = some (k : ℤ) := by
  have hval : ∀ c ∈ Nat.toDigits 10 k, (Fin.ofNat 0x110000 c.toNat).val = c.toNat := fun c hc => by
    have hrange := toNat_of_mem_toDigits hc
    exact Nat.mod_eq_of_lt (by omega)
  have hdigits : ∀ c ∈ ofString (toString k), IsDigit c := by
    intro c hc
    obtain ⟨d, hd, rfl⟩ := List.mem_map.mp hc
    rw [toList_toString] at hd
    unfold IsDigit
    rw [hval d hd]
    exact toNat_of_mem_toDigits hd
  have hne : ofString (toString k) ≠ [] := by
    unfold ofString
    rw [toList_toString]
    exact fun h => Nat.toDigits_ne_nil (List.map_eq_nil_iff.mp h)
  have hvalue : decimalOf (ofString (toString k)) = k := by
    unfold decimalOf ofString
    rw [toList_toString, List.foldl_map]
    calc (Nat.toDigits 10 k).foldl
          (fun acc c => 10 * acc + ((Fin.ofNat 0x110000 c.toNat).val - 48)) 0
        = (Nat.toDigits 10 k).foldl (fun acc c => 10 * acc + (c.toNat - '0'.toNat)) 0 :=
          List.foldl_ext _ _ _ fun acc c hc => by rw [hval c hc]; rfl
      _ = Nat.ofDigitChars 10 (Nat.toDigits 10 k) 0 := rfl
      _ = k := Nat.ofDigitChars_toDigits (by decide) (by decide)
  rw [int_of_digits hne hdigits, hvalue]

theorem length_intercalate_le {α : Type*} {sep : List α} {m : ℕ} : ∀ {parts : List (List α)},
    (∀ part ∈ parts, part.length ≤ m) →
      (sep.intercalate parts).length ≤ parts.length * (m + sep.length)
  | [], _ => by simp [List.intercalate]
  | [a], h => by
    have ha := h a List.mem_cons_self
    have hjoin : sep.intercalate [a] = a := by simp [List.intercalate]
    rw [hjoin, List.length_singleton]
    omega
  | a :: b :: parts, h => by
    have ha := h a List.mem_cons_self
    have ih := @length_intercalate_le α sep m (b :: parts) fun part hpart =>
      h part (List.mem_cons_of_mem a hpart)
    have hcons : sep.intercalate (a :: b :: parts) = a ++ (sep ++ sep.intercalate (b :: parts)) := by
      simp [List.intercalate]
    rw [hcons, List.length_append, List.length_append, List.length_cons, Nat.add_mul]
    omega

/-- Between parts that do not hold it, the separator stands alone. -/
theorem isolated_of_intercalate {α : Type*} {x : α} : ∀ {parts : List (List α)} {j : ℕ},
    (∀ part ∈ parts, part ≠ [] ∧ x ∉ part) → ([x].intercalate parts)[j]? = some x →
      0 < j ∧ ([x].intercalate parts)[j + 1]? ≠ some x
  | [], j, _, hj => by simp [List.intercalate] at hj
  | [a], j, h, hj => by
    have hjoin : [x].intercalate [a] = a := by simp [List.intercalate]
    rw [hjoin] at hj
    exact absurd (List.mem_of_getElem? hj) (h a List.mem_cons_self).2
  | a :: b :: parts, j, h, hj => by
    obtain ⟨hne, hnot⟩ := h a List.mem_cons_self
    have hparts : ∀ part ∈ b :: parts, part ≠ [] ∧ x ∉ part := fun part hpart =>
      h part (List.mem_cons_of_mem a hpart)
    have hpos := List.length_pos_of_ne_nil hne
    have hcons : [x].intercalate (a :: b :: parts) = a ++ x :: [x].intercalate (b :: parts) := by
      simp [List.intercalate]
    rw [hcons] at hj ⊢
    rcases Nat.lt_trichotomy j a.length with hlt | rfl | hgt
    · rw [List.getElem?_append_left hlt] at hj
      exact absurd (List.mem_of_getElem? hj) hnot
    · refine ⟨hpos, fun hnext => ?_⟩
      rw [List.getElem?_append_right (Nat.le_add_right _ 1), Nat.add_sub_cancel_left,
        List.getElem?_cons_succ] at hnext
      exact Nat.lt_irrefl 0 (isolated_of_intercalate hparts hnext).1
    · obtain ⟨i, rfl⟩ : ∃ i, j = a.length + (i + 1) := ⟨j - a.length - 1, by omega⟩
      rw [List.getElem?_append_right (by omega), Nat.add_sub_cancel_left,
        List.getElem?_cons_succ] at hj
      refine ⟨by omega, ?_⟩
      rw [List.getElem?_append_right (by omega), Nat.add_assoc, Nat.add_sub_cancel_left,
        List.getElem?_cons_succ]
      exact (isolated_of_intercalate hparts hj).2

/-- **Joined parts are split again.** -/
theorem splitChar_join {sep : Char} {s : String} (hs : ofString s = [char sep]) {parts : List PyStr}
    (hne : parts ≠ []) (h : ∀ part ∈ parts, char sep ∉ part) : splitChar sep (join s parts) = parts := by
  have hsplit := List.splitOn_intercalate (char sep) h hne
  unfold join
  rw [hs]
  exact hsplit

theorem splitLast_append {sep : Char} {s t : PyStr} (h : char sep ∉ t) :
    splitLast sep (s ++ char sep :: t) = (s, t) := by
  have hpos : ∀ c ∈ t.reverse, decide (c ≠ char sep) = true := fun c hc =>
    decide_eq_true fun heq => h (heq ▸ List.mem_reverse.mp hc)
  unfold splitLast List.rdropWhile List.rtakeWhile
  rw [List.reverse_append, List.reverse_cons, List.append_assoc, List.singleton_append,
    List.dropWhile_append_of_pos hpos, List.takeWhile_append_of_pos hpos]
  simp

theorem rstripChars_append {chars : String} {s t : PyStr} (hs : ∀ c ∈ s, c ∉ ofString chars)
    (ht : ∀ c ∈ t, c ∈ ofString chars) : rstripChars chars (s ++ t) = s := by
  have hpos : ∀ c ∈ t.reverse, decide (c ∈ ofString chars) = true := fun c hc =>
    decide_eq_true (ht c (List.mem_reverse.mp hc))
  have hself : rstripChars chars s = s := rdropWhile_eq_self fun c hc => decide_eq_false (hs c hc)
  unfold rstripChars List.rdropWhile at *
  rw [List.reverse_append, List.dropWhile_append_of_pos hpos, hself]

theorem stripChars_append {chars : String} {s t : PyStr} (hs : ∀ c ∈ s, c ∉ ofString chars)
    (ht : ∀ c ∈ t, c ∈ ofString chars) : stripChars chars (s ++ t) = s := by
  have hright : rstripChars chars (s ++ t) = s := rstripChars_append hs ht
  unfold stripChars
  cases s with
  | nil =>
    rw [List.nil_append, List.dropWhile_eq_nil_iff.mpr fun c hc => decide_eq_true (ht c hc)]
    rfl
  | cons c s =>
    rw [List.cons_append, List.dropWhile_cons_of_neg (by simpa using hs c List.mem_cons_self)]
    exact hright

end VantaCore.Lib.PyPrinting
