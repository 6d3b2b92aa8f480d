import VantaCore.Lib.PyText

/-! # JSON strings

A JSON string is a list of UTF-16 code units: the code points of a Python string beyond `0xffff`
are written as a pair of surrogates (`units`), and a pair that is read becomes one code point
(`ofUnits`), so two lone surrogates in a row do not come back as they were (`units_ofUnits` is the
one round trip there is). `quote` escapes what is not printable ASCII, and `scanString` reads it
back (`scanString_quote`). -/

namespace VantaCore.Lib.Json.Strings

open VantaCore.Lib.PyText

/-- A UTF-16 code unit. -/
abbrev CodeUnit := Fin 0x10000

/-- The first of a pair of surrogates. -/
def IsHigh (u : CodeUnit) : Prop := 0xd800 ≤ u.val ∧ u.val < 0xdc00

/-- The second of a pair of surrogates. -/
def IsLow (u : CodeUnit) : Prop := 0xdc00 ≤ u.val ∧ u.val < 0xe000

instance (u : CodeUnit) : Decidable (IsHigh u) := inferInstanceAs (Decidable (_ ∧ _))
instance (u : CodeUnit) : Decidable (IsLow u) := inferInstanceAs (Decidable (_ ∧ _))

/-- The code units of a code point. -/
def unitsOf (c : CodePoint) : List CodeUnit :=
  if c.val < 0x10000 then [Fin.ofNat _ c.val]
  else [Fin.ofNat _ (0xd800 + (c.val - 0x10000) / 0x400),
    Fin.ofNat _ (0xdc00 + (c.val - 0x10000) % 0x400)]

/-- The code units of a string. -/
def units (s : PyStr) : List CodeUnit := s.flatMap unitsOf

/-- The code point of a pair of surrogates. -/
def combine (u v : CodeUnit) : CodePoint :=
  Fin.ofNat _ (0x10000 + (u.val - 0xd800) * 0x400 + (v.val - 0xdc00))

/-- The string of a list of code units. -/
def ofUnits : List CodeUnit → PyStr
  | [] => []
  | [u] => [Fin.ofNat _ u.val]
  | u :: v :: us =>
    if IsHigh u ∧ IsLow v then combine u v :: ofUnits us
    else Fin.ofNat _ u.val :: ofUnits (v :: us)

/-- A string as it comes back from JSON. -/
def normal (s : PyStr) : PyStr := ofUnits (units s)

theorem unitsOf_unit (u : CodeUnit) : unitsOf (Fin.ofNat _ u.val) = [u] := by
  have h := u.isLt
  have hval : (Fin.ofNat 0x110000 u.val).val = u.val := Nat.mod_eq_of_lt (by omega)
  unfold unitsOf
  rw [if_pos (by rw [hval]; exact h), hval]
  exact congrArg (· :: []) (Fin.ext (Nat.mod_eq_of_lt h))

theorem unitsOf_combine {u v : CodeUnit} (hu : IsHigh u) (hv : IsLow v) :
    unitsOf (combine u v) = [u, v] := by
  obtain ⟨hu₁, hu₂⟩ := hu
  obtain ⟨hv₁, hv₂⟩ := hv
  have hval : (combine u v).val = 0x10000 + (u.val - 0xd800) * 0x400 + (v.val - 0xdc00) :=
    Nat.mod_eq_of_lt (by omega)
  unfold unitsOf
  rw [if_neg (by rw [hval]; omega), hval]
  have h₁ : Fin.ofNat 0x10000 (0xd800 +
      (0x10000 + (u.val - 0xd800) * 0x400 + (v.val - 0xdc00) - 0x10000) / 0x400) = u :=
    Fin.ext (by rw [Fin.val_ofNat, Nat.mod_eq_of_lt] <;> omega)
  have h₂ : Fin.ofNat 0x10000 (0xdc00 +
      (0x10000 + (u.val - 0xd800) * 0x400 + (v.val - 0xdc00) - 0x10000) % 0x400) = v :=
    Fin.ext (by rw [Fin.val_ofNat, Nat.mod_eq_of_lt] <;> omega)
  rw [h₁, h₂]

/-- **What is written after reading is what was read.** -/
theorem units_ofUnits : ∀ us : List CodeUnit, units (ofUnits us) = us
  | [] => rfl
  | [u] => by rw [ofUnits, units, List.flatMap_cons, unitsOf_unit]; rfl
  | u :: v :: us => by
    have ih₁ := units_ofUnits us
    have ih₂ := units_ofUnits (v :: us)
    unfold units at ih₁ ih₂ ⊢
    rw [ofUnits]
    split_ifs with h
    · rw [List.flatMap_cons, unitsOf_combine h.1 h.2, ih₁]
      rfl
    · rw [List.flatMap_cons, unitsOf_unit, ih₂]
      rfl

/-! ### Strings that come back -/

/-- A string UTF-8 encodes: no surrogates. -/
def Utf8Encodable (s : PyStr) : Prop := ∀ c ∈ s, c.val < 0xd800 ∨ 0xe000 ≤ c.val

instance (s : PyStr) : Decidable (Utf8Encodable s) := List.decidableBAll _ s

/-- A string below the surrogates. -/
def Low (s : PyStr) : Prop := ∀ c ∈ s, c.val < 0xd800

instance (s : PyStr) : Decidable (Low s) := List.decidableBAll _ s

theorem Low.encodable {s : PyStr} (h : Low s) : Utf8Encodable s := fun c hc => Or.inl (h c hc)

theorem ofUnits_cons {u : CodeUnit} (hu : ¬ IsHigh u) :
    ∀ us : List CodeUnit, ofUnits (u :: us) = Fin.ofNat _ u.val :: ofUnits us
  | [] => rfl
  | v :: us => by rw [ofUnits, if_neg (fun h => hu h.1)]

/-- A code point beyond `0xffff`: its pair of surrogates, and the code point of the pair. -/
theorem unitsOf_astral {c : CodePoint} (h : 0x10000 ≤ c.val) :
    ∃ u v, unitsOf c = [u, v] ∧ IsHigh u ∧ IsLow v ∧ combine u v = c := by
  have hc := c.isLt
  have hu : (Fin.ofNat 0x10000 (0xd800 + (c.val - 0x10000) / 0x400)).val =
      0xd800 + (c.val - 0x10000) / 0x400 := Nat.mod_eq_of_lt (by omega)
  have hv : (Fin.ofNat 0x10000 (0xdc00 + (c.val - 0x10000) % 0x400)).val =
      0xdc00 + (c.val - 0x10000) % 0x400 := Nat.mod_eq_of_lt (by omega)
  refine ⟨_, _, if_neg (by omega), ⟨by omega, by omega⟩, ⟨by omega, by omega⟩, Fin.ext ?_⟩
  rw [combine, hu, hv, Fin.val_ofNat, Nat.mod_eq_of_lt] <;> omega

theorem unitsOf_plane {c : CodePoint} (h : c.val < 0x10000) :
    ∃ u, unitsOf c = [u] ∧ u.val = c.val :=
  ⟨_, if_pos h, Nat.mod_eq_of_lt h⟩

theorem ofUnits_unitsOf {c : CodePoint} (hc : c.val < 0xd800 ∨ 0xe000 ≤ c.val)
    (us : List CodeUnit) : ofUnits (unitsOf c ++ us) = c :: ofUnits us := by
  rcases Nat.lt_or_ge c.val 0x10000 with h | h
  · obtain ⟨u, hu, hval⟩ := unitsOf_plane h
    have hnot : ¬ IsHigh u := fun hh => by have := hh.1; have := hh.2; omega
    rw [hu, List.singleton_append, ofUnits_cons hnot, hval]
    exact congrArg (· :: _) (Fin.ext (Nat.mod_eq_of_lt c.isLt))
  · obtain ⟨u, v, hu, hhigh, hlow, hcombine⟩ := unitsOf_astral h
    rw [hu, List.cons_append, List.singleton_append, ofUnits, if_pos ⟨hhigh, hlow⟩, hcombine]

/-- **A string without surrogates comes back as it was.** -/
theorem normal_of_encodable : ∀ {s : PyStr}, Utf8Encodable s → normal s = s
  | [], _ => rfl
  | c :: s, h => by
    rw [Utf8Encodable, List.forall_mem_cons] at h
    rw [normal, units, List.flatMap_cons, ofUnits_unitsOf h.1]
    exact congrArg (c :: ·) (normal_of_encodable h.2)

/-- No other string is written as one below the surrogates. -/
theorem eq_of_units_eq : ∀ {s t : PyStr}, Low t → units s = units t → s = t
  | [], [], _, _ => rfl
  | c :: s, [], _, h => by
    rcases Nat.lt_or_ge c.val 0x10000 with hc | hc
    · obtain ⟨u, hu, -⟩ := unitsOf_plane hc
      simp [units, hu] at h
    · obtain ⟨u, v, hu, -⟩ := unitsOf_astral hc
      simp [units, hu] at h
  | [], d :: t, ht, h => by
    obtain ⟨u, hu, -⟩ := unitsOf_plane (c := d) (by have := ht d List.mem_cons_self; omega)
    simp [units, hu] at h
  | c :: s, d :: t, ht, h => by
    rw [Low, List.forall_mem_cons] at ht
    obtain ⟨v, hv, hval⟩ := unitsOf_plane (c := d) (by omega)
    rw [units, units, List.flatMap_cons, List.flatMap_cons, hv, List.singleton_append] at h
    rcases Nat.lt_or_ge c.val 0x10000 with hc | hc
    · obtain ⟨u, hu, hval'⟩ := unitsOf_plane hc
      rw [hu, List.singleton_append, List.cons.injEq] at h
      have hcd : c = d := Fin.ext (by rw [← hval, ← hval', h.1])
      rw [hcd, eq_of_units_eq ht.2 h.2]
    · obtain ⟨u, w, hu, hhigh, -⟩ := unitsOf_astral hc
      rw [hu, List.cons_append, List.cons.injEq] at h
      have := hhigh.1
      rw [h.1, hval] at this
      omega

/-! ### Quoting -/

/-- A hexadecimal digit, in lower case. -/
def hexDigit (d : ℕ) : Char := if d < 10 then Char.ofNat (48 + d) else Char.ofNat (87 + d)

/-- The value of a hexadecimal digit. -/
def hexValue (c : Char) : Option ℕ :=
  if '0' ≤ c ∧ c ≤ '9' then some (c.toNat - 48)
  else if 'a' ≤ c ∧ c ≤ 'f' then some (c.toNat - 87)
  else if 'A' ≤ c ∧ c ≤ 'F' then some (c.toNat - 55)
  else none

/-- A code unit in a string, with `ensure_ascii`. -/
def escapeUnit (u : CodeUnit) : List Char :=
  if u.val = 0x22 then ['\\', '"']
  else if u.val = 0x5c then ['\\', '\\']
  else if u.val = 0x0a then ['\\', 'n']
  else if u.val = 0x0d then ['\\', 'r']
  else if u.val = 0x09 then ['\\', 't']
  else if u.val = 0x0c then ['\\', 'f']
  else if u.val = 0x08 then ['\\', 'b']
  else if 0x20 ≤ u.val ∧ u.val ≤ 0x7e then [Char.ofNat u.val]
  else ['\\', 'u', hexDigit (u.val / 0x1000), hexDigit (u.val / 0x100 % 16),
    hexDigit (u.val / 0x10 % 16), hexDigit (u.val % 16)]

/-- `py_encode_basestring_ascii`. -/
def quote (us : List CodeUnit) : List Char := '"' :: (us.flatMap escapeUnit ++ ['"'])

/-- The code unit of an escape of one letter. -/
def unescape (c : Char) : Option CodeUnit :=
  match c with
  | '"' => some 0x22
  | '\\' => some 0x5c
  | '/' => some 0x2f
  | 'b' => some 0x08
  | 'f' => some 0x0c
  | 'n' => some 0x0a
  | 'r' => some 0x0d
  | 't' => some 0x09
  | _ => none

/-- The code unit of four hexadecimal digits. -/
def hexUnit (a b c d : Char) : Option CodeUnit := do
  let a ← hexValue a
  let b ← hexValue b
  let c ← hexValue c
  let d ← hexValue d
  some (Fin.ofNat _ (a * 0x1000 + b * 0x100 + c * 0x10 + d))

/-- `scanstring`: the string up to its closing quote, and the rest. -/
def scanString : List Char → Option (List CodeUnit × List Char)
  | [] => none
  | '"' :: cs => some ([], cs)
  | '\\' :: 'u' :: a :: b :: c :: d :: cs =>
    match hexUnit a b c d with
    | some u => (scanString cs).map fun p => (u :: p.1, p.2)
    | none => none
  | '\\' :: c :: cs =>
    match unescape c with
    | some u => (scanString cs).map fun p => (u :: p.1, p.2)
    | none => none
  | c :: cs =>
    if c.toNat < 0x20 ∨ c = '\\' then none
    else (scanString cs).map fun p => (unitsOf (Fin.ofNat _ c.toNat) ++ p.1, p.2)

theorem hexValue_hexDigit : ∀ d < 16, hexValue (hexDigit d) = some d := by decide

theorem hexUnit_hexDigit (u : CodeUnit) : hexUnit (hexDigit (u.val / 0x1000))
    (hexDigit (u.val / 0x100 % 16)) (hexDigit (u.val / 0x10 % 16)) (hexDigit (u.val % 16)) =
      some u := by
  have h := u.isLt
  unfold hexUnit
  rw [hexValue_hexDigit _ (by omega), hexValue_hexDigit _ (by omega),
    hexValue_hexDigit _ (by omega), hexValue_hexDigit _ (by omega)]
  refine congrArg some (Fin.ext ?_)
  rw [Fin.val_ofNat, Nat.mod_eq_of_lt] <;> omega

theorem scanString_plain {c : Char} (hlo : 0x20 ≤ c.toNat) (hq : c ≠ '"') (hb : c ≠ '\\')
    (cs : List Char) : scanString (c :: cs) =
      (scanString cs).map fun p => (unitsOf (Fin.ofNat _ c.toNat) ++ p.1, p.2) := by
  rw [scanString.eq_def]
  split
  · simp_all
  · simp_all
  · simp_all
  · simp_all
  · rename_i h
    obtain ⟨rfl, rfl⟩ := List.cons.inj h
    rw [if_neg]
    rintro (h | h)
    · omega
    · exact hb h

theorem scanString_escapeUnit (u : CodeUnit) (cs : List Char) :
    scanString (escapeUnit u ++ cs) = (scanString cs).map fun p => (u :: p.1, p.2) := by
  unfold escapeUnit
  split_ifs with h₁ h₂ h₃ h₄ h₅ h₆ h₇ h₈
  · obtain rfl : u = 0x22 := Fin.ext h₁
    simp [scanString, unescape]
  · obtain rfl : u = 0x5c := Fin.ext h₂
    simp [scanString, unescape]
  · obtain rfl : u = 0x0a := Fin.ext h₃
    simp [scanString, unescape]
  · obtain rfl : u = 0x0d := Fin.ext h₄
    simp [scanString, unescape]
  · obtain rfl : u = 0x09 := Fin.ext h₅
    simp [scanString, unescape]
  · obtain rfl : u = 0x0c := Fin.ext h₆
    simp [scanString, unescape]
  · obtain rfl : u = 0x08 := Fin.ext h₇
    simp [scanString, unescape]
  · have hnat : (Char.ofNat u.val).toNat = u.val := by
      rw [Char.ofNat, dif_pos (Or.inl (by omega))]
      rfl
    have hq : Char.ofNat u.val ≠ '"' := fun h => h₁ (by rw [← hnat, h]; rfl)
    have hb : Char.ofNat u.val ≠ '\\' := fun h => h₂ (by rw [← hnat, h]; rfl)
    rw [List.singleton_append, scanString_plain (by omega) hq hb, hnat, unitsOf_unit]
    rfl
  · simp only [List.cons_append, List.nil_append, scanString, hexUnit_hexDigit]

theorem scanString_flatMap : ∀ (us : List CodeUnit) (cs : List Char),
    scanString (us.flatMap escapeUnit ++ '"' :: cs) = some (us, cs)
  | [], cs => by simp [scanString]
  | u :: us, cs => by
    rw [List.flatMap_cons, List.append_assoc, scanString_escapeUnit, scanString_flatMap us cs]
    rfl

/-- **A quoted string is read back.** -/
theorem scanString_quote (us : List CodeUnit) (cs : List Char) :
    scanString ((quote us).tail ++ cs) = some (us, cs) := by
  rw [quote, List.tail_cons, List.append_assoc]
  exact scanString_flatMap us cs

end VantaCore.Lib.Json.Strings
