import Mathlib.Data.List.Basic
import Mathlib.Data.List.DropRight
import VantaCore.Lib.Alignment
import Mathlib.Tactic

/-! # Python strings and `int`

A Python string is a list of code points, lone surrogates included (`PyStr`); Lean's literals are
read as such lists. `int(s, base)` maps the decimal digits and the spaces of other scripts to ASCII
(`toAscii`) and reads digits with single underscores between them and spaces behind them
(`scanDigits`). The methods that take strings apart are those the extractors use. -/

namespace VantaCore.Lib.PyText

/-- A Unicode code point; the surrogates are code points. -/
abbrev CodePoint := Fin 0x110000

/-- A Python string. -/
abbrev PyStr := List CodePoint

instance neZero_codePoints : NeZero (0x110000 : ℕ) := ⟨by decide⟩

instance lawfulBEq_codePoint : LawfulBEq CodePoint := inferInstance

instance lawfulBEq_pyStr : LawfulBEq PyStr := inferInstance

instance lawfulBEq_pyStrPair : LawfulBEq (PyStr × PyStr) := inferInstance

/-- The code points of a Lean string. -/
def ofString (s : String) : PyStr := s.toList.map fun c => Fin.ofNat 0x110000 c.toNat

instance : Coe String PyStr := ⟨ofString⟩

/-- A bytes literal. -/
def ascii (s : String) : List UInt8 := s.toList.map fun c => UInt8.ofNat c.toNat

/-- `bs.decode("latin-1")`, and `bs.decode("ascii")` where it does not raise. -/
def ofBytes (bs : List UInt8) : PyStr := bs.map fun b => Fin.ofNat 0x110000 b.toNat

/-! ### `int` -/

/-- The zeros of the decimal digits (category Nd). -/
def decimalZeros : List ℕ :=
  [0x30, 0x660, 0x6f0, 0x7c0, 0x966, 0x9e6, 0xa66, 0xae6, 0xb66, 0xbe6, 0xc66, 0xce6, 0xd66,
    0xde6, 0xe50, 0xed0, 0xf20, 0x1040, 0x1090, 0x17e0, 0x1810, 0x1946, 0x19d0, 0x1a80, 0x1a90,
    0x1b50, 0x1bb0, 0x1c40, 0x1c50, 0xa620, 0xa8d0, 0xa900, 0xa9d0, 0xa9f0, 0xaa50, 0xabf0,
    0xff10, 0x104a0, 0x10d30, 0x11066, 0x110f0, 0x11136, 0x111d0, 0x112f0, 0x11450, 0x114d0,
    0x11650, 0x116c0, 0x11730, 0x118e0, 0x11950, 0x11c50, 0x11d50, 0x11da0, 0x11f50, 0x16a60,
    0x16ac0, 0x16b50, 0x1d7ce, 0x1d7d8, 0x1d7e2, 0x1d7ec, 0x1d7f6, 0x1e140, 0x1e2f0, 0x1e4f0,
    0x1e950, 0x1fbf0]

/-- The code points `str.isspace` accepts. -/
def spaces : List ℕ :=
  [0x9, 0xa, 0xb, 0xc, 0xd, 0x1c, 0x1d, 0x1e, 0x1f, 0x20, 0x85, 0xa0, 0x1680, 0x2000, 0x2001,
    0x2002, 0x2003, 0x2004, 0x2005, 0x2006, 0x2007, 0x2008, 0x2009, 0x200a, 0x2028, 0x2029,
    0x202f, 0x205f, 0x3000]

/-- The decimal value of a code point. -/
def decimal (c : ℕ) : Option ℕ := (decimalZeros.find? fun z => z ≤ c ∧ c < z + 10).map (c - ·)

/-- Spaces and decimal digits beyond ASCII become ASCII, anything else beyond it `?`. -/
def toAscii (c : ℕ) : ℕ :=
  if c < 127 then c
  else if c ∈ spaces then 32
  else match decimal c with
    | some d => 48 + d
    | none => 63

/-- The value of an ASCII digit or letter. -/
def digitValue (c : ℕ) : Option ℕ :=
  if 48 ≤ c ∧ c ≤ 57 then some (c - 48)
  else if 97 ≤ c ∧ c ≤ 122 then some (c - 87)
  else if 65 ≤ c ∧ c ≤ 90 then some (c - 55)
  else none

/-- C's `isspace`. -/
def isSpace (c : ℕ) : Bool := c = 32 || (9 ≤ c && c ≤ 13)

/-- The digits of `int(s, base)` and the spaces behind them; `digit` says that the last character
was a digit. -/
def scanDigits (base : ℕ) : Bool → ℕ → List ℕ → Option ℕ
  | digit, acc, [] => if digit then some acc else none
  | digit, acc, c :: cs =>
    match (digitValue c).filter (· < base) with
    | some d => scanDigits base true (base * acc + d) cs
    | none =>
      if c = 95 then if digit then scanDigits base false acc cs else none
      else if digit && (c :: cs).all isSpace then some acc
      else none

/-- Digits alone give their value. -/
theorem scanDigits_digits {base : ℕ} {code : ℕ → ℕ} : ∀ {ds : List ℕ} {digit : Bool} {acc : ℕ},
    (∀ d ∈ ds, digitValue (code d) = some d ∧ d < base) → (digit = true ∨ ds ≠ []) →
    scanDigits base digit acc (ds.map code) = some (ds.foldl (fun acc d => base * acc + d) acc)
  | [], digit, acc, _, hne => if_pos (hne.resolve_right fun h => h rfl)
  | d :: ds, digit, acc, hd, _ => by
    obtain ⟨hvalue, hlt⟩ := hd d List.mem_cons_self
    have hdigit : (digitValue (code d)).filter (· < base) = some d := by
      rw [hvalue, Option.filter_some, if_pos (decide_eq_true hlt)]
    have ih : scanDigits base true (base * acc + d) (ds.map code) =
        some (ds.foldl (fun acc d => base * acc + d) (base * acc + d)) :=
      scanDigits_digits (fun e he => hd e (List.mem_cons_of_mem d he)) (Or.inl rfl)
    rw [List.map_cons, scanDigits, hdigit]
    exact ih

/-- `int(s, 16)` of a string that starts with `0x`, `none` for a `ValueError`. One underscore may
follow the prefix. -/
def intHex (s : PyStr) : Option ℕ :=
  match (s.drop 2).map (toAscii ·.val) with
  | 95 :: cs => scanDigits 16 false 0 cs
  | cs => scanDigits 16 false 0 cs

example : intHex "0x_1F " = some 31 := by decide

/-- `int(s)`, `none` for a `ValueError`. -/
def int (s : PyStr) : Option ℤ :=
  match (s.map (toAscii ·.val)).dropWhile isSpace with
  | 45 :: cs => (scanDigits 10 false 0 cs).map fun n => -(n : ℤ)
  | 43 :: cs => (scanDigits 10 false 0 cs).map fun n => (n : ℤ)
  | cs => (scanDigits 10 false 0 cs).map fun n => (n : ℤ)

example : int " -1_0 " = some (-10) := by decide

/-! ### Fields -/

/-- `c.isspace()`. -/
def isWhitespace (c : CodePoint) : Bool := c.val ∈ spaces

/-- The code point of an ASCII character. -/
def char (c : Char) : CodePoint := Fin.ofNat 0x110000 c.toNat

/-- `s.strip()`. -/
def strip (s : PyStr) : PyStr := (s.dropWhile isWhitespace).rdropWhile isWhitespace

/-- `s.strip(chars)`. -/
def stripChars (chars : String) (s : PyStr) : PyStr :=
  (s.dropWhile (· ∈ ofString chars)).rdropWhile (· ∈ ofString chars)

/-- `s.rstrip(chars)`. -/
def rstripChars (chars : String) (s : PyStr) : PyStr := s.rdropWhile (· ∈ ofString chars)

/-- `s.split()`. -/
def split (s : PyStr) : List PyStr := (s.splitOnP isWhitespace).filter (· ≠ [])

/-- `s.split(sep)` for a separator of one character. -/
def splitChar (sep : Char) (s : PyStr) : List PyStr := s.splitOnP (· = char sep)

/-- `s.split(sep)[0]`. -/
def before (sep : Char) (s : PyStr) : PyStr := s.takeWhile (· ≠ char sep)

/-- `s.split(sep, 1)`, where the separator occurs. -/
def splitFirst (sep : Char) (s : PyStr) : PyStr × PyStr :=
  (before sep s, (s.dropWhile (· ≠ char sep)).drop 1)

/-- `s.rsplit(sep, 1)`, where the separator occurs. -/
def splitLast (sep : Char) (s : PyStr) : PyStr × PyStr :=
  ((s.rdropWhile (· ≠ char sep)).dropLast, s.rtakeWhile (· ≠ char sep))

/-- `sep.join(parts)`. -/
def join (sep : String) (parts : List PyStr) : PyStr := (ofString sep).intercalate parts

/-- `s.upper()`, of Latin-1 text. -/
def upper (s : PyStr) : PyStr :=
  s.flatMap fun c =>
    if 0x61 ≤ c.val ∧ c.val ≤ 0x7a ∨ 0xe0 ≤ c.val ∧ c.val ≤ 0xfe ∧ c.val ≠ 0xf7 then
      [Fin.ofNat _ (c.val - 0x20)]
    else if c.val = 0xb5 then [Fin.ofNat _ 0x39c]
    else if c.val = 0xdf then [char 'S', char 'S']
    else if c.val = 0xff then [Fin.ofNat _ 0x178]
    else [c]

/-- `s.lower()`, of Latin-1 text. -/
def lower (s : PyStr) : PyStr :=
  s.map fun c =>
    if 0x41 ≤ c.val ∧ c.val ≤ 0x5a ∨ 0xc0 ≤ c.val ∧ c.val ≤ 0xde ∧ c.val ≠ 0xd7 then
      Fin.ofNat _ (c.val + 0x20)
    else c

/-- `s.isdigit()`, of Latin-1 text: superscripts are digits. -/
def isdigit (s : PyStr) : Bool :=
  s ≠ [] && s.all fun c => 48 ≤ c.val && c.val ≤ 57 || c.val = 0xb2 || c.val = 0xb3 || c.val = 0xb9

/-- The field behind the first field that is `word`. -/
def fieldAfter (word : String) (tokens : List PyStr) : Option PyStr :=
  match tokens.findIdx? (· = ofString word) with
  | none => none
  | some i => tokens[i + 1]?

variable {s t : PyStr} {c : CodePoint}

theorem before_append {sep : Char} (h : char sep ∉ s) :
    before sep (s ++ t) = s ++ before sep t := by
  unfold before
  exact List.takeWhile_append_of_pos fun x hx => decide_eq_true fun heq => h (heq ▸ hx)

/-! ### Hidden characters -/

open VantaCore.Lib.Alignment

/-- The byte is a printable ASCII character and no space. -/
def Visible (b : UInt8) : Prop := 32 < b ∧ b ≤ 126

instance (b : UInt8) : Decidable (Visible b) := inferInstanceAs (Decidable (_ ∧ _))

/-- The character is no white space. -/
def Solid (c : CodePoint) : Prop := isWhitespace c = false

theorem val_ofByte (b : UInt8) : (Fin.ofNat 0x110000 b.toNat).val = b.toNat := by
  have hlt := b.toNat_lt
  exact Nat.mod_eq_of_lt (by omega)

theorem solid_of_visible (b : UInt8) (h : Visible b) : Solid (Fin.ofNat 0x110000 b.toNat) := by
  have hnot : ∀ k < 127, 32 < k → k ∉ spaces := by decide
  have hlow : 32 < b.toNat := UInt8.lt_iff_toNat_lt.mp h.1
  have hhigh : b.toNat ≤ 126 := UInt8.le_iff_toNat_le.mp h.2
  unfold Solid isWhitespace
  rw [val_ofByte]
  exact decide_eq_false (hnot _ (by omega) hlow)

theorem ofBytes_inj {bs bs' : List UInt8} : ofBytes bs = ofBytes bs' ↔ bs = bs' := by
  refine List.map_inj_right fun b b' h => ?_
  rw [← UInt8.toNat_inj, ← val_ofByte b, ← val_ofByte b', h]

theorem mem_ofBytes_iff {b : UInt8} {bs : List UInt8} :
    Fin.ofNat 0x110000 b.toNat ∈ ofBytes bs ↔ b ∈ bs := by
  refine ⟨fun hmem => ?_, List.mem_map_of_mem⟩
  obtain ⟨b', hb', heq⟩ := List.mem_map.mp hmem
  have hval := congrArg Fin.val heq
  rw [val_ofByte, val_ofByte] at hval
  rwa [← UInt8.toNat_inj.mp hval]

theorem aligned_ofBytes {bs bs' : List UInt8} (h : Aligned Visible bs bs') :
    Aligned Solid (ofBytes bs) (ofBytes bs') := aligned_map solid_of_visible h

theorem aligned_strip (h : Aligned Solid s t) : Aligned Solid (strip s) (strip t) :=
  aligned_rdropWhile (fun _ h => h) (aligned_dropWhile (fun _ h => h) h)

/-- **Stripping hides nothing** of texts that differ in solid characters. -/
theorem strip_eq_iff (h : Aligned Solid s t) : strip s = strip t ↔ s = t := by
  unfold strip
  rw [rdropWhile_eq_iff (fun _ h => h) (aligned_dropWhile (fun _ h => h) h),
    dropWhile_eq_iff (fun _ h => h) h]

theorem rdropWhile_eq_self {α : Type*} {p : α → Bool} {l : List α} (h : ∀ a ∈ l, p a = false) :
    l.rdropWhile p = l :=
  List.rdropWhile_eq_self_iff.mpr fun hl => by
    rw [h _ (List.getLast_mem hl)]
    decide

theorem dropWhile_eq_self {α : Type*} {p : α → Bool} {l : List α} (h : ∀ a ∈ l, p a = false) :
    l.dropWhile p = l := by
  cases l with
  | nil => rfl
  | cons a l => exact List.dropWhile_cons_of_neg (by rw [h a List.mem_cons_self]; decide)

/-- Text without whitespace is not changed. -/
theorem strip_of_solid (h : ∀ c ∈ s, Solid c) : strip s = s := by
  unfold strip
  rw [dropWhile_eq_self h, rdropWhile_eq_self h]

/-- A text with a character that is no white space is not stripped away. -/
theorem strip_ne_nil (h : ∃ c ∈ s, Solid c) : strip s ≠ [] := by
  obtain ⟨c, hc, hsolid⟩ := h
  have hne : s.dropWhile isWhitespace ≠ [] := fun hnil => by
    have hall := List.dropWhile_eq_nil_iff.mp hnil c hc
    exact Bool.false_ne_true (hsolid.symm.trans hall)
  have hhead : isWhitespace ((s.dropWhile isWhitespace).head hne) = false :=
    List.head_dropWhile_not isWhitespace hne
  intro hnil
  have hall := List.rdropWhile_eq_nil_iff.mp hnil _ (List.head_mem hne)
  exact Bool.false_ne_true (hhead.symm.trans hall)

theorem join_cons_cons (sep : String) (a b : PyStr) (parts : List PyStr) :
    join sep (a :: b :: parts) = a ++ (ofString sep ++ join sep (b :: parts)) := by
  simp [join, List.intercalate, List.intersperse]

/-- **Parts of one length are told from their join.** -/
theorem join_eq_iff {sep : String} {parts parts' : List PyStr}
    (h : List.Forall₂ (fun t t' : PyStr => t.length = t'.length) parts parts') :
    join sep parts = join sep parts' ↔ parts = parts' := by
  refine ⟨fun heq => ?_, congrArg _⟩
  induction h with
  | nil => rfl
  | @cons a a' l l' ha hl ih =>
    cases hl with
    | nil =>
      simp only [join, List.intercalate, List.intersperse, List.flatten_cons, List.flatten_nil,
        List.append_nil] at heq
      rw [heq]
    | @cons b b' l l' hb hl =>
      rw [join_cons_cons, join_cons_cons] at heq
      obtain ⟨hhead, htail⟩ := List.append_inj heq ha
      rw [hhead, ih (List.append_cancel_left htail)]

theorem length_join_add (sep : String) : ∀ {parts : List PyStr}, parts ≠ [] →
    (join sep parts).length + (ofString sep).length =
      (parts.map fun t => t.length + (ofString sep).length).sum
  | [], h => absurd rfl h
  | [a], _ => by simp [join, List.intercalate, List.intersperse]
  | a :: b :: parts, _ => by
    have ih := length_join_add sep (List.cons_ne_nil b parts)
    rw [join_cons_cons, List.map_cons, List.sum_cons, ← ih, List.length_append, List.length_append]
    omega

theorem length_join_congr {sep : String} {parts parts' : List PyStr}
    (h : List.Forall₂ (fun t t' : PyStr => t.length = t'.length) parts parts') :
    (join sep parts).length = (join sep parts').length := by
  by_cases hnil : parts = []
  · subst hnil
    rw [List.forall₂_nil_left_iff.mp h]
  · have hnil' : parts' ≠ [] := fun hnil' => by
      subst hnil'
      exact hnil (List.forall₂_nil_right_iff.mp h)
    have hsum : (parts.map fun t => t.length + (ofString sep).length) =
        parts'.map fun t => t.length + (ofString sep).length := by
      rw [← List.forall₂_eq_eq_eq, List.forall₂_map_left_iff, List.forall₂_map_right_iff]
      exact h.imp fun _ _ hab => congrArg (· + _) hab
    have hjoin := length_join_add sep hnil
    have hjoin' := length_join_add sep hnil'
    rw [hsum] at hjoin
    omega

theorem sublist_eq_of_sum_eq {α : Type*} {f : α → ℕ} {l l' : List α} (h : l.Sublist l')
    (hpos : ∀ a ∈ l', 0 < f a) (hsum : (l.map f).sum = (l'.map f).sum) : l = l' := by
  induction h with
  | slnil => rfl
  | @cons l l' a h ih =>
    have hle := (h.map f).sum_le_sum fun _ _ => Nat.zero_le _
    have ha := hpos a List.mem_cons_self
    rw [List.map_cons, List.sum_cons] at hsum
    omega
  | @cons_cons l l' a h ih =>
    rw [List.map_cons, List.map_cons, List.sum_cons, List.sum_cons, Nat.add_left_cancel_iff] at hsum
    rw [ih (fun b hb => hpos b (List.mem_cons_of_mem a hb)) hsum]

/-- **No part is left out of a join** without its length showing it. -/
theorem eq_of_length_join_eq {sep : String} {parts parts' : List PyStr} (h : parts.Sublist parts')
    (hne : ∀ t ∈ parts', t ≠ []) (hlen : (join sep parts).length = (join sep parts').length) :
    parts = parts' := by
  have hpos : ∀ t ∈ parts', 0 < t.length + (ofString sep).length := fun t ht =>
    Nat.add_pos_left (List.length_pos_of_ne_nil (hne t ht)) _
  by_cases hnil' : parts' = []
  · subst hnil'
    exact List.sublist_nil.mp h
  · have hjoin' := length_join_add sep hnil'
    by_cases hnil : parts = []
    · subst hnil
      obtain ⟨t, rest, rfl⟩ := List.exists_cons_of_ne_nil hnil'
      have ht := List.length_pos_of_ne_nil (hne t List.mem_cons_self)
      have hzero : (join sep []).length = 0 := rfl
      rw [List.map_cons, List.sum_cons] at hjoin'
      omega
    · have hjoin := length_join_add sep hnil
      exact sublist_eq_of_sum_eq h hpos (by omega)

/-! ### Splitting at whitespace -/

theorem split_append_cons (hc : isWhitespace c = true) :
    split (s ++ c :: t) = split s ++ split t := by
  unfold split
  rw [List.splitOnP_append_cons s t hc, List.filter_append]

theorem split_dropWhile : ∀ s : PyStr, split (s.dropWhile isWhitespace) = split s
  | [] => rfl
  | c :: s => by
    by_cases hc : isWhitespace c = true
    · have hcons : split (c :: s) = split s := split_append_cons (s := []) hc
      rw [List.dropWhile_cons_of_pos hc, split_dropWhile s, hcons]
    · rw [List.dropWhile_cons_of_neg hc]

theorem split_rdropWhile (s : PyStr) : split (s.rdropWhile isWhitespace) = split s := by
  induction s using List.reverseRecOn with
  | nil => rfl
  | append_singleton s c ih =>
    by_cases hc : isWhitespace c = true
    · have hconcat : split (s ++ [c]) = split s ++ split [] := split_append_cons hc
      rw [List.rdropWhile_concat_pos _ _ _ hc, ih, hconcat]
      exact (List.append_nil _).symm
    · rw [List.rdropWhile_concat_neg _ _ _ hc]

/-- **The whitespace at the ends does not matter.** -/
theorem split_strip (s : PyStr) : split (strip s) = split s := by
  unfold strip
  rw [split_rdropWhile, split_dropWhile]

example : split " a  b" = ["a", "b"] := by decide
example : splitLast ':' "a:b:c" = (ofString "a:b", ofString "c") := by decide

end VantaCore.Lib.PyText
