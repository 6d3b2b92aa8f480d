import VantaCore.Lib.Json.Text

/-! # The text of a value is read back

The scanner inverts the printer (`parse_print`), so a text is the text of one value only
(`print_injective`). A printed value holds no line break, and a printed object ends with its brace
(`newline_not_mem_print`, `print_obj`). -/

namespace VantaCore.Lib.Json.RoundTrip

open VantaCore.Lib.Json.Strings VantaCore.Lib.Json.Text

variable {F : Type} [FloatText F]

/-! ### Numbers -/

theorem takeWhile_digits {ds cs : List Char} (hds : ∀ c ∈ ds, c.isDigit = true)
    (hcs : NumberEnd cs) : (ds ++ cs).takeWhile Char.isDigit = ds := by
  rw [List.takeWhile_append_of_pos hds]
  cases cs with
  | nil => simp
  | cons c cs => rw [List.takeWhile_cons_of_neg (by rw [hcs.1]; decide), List.append_nil]

theorem dropWhile_digits {ds cs : List Char} (hds : ∀ c ∈ ds, c.isDigit = true)
    (hcs : NumberEnd cs) : (ds ++ cs).dropWhile Char.isDigit = cs := by
  rw [List.dropWhile_append_of_pos hds]
  cases cs with
  | nil => rfl
  | cons c cs => rw [List.dropWhile_cons_of_neg (by rw [hcs.1]; decide)]

theorem scanFrac_end {cs : List Char} (h : NumberEnd cs) : scanFrac cs = ([], cs) := by
  unfold scanFrac
  split
  · exact absurd rfl h.2.1
  · rfl

theorem scanExp_end {cs : List Char} (h : NumberEnd cs) : scanExp cs = ([], cs) := by
  cases cs with
  | nil => rfl
  | cons c cs => rw [scanExp, if_neg (by rintro (rfl | rfl) <;> simp [NumberEnd] at h)]

theorem isDigit_toDigits (n : ℕ) : ∀ c ∈ Nat.toDigits 10 n, c.isDigit = true :=
  fun _ hc => Nat.isDigit_of_mem_toDigits (by decide) (by decide) hc

/-- The digits of a positive number do not start with `0`. -/
theorem toDigits_head (n : ℕ) : 0 < n → ∃ c cs, Nat.toDigits 10 n = c :: cs ∧ c ≠ '0' := by
  induction n using Nat.strong_induction_on with
  | _ n ih =>
    intro hn
    by_cases hlt : n < 10
    · have hchar : ∀ d < 10, 0 < d → Nat.digitChar d ≠ '0' := by decide
      exact ⟨_, [], Nat.toDigits_of_lt_base hlt, hchar n hlt hn⟩
    · obtain ⟨c, cs, hcs, hc⟩ := ih (n / 10) (by omega) (by omega)
      rw [Nat.toDigits_of_base_le (by decide) (by omega), hcs]
      exact ⟨c, _, rfl, hc⟩

theorem scanInt_toDigits (n : ℕ) {cs : List Char} (h : NumberEnd cs) :
    scanInt (Nat.toDigits 10 n ++ cs) = some (Nat.toDigits 10 n, cs) := by
  rcases Nat.eq_zero_or_pos n with rfl | hn
  · rfl
  · obtain ⟨c, ds, hds, hc⟩ := toDigits_head n hn
    have hall := isDigit_toDigits n
    rw [hds] at hall ⊢
    rw [List.cons_append, scanInt, if_pos (hall c List.mem_cons_self), ← List.cons_append,
      takeWhile_digits hall h, dropWhile_digits hall h]
    exact fun he => hc he

theorem intValue_toDigits (n : ℕ) : intValue [] (Nat.toDigits 10 n) = n := by
  rw [intValue, if_pos rfl, Nat.ofDigitChars_toDigits (by decide) (by decide)]

theorem intValue_neg_toDigits (n : ℕ) : intValue ['-'] (Nat.toDigits 10 n) = -n := by
  rw [intValue, if_neg (by decide), Nat.ofDigitChars_toDigits (by decide) (by decide)]

/-- **An integer is read back.** -/
theorem scanNumber_printInt (z : ℤ) {cs : List Char} (h : NumberEnd cs) :
    scanNumber (printInt z ++ cs) = some (.int z, cs) := by
  have hscan := scanInt_toDigits z.natAbs h
  unfold printInt
  split_ifs with hz
  · have hsign : scanSign ('-' :: (Nat.toDigits 10 z.natAbs ++ cs)) =
        (['-'], Nat.toDigits 10 z.natAbs ++ cs) := rfl
    rw [List.cons_append, scanNumber, hsign]
    simp only [hscan, scanFrac_end h, scanExp_end h, intValue_neg_toDigits, and_self, if_true]
    congr
    omega
  · have hsign : scanSign (Nat.toDigits 10 z.natAbs ++ cs) =
        ([], Nat.toDigits 10 z.natAbs ++ cs) := by
      unfold scanSign
      split
      · rename_i hl
        cases hds : Nat.toDigits 10 z.natAbs with
        | nil => exact absurd hds Nat.toDigits_ne_nil
        | cons d ds =>
          rw [hds, List.cons_append] at hl
          have hd := isDigit_toDigits z.natAbs d (by rw [hds]; exact List.mem_cons_self)
          rw [(List.cons.inj hl).1] at hd
          exact absurd hd (by decide)
      · rfl
    rw [scanNumber, hsign]
    simp only [hscan, scanFrac_end h, scanExp_end h, intValue_toDigits, and_self, if_true]
    congr
    omega

/-- What a number can start with. -/
theorem scanNumber_head {cs : List Char} {r : Number × List Char} (h : scanNumber cs = some r) :
    ∃ c cs', cs = c :: cs' ∧ (c = '-' ∨ c.isDigit = true) := by
  unfold scanNumber at h
  unfold scanSign at h
  split at h
  rename_i hsign
  split at hsign
  · exact ⟨_, _, rfl, Or.inl rfl⟩
  · obtain ⟨rfl, rfl⟩ := Prod.mk.inj hsign
    unfold scanInt at h
    split at h
    · cases h
    · rename_i hint
      split at hint
      · cases hint
      · exact ⟨_, _, rfl, Or.inr (by decide)⟩
      · split_ifs at hint with hd
        exact ⟨_, _, rfl, Or.inr hd⟩

/-! ### Scalars -/

theorem scanScalar_int (z : ℤ) {cs : List Char} (h : NumberEnd cs) :
    scanScalar (printInt z ++ cs) = some ((.int z : JsonTree F), cs) := by
  rw [scanScalar, scanNumber_printInt z h]

theorem scanScalar_float (x : PyFloat F) {cs : List Char} (h : NumberEnd cs) :
    scanScalar (printFloat x ++ cs) = some (.float x, cs) := by
  cases x with
  | finite x =>
    rw [printFloat, scanScalar, FloatText.scan_repr x cs h]
    simp only [FloatText.ofLiteral_repr]
  | nan => rfl
  | infinity => rfl
  | negInfinity => rfl

/-! ### Values -/

/-- The text starts with neither white space nor the end of an array or an object. -/
def Starts (cs : List Char) : Prop :=
  ∃ c cs', cs = c :: cs' ∧ c ≠ ' ' ∧ c ≠ '\t' ∧ c ≠ '\n' ∧ c ≠ '\r' ∧ c ≠ ']' ∧ c ≠ '}'

theorem Starts.append {cs : List Char} (h : Starts cs) (cs' : List Char) : Starts (cs ++ cs') := by
  obtain ⟨c, cs'', rfl, h⟩ := h
  exact ⟨c, cs'' ++ cs', rfl, h⟩

theorem Starts.skipSpace {cs : List Char} (h : Starts cs) : skipSpace cs = cs := by
  obtain ⟨c, cs', rfl, h₁, h₂, h₃, h₄, -, -⟩ := h
  exact List.dropWhile_cons_of_neg (by simp [h₁, h₂, h₃, h₄])

theorem starts_of_scanNumber {cs : List Char} {r : Number × List Char}
    (h : scanNumber cs = some r) : Starts cs := by
  obtain ⟨c, cs', rfl, hc⟩ := scanNumber_head h
  refine ⟨c, cs', rfl, ?_⟩
  rcases hc with rfl | hc
  · decide
  · refine ⟨?_, ?_, ?_, ?_, ?_, ?_⟩ <;> rintro rfl <;> revert hc <;> decide

theorem starts_print (x : JsonTree F) : Starts (print x) := by
  have hnum : ∀ {l : List Char} {r}, scanNumber (l ++ []) = some r → Starts l := fun h => by
    rw [List.append_nil] at h
    exact starts_of_scanNumber h
  cases x with
  | null => exact ⟨_, _, rfl, by decide⟩
  | bool b => cases b <;> exact ⟨_, _, rfl, by decide⟩
  | int z => exact hnum (scanNumber_printInt z trivial)
  | float x =>
    cases x with
    | finite x => exact hnum (FloatText.scan_repr x [] trivial)
    | nan => exact ⟨_, _, rfl, by decide⟩
    | infinity => exact ⟨_, _, rfl, by decide⟩
    | negInfinity => exact ⟨_, _, rfl, by decide⟩
  | str us => exact ⟨_, _, rfl, by decide⟩
  | arr xs => cases xs <;> exact ⟨_, _, rfl, by decide⟩
  | obj es => cases es <;> exact ⟨_, _, rfl, by decide⟩

theorem numberEnd_printItems (xs : List (JsonTree F)) (cs : List Char) :
    NumberEnd (printItems xs ++ cs) := by
  cases xs <;> exact ⟨by decide, by decide, by decide, by decide⟩

theorem numberEnd_printEntries (es : List (List CodeUnit × JsonTree F)) (cs : List Char) :
    NumberEnd (printEntries es ++ cs) := by
  rcases es with _ | ⟨⟨k, x⟩, es⟩ <;> exact ⟨by decide, by decide, by decide, by decide⟩

theorem scanKey_quote (k : List CodeUnit) {cs : List Char} (h : Starts cs) :
    scanKey (quote k ++ ':' :: ' ' :: cs) = some (k, cs) := by
  have hquote : quote k = '"' :: (quote k).tail := rfl
  have hspace : skipSpace (':' :: ' ' :: cs) = ':' :: ' ' :: cs := rfl
  have hskip : skipSpace (' ' :: cs) = cs := h.skipSpace
  rw [hquote, List.cons_append, scanKey, scanString_quote]
  simp only [hspace, hskip]

theorem scanValue_scalar {n : ℕ} {cs : List Char}
    (h : ∀ c cs', cs = c :: cs' → c ≠ '"' ∧ c ≠ '[' ∧ c ≠ '{') :
    scanValue (n + 1) cs = scanScalar (F := F) cs := by
  rw [scanValue]
  · rintro cs' rfl; exact (h _ _ rfl).1 rfl
  · rintro cs' rfl; exact (h _ _ rfl).2.1 rfl
  · rintro cs' rfl; exact (h _ _ rfl).2.2 rfl

theorem not_bracket_of_scanNumber {cs : List Char} {r : Number × List Char}
    (h : scanNumber cs = some r) : ∀ c cs', cs = c :: cs' → c ≠ '"' ∧ c ≠ '[' ∧ c ≠ '{' := by
  rintro c cs' rfl
  obtain ⟨c', cs'', h', hc⟩ := scanNumber_head h
  obtain ⟨rfl, rfl⟩ := List.cons.inj h'
  rcases hc with rfl | hc
  · decide
  · refine ⟨?_, ?_, ?_⟩ <;> rintro rfl <;> exact absurd hc (by decide)

/-- An array with a first item. -/
theorem scanValue_arr {n : ℕ} {cs cs' : List Char} {x : JsonTree F} (hcs : Starts cs)
    (hx : scanValue n cs = some (x, cs')) :
    scanValue (n + 1) ('[' :: cs) = (scanItems n cs').map fun p => (.arr (x :: p.1), p.2) := by
  have hskip := hcs.skipSpace
  obtain ⟨c, l, rfl, -, -, -, -, hc, -⟩ := hcs
  rw [scanValue, hskip]
  split
  · rename_i h
    exact absurd (List.cons.inj h).1 hc
  · rw [hx]

/-- An object with a first entry. -/
theorem scanValue_obj {n : ℕ} {k : List CodeUnit} {cs cs' : List Char} {x : JsonTree F}
    (hcs : Starts cs) (hx : scanValue n cs = some (x, cs')) :
    scanValue (n + 1) ('{' :: (quote k ++ ':' :: ' ' :: cs)) =
      (scanEntries n cs').map fun p => (.obj ((k, x) :: p.1), p.2) := by
  have hkey := scanKey_quote k hcs
  have hquote : quote k = '"' :: (quote k).tail := rfl
  have hskip : skipSpace (quote k ++ ':' :: ' ' :: cs) = quote k ++ ':' :: ' ' :: cs := rfl
  rw [scanValue, hskip]
  split
  · rename_i h
    rw [hquote, List.cons_append] at h
    exact absurd (List.cons.inj h).1 (by decide)
  · rw [hkey]
    simp only [hx]

theorem scanItems_cons {n : ℕ} {cs cs' : List Char} {x : JsonTree F} (hcs : Starts cs)
    (hx : scanValue n cs = some (x, cs')) :
    scanItems (n + 1) (',' :: ' ' :: cs) = (scanItems n cs').map fun p => (x :: p.1, p.2) := by
  have hcomma : skipSpace (',' :: ' ' :: cs) = ',' :: ' ' :: cs := rfl
  have hskip : skipSpace (' ' :: cs) = cs := hcs.skipSpace
  rw [scanItems, hcomma]
  simp only [hskip, hx]

theorem scanEntries_cons {n : ℕ} {k : List CodeUnit} {cs cs' : List Char} {x : JsonTree F}
    (hcs : Starts cs) (hx : scanValue n cs = some (x, cs')) :
    scanEntries (n + 1) (',' :: ' ' :: (quote k ++ ':' :: ' ' :: cs)) =
      (scanEntries n cs').map fun p => ((k, x) :: p.1, p.2) := by
  have hcomma : skipSpace (',' :: ' ' :: (quote k ++ ':' :: ' ' :: cs)) =
      ',' :: ' ' :: (quote k ++ ':' :: ' ' :: cs) := rfl
  have hskip : skipSpace (' ' :: (quote k ++ ':' :: ' ' :: cs)) = quote k ++ ':' :: ' ' :: cs := rfl
  rw [scanEntries, hcomma]
  simp only [hskip, scanKey_quote k hcs, hx]

mutual

/-- The rounds the scanner takes for a value. -/
def rounds : JsonTree F → ℕ
  | .arr [] => 1
  | .arr (x :: xs) => 1 + rounds x + itemRounds xs
  | .obj [] => 1
  | .obj ((_, x) :: es) => 1 + rounds x + entryRounds es
  | _ => 1

def itemRounds : List (JsonTree F) → ℕ
  | [] => 1
  | x :: xs => 1 + rounds x + itemRounds xs

def entryRounds : List (List CodeUnit × JsonTree F) → ℕ
  | [] => 1
  | (_, x) :: es => 1 + rounds x + entryRounds es

end

mutual

theorem scanValue_print : ∀ (x : JsonTree F) {n : ℕ} {cs : List Char}, rounds x ≤ n → NumberEnd cs →
    scanValue n (print x ++ cs) = some (x, cs)
  | x, 0, _, h, _ => by
    unfold rounds at h
    split at h <;> omega
  | .null, n + 1, cs, _, _ => rfl
  | .bool b, n + 1, cs, _, _ => by cases b <;> rfl
  | .int z, n + 1, cs, _, hcs => by
    rw [print, scanValue_scalar (not_bracket_of_scanNumber (scanNumber_printInt z hcs)),
      scanScalar_int z hcs]
  | .float (.finite x), n + 1, cs, _, hcs => by
    have hscan := FloatText.scan_repr x cs hcs
    have hprint : print (.float (.finite x)) = FloatText.repr x := rfl
    rw [hprint, scanValue_scalar (not_bracket_of_scanNumber hscan)]
    exact scanScalar_float (.finite x) hcs
  | .float .nan, n + 1, cs, _, _ => rfl
  | .float .infinity, n + 1, cs, _, _ => rfl
  | .float .negInfinity, n + 1, cs, _, _ => rfl
  | .str us, n + 1, cs, _, _ => by
    have hquote : quote us = '"' :: (quote us).tail := rfl
    rw [print, hquote, List.cons_append, scanValue, scanString_quote]
    rfl
  | .arr [], n + 1, cs, _, _ => rfl
  | .arr (x :: xs), n + 1, cs, h, _ => by
    rw [rounds] at h
    have hx := scanValue_print x (n := n) (by omega) (numberEnd_printItems xs cs)
    have hxs : scanItems n (printItems xs ++ cs) = some (xs, cs) := scanItems_print xs (by omega)
    rw [print, List.cons_append, List.append_assoc, scanValue_arr ((starts_print x).append _) hx,
      hxs]
    rfl
  | .obj [], n + 1, cs, _, _ => rfl
  | .obj ((k, x) :: es), n + 1, cs, h, _ => by
    rw [rounds] at h
    have hx := scanValue_print x (n := n) (by omega) (numberEnd_printEntries es cs)
    have hes : scanEntries n (printEntries es ++ cs) = some (es, cs) :=
      scanEntries_print es (by omega)
    rw [print, List.cons_append, List.append_assoc, List.cons_append, List.cons_append,
      List.append_assoc, scanValue_obj ((starts_print x).append _) hx, hes]
    rfl

theorem scanItems_print : ∀ (xs : List (JsonTree F)) {n : ℕ} {cs : List Char}, itemRounds xs ≤ n →
    scanItems n (printItems xs ++ cs) = some (xs, cs)
  | xs, 0, _, h => by
    unfold itemRounds at h
    split at h <;> omega
  | [], n + 1, cs, _ => rfl
  | x :: xs, n + 1, cs, h => by
    rw [itemRounds] at h
    have hx := scanValue_print x (n := n) (by omega) (numberEnd_printItems xs cs)
    have hxs : scanItems n (printItems xs ++ cs) = some (xs, cs) := scanItems_print xs (by omega)
    rw [printItems, List.cons_append, List.cons_append, List.append_assoc,
      scanItems_cons ((starts_print x).append _) hx, hxs]
    rfl

theorem scanEntries_print : ∀ (es : List (List CodeUnit × JsonTree F)) {n : ℕ} {cs : List Char},
    entryRounds es ≤ n → scanEntries n (printEntries es ++ cs) = some (es, cs)
  | es, 0, _, h => by
    unfold entryRounds at h
    split at h <;> omega
  | [], n + 1, cs, _ => rfl
  | (k, x) :: es, n + 1, cs, h => by
    rw [entryRounds] at h
    have hx := scanValue_print x (n := n) (by omega) (numberEnd_printEntries es cs)
    have hes : scanEntries n (printEntries es ++ cs) = some (es, cs) :=
      scanEntries_print es (by omega)
    rw [printEntries, List.cons_append, List.cons_append, List.append_assoc, List.cons_append,
      List.cons_append, List.append_assoc, scanEntries_cons ((starts_print x).append _) hx, hes]
    rfl

end

/-! ### Texts -/

mutual

theorem rounds_le_length : ∀ x : JsonTree F, rounds x ≤ (print x).length
  | .null => by simp [rounds, print]
  | .bool b => by cases b <;> simp [rounds, print, printBool]
  | .int z => by
    obtain ⟨c, cs, h, -⟩ := starts_print (.int z : JsonTree F)
    rw [h]
    simp [rounds]
  | .float x => by
    obtain ⟨c, cs, h, -⟩ := starts_print (.float x : JsonTree F)
    rw [h]
    simp [rounds]
  | .str us => by simp [rounds, print, quote]
  | .arr [] => by simp [rounds, print]
  | .arr (x :: xs) => by
    have hx := rounds_le_length x
    have hxs := itemRounds_le_length xs
    simp only [rounds, print, List.length_cons, List.length_append]
    omega
  | .obj [] => by simp [rounds, print]
  | .obj ((k, x) :: es) => by
    have hx := rounds_le_length x
    have hes := entryRounds_le_length es
    simp only [rounds, print, List.length_cons, List.length_append]
    omega

theorem itemRounds_le_length : ∀ xs : List (JsonTree F), itemRounds xs ≤ (printItems xs).length
  | [] => by simp [itemRounds, printItems]
  | x :: xs => by
    have hx := rounds_le_length x
    have hxs := itemRounds_le_length xs
    simp only [itemRounds, printItems, List.length_cons, List.length_append]
    omega

theorem entryRounds_le_length :
    ∀ es : List (List CodeUnit × JsonTree F), entryRounds es ≤ (printEntries es).length
  | [] => by simp [entryRounds, printEntries]
  | (k, x) :: es => by
    have hx := rounds_le_length x
    have hes := entryRounds_le_length es
    simp only [entryRounds, printEntries, List.length_cons, List.length_append]
    omega

end

/-- **The text of a value is read back.** -/
theorem parse_print (x : JsonTree F) : parse (print x) = some x := by
  have hle := rounds_le_length x
  have hscan : scanValue ((print x).length + 1) (print x ++ []) = some (x, []) :=
    scanValue_print x (by omega) trivial
  rw [List.append_nil] at hscan
  rw [parse, (starts_print x).skipSpace, hscan]
  rfl

/-- **A text is the text of one value.** -/
theorem print_injective {x y : JsonTree F} (h : print x = print y) : x = y := by
  have hx := parse_print x
  rw [h, parse_print] at hx
  exact (Option.some.inj hx).symm

/-! ### The ends of texts and lines -/

theorem newline_not_mem_quote (us : List CodeUnit) : '\n' ∉ quote us := by
  have hhex : ∀ d < 16, hexDigit d ≠ '\n' := by decide
  have hunit : ∀ u : CodeUnit, '\n' ∉ escapeUnit u := by
    intro u hu
    have hlt := u.isLt
    unfold escapeUnit at hu
    split_ifs at hu with h₁ h₂ h₃ h₄ h₅ h₆ h₇ h₈
    on_goal 8 =>
      have hnat : (Char.ofNat u.val).toNat = u.val := by
        rw [Char.ofNat, dif_pos (Or.inl (by omega))]
        rfl
      rw [← List.mem_singleton.mp hu] at hnat
      exact absurd hnat (by have : '\n'.toNat = 10 := rfl; omega)
    on_goal 8 =>
      simp only [List.mem_cons, List.not_mem_nil, or_false] at hu
      rcases hu with hu | hu | hu | hu | hu | hu
      · exact absurd hu (by decide)
      · exact absurd hu (by decide)
      · exact hhex _ (by omega) hu.symm
      · exact hhex _ (by omega) hu.symm
      · exact hhex _ (by omega) hu.symm
      · exact hhex _ (by omega) hu.symm
    all_goals exact absurd hu (by decide)
  simp only [quote, List.mem_cons, List.mem_append, List.mem_flatMap, List.not_mem_nil, or_false]
  rintro (h | ⟨u, -, hu⟩ | h)
  · exact absurd h (by decide)
  · exact hunit u hu
  · exact absurd h (by decide)

theorem newline_not_mem_printInt (z : ℤ) : '\n' ∉ printInt z := by
  have hdigits : '\n' ∉ Nat.toDigits 10 z.natAbs := fun h =>
    absurd (isDigit_toDigits _ _ h) (by decide)
  unfold printInt
  split_ifs
  · rw [List.mem_cons, not_or]
    exact ⟨by decide, hdigits⟩
  · exact hdigits

mutual

/-- **A text is a line.** -/
theorem newline_not_mem_print : ∀ x : JsonTree F, '\n' ∉ print x
  | .null => by simp [print]
  | .bool b => by cases b <;> simp [print, printBool]
  | .int z => newline_not_mem_printInt z
  | .float (.finite x) => FloatText.repr_line x
  | .float .nan => by simp [print, printFloat]
  | .float .infinity => by simp [print, printFloat]
  | .float .negInfinity => by simp [print, printFloat]
  | .str us => newline_not_mem_quote us
  | .arr [] => by simp [print]
  | .arr (x :: xs) => by
    have hx := newline_not_mem_print x
    have hxs := newline_not_mem_printItems xs
    simp [print, hx, hxs]
  | .obj [] => by simp [print]
  | .obj ((k, x) :: es) => by
    have hk := newline_not_mem_quote k
    have hx := newline_not_mem_print x
    have hes := newline_not_mem_printEntries es
    simp [print, hk, hx, hes]

theorem newline_not_mem_printItems : ∀ xs : List (JsonTree F), '\n' ∉ printItems xs
  | [] => by simp [printItems]
  | x :: xs => by
    have hx := newline_not_mem_print x
    have hxs := newline_not_mem_printItems xs
    simp [printItems, hx, hxs]

theorem newline_not_mem_printEntries :
    ∀ es : List (List CodeUnit × JsonTree F), '\n' ∉ printEntries es
  | [] => by simp [printEntries]
  | (k, x) :: es => by
    have hk := newline_not_mem_quote k
    have hx := newline_not_mem_print x
    have hes := newline_not_mem_printEntries es
    simp [printEntries, hk, hx, hes]

end

theorem printEntries_eq (es : List (List CodeUnit × JsonTree F)) :
    ∃ l, printEntries es = l ++ ['}'] := by
  induction es with
  | nil => exact ⟨[], rfl⟩
  | cons e es ih =>
    obtain ⟨l, hl⟩ := ih
    exact ⟨',' :: ' ' :: (quote e.1 ++ ':' :: ' ' :: (print e.2 ++ l)), by
      rw [printEntries, hl]; simp⟩

/-- **An object ends with its brace.** -/
theorem print_obj (es : List (List CodeUnit × JsonTree F)) : ∃ l, print (.obj es) = l ++ ['}'] := by
  rcases es with _ | ⟨⟨k, x⟩, es⟩
  · exact ⟨['{'], rfl⟩
  · obtain ⟨l, hl⟩ := printEntries_eq es
    exact ⟨'{' :: (quote k ++ ':' :: ' ' :: (print x ++ l)), by rw [print, hl]; simp⟩

end VantaCore.Lib.Json.RoundTrip
