import VantaCore.Lib.PyText

/-! # Fields and numbers of Python text

Fields are read back from their join (`split_join`). Whitespace keeps the fields on its two sides
apart (`split_append_of_ends`, `split_append_of_begins`), and any other character joins what it stands
between to one field (`split_append_solid`). A text that holds anything but digits, signs, underscores
and spaces is no number (`intChar_of_int`); one of digits alone is its decimal value (`int_of_digits`).
-/

namespace VantaCore.Lib.PyFields

open VantaCore.Lib.PyText

variable {s t : PyStr} {c : CodePoint}

/-! ### Parts -/

/-- The characters of the parts are those that are not split at. -/
theorem mem_splitOnP_iff {p : CodePoint → Bool} : ∀ {s : PyStr} {c : CodePoint},
    (∃ part ∈ s.splitOnP p, c ∈ part) ↔ c ∈ s ∧ p c = false
  | [], c => by simp
  | a :: s, c => by
    rw [List.splitOnP_cons_eq_if_modifyHead]
    by_cases ha : p a = true
    · rw [if_pos ha]
      constructor
      · rintro ⟨part, hpart, hc⟩
        rcases List.mem_cons.mp hpart with rfl | hpart
        · cases hc
        · obtain ⟨hmem, hp⟩ := mem_splitOnP_iff.mp ⟨part, hpart, hc⟩
          exact ⟨List.mem_cons_of_mem a hmem, hp⟩
      · rintro ⟨hmem, hp⟩
        have hne : c ≠ a := by rintro rfl; rw [ha] at hp; cases hp
        obtain ⟨part, hpart, hc⟩ :=
          mem_splitOnP_iff.mpr ⟨(List.mem_cons.mp hmem).resolve_left hne, hp⟩
        exact ⟨part, List.mem_cons_of_mem _ hpart, hc⟩
    · rw [if_neg ha]
      obtain ⟨q, qs, hq⟩ := List.exists_cons_of_ne_nil (List.splitOnP_ne_nil p s)
      have ih := @mem_splitOnP_iff p s c
      rw [hq] at ih ⊢
      rw [List.modifyHead_cons]
      simp only [List.mem_cons, exists_eq_or_imp] at ih ⊢
      constructor
      · rintro ((rfl | hc) | hrest)
        · exact ⟨Or.inl rfl, Bool.eq_false_of_not_eq_true ha⟩
        · have := ih.mp (Or.inl hc)
          exact ⟨Or.inr this.1, this.2⟩
        · have := ih.mp (Or.inr hrest)
          exact ⟨Or.inr this.1, this.2⟩
      · rintro ⟨rfl | hmem, hp⟩
        · exact Or.inl (Or.inl rfl)
        · rcases ih.mpr ⟨hmem, hp⟩ with hc | hrest
          · exact Or.inl (Or.inr hc)
          · exact Or.inr hrest

theorem mem_splitChar_iff {sep : Char} {c : CodePoint} :
    (∃ p ∈ splitChar sep s, c ∈ p) ↔ c ∈ s ∧ c ≠ char sep := by
  unfold splitChar
  rw [mem_splitOnP_iff, decide_eq_false_iff_not]

theorem mem_dropWhile_of_neg {p : CodePoint → Bool} (h : c ∈ s) (hp : p c = false) :
    c ∈ s.dropWhile p := by
  rw [← List.takeWhile_append_dropWhile (p := p) (l := s)] at h
  refine (List.mem_append.mp h).resolve_left fun hmem => ?_
  have := List.mem_takeWhile_imp hmem
  rw [hp] at this
  cases this

theorem mem_rdropWhile_of_neg {p : CodePoint → Bool} (h : c ∈ s) (hp : p c = false) :
    c ∈ s.rdropWhile p :=
  List.mem_reverse.mpr (mem_dropWhile_of_neg (List.mem_reverse.mpr h) hp)

/-- A character of a text is the separator, or lies on one side of its last occurrence. -/
theorem mem_splitLast {sep : Char} (h : c ∈ s) :
    c = char sep ∨ c ∈ (splitLast sep s).1 ∨ c ∈ (splitLast sep s).2 := by
  unfold splitLast
  rw [← List.rdropWhile_append_rtakeWhile (p := (· ≠ char sep)) (l := s)] at h
  rcases List.mem_append.mp h with h | h
  · have hne := List.ne_nil_of_mem h
    rw [← List.dropLast_append_getLast hne] at h
    rcases List.mem_append.mp h with h | h
    · exact Or.inr (Or.inl h)
    · have hlast := List.rdropWhile_last_not _ _ hne
      rw [← List.mem_singleton.mp h] at hlast
      exact Or.inl (by simpa using hlast)
  · exact Or.inr (Or.inr h)

/-! ### Fields -/

/-- A field: some characters, none of them whitespace. -/
def IsField (s : PyStr) : Prop := s ≠ [] ∧ ∀ c ∈ s, Solid c

theorem split_nil : split [] = [] := rfl

theorem split_field (h : IsField s) : split s = [s] := by
  unfold split
  rw [List.splitOnP_eq_singleton h.2]
  simp [h.1]

/-- Text that ends with whitespace, or is empty, is split on its own. -/
theorem split_append_of_ends (h : ∀ c ∈ s.getLast?, isWhitespace c = true) :
    split (s ++ t) = split s ++ split t := by
  rcases List.eq_nil_or_concat s with rfl | ⟨s, c, rfl⟩
  · rfl
  · have hc : isWhitespace c = true := h c (by simp)
    rw [List.concat_eq_append, List.append_assoc, List.singleton_append, split_append_cons hc,
      split_append_cons hc, split_nil, List.append_nil]

/-- So is text that begins with whitespace. -/
theorem split_append_of_begins (h : ∀ c ∈ t.head?, isWhitespace c = true) :
    split (s ++ t) = split s ++ split t := by
  rcases t with _ | ⟨c, t⟩
  · rw [List.append_nil, split_nil, List.append_nil]
  · have hc : isWhitespace c = true := h c rfl
    have hcons : split (c :: t) = split [] ++ split t := split_append_cons (s := []) hc
    rw [split_append_cons hc, hcons, split_nil, List.nil_append]

theorem mem_intercalate {α : Type*} {sep : List α} {x : α} : ∀ {parts : List (List α)},
    x ∈ sep.intercalate parts → x ∈ sep ∨ ∃ part ∈ parts, x ∈ part
  | [], h => by simp [List.intercalate] at h
  | [a], h => by
    have hjoin : sep.intercalate [a] = a := by simp [List.intercalate]
    exact Or.inr ⟨a, List.mem_cons_self, hjoin ▸ h⟩
  | a :: b :: parts, h => by
    have hcons : sep.intercalate (a :: b :: parts) = a ++ (sep ++ sep.intercalate (b :: parts)) := by
      simp [List.intercalate]
    rw [hcons, List.mem_append, List.mem_append] at h
    rcases h with h | h | h
    · exact Or.inr ⟨a, List.mem_cons_self, h⟩
    · exact Or.inl h
    · rcases mem_intercalate h with h | ⟨part, hpart, h⟩
      · exact Or.inl h
      · exact Or.inr ⟨part, List.mem_cons_of_mem a hpart, h⟩

theorem mem_join {sep : String} {parts : List PyStr} (h : c ∈ join sep parts) :
    c ∈ ofString sep ∨ ∃ part ∈ parts, c ∈ part := mem_intercalate h

/-- Bytes with a separator between them are texts with the separator between them. -/
theorem ofBytes_intercalate_of {sep : List UInt8} {s : String} (hs : ofBytes sep = ofString s) :
    ∀ parts : List (List UInt8), ofBytes (sep.intercalate parts) = join s (parts.map ofBytes)
  | [] => rfl
  | [a] => by simp [join, List.intercalate]
  | a :: b :: parts => by
    have hcons : sep.intercalate (a :: b :: parts) = a ++ (sep ++ sep.intercalate (b :: parts)) := by
      simp [List.intercalate]
    have ih := ofBytes_intercalate_of hs (b :: parts)
    unfold ofBytes at ih hs ⊢
    rw [hcons, List.map_append, List.map_append, hs, ih]
    exact (join_cons_cons s _ _ _).symm

theorem ofBytes_intercalate (parts : List (List UInt8)) :
    ofBytes ([32].intercalate parts) = join " " (parts.map ofBytes) :=
  ofBytes_intercalate_of (by decide) parts

/-- **Fields with single spaces between them** are read back. -/
theorem split_join : ∀ {fields : List PyStr}, (∀ f ∈ fields, IsField f) →
    split (join " " fields) = fields
  | [], _ => rfl
  | [f], h => by
    have hjoin : join " " [f] = f := by simp [join, List.intercalate]
    rw [hjoin, split_field (h f List.mem_cons_self)]
  | f :: g :: fields, h => by
    have hsep : ofString " " = [char ' '] := by decide
    rw [join_cons_cons, hsep, List.singleton_append, split_append_cons (by decide),
      split_field (h f List.mem_cons_self),
      split_join fun x hx => h x (List.mem_cons_of_mem f hx)]
    rfl

/-- Different fields have different joins. -/
theorem join_injective {fields fields' : List PyStr} (h : ∀ f ∈ fields, IsField f)
    (h' : ∀ f ∈ fields', IsField f) (heq : join " " fields = join " " fields') :
    fields = fields' := by
  rw [← split_join h, heq, split_join h']

/-! ### Around a character -/

/-- The fields of a text that goes on, without the one at its end. -/
def fieldsBefore (s : PyStr) : List PyStr := split (s.rdropWhile (!isWhitespace ·))

/-- The fields of the text behind something, without the one at its beginning. -/
def fieldsBehind (s : PyStr) : List PyStr := split (s.dropWhile (!isWhitespace ·))

/-- The field around a character between two texts. -/
def fieldAround (s : PyStr) (c : CodePoint) (t : PyStr) : PyStr :=
  s.rtakeWhile (!isWhitespace ·) ++ c :: t.takeWhile (!isWhitespace ·)

theorem mem_fieldAround : c ∈ fieldAround s c t := by
  unfold fieldAround
  simp

/-- **The fields on the two sides of a character** and the field around it. -/
theorem split_append_solid (hc : Solid c) :
    split (s ++ c :: t) = fieldsBefore s ++ fieldAround s c t :: fieldsBehind t := by
  have hends : ∀ x ∈ (s.rdropWhile (!isWhitespace ·)).getLast?, isWhitespace x = true := by
    intro x hx
    obtain ⟨hne, rfl⟩ := List.mem_getLast?_eq_getLast hx
    have hlast := List.rdropWhile_last_not _ _ hne
    simpa using hlast
  have hbegins : ∀ x ∈ (t.dropWhile (!isWhitespace ·)).head?, isWhitespace x = true := by
    intro x hx
    have hnot := List.head?_dropWhile_not (!isWhitespace ·) t
    rw [Option.mem_def.mp hx] at hnot
    simpa using hnot
  have hfield : IsField (fieldAround s c t) := by
    refine ⟨List.ne_nil_of_mem mem_fieldAround, fun x hx => ?_⟩
    unfold fieldAround at hx
    rcases List.mem_append.mp hx with hx | hx
    · simpa [Solid] using List.mem_rtakeWhile_imp hx
    · rcases List.mem_cons.mp hx with rfl | hx
      · exact hc
      · simpa [Solid] using List.mem_takeWhile_imp hx
  have htext : s ++ c :: t = s.rdropWhile (!isWhitespace ·) ++
      (fieldAround s c t ++ t.dropWhile (!isWhitespace ·)) := by
    unfold fieldAround
    rw [List.append_assoc, List.cons_append, List.takeWhile_append_dropWhile, ← List.append_assoc,
      List.rdropWhile_append_rtakeWhile]
  rw [htext, split_append_of_ends hends, split_append_of_begins hbegins, split_field hfield]
  rfl

/-- Whitespace keeps the fields before it. -/
theorem fieldsBefore_append_cons (hc : isWhitespace c = true) :
    fieldsBefore (s ++ c :: t) = split s ++ fieldsBefore t := by
  have hdrop : (s ++ c :: t).rdropWhile (!isWhitespace ·) =
      s ++ c :: t.rdropWhile (!isWhitespace ·) := by
    induction t using List.reverseRecOn with
    | nil => exact List.rdropWhile_concat_neg _ _ _ (by simp [hc])
    | append_singleton t x ih =>
      have happ : s ++ c :: (t ++ [x]) = (s ++ c :: t) ++ [x] := by simp
      rw [happ]
      by_cases hx : isWhitespace x = true
      · rw [List.rdropWhile_concat_neg _ _ _ (by simp [hx]),
          List.rdropWhile_concat_neg _ _ _ (by simp [hx])]
        simp
      · rw [List.rdropWhile_concat_pos _ _ _ (by simp [hx]), ih,
          List.rdropWhile_concat_pos _ _ _ (by simp [hx])]
  unfold fieldsBefore
  rw [hdrop, split_append_cons hc]

/-! A word among the fields. -/

theorem fieldAfter_cons_self {word : String} {fields : List PyStr} :
    fieldAfter word (ofString word :: fields) = fields.head? := by
  unfold fieldAfter
  rw [List.findIdx?_cons, if_pos (by simp)]
  cases fields <;> rfl

theorem fieldAfter_cons_of_ne {word : String} {f : PyStr} {fields : List PyStr}
    (h : f ≠ ofString word) : fieldAfter word (f :: fields) = fieldAfter word fields := by
  unfold fieldAfter
  rw [List.findIdx?_cons, if_neg (by simpa using h)]
  cases List.findIdx? (· = ofString word) fields <;> rfl

/-- **A word that is among the first fields** is followed by one of them, or by the next field. -/
theorem fieldAfter_append_of_mem {word : String} : ∀ {fields : List PyStr},
    ofString word ∈ fields → (∃ f ∈ fields, ∀ g rest, fieldAfter word (fields ++ g :: rest) = some f) ∨
      ∀ g rest, fieldAfter word (fields ++ g :: rest) = some g
  | f :: fields, h => by
    by_cases hf : f = ofString word
    · subst hf
      cases fields with
      | nil => exact Or.inr fun g rest => fieldAfter_cons_self
      | cons f' fields =>
        exact Or.inl ⟨f', by simp, fun g rest => fieldAfter_cons_self⟩
    · have hmem : ofString word ∈ fields := (List.mem_cons.mp h).resolve_left fun heq => hf heq.symm
      rcases fieldAfter_append_of_mem hmem with ⟨f', hf', hall⟩ | hall
      · exact Or.inl ⟨f', List.mem_cons_of_mem f hf',
          fun g rest => (fieldAfter_cons_of_ne hf).trans (hall g rest)⟩
      · exact Or.inr fun g rest => (fieldAfter_cons_of_ne hf).trans (hall g rest)

/-- A word that is not among the first fields is looked for behind them. -/
theorem fieldAfter_append_of_not_mem {word : String} {rest : List PyStr} : ∀ {fields : List PyStr},
    ofString word ∉ fields → fieldAfter word (fields ++ rest) = fieldAfter word rest
  | [], _ => rfl
  | f :: fields, h => by
    rw [List.mem_cons, not_or] at h
    exact (fieldAfter_cons_of_ne (Ne.symm h.1)).trans (fieldAfter_append_of_not_mem h.2)

/-! ### Numbers -/

/-- A character `int` may meet: a digit, a sign, an underscore or a space. -/
def IntChar (k : ℕ) : Prop := 48 ≤ k ∧ k ≤ 57 ∨ k = 43 ∨ k = 45 ∨ k = 95 ∨ isSpace k = true

instance (k : ℕ) : Decidable (IntChar k) := inferInstanceAs (Decidable (_ ∨ _))

theorem digitValue_eq_some {k d : ℕ} (h : digitValue k = some d) (hd : d < 10) :
    48 ≤ k ∧ k ≤ 57 := by
  unfold digitValue at h
  split_ifs at h with h1 h2 h3
  · exact h1
  · have := Option.some.inj h; omega
  · have := Option.some.inj h; omega

theorem intChar_of_scanDigits : ∀ {ks : List ℕ} {digit : Bool} {acc v : ℕ},
    scanDigits 10 digit acc ks = some v → ∀ k ∈ ks, IntChar k
  | [], _, _, _, _, _, hk => by cases hk
  | a :: ks, digit, acc, v, h, k, hk => by
    rw [scanDigits] at h
    cases hdigit : (digitValue a).filter (· < 10) with
    | some d =>
      rw [hdigit] at h
      rcases List.mem_cons.mp hk with rfl | hk
      · obtain ⟨hval, hlt⟩ := Option.filter_eq_some_iff.mp hdigit
        exact Or.inl (digitValue_eq_some hval (by simpa using hlt))
      · exact intChar_of_scanDigits h k hk
    | none =>
      rw [hdigit] at h
      dsimp only at h
      split_ifs at h with h95 hd hall
      · rcases List.mem_cons.mp hk with rfl | hk
        · exact Or.inr (Or.inr (Or.inr (Or.inl h95)))
        · exact intChar_of_scanDigits h k hk
      · have hspace := List.all_eq_true.mp (Bool.and_eq_true_iff.mp hall).2 k hk
        exact Or.inr (Or.inr (Or.inr (Or.inr hspace)))

/-- **What `int` accepts** holds nothing but digits, signs, underscores and spaces. -/
theorem intChar_of_int {v : ℤ} (h : int s = some v) : ∀ c ∈ s, IntChar (toAscii c.val) := by
  have hdrop : ∀ k ∈ (s.map (toAscii ·.val)).dropWhile isSpace, IntChar k := by
    unfold int at h
    split at h
    · next ks heq =>
      rw [heq]
      obtain ⟨_, hread, -⟩ := Option.map_eq_some_iff.mp h
      obtain ⟨n, hn, -⟩ := Option.bind_eq_some_iff.mp hread
      intro k hk
      rcases List.mem_cons.mp hk with rfl | hk
      · exact Or.inr (Or.inr (Or.inl rfl))
      · exact intChar_of_scanDigits hn k hk
    · next ks heq =>
      rw [heq]
      obtain ⟨_, hread, -⟩ := Option.map_eq_some_iff.mp h
      obtain ⟨n, hn, -⟩ := Option.bind_eq_some_iff.mp hread
      intro k hk
      rcases List.mem_cons.mp hk with rfl | hk
      · exact Or.inr (Or.inl rfl)
      · exact intChar_of_scanDigits hn k hk
    · obtain ⟨_, hread, -⟩ := Option.map_eq_some_iff.mp h
      obtain ⟨n, hn, -⟩ := Option.bind_eq_some_iff.mp hread
      exact intChar_of_scanDigits hn
  intro c hc
  have hmem : toAscii c.val ∈ s.map (toAscii ·.val) := List.mem_map_of_mem hc
  rw [← List.takeWhile_append_dropWhile (p := isSpace) (l := s.map (toAscii ·.val))] at hmem
  rcases List.mem_append.mp hmem with hmem | hmem
  · exact Or.inr (Or.inr (Or.inr (Or.inr (List.mem_takeWhile_imp hmem))))
  · exact hdrop _ hmem

theorem int_nil : int [] = none := by decide

/-- An ASCII digit. -/
def IsDigit (c : CodePoint) : Prop := 48 ≤ c.val ∧ c.val ≤ 57

instance (c : CodePoint) : Decidable (IsDigit c) := inferInstanceAs (Decidable (_ ∧ _))

/-- The number a text of digits stands for. -/
def decimalOf (s : PyStr) : ℕ := s.foldl (fun acc c => 10 * acc + (c.val - 48)) 0

theorem toAscii_of_isDigit (h : IsDigit c) : toAscii c.val = c.val := by
  unfold toAscii
  exact if_pos (by have := h.2; omega)

theorem scanDigits_of_digits : ∀ {s : PyStr} {digit : Bool} {acc : ℕ}, (∀ c ∈ s, IsDigit c) →
    (digit = true ∨ s ≠ []) → scanDigits 10 digit acc (s.map (·.val)) =
      some (s.foldl (fun acc c => 10 * acc + (c.val - 48)) acc)
  | [], digit, acc, _, hne => by
    rcases hne with rfl | hne
    · rfl
    · exact absurd rfl hne
  | c :: s, digit, acc, h, _ => by
    obtain ⟨hlow, hhigh⟩ := h c List.mem_cons_self
    have hvalue : (digitValue c.val).filter (· < 10) = some (c.val - 48) := by
      unfold digitValue
      rw [if_pos ⟨hlow, hhigh⟩, Option.filter_some, if_pos (decide_eq_true (by omega))]
    rw [List.map_cons, scanDigits, hvalue]
    exact scanDigits_of_digits (fun x hx => h x (List.mem_cons_of_mem c hx)) (Or.inl rfl)

/-- **Digits are read as their decimal value.** -/
theorem int_of_digits (hne : s ≠ []) (h : ∀ c ∈ s, IsDigit c) : int s = some (decimalOf s : ℤ) := by
  have hmap : s.map (toAscii ·.val) = s.map (·.val) :=
    List.map_congr_left fun c hc => toAscii_of_isDigit (h c hc)
  obtain ⟨c, s, rfl⟩ := List.exists_cons_of_ne_nil hne
  obtain ⟨hlow, hhigh⟩ := h c List.mem_cons_self
  have hspace : isSpace c.val = false := by
    unfold isSpace
    simp only [Bool.or_eq_false_iff, decide_eq_false_iff_not, Bool.and_eq_false_iff]
    omega
  have hscan : scanDigits 10 false 0 ((c :: s).map (·.val)) = some (decimalOf (c :: s)) :=
    scanDigits_of_digits h (Or.inr hne)
  unfold int
  rw [hmap, List.map_cons, List.dropWhile_cons_of_neg (by rw [hspace]; decide)]
  rw [List.map_cons] at hscan
  split
  · next heq => have := (List.cons.inj heq).1; omega
  · next heq => have := (List.cons.inj heq).1; omega
  · rw [hscan]
    rfl

end VantaCore.Lib.PyFields
