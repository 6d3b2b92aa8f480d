import VantaCore.Lib.Search

/-! # Texts of lines

A text of lines, each with a separator behind it. A pattern without separators occurs in the text where
it occurs in a line (`occursAt_text_iff`), and behind the start of a line the text goes on with the line
and its separator (`exists_drop_text`). -/

namespace VantaCore.Lib.Lines

open VantaCore.Lib.Chunks VantaCore.Lib.Search

variable {α : Type*}

/-- A line and the separator behind it. -/
structure Line (α : Type*) where
  content : List α
  stop : α

/-- The lines one after the other. -/
def text (lines : List (Line α)) : List α := lines.flatMap fun l => l.content ++ [l.stop]

/-- The lines with the positions they start at, from a position on. -/
def placed : ℕ → List (Line α) → List (ℕ × Line α)
  | _, [] => []
  | o, l :: lines => (o, l) :: placed (o + l.content.length + 1) lines

variable {lines : List (Line α)} {l : Line α} {p xs ys : List α} {z : α} {o i : ℕ}

theorem text_cons : text (l :: lines) = l.content ++ l.stop :: text lines := by
  simp [text]

theorem snd_of_mem_placed : ∀ {lines : List (Line α)} {o i : ℕ}, (i, l) ∈ placed o lines →
    l ∈ lines
  | _ :: _, _, _, h => by
    rcases List.mem_cons.mp h with heq | h
    · exact (Prod.mk.inj heq).2 ▸ List.mem_cons_self
    · exact List.mem_cons_of_mem _ (snd_of_mem_placed h)

theorem le_of_mem_placed : ∀ {lines : List (Line α)} {o i : ℕ}, (i, l) ∈ placed o lines → o ≤ i
  | _ :: _, o, i, h => by
    rcases List.mem_cons.mp h with heq | h
    · exact (Prod.mk.inj heq).1.ge
    · have := le_of_mem_placed h
      omega

/-- **The lines do not overlap.** -/
theorem pairwise_placed : ∀ (o : ℕ) (lines : List (Line α)), (placed o lines).Pairwise fun a b =>
    a.1 + a.2.content.length < b.1
  | _, [] => List.Pairwise.nil
  | o, l :: lines => by
    refine List.pairwise_cons.mpr ⟨fun b hb => ?_, pairwise_placed _ lines⟩
    exact le_of_mem_placed hb

theorem eq_or_apart {a b : ℕ × Line α} (ha : a ∈ placed o lines) (hb : b ∈ placed o lines) :
    a = b ∨ a.1 + a.2.content.length < b.1 ∨ b.1 + b.2.content.length < a.1 := by
  let R (a b : ℕ × Line α) : Prop :=
    a = b ∨ a.1 + a.2.content.length < b.1 ∨ b.1 + b.2.content.length < a.1
  have : Std.Symm R := ⟨fun _ _ => Or.imp Eq.symm Or.symm⟩
  have hpairs : (placed o lines).Pairwise R :=
    (pairwise_placed o lines).imp fun h => Or.inr (Or.inl h)
  have hrefl : ∀ a ∈ placed o lines, R a a := fun _ _ => Or.inl rfl
  exact List.Pairwise.forall_of_forall hrefl hpairs ha hb

/-- Behind its start the text goes on with the line and its separator. -/
theorem exists_drop_text : ∀ {lines : List (Line α)} {o i : ℕ}, (o + i, l) ∈ placed o lines →
    ∃ rest, (text lines).drop i = l.content ++ l.stop :: rest
  | l' :: lines, o, i, h => by
    rw [text_cons]
    rcases List.mem_cons.mp h with heq | h
    · obtain ⟨hpos, rfl⟩ := Prod.mk.inj heq
      have hzero : i = 0 := by omega
      exact ⟨text lines, by rw [hzero, List.drop_zero]⟩
    · have hle := le_of_mem_placed h
      obtain ⟨j, rfl⟩ : ∃ j, i = l'.content.length + 1 + j := ⟨i - (l'.content.length + 1), by omega⟩
      rw [show o + (l'.content.length + 1 + j) = o + l'.content.length + 1 + j by omega] at h
      obtain ⟨rest, hrest⟩ := exists_drop_text h
      refine ⟨rest, ?_⟩
      rw [List.append_cons, ← List.drop_drop, List.drop_left' (by simp), hrest]

/-! ### Occurrences -/

/-- **A pattern does not reach over a separator.** -/
theorem occursAt_append_cons_iff (hp : p ≠ []) (hz : z ∉ p) : OccursAt p (xs ++ z :: ys) i ↔
    OccursAt p xs i ∨ ∃ j, i = xs.length + 1 + j ∧ OccursAt p ys j := by
  have hpos := List.length_pos_of_ne_nil hp
  have hleft : i + p.length ≤ xs.length →
      chunkAt p.length (xs ++ z :: ys) i = chunkAt p.length xs i := fun hle => by
    unfold chunkAt
    rw [List.drop_append_of_le_length (by omega),
      List.take_append_of_le_length (by rw [List.length_drop]; omega)]
  have hright : ∀ j, chunkAt p.length (xs ++ z :: ys) (xs.length + 1 + j) =
      chunkAt p.length ys j := fun j => by
    rw [List.append_cons, show xs.length + 1 = (xs ++ [z]).length by simp, chunkAt_append]
  constructor
  · intro hocc
    rcases Nat.lt_or_ge xs.length i with hlt | hge
    · obtain ⟨j, rfl⟩ : ∃ j, i = xs.length + 1 + j := ⟨i - (xs.length + 1), by omega⟩
      exact Or.inr ⟨j, rfl, (hright j).symm.trans hocc⟩
    rcases Nat.lt_or_ge xs.length (i + p.length) with hover | hfit
    · -- the separator would be one of the pattern
      have hsep := hocc.getElem? (k := xs.length - i) (by omega)
      rw [Nat.add_sub_cancel' hge, List.getElem?_append_right le_rfl, Nat.sub_self,
        List.getElem?_cons_zero] at hsep
      exact absurd (List.mem_of_getElem? hsep.symm) hz
    · exact Or.inl ((hleft hfit).symm.trans hocc)
  · rintro (hocc | ⟨j, rfl, hocc⟩)
    · exact (hleft (hocc.le hp)).trans hocc
    · exact (hright j).trans hocc

/-- **A pattern occurs in the text where it occurs in a line.** -/
theorem occursAt_text_iff (hp : p ≠ []) : ∀ {lines : List (Line α)} {o i : ℕ},
    (∀ l ∈ lines, l.stop ∉ p) → (OccursAt p (text lines) i ↔
      ∃ a ∈ placed o lines, ∃ j, o + i = a.1 + j ∧ OccursAt p a.2.content j)
  | [], o, i, _ => by
    refine iff_of_false (fun hocc => ?_) fun ⟨_, ha, _⟩ => List.not_mem_nil ha
    have hle : i + p.length ≤ 0 := hocc.le hp
    have := List.length_pos_of_ne_nil hp
    omega
  | l :: lines, o, i, hstop => by
    rw [text_cons, occursAt_append_cons_iff hp (hstop l List.mem_cons_self), placed,
      List.exists_mem_cons_iff]
    refine or_congr ⟨fun hocc => ⟨i, rfl, hocc⟩, fun ⟨j, hj, hocc⟩ => ?_⟩ ?_
    · exact (Nat.add_left_cancel hj : i = j) ▸ hocc
    · have hstop' : ∀ l ∈ lines, l.stop ∉ p := fun l hl => hstop l (List.mem_cons_of_mem _ hl)
      constructor
      · rintro ⟨j, rfl, hocc⟩
        obtain ⟨a, ha, k, hk, hocc'⟩ :=
          (occursAt_text_iff hp (o := o + l.content.length + 1) hstop').mp hocc
        exact ⟨a, ha, k, by omega, hocc'⟩
      · rintro ⟨a, ha, k, hk, hocc⟩
        have hle := le_of_mem_placed (l := a.2) ha
        refine ⟨i - (l.content.length + 1), by omega, ?_⟩
        exact (occursAt_text_iff hp hstop').mpr ⟨a, ha, k, by omega, hocc⟩

end VantaCore.Lib.Lines
