import Mathlib.Data.List.DropRight
import Mathlib.Data.List.Forall2
import Mathlib.Tactic

/-! # Lists that agree but for hidden elements

Two lists are aligned if they have one length and differ only where both have a hidden element. What
takes a list apart by properties that hidden elements share keeps lists aligned, and where it drops no
hidden element its results are equal only if the lists are (`dropWhile_eq_iff`,
`rdropWhile_eq_iff`). -/

namespace VantaCore.Lib.Alignment

variable {α β : Type*} {hidden : α → Prop} {hidden' : β → Prop}

/-- The elements are equal, or both hidden. -/
def Alike (hidden : α → Prop) (a b : α) : Prop := a = b ∨ hidden a ∧ hidden b

/-- The lists differ only where both have a hidden element. -/
abbrev Aligned (hidden : α → Prop) : List α → List α → Prop := List.Forall₂ (Alike hidden)

variable {xs ys : List α} {p : α → Bool}

theorem aligned_of_getElem? (hlen : xs.length = ys.length)
    (h : ∀ (i : ℕ) (a b : α), xs[i]? = some a → ys[i]? = some b → a ≠ b → hidden a ∧ hidden b) :
    Aligned hidden xs ys := by
  refine List.forall₂_iff_get.mpr ⟨hlen, fun i hx hy => or_iff_not_imp_left.mpr fun hne => ?_⟩
  exact h i _ _ (List.getElem?_eq_getElem hx) (List.getElem?_eq_getElem hy) hne

theorem aligned_symm (h : Aligned hidden xs ys) : Aligned hidden ys xs :=
  List.Forall₂.flip (h.imp fun _ _ hab => hab.imp Eq.symm And.symm)

/-- A property that hidden elements share holds of both elements or of neither. -/
theorem Alike.apply_eq {a b : α} {v : Bool} (h : Alike hidden a b) (hp : ∀ a, hidden a → p a = v) :
    p a = p b := by
  rcases h with rfl | ⟨ha, hb⟩
  exacts [rfl, (hp a ha).trans (hp b hb).symm]

theorem aligned_map {f : α → β} (hf : ∀ a, hidden a → hidden' (f a)) (h : Aligned hidden xs ys) :
    Aligned hidden' (xs.map f) (ys.map f) := by
  rw [Aligned, List.forall₂_map_left_iff, List.forall₂_map_right_iff]
  refine h.imp fun a b hab => ?_
  rcases hab with rfl | ⟨ha, hb⟩
  exacts [Or.inl rfl, Or.inr ⟨hf a ha, hf b hb⟩]

theorem aligned_takeWhile {v : Bool} (hp : ∀ a, hidden a → p a = v) (h : Aligned hidden xs ys) :
    Aligned hidden (xs.takeWhile p) (ys.takeWhile p) := by
  induction h with
  | nil => exact List.Forall₂.nil
  | @cons a b _ _ hab _ ih =>
    have heq := hab.apply_eq hp
    by_cases ha : p a = true
    · rw [List.takeWhile_cons_of_pos ha, List.takeWhile_cons_of_pos (heq ▸ ha)]
      exact List.Forall₂.cons hab ih
    · rw [List.takeWhile_cons_of_neg ha, List.takeWhile_cons_of_neg (heq ▸ ha)]
      exact List.Forall₂.nil

theorem aligned_dropWhile {v : Bool} (hp : ∀ a, hidden a → p a = v) (h : Aligned hidden xs ys) :
    Aligned hidden (xs.dropWhile p) (ys.dropWhile p) := by
  induction h with
  | nil => exact List.Forall₂.nil
  | @cons a b _ _ hab hl ih =>
    have heq := hab.apply_eq hp
    by_cases ha : p a = true
    · rw [List.dropWhile_cons_of_pos ha, List.dropWhile_cons_of_pos (heq ▸ ha)]
      exact ih
    · rw [List.dropWhile_cons_of_neg ha, List.dropWhile_cons_of_neg (heq ▸ ha)]
      exact List.Forall₂.cons hab hl

theorem aligned_rdropWhile {v : Bool} (hp : ∀ a, hidden a → p a = v) (h : Aligned hidden xs ys) :
    Aligned hidden (xs.rdropWhile p) (ys.rdropWhile p) :=
  List.rel_reverse (aligned_dropWhile hp (List.rel_reverse h))

/-! ### Nothing hidden is dropped -/

/-- **What is dropped from the front tells nothing** if no hidden element is dropped. -/
theorem dropWhile_eq_iff (hp : ∀ a, hidden a → p a = false) (h : Aligned hidden xs ys) :
    xs.dropWhile p = ys.dropWhile p ↔ xs = ys := by
  refine ⟨fun heq => ?_, congrArg _⟩
  induction h with
  | nil => rfl
  | @cons a b _ _ hab _ ih =>
    have hsame := hab.apply_eq hp
    by_cases ha : p a = true
    · rcases hab with rfl | ⟨hid, -⟩
      · rw [List.dropWhile_cons_of_pos ha, List.dropWhile_cons_of_pos ha] at heq
        rw [ih heq]
      · exact absurd (hp a hid) (by rw [ha]; decide)
    · rwa [List.dropWhile_cons_of_neg ha, List.dropWhile_cons_of_neg (hsame ▸ ha)] at heq

theorem rdropWhile_eq_iff (hp : ∀ a, hidden a → p a = false) (h : Aligned hidden xs ys) :
    xs.rdropWhile p = ys.rdropWhile p ↔ xs = ys := by
  unfold List.rdropWhile
  rw [List.reverse_inj, dropWhile_eq_iff hp (List.rel_reverse h), List.reverse_inj]

/-- **The first elements with a property are the same** if the lists agree on them. -/
theorem takeWhile_eq_iff {v : Bool} (hp : ∀ a, hidden a → p a = v) (h : Aligned hidden xs ys) :
    xs.takeWhile p = ys.takeWhile p ↔ ∀ i < (xs.takeWhile p).length, xs[i]? = ys[i]? := by
  induction h with
  | nil => exact ⟨fun _ _ _ => rfl, fun _ => rfl⟩
  | @cons a b l l' hab _ ih =>
    have hsame := hab.apply_eq hp
    by_cases ha : p a = true
    · rw [List.takeWhile_cons_of_pos ha, List.takeWhile_cons_of_pos (hsame ▸ ha), List.cons.injEq, ih]
      constructor
      · rintro ⟨hhead, htail⟩ i hi
        cases i with
        | zero => exact congrArg some hhead
        | succ i => exact htail i (Nat.lt_of_succ_lt_succ hi)
      · intro hall
        have hhead : some a = some b := hall 0 (Nat.succ_pos _)
        exact ⟨Option.some.inj hhead, fun i hi => hall (i + 1) (Nat.succ_lt_succ hi)⟩
    · rw [List.takeWhile_cons_of_neg ha, List.takeWhile_cons_of_neg (hsame ▸ ha)]
      exact ⟨fun _ i hi => absurd hi (Nat.not_lt_zero i), fun _ => rfl⟩

/-! ### Related lists -/

variable {R : α → β → Prop}

/-- **All pairs have a property** if the elements of one list have it, where the one depends on the
other. -/
theorem forall₂_iff_forall {q : α → Prop} {Q : α → β → Prop} {l : List α} {l' : List β}
    (h : List.Forall₂ R l l') (hq : ∀ a ∈ l, ∀ b ∈ l', R a b → (Q a b ↔ q a)) :
    List.Forall₂ Q l l' ↔ ∀ a ∈ l, q a := by
  induction h with
  | nil => exact ⟨fun _ _ ha => absurd ha List.not_mem_nil, fun _ => List.Forall₂.nil⟩
  | @cons a b l l' hab _ ih =>
    rw [List.forall₂_cons, List.forall_mem_cons,
      hq a List.mem_cons_self b List.mem_cons_self hab, ih fun c hc d hd =>
        hq c (List.mem_cons_of_mem a hc) d (List.mem_cons_of_mem b hd)]

end VantaCore.Lib.Alignment
