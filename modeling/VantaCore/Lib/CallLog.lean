import Mathlib.Data.List.Pairwise
import Mathlib.Tactic

/-! # Logged calls

A computation whose calls are logged. All of them meet a condition `P` exactly if some proposition
holds (`CallsMeet`): `True` for a value, `P` of the call for one call, the conjunction for a sequence.
A search tests its candidates up to the first one that is found, so those that fail do no harm behind
it (`CallsMeet.firstFound`). -/

namespace VantaCore.Lib.CallLog

variable {ρ α β : Type}

/-- A call: it is logged and answered. -/
def call (answer : ρ → α) (r : ρ) : StateM (List ρ) α := fun log => (answer r, log ++ [r])

/-- `m` returns `a`, and all its calls meet `P` exactly if `C`. -/
def CallsMeet (P : ρ → Prop) (m : StateM (List ρ) α) (a : α) (C : Prop) : Prop :=
  ∀ log, (m.run log).1 = a ∧ ((∀ r ∈ (m.run log).2, P r) ↔ (∀ r ∈ log, P r) ∧ C)

/-- All calls of `m` meet `P`, and what it returns is independent of the log. -/
def AllMeet (P : ρ → Prop) (m : StateM (List ρ) α) : Prop := ∃ a, CallsMeet P m a True

/-- The search for the first candidate that is found. -/
def firstFound {σ : Type} (test : α → StateM σ Bool) : List α → StateM σ (Option α)
  | [] => return none
  | a :: as => do
    match ← test a with
    | true => return some a
    | false => firstFound test as

/-- Every bad candidate has one before it that is found. -/
def FoundBefore [LT α] (found : α → Bool) (bad : α → Prop) (as : List α) : Prop :=
  ∀ a ∈ as, bad a → ∃ a' ∈ as, a' < a ∧ found a'

variable {P : ρ → Prop} {m : StateM (List ρ) α} {f : α → StateM (List ρ) β} {a : α} {b : β}
  {C D : Prop}

/-! ### Sequences -/

theorem CallsMeet.run_fst (h : CallsMeet P m a C) (log : List ρ) : (m.run log).1 = a := (h log).1

theorem CallsMeet.run_snd (h : CallsMeet P m a C) (log : List ρ) :
    (∀ r ∈ (m.run log).2, P r) ↔ (∀ r ∈ log, P r) ∧ C := (h log).2

theorem CallsMeet.congr (h : CallsMeet P m a C) (hCD : C ↔ D) : CallsMeet P m a D := by
  intro log
  rw [h.run_snd, hCD]
  exact ⟨h.run_fst log, Iff.rfl⟩

/-- What is returned on the empty log is returned on every log. -/
theorem callsMeet_value (h : ∃ a, CallsMeet P m a C) : CallsMeet P m (m.run []).1 C := by
  obtain ⟨a, ha⟩ := h
  rw [ha.run_fst []]
  exact ha

theorem callsMeet_pure (a : α) : CallsMeet P (pure a) a True := by
  intro log
  refine ⟨rfl, ?_⟩
  rw [and_true]
  rfl

theorem callsMeet_call (answer : ρ → α) (r : ρ) : CallsMeet P (call answer r) (answer r) (P r) := by
  intro log
  refine ⟨rfl, ?_⟩
  show (∀ r' ∈ log ++ [r], P r') ↔ _
  simp only [List.mem_append, List.mem_singleton, or_imp, forall_and, forall_eq]

/-- The calls of a sequence meet `P` if those of both parts do. -/
theorem CallsMeet.bind (hm : CallsMeet P m a C) (hf : CallsMeet P (f a) b D) :
    CallsMeet P (m >>= f) b (C ∧ D) := by
  intro log
  have hrun : (m >>= f).run log = (f a).run (m.run log).2 := by
    rw [← hm.run_fst log]
    rfl
  rw [hrun, hf.run_snd, hm.run_snd, and_assoc]
  exact ⟨hf.run_fst _, Iff.rfl⟩

theorem allMeet_pure (a : α) : AllMeet P (pure a : StateM (List ρ) α) := ⟨a, callsMeet_pure a⟩

theorem allMeet_call {answer : ρ → α} {r : ρ} (hr : P r) : AllMeet P (call answer r) :=
  ⟨answer r, (callsMeet_call answer r).congr (iff_true_intro hr)⟩

/-- A continuation whose calls meet `P` asks for nothing more. -/
theorem CallsMeet.bind_allMeet (hm : CallsMeet P m a C) (hf : AllMeet P (f a)) :
    ∃ b, CallsMeet P (m >>= f) b C := by
  obtain ⟨b, hb⟩ := hf
  exact ⟨b, (hm.bind hb).congr (iff_of_eq (and_true C))⟩

theorem AllMeet.bind (hm : AllMeet P m) (hf : ∀ a, AllMeet P (f a)) : AllMeet P (m >>= f) := by
  obtain ⟨a, ha⟩ := hm
  exact ha.bind_allMeet (hf a)

/-! ### Searches -/

section Search

variable [Preorder α] {test : α → StateM (List ρ) Bool} {found : α → Bool} {bad : α → Prop}

theorem foundBefore_cons {as : List α} (hlt : ∀ a' ∈ as, a < a') :
    FoundBefore found bad (a :: as) ↔ ¬ bad a ∧ (found a = true ∨ FoundBefore found bad as) := by
  constructor
  · intro h
    refine ⟨fun hbad => ?_, or_iff_not_imp_left.mpr fun hnot b hb hbad => ?_⟩
    · obtain ⟨a', ha', hlt', -⟩ := h a List.mem_cons_self hbad
      rcases List.mem_cons.mp ha' with rfl | ha'
      · exact lt_irrefl _ hlt'
      · exact lt_asymm hlt' (hlt a' ha')
    · obtain ⟨a', ha', hlt', hfound⟩ := h b (List.mem_cons_of_mem a hb) hbad
      rcases List.mem_cons.mp ha' with rfl | ha'
      · exact absurd hfound hnot
      · exact ⟨a', ha', hlt', hfound⟩
  · rintro ⟨hgood, h⟩ b hb hbad
    rcases List.mem_cons.mp hb with rfl | hb
    · exact absurd hbad hgood
    · rcases h with hfound | h
      · exact ⟨a, List.mem_cons_self, hlt b hb, hfound⟩
      · obtain ⟨a', ha', hlt', hfound⟩ := h b hb hbad
        exact ⟨a', List.mem_cons_of_mem a ha', hlt', hfound⟩

/-- **A search in ascending order** only calls what `P` allows if every candidate whose test does
not has one before it that is found. -/
theorem CallsMeet.firstFound : ∀ {as : List α}, as.Pairwise (· < ·) →
    (∀ a ∈ as, CallsMeet P (test a) (found a) (¬ bad a)) →
    CallsMeet P (firstFound test as) (as.find? found) (FoundBefore found bad as)
  | [], _, _ => (callsMeet_pure none).congr (by simp [FoundBefore])
  | a :: as, hsorted, h => by
    obtain ⟨hlt, hsorted⟩ := List.pairwise_cons.mp hsorted
    have ha := h a List.mem_cons_self
    have ih := CallsMeet.firstFound hsorted fun b hb => h b (List.mem_cons_of_mem a hb)
    unfold CallLog.firstFound
    rw [List.find?_cons]
    cases hfound : found a with
    | true =>
      rw [hfound] at ha
      refine (ha.bind (callsMeet_pure (some a))).congr ?_
      rw [foundBefore_cons hlt]
      simp [hfound]
    | false =>
      rw [hfound] at ha
      refine (ha.bind ih).congr ?_
      rw [foundBefore_cons hlt]
      simp [hfound]

end Search

end VantaCore.Lib.CallLog
