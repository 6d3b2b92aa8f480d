import Mathlib.Data.List.Basic
import Mathlib.Tactic

/-! # The results of calls on a bounded queue

A call puts a value into a queue, and says whether it had room, or takes the first value out, and
says whether there was one. A list of results is one of a queue of at most `bound` values if a queue
that is used by one call after the other gives these results (`replay`). What has been taken is then
what has been put, without what is still in the queue and in the same order (`replay_fifo`), and the
queue never holds more than `bound` values (`length_replay_le`). -/

namespace VantaCore.Lib.QueueHistory

variable {α : Type*}

/-- What a call says. -/
inductive Result (α : Type*) where
  | put (a : α) (ok : Bool)
  | got (res : Option α)
deriving DecidableEq, Repr

variable [DecidableEq α]

/-- The queue after a call with the result, if the call can have that result. -/
def apply (bound : ℕ) (q : List α) : Result α → Option (List α)
  | .put a ok => if ok = decide (q.length < bound) then some (if ok then q ++ [a] else q) else none
  | .got res => if res = q.head? then some q.tail else none

/-- The queue after calls with the results, if one after the other the calls can have them. -/
def replay (bound : ℕ) : List α → List (Result α) → Option (List α)
  | q, [] => some q
  | q, r :: rs => (apply bound q r).bind fun q' => replay bound q' rs

/-- The values put in. -/
def accepted (rs : List (Result α)) : List α :=
  rs.filterMap fun
    | .put a true => some a
    | _ => none

/-- The values taken out. -/
def taken (rs : List (Result α)) : List α :=
  rs.filterMap fun
    | .got res => res
    | _ => none

variable {bound : ℕ} {q q' : List α}

theorem replay_append (rs rs' : List (Result α)) : ∀ q : List α,
    replay bound q (rs ++ rs') = (replay bound q rs).bind fun q' => replay bound q' rs' := by
  induction rs with
  | nil => exact fun q => rfl
  | cons r rs ih =>
    intro q
    rw [List.cons_append, replay, replay, Option.bind_assoc]
    exact congrArg _ (funext ih)

theorem replay_snoc {rs : List (Result α)} {r : Result α} {q₁ q₂ : List α}
    (h : replay bound q rs = some q₁) (hr : apply bound q₁ r = some q₂) :
    replay bound q (rs ++ [r]) = some q₂ := by
  rw [replay_append, h, Option.bind_some, replay, hr]
  rfl

/-! ### One call -/

theorem apply_put_true (a : α) (h : q.length < bound) :
    apply bound q (.put a true) = some (q ++ [a]) := by
  simp [apply, h]

theorem apply_put_false (a : α) (h : ¬ q.length < bound) :
    apply bound q (.put a false) = some q := by
  simp [apply, h]

theorem apply_got_none : apply bound ([] : List α) (.got none) = some [] := by
  simp [apply]

theorem apply_got_some (a : α) (q : List α) : apply bound (a :: q) (.got (some a)) = some q := by
  simp [apply]

theorem apply_put_eq_some {a : α} {ok : Bool} (h : apply bound q (.put a ok) = some q') :
    (q.length < bound ∧ ok = true ∧ q' = q ++ [a]) ∨ (ok = false ∧ q' = q) := by
  simp only [apply, Option.ite_none_right_eq_some, Option.some.injEq] at h
  obtain ⟨hok, hq⟩ := h
  cases ok with
  | true => exact Or.inl ⟨by simpa using hok, rfl, by simpa using hq.symm⟩
  | false => exact Or.inr ⟨rfl, by simpa using hq.symm⟩

theorem apply_got_eq_some {res : Option α} (h : apply bound q (.got res) = some q') :
    res = q.head? ∧ q' = q.tail := by
  simp only [apply, Option.ite_none_right_eq_some, Option.some.injEq] at h
  exact ⟨h.1, h.2.symm⟩

theorem apply_fifo {r : Result α} (h : apply bound q r = some q') :
    q ++ accepted [r] = taken [r] ++ q' := by
  cases r with
  | put a ok =>
    rcases apply_put_eq_some h with ⟨-, rfl, rfl⟩ | ⟨rfl, rfl⟩ <;> simp [accepted, taken]
  | got res =>
    obtain ⟨rfl, rfl⟩ := apply_got_eq_some h
    cases q <;> simp [accepted, taken]

theorem length_apply_le {r : Result α} (h : apply bound q r = some q') (hq : q.length ≤ bound) :
    q'.length ≤ bound := by
  cases r with
  | put a ok =>
    rcases apply_put_eq_some h with ⟨hlt, -, rfl⟩ | ⟨-, rfl⟩
    · simp only [List.length_append, List.length_cons, List.length_nil]
      omega
    · exact hq
  | got res =>
    obtain ⟨-, rfl⟩ := apply_got_eq_some h
    rw [List.length_tail]
    omega

/-! ### One call after the other -/

/-- **First in, first out.** -/
theorem replay_fifo : ∀ {rs : List (Result α)} {q q' : List α}, replay bound q rs = some q' →
    q ++ accepted rs = taken rs ++ q'
  | [], q, q', h => by
    obtain rfl := Option.some.inj h
    simp [accepted, taken]
  | r :: rs, q, q', h => by
    obtain ⟨q₁, h₁, h₂⟩ := Option.bind_eq_some_iff.mp h
    have hr := apply_fifo h₁
    have hrs := replay_fifo h₂
    have hacc : accepted (r :: rs) = accepted [r] ++ accepted rs := by
      rw [← List.singleton_append]
      exact List.filterMap_append
    have htaken : taken (r :: rs) = taken [r] ++ taken rs := by
      rw [← List.singleton_append]
      exact List.filterMap_append
    rw [hacc, htaken, ← List.append_assoc, hr, List.append_assoc, hrs, List.append_assoc]

/-- **The queue stays within its bound.** -/
theorem length_replay_le : ∀ {rs : List (Result α)} {q q' : List α}, replay bound q rs = some q' →
    q.length ≤ bound → q'.length ≤ bound
  | [], q, q', h, hq => by
    obtain rfl := Option.some.inj h
    exact hq
  | r :: rs, q, q', h, hq => by
    obtain ⟨q₁, h₁, h₂⟩ := Option.bind_eq_some_iff.mp h
    exact length_replay_le h₂ (length_apply_le h₁ hq)

end VantaCore.Lib.QueueHistory
