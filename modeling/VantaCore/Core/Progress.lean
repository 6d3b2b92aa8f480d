import VantaCore.Lib.PyText
import VantaCore.Lib.Spacing

/-! # Progress events

`ProgressEventBus`. An event that comes too soon after the last one that was emitted is dropped; the
others go to the listeners in the order they were added, up to the first one that raises. The clock is
of any ordered type, and `now - last < 0.1` any test that a later `last` does not make fail. As many
events are emitted as can be at that distance (`emitted_run`). -/

namespace VantaCore.Core.Progress

open VantaCore.Lib.PyText VantaCore.Lib.Spacing

/-- What a listener is given; the numbers are of any type. -/
structure Payload (F : Type*) where
  phase : PyStr
  pct : F
  rate : Option F
  etaSec : Option F
  timestamp : PyStr
deriving DecidableEq

/-- The bus. -/
structure ProgressEventBus (L τ : Type*) where
  listeners : List L
  lastEmit : τ

/-- What happens to a bus. -/
inductive Event (L τ F : Type*) where
  | addListener (callback : L)
  | emit (now : τ) (payload : Payload F)

/-- An event that was emitted: its time, its payload and the listeners that were called. -/
structure Emitted (L τ F : Type*) where
  time : τ
  payload : Payload F
  called : List L
deriving DecidableEq

variable {L τ F : Type*} (raises : L → Payload F → Bool) (soon : τ → τ → Prop) [DecidableRel soon]

/-- The loop over the listeners: an exception goes to the caller of `emit`. -/
def callListeners (payload : Payload F) : List L → List L
  | [] => []
  | l :: ls => if raises l payload then [l] else l :: callListeners payload ls

/-- `emit` -/
def emit (now : τ) (payload : Payload F) (b : ProgressEventBus L τ) :
    ProgressEventBus L τ × Option (Emitted L τ F) :=
  if soon b.lastEmit now then (b, none)
  else ({ b with lastEmit := now }, some ⟨now, payload, callListeners raises payload b.listeners⟩)

/-- The events that are emitted. -/
def run : List (Event L τ F) → ProgressEventBus L τ → List (Emitted L τ F)
  | [], _ => []
  | .addListener callback :: events, b => run events { b with listeners := b.listeners ++ [callback] }
  | .emit now payload :: events, b =>
    let (b', emitted) := emit raises soon now payload b
    emitted.toList ++ run events b'

/-! ### What is emitted -/

/-- The times `emit` is called at. -/
def times (events : List (Event L τ F)) : List τ :=
  events.filterMap fun
    | .emit now _ => some now
    | .addListener _ => none

/-- The listeners that were added. -/
def added (events : List (Event L τ F)) : List L :=
  events.filterMap fun
    | .addListener callback => some callback
    | .emit _ _ => none

variable {raises soon}

theorem times_run : ∀ (events : List (Event L τ F)) (b : ProgressEventBus L τ),
    (run raises soon events b).map Emitted.time = passing soon b.lastEmit (times events)
  | [], _ => rfl
  | .addListener callback :: events, b => times_run events _
  | .emit now payload :: events, b => by
    have htimes : times (.emit now payload :: events) = now :: times events := rfl
    rw [run, htimes, passing, emit]
    by_cases h : soon b.lastEmit now
    · rw [if_pos h, if_pos h]
      exact times_run events b
    · rw [if_neg h, if_neg h]
      exact congrArg (now :: ·) (times_run events { b with lastEmit := now })

/-- **Who is called**: the listeners that were added before, up to the first one that raises. -/
theorem called_of_mem_run : ∀ (events : List (Event L τ F)) (b : ProgressEventBus L τ),
    ∀ e ∈ run raises soon events b, ∃ before after, events = before ++ .emit e.time e.payload :: after ∧
      e.called = callListeners raises e.payload (b.listeners ++ added before)
  | [], _, _, he => by cases he
  | .addListener callback :: events, b, e, he => by
    obtain ⟨before, after, rfl, hcalled⟩ := called_of_mem_run events _ e he
    refine ⟨.addListener callback :: before, after, rfl, ?_⟩
    rw [hcalled, List.append_assoc]
    rfl
  | .emit now payload :: events, b, e, he => by
    have hrest : ∀ b' : ProgressEventBus L τ, b'.listeners = b.listeners →
        e ∈ run raises soon events b' → ∃ before after,
          .emit now payload :: events = before ++ .emit e.time e.payload :: after ∧
            e.called = callListeners raises e.payload (b.listeners ++ added before) := by
      intro b' hb' hmem
      obtain ⟨before, after, rfl, hcalled⟩ := called_of_mem_run events b' e hmem
      exact ⟨.emit now payload :: before, after, rfl, hb' ▸ hcalled⟩
    rw [run, emit] at he
    by_cases h : soon b.lastEmit now
    · rw [if_pos h] at he
      exact hrest b rfl he
    · rw [if_neg h] at he
      rcases List.mem_cons.mp he with rfl | he
      · refine ⟨[], events, rfl, ?_⟩
        exact congrArg (callListeners raises payload) (List.append_nil b.listeners).symm
      · exact hrest { b with lastEmit := now } rfl he

/-- **As many events are emitted as can be.** The times of the emitted events are among those of the
calls, none comes too soon after the one before it, and no other choice of calls with that distance has
more; each event went to the listeners that were there, up to the first one that raised. -/
theorem emitted_run [Preorder τ] (hsoon : ∀ a b now, a ≤ b → soon a now → soon b now)
    (events : List (Event L τ F)) (hclock : (times events).Pairwise (· ≤ ·))
    (b : ProgressEventBus L τ) :
    let emitted := (run raises soon events b).map Emitted.time
    emitted.Sublist (times events) ∧ Spaced soon b.lastEmit emitted ∧
      (∀ sub : List τ, sub.Sublist (times events) → Spaced soon b.lastEmit sub →
        sub.length ≤ emitted.length) ∧
      ∀ e ∈ run raises soon events b, ∃ before after,
        events = before ++ .emit e.time e.payload :: after ∧
          e.called = callListeners raises e.payload (b.listeners ++ added before) := by
  dsimp only
  rw [times_run]
  refine ⟨passing_sublist _ _, spaced_passing _ _, ?_, called_of_mem_run events b⟩
  intro sub hsub hspaced
  exact length_le_passing hsoon _ _ _ sub hclock le_rfl hsub hspaced

/-- Two listeners, the first of which raises from 50 % on, and a third one that is added later; the clock
is in milliseconds. -/
def sampleEvents : List (Event ℕ ℤ ℕ) :=
  let payload (pct : ℕ) : Payload ℕ := ⟨"scan", pct, none, none, "now"⟩
  [.emit 40 (payload 0), .emit 130 (payload 10), .addListener 3, .emit 180 (payload 20),
    .emit 230 (payload 30), .emit 400 (payload 60)]

theorem emitted_run_sample :
    let raises (l : ℕ) (payload : Payload ℕ) : Bool := l = 1 && 50 ≤ payload.pct
    let soon (last now : ℤ) : Prop := now - last < 100
    let emitted := (run raises soon sampleEvents ⟨[1, 2], 0⟩).map fun e => (e.time, e.called)
    emitted = [(130, [1, 2]), (230, [1, 2, 3]), (400, [1])] ∧
      ∀ sub : List ℤ, sub.Sublist [40, 130, 180, 230, 400] → Spaced soon 0 sub → sub.length ≤ 3 := by
  intro raises soon emitted
  refine ⟨by decide, fun sub hsub hspaced => ?_⟩
  have hsoon : ∀ a b now : ℤ, a ≤ b → soon a now → soon b now := fun a b now hle h => by
    have : now - a < 100 := h
    show now - b < 100
    omega
  have hclock : (times sampleEvents).Pairwise (· ≤ ·) := by decide
  have hmost := @emitted_run ℕ ℤ ℕ raises soon _ _ hsoon sampleEvents hclock ⟨[1, 2], 0⟩
  exact hmost.2.2.1 sub hsub hspaced

end VantaCore.Core.Progress
