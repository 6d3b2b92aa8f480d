import Mathlib.Data.List.Basic
import Mathlib.Tactic

/-! # Histories

A state that events move on one by one. What holds of the first state and is kept by every event holds
behind every history (`history_induction`). What is told of an event may depend on the events before it
(`told`). -/

namespace VantaCore.Lib.Histories

variable {σ ε β : Type*}

/-- **What every event keeps holds behind every history.** -/
theorem history_induction {P : σ → List ε → Prop} {step : σ → ε → σ} {init : σ} (hinit : P init [])
    (hstep : ∀ s events e, P s events → P (step s e) (events ++ [e])) (events : List ε) :
    P (events.foldl step init) events := by
  induction events using List.reverseRecOn with
  | nil => exact hinit
  | append_singleton events e ih =>
    rw [List.foldl_append, List.foldl_cons, List.foldl_nil]
    exact hstep _ events e ih

/-- What `f` tells of each event of a history, by the events before it. -/
def told (f : List ε → ε → Option β) (events : List ε) : List β :=
  (List.range events.length).filterMap fun i => (events[i]?).bind (f (events.take i))

variable {f : List ε → ε → Option β} {events : List ε} {e : ε}

@[simp] theorem told_nil : told f [] = [] := rfl

theorem told_append : told f (events ++ [e]) = told f events ++ (f events e).toList := by
  unfold told
  rw [List.length_append, List.length_singleton, List.range_succ, List.filterMap_append]
  congr 1
  · refine List.filterMap_congr fun i hi => ?_
    have hlt := List.mem_range.mp hi
    rw [List.getElem?_append_left hlt, List.take_append_of_le_length hlt.le]
  · rw [List.filterMap_cons, List.getElem?_concat_length, List.take_left, Option.bind_some]
    cases f events e <;> rfl

theorem told_append_some {b : β} (h : f events e = some b) :
    told f (events ++ [e]) = told f events ++ [b] := by rw [told_append, h, Option.toList_some]

theorem told_append_none (h : f events e = none) : told f (events ++ [e]) = told f events := by
  rw [told_append, h, Option.toList_none, List.append_nil]

theorem mem_told {b : β} (h : b ∈ told f events) : ∃ before e, f before e = some b := by
  obtain ⟨i, -, hi⟩ := List.mem_filterMap.mp h
  obtain ⟨e, -, he⟩ := Option.bind_eq_some_iff.mp hi
  exact ⟨events.take i, e, he⟩

end VantaCore.Lib.Histories
