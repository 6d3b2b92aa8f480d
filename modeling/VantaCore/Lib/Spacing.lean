import Mathlib.Order.Basic
import Mathlib.Data.List.Basic
import Mathlib.Tactic

/-! # Events that keep a distance

A filter that lets an event pass unless it comes too soon after the last one that passed. If the later
of two events is never the one something comes less soon after, no other selection of the events that
keeps the distance is longer (`length_le_passing`). -/

namespace VantaCore.Lib.Spacing

variable {τ : Type*} (soon : τ → τ → Prop) [DecidableRel soon]

/-- The events that pass; `soon last now` says that `now` comes too soon after `last`. -/
def passing (last : τ) : List τ → List τ
  | [] => []
  | now :: times => if soon last now then passing last times else now :: passing now times

/-- None of the events comes too soon after the one before it, and the first one not after `last`. -/
def Spaced (last : τ) (times : List τ) : Prop := (last :: times).IsChain fun a b => ¬ soon a b

variable {soon} {last : τ} {times sub : List τ}

theorem passing_sublist : ∀ (last : τ) (times : List τ), (passing soon last times).Sublist times
  | _, [] => List.Sublist.slnil
  | last, now :: times => by
    rw [passing]
    split_ifs
    · exact (passing_sublist last times).cons now
    · exact (passing_sublist now times).cons_cons now

theorem spaced_passing : ∀ (last : τ) (times : List τ), Spaced soon last (passing soon last times)
  | _, [] => List.isChain_singleton _
  | last, now :: times => by
    rw [passing]
    split_ifs with h
    · exact spaced_passing last times
    · exact List.isChain_cons_cons.mpr ⟨h, spaced_passing now times⟩

/-- **The filter stays ahead**: what keeps the distance from a later event on is no longer than what
passes. -/
theorem length_le_passing [Preorder τ] (hsoon : ∀ a b now, a ≤ b → soon a now → soon b now) :
    ∀ (times : List τ) (last other : τ) (sub : List τ), times.Pairwise (· ≤ ·) → last ≤ other →
      sub.Sublist times → Spaced soon other sub → sub.length ≤ (passing soon last times).length
  | [], _, _, sub, _, _, hsub, _ => by rw [List.sublist_nil.mp hsub]; exact Nat.zero_le _
  | now :: times, last, other, sub, hsorted, hle, hsub, hspaced => by
    obtain ⟨hnow, hsorted⟩ := List.pairwise_cons.mp hsorted
    have ih := length_le_passing hsoon times
    rw [passing]
    split_ifs with hlast
    · refine ih last other sub hsorted hle ?_ hspaced
      rcases List.sublist_cons_iff.mp hsub with hsub | ⟨rest, rfl, hrest⟩
      · exact hsub
      · -- what is too soon for the filter is too soon for the other selection
        exact absurd (hsoon last other now hle hlast) (List.isChain_cons_cons.mp hspaced).1
    · rcases List.sublist_cons_iff.mp hsub with hsub | ⟨rest, rfl, hrest⟩
      · cases sub with
        | nil => exact Nat.zero_le _
        | cons first rest =>
          have hfirst : now ≤ first := hnow first (hsub.subset List.mem_cons_self)
          have hrest : rest.Sublist times := (List.sublist_cons_self first rest).trans hsub
          have hlen := ih now first rest hsorted hfirst hrest (List.isChain_cons_cons.mp hspaced).2
          simpa using hlen
      · have hlen := ih now now rest hsorted le_rfl hrest (List.isChain_cons_cons.mp hspaced).2
        simpa using hlen

end VantaCore.Lib.Spacing
