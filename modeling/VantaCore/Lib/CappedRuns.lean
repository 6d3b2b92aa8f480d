import Mathlib.Data.List.Chain
import Mathlib.Data.List.Flatten
import Mathlib.Tactic

/-! # Runs of bounded length

A list is cut into runs in one pass: an element joins the current run if it is near the last one and
the run is not full, else it opens a run of its own (`runsFrom`). The runs are the list again, none is
empty or longer than `cap`, the elements of a run are near each other, and between two runs they are
not, unless the first one is full (`isRuns_runs`). -/

namespace VantaCore.Lib.CappedRuns

variable {α : Type*} (near : α → α → Prop) [DecidableRel near] (cap : ℕ)

/-- The runs of `l` behind the current run `init ++ [last]`, with that one. -/
def runsFrom (init : List α) (last : α) : List α → List (List α)
  | [] => [init ++ [last]]
  | a :: l =>
    if near last a ∧ init.length + 1 < cap then runsFrom (init ++ [last]) a l
    else (init ++ [last]) :: runsFrom [] a l

/-- The runs of a list. -/
def runs : List α → List (List α)
  | [] => []
  | a :: l => runsFrom near cap [] a l

/-- The last element of a run is not near the first one of the next, or the run is full. -/
def Apart (g g' : List α) : Prop :=
  ∀ a ∈ g.getLast?, ∀ b ∈ g'.head?, ¬ near a b ∨ g.length = cap

/-- **The runs of a list.** -/
structure IsRuns (l : List α) (groups : List (List α)) : Prop where
  flatten : groups.flatten = l
  size : ∀ g ∈ groups, g ≠ [] ∧ g.length ≤ cap
  chain : ∀ g ∈ groups, g.IsChain near
  apart : groups.IsChain (Apart near cap)

variable {near cap} {init l : List α} {last a : α}

theorem runsFrom_cons_of_pos (h : near last a ∧ init.length + 1 < cap) :
    runsFrom near cap init last (a :: l) = runsFrom near cap (init ++ [last]) a l := by
  rw [runsFrom, if_pos h]

theorem runsFrom_cons_of_neg (h : ¬ (near last a ∧ init.length + 1 < cap)) :
    runsFrom near cap init last (a :: l) = (init ++ [last]) :: runsFrom near cap [] a l := by
  rw [runsFrom, if_neg h]

theorem flatten_runsFrom : ∀ (l init : List α) (last : α),
    (runsFrom near cap init last l).flatten = init ++ last :: l
  | [], init, last => List.flatten_singleton
  | a :: l, init, last => by
    by_cases h : near last a ∧ init.length + 1 < cap
    · rw [runsFrom_cons_of_pos h, flatten_runsFrom l, List.append_assoc, List.singleton_append]
    · rw [runsFrom_cons_of_neg h, List.flatten_cons, flatten_runsFrom l, List.append_assoc,
        List.singleton_append, List.nil_append]

/-- The first run starts with the current one. -/
theorem runsFrom_eq_cons : ∀ (l init : List α) (last : α), ∃ g gs,
    runsFrom near cap init last l = g :: gs ∧ g.head? = (init ++ [last]).head?
  | [], init, last => ⟨_, [], rfl, rfl⟩
  | a :: l, init, last => by
    by_cases h : near last a ∧ init.length + 1 < cap
    · obtain ⟨g, gs, hruns, hhead⟩ := runsFrom_eq_cons l (init ++ [last]) a
      refine ⟨g, gs, (runsFrom_cons_of_pos h).trans hruns, ?_⟩
      rw [hhead, List.head?_append_of_ne_nil _ (List.append_ne_nil_of_right_ne_nil _ (by simp))]
    · exact ⟨_, _, runsFrom_cons_of_neg h, rfl⟩

/-- **A run is not empty, not too long, and its elements are near each other**, if this is so of the
current one. -/
theorem mem_runsFrom : ∀ (l init : List α) (last : α), init.length < cap →
    (init ++ [last]).IsChain near → ∀ g ∈ runsFrom near cap init last l,
      (g ≠ [] ∧ g.length ≤ cap) ∧ g.IsChain near
  | [], init, last, hlen, hchain, g, hg => by
    obtain rfl := List.mem_singleton.mp hg
    refine ⟨⟨by simp, ?_⟩, hchain⟩
    rw [List.length_append, List.length_singleton]
    omega
  | a :: l, init, last, hlen, hchain, g, hg => by
    by_cases h : near last a ∧ init.length + 1 < cap
    · rw [runsFrom_cons_of_pos h] at hg
      refine mem_runsFrom l (init ++ [last]) a ?_ ?_ g hg
      · rw [List.length_append, List.length_singleton]
        exact h.2
      · refine hchain.append (List.isChain_singleton a) ?_
        simpa using h.1
    · rw [runsFrom_cons_of_neg h] at hg
      rcases List.mem_cons.mp hg with rfl | hg
      · refine ⟨⟨by simp, ?_⟩, hchain⟩
        rw [List.length_append, List.length_singleton]
        omega
      · exact mem_runsFrom l [] a (by rw [List.length_nil]; omega) (List.isChain_singleton a) g hg

/-- **Two runs are apart.** -/
theorem isChain_runsFrom : ∀ (l init : List α) (last : α), init.length < cap →
    (runsFrom near cap init last l).IsChain (Apart near cap)
  | [], _, _, _ => List.isChain_singleton _
  | a :: l, init, last, hlen => by
    by_cases h : near last a ∧ init.length + 1 < cap
    · rw [runsFrom_cons_of_pos h]
      refine isChain_runsFrom l (init ++ [last]) a ?_
      rw [List.length_append, List.length_singleton]
      exact h.2
    · have hrest := isChain_runsFrom l [] a (by rw [List.length_nil]; omega)
      have hcons : ∃ g gs, runsFrom near cap [] a l = g :: gs ∧ g.head? = ([] ++ [a]).head? :=
        runsFrom_eq_cons l [] a
      obtain ⟨g, gs, hruns, hhead⟩ := hcons
      rw [runsFrom_cons_of_neg h]
      rw [hruns] at hrest ⊢
      refine List.isChain_cons_cons.mpr ⟨fun x hx y hy => ?_, hrest⟩
      obtain rfl : last = x := by simpa using hx
      obtain rfl : a = y := by
        rw [hhead] at hy
        simpa using hy
      rw [List.length_append, List.length_singleton]
      by_cases hnear : near last a
      · right
        have hfull : ¬ init.length + 1 < cap := fun hlt => h ⟨hnear, hlt⟩
        omega
      · exact Or.inl hnear

/-- **One pass cuts a list into its runs.** -/
theorem isRuns_runs (hcap : 0 < cap) : ∀ l : List α, IsRuns near cap l (runs near cap l)
  | [] => ⟨rfl, by simp [runs], by simp [runs], List.isChain_nil⟩
  | a :: l =>
    { flatten := flatten_runsFrom l [] a
      size := fun g hg => (mem_runsFrom l [] a hcap (List.isChain_singleton a) g hg).1
      chain := fun g hg => (mem_runsFrom l [] a hcap (List.isChain_singleton a) g hg).2
      apart := isChain_runsFrom l [] a hcap }

end VantaCore.Lib.CappedRuns
