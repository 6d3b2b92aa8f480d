import Mathlib.Logic.Relation
import Mathlib.Order.WellFounded
import Mathlib.Data.Fintype.Card
import Mathlib.Tactic

/-! # Orders in which dependencies come first

A relation `r a b` says that `a` depends on `b`. An order is `Closed` if everything an element
depends on stands before it, and `Saturated` in `nodes` if a node all of whose dependencies are in
the order is in it. The elements of such an order are the nodes that reach no cycle
(`mem_iff_not_reachesCycle`). -/

namespace VantaCore.Lib.TopoOrder

open Relation

variable {α : Type*} (r : α → α → Prop)

/-- A path of dependencies leads from `a` to a cycle. -/
def ReachesCycle (a : α) : Prop := ∃ c, ReflTransGen r a c ∧ TransGen r c c

/-- Everything an element of the list depends on stands before it. -/
def Closed (order : List α) : Prop :=
  ∀ l₁ a l₂, order = l₁ ++ a :: l₂ → ∀ b, r a b → b ∈ l₁

/-- A node whose dependencies are all in the list is in it. -/
def Saturated (nodes : Set α) (order : List α) : Prop :=
  ∀ a ∈ nodes, (∀ b, r a b → b ∈ order) → a ∈ order

variable {r} {order : List α}

/-- An element that reaches a cycle depends on one that does. -/
theorem ReachesCycle.exists_step {a : α} (h : ReachesCycle r a) :
    ∃ b, r a b ∧ ReachesCycle r b := by
  obtain ⟨c, hc, hcc⟩ := h
  rcases hc.cases_head with rfl | ⟨b, hab, hbc⟩
  · obtain ⟨b, hab, hba⟩ := TransGen.head'_iff.mp hcc
    exact ⟨b, hab, a, hba, hcc⟩
  · exact ⟨b, hab, c, hbc, hcc⟩

theorem Closed.nil : Closed r ([] : List α) := by
  intro l₁ a l₂ h
  simp at h

theorem Closed.snoc (h : Closed r order) {a : α} (ha : ∀ b, r a b → b ∈ order) :
    Closed r (order ++ [a]) := by
  intro l₁ x l₂ hx b hb
  rcases List.eq_nil_or_concat l₂ with rfl | ⟨l₂', y, rfl⟩
  · obtain ⟨rfl, hxa⟩ := List.append_inj' (show order ++ [a] = l₁ ++ [x] from hx) rfl
    obtain rfl : a = x := by simpa using hxa
    exact ha b hb
  · have hx' : order ++ [a] = (l₁ ++ x :: l₂') ++ [y] := by rw [hx]; simp
    obtain ⟨rfl, -⟩ := List.append_inj' hx' rfl
    exact h l₁ x l₂' rfl b hb

theorem Closed.append (h : Closed r order) : ∀ {l : List α},
    (∀ a ∈ l, ∀ b, r a b → b ∈ order) → Closed r (order ++ l) := by
  intro l
  induction l using List.reverseRecOn with
  | nil => intro _; simpa using h
  | append_singleton l a ih =>
    intro hl
    rw [← List.append_assoc]
    refine (ih fun x hx => hl x (by simp [hx])).snoc fun b hb => ?_
    exact List.mem_append_left _ (hl a (by simp) b hb)

/-- Everything reached from an element stands before it. -/
theorem Closed.transGen (h : Closed r order) {a b : α} (hab : TransGen r a b) :
    ∀ l₁ l₂, order = l₁ ++ a :: l₂ → b ∈ l₁ := by
  induction hab using TransGen.head_induction_on with
  | single hab => exact fun l₁ l₂ ho => h l₁ _ l₂ ho b hab
  | @head a c hac _ ih =>
    intro l₁ l₂ ho
    obtain ⟨m₁, m₂, rfl⟩ := List.append_of_mem (h l₁ a l₂ ho c hac)
    have hb := ih m₁ (m₂ ++ a :: l₂) (by rw [ho]; simp)
    exact List.mem_append_left _ hb

theorem Closed.mem_of_step (h : Closed r order) {a b : α} (ha : a ∈ order) (hab : r a b) :
    b ∈ order := by
  obtain ⟨l₁, l₂, ho⟩ := List.append_of_mem ha
  rw [ho]
  exact List.mem_append_left _ (h l₁ a l₂ ho b hab)

theorem Closed.mem_of_reflTransGen (h : Closed r order) {a b : α} (hab : ReflTransGen r a b)
    (ha : a ∈ order) : b ∈ order := by
  induction hab with
  | refl => exact ha
  | tail _ hbc ih => exact h.mem_of_step ih hbc

/-- No element of a closed order reaches a cycle. -/
theorem Closed.not_reachesCycle (h : Closed r order) {a : α} (ha : a ∈ order) :
    ¬ ReachesCycle r a := by
  rintro ⟨c, hac, hcc⟩
  obtain ⟨l₁, l₂, ho, hc⟩ := List.eq_append_cons_of_mem (h.mem_of_reflTransGen hac ha)
  exact hc (h.transGen hcc l₁ l₂ ho)

/-- A node that reaches no cycle is in a saturated order: what it reaches is finite, and without a
cycle the relation is well founded there. -/
theorem Saturated.mem {nodes : Set α} (hfin : nodes.Finite) (hn : ∀ a b, r a b → b ∈ nodes)
    (hs : Saturated r nodes order) {a : α} (ha : a ∈ nodes) (hc : ¬ ReachesCycle r a) :
    a ∈ order := by
  let R := {x : α // x ∈ nodes ∧ ReflTransGen r a x}
  have : Finite R := (hfin.subset fun x hx => hx.1 : {x | x ∈ nodes ∧ ReflTransGen r a x}.Finite)
  let lt : R → R → Prop := fun x y => TransGen r y.1 x.1
  have : IsTrans R lt := ⟨fun x y z hxy hyz => hyz.trans hxy⟩
  have : Std.Irrefl lt := ⟨fun x hx => hc ⟨x.1, x.2.2, hx⟩⟩
  have hwf : WellFounded lt := Finite.wellFounded_of_trans_of_irrefl lt
  have key : ∀ x : R, x.1 ∈ order := by
    intro x
    induction x using hwf.induction with
    | _ x ih =>
      refine hs x.1 x.2.1 fun b hb => ?_
      exact ih ⟨b, hn _ _ hb, x.2.2.tail hb⟩ (TransGen.single hb)
  exact key ⟨a, ha, ReflTransGen.refl⟩

/-- **The elements of a closed and saturated order** are the nodes that reach no cycle. -/
theorem mem_iff_not_reachesCycle {nodes : Set α} (hfin : nodes.Finite)
    (hn : ∀ a b, r a b → b ∈ nodes) (hsub : ∀ a ∈ order, a ∈ nodes) (hc : Closed r order)
    (hs : Saturated r nodes order) {a : α} :
    a ∈ order ↔ a ∈ nodes ∧ ¬ ReachesCycle r a :=
  ⟨fun h => ⟨hsub a h, hc.not_reachesCycle h⟩, fun h => hs.mem hfin hn h.1 h.2⟩

end VantaCore.Lib.TopoOrder
