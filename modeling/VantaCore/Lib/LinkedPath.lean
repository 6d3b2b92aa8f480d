import Mathlib.Data.List.Nodup
import Mathlib.Tactic

/-! # Following links

From a node a partial function `next` gives the node behind it (`nodeAt`). A walk follows the links
and stops before an address it has been at, at the end of the path, or after `cap` nodes
(`cutPath`); these three demands determine it (`CutPath.unique`). A ring is walked once around
(`cutPath_ring`), and a node whose predecessor is linked to its successor drops out of it
(`Leads.unlink`). -/

namespace VantaCore.Lib.LinkedPath

variable {ν α : Type*} (addr : ν → α) (next : ν → Option ν)

/-- The node that is `i` links behind the first one. -/
def nodeAt (first : Option ν) : ℕ → Option ν
  | 0 => first
  | i + 1 => (nodeAt first i).bind next

/-- The nodes of the path from `first` on, cut before the first one whose address is in `seen` or
has come before, and after `cap` nodes. -/
def cutPath [DecidableEq α] : ℕ → List α → Option ν → List ν
  | 0, _, _ => []
  | _ + 1, _, none => []
  | cap + 1, seen, some v =>
    if addr v ∈ seen then [] else v :: cutPath cap (addr v :: seen) (next v)

/-- The list holds the first nodes of the path, no address twice, up to the first repeated address,
the end of the path or the cap. -/
structure CutPath (first : Option ν) (cap : ℕ) (l : List ν) : Prop where
  node : ∀ i < l.length, l[i]? = nodeAt next first i
  nodup : (l.map addr).Nodup
  le_cap : l.length ≤ cap
  cut : l.length = cap ∨ nodeAt next first l.length = none ∨
    ∃ v, nodeAt next first l.length = some v ∧ addr v ∈ l.map addr

variable {addr next} {first : Option ν} {cap : ℕ}

theorem nodeAt_succ (v : ν) : ∀ i, nodeAt next (some v) (i + 1) = nodeAt next (next v) i
  | 0 => rfl
  | i + 1 => by
    rw [nodeAt, nodeAt_succ v i]
    rfl

/-! ### The walk -/

section Walk

variable [DecidableEq α]

theorem cutPath_disjoint : ∀ (cap : ℕ) (seen : List α) (first : Option ν),
    ∀ v ∈ cutPath addr next cap seen first, addr v ∉ seen
  | 0, _, _, v, hv => by cases hv
  | _ + 1, _, none, v, hv => by cases hv
  | cap + 1, seen, some w, v, hv => by
    rw [cutPath] at hv
    split_ifs at hv with hw
    · cases hv
    · rcases List.mem_cons.mp hv with rfl | hv
      · exact hw
      · have := cutPath_disjoint cap (addr w :: seen) (next w) v hv
        exact fun hin => this (List.mem_cons_of_mem _ hin)

theorem length_cutPath_le : ∀ (cap : ℕ) (seen : List α) (first : Option ν),
    (cutPath addr next cap seen first).length ≤ cap
  | 0, _, _ => le_rfl
  | _ + 1, _, none => Nat.zero_le _
  | cap + 1, seen, some w => by
    rw [cutPath]
    split_ifs with hw
    · exact Nat.zero_le _
    · exact Nat.succ_le_succ (length_cutPath_le cap _ _)

theorem nodup_cutPath : ∀ (cap : ℕ) (seen : List α) (first : Option ν),
    ((cutPath addr next cap seen first).map addr).Nodup
  | 0, _, _ => List.nodup_nil
  | _ + 1, _, none => List.nodup_nil
  | cap + 1, seen, some w => by
    rw [cutPath]
    split_ifs with hw
    · exact List.nodup_nil
    · rw [List.map_cons, List.nodup_cons]
      refine ⟨fun hin => ?_, nodup_cutPath cap _ _⟩
      obtain ⟨v, hv, heq⟩ := List.mem_map.mp hin
      exact cutPath_disjoint cap _ _ v hv (heq ▸ List.mem_cons_self)

theorem getElem?_cutPath : ∀ (cap : ℕ) (seen : List α) (first : Option ν),
    ∀ i < (cutPath addr next cap seen first).length,
      (cutPath addr next cap seen first)[i]? = nodeAt next first i
  | 0, _, _, _, h => absurd h (Nat.not_lt_zero _)
  | _ + 1, _, none, _, h => absurd h (Nat.not_lt_zero _)
  | cap + 1, seen, some w, i, h => by
    rw [cutPath] at h ⊢
    split_ifs at h ⊢ with hw
    · exact absurd h (Nat.not_lt_zero _)
    · cases i with
      | zero => rfl
      | succ i =>
        rw [nodeAt_succ, List.getElem?_cons_succ]
        exact getElem?_cutPath cap _ _ i (Nat.lt_of_succ_lt_succ h)

/-- **Why the walk stops.** -/
theorem cut_cutPath : ∀ (cap : ℕ) (seen : List α) (first : Option ν),
    let l := cutPath addr next cap seen first
    l.length = cap ∨ nodeAt next first l.length = none ∨
      ∃ v, nodeAt next first l.length = some v ∧ (addr v ∈ seen ∨ addr v ∈ l.map addr)
  | 0, _, _ => Or.inl rfl
  | _ + 1, _, none => Or.inr (Or.inl rfl)
  | cap + 1, seen, some w => by
    intro l
    have hl : l = if addr w ∈ seen then [] else w :: cutPath addr next cap (addr w :: seen) (next w) :=
      rfl
    by_cases hw : addr w ∈ seen
    · rw [hl, if_pos hw]
      exact Or.inr (Or.inr ⟨w, rfl, Or.inl hw⟩)
    · rw [hl, if_neg hw, List.length_cons, nodeAt_succ, List.map_cons]
      rcases cut_cutPath cap (addr w :: seen) (next w) with hcap | hend | ⟨v, hv, hin⟩
      · exact Or.inl (congrArg (· + 1) hcap)
      · exact Or.inr (Or.inl hend)
      · refine Or.inr (Or.inr ⟨v, hv, ?_⟩)
        rcases hin with hin | hin
        · rcases List.mem_cons.mp hin with heq | hin
          · exact Or.inr (heq ▸ List.mem_cons_self)
          · exact Or.inl hin
        · exact Or.inr (List.mem_cons_of_mem _ hin)

/-- **The walk from the first node.** -/
theorem cutPath_spec (cap : ℕ) (first : Option ν) :
    CutPath addr next first cap (cutPath addr next cap [] first) where
  node := getElem?_cutPath cap [] first
  nodup := nodup_cutPath cap [] first
  le_cap := length_cutPath_le cap [] first
  cut := by
    have hcut : (cutPath addr next cap [] first).length = cap ∨
        nodeAt next first (cutPath addr next cap [] first).length = none ∨
          ∃ v, nodeAt next first (cutPath addr next cap [] first).length = some v ∧
            (addr v ∈ [] ∨ addr v ∈ (cutPath addr next cap [] first).map addr) :=
      cut_cutPath cap [] first
    rcases hcut with h | h | ⟨v, hv, hin | hin⟩
    · exact Or.inl h
    · exact Or.inr (Or.inl h)
    · cases hin
    · exact Or.inr (Or.inr ⟨v, hv, hin⟩)

end Walk

/-! ### Uniqueness -/

/-- A walk is not shorter than another one. -/
theorem CutPath.length_le {l l' : List ν} (h : CutPath addr next first cap l)
    (h' : CutPath addr next first cap l') : l'.length ≤ l.length := by
  by_contra hlt
  have hlt : l.length < l'.length := not_le.mp hlt
  obtain ⟨w, hw⟩ : ∃ w, l'[l.length]? = some w := ⟨_, List.getElem?_eq_getElem hlt⟩
  have hnode := h'.node l.length hlt
  rw [hw] at hnode
  rcases h.cut with hcap | hend | ⟨v, hv, hin⟩
  · have := h'.le_cap
    omega
  · rw [hend] at hnode
    cases hnode
  · -- the address that ends `l` would come twice in `l'`
    obtain rfl : w = v := Option.some.inj (hnode.trans hv)
    obtain ⟨u, hu, heq⟩ := List.mem_map.mp hin
    obtain ⟨i, hi, rfl⟩ := List.getElem_of_mem hu
    have hi' : l'[i]? = some l[i] := by
      rw [h'.node i (by omega), ← h.node i hi, List.getElem?_eq_getElem hi]
    have h1 : (l'.map addr)[i]? = some (addr w) := by rw [List.getElem?_map, hi', ← heq]; rfl
    have h2 : (l'.map addr)[l.length]? = some (addr w) := by rw [List.getElem?_map, hw]; rfl
    have hlen : i < (l'.map addr).length := by rw [List.length_map]; omega
    have := (List.getElem?_inj hlen h'.nodup).mp (h1.trans h2.symm)
    omega

/-- **The demands determine the walk.** -/
theorem CutPath.unique {l l' : List ν} (h : CutPath addr next first cap l)
    (h' : CutPath addr next first cap l') : l = l' := by
  have hlen : l.length = l'.length := le_antisymm (h'.length_le h) (h.length_le h')
  refine List.ext_getElem? fun i => ?_
  rcases Nat.lt_or_ge i l.length with hi | hi
  · rw [h.node i hi, h'.node i (by omega)]
  · rw [List.getElem?_eq_none hi, List.getElem?_eq_none (by omega)]

/-! ### Rings -/

/-- From `v` the links lead through the nodes of a list to `u`. -/
def Leads (next : ν → Option ν) : ν → List ν → ν → Prop
  | v, [], u => next v = some u
  | v, w :: l, u => next v = some w ∧ Leads next w l u

/-- A walk takes all nodes up to one where it has been. -/
theorem cutPath_of_leads [DecidableEq α] {u : ν} : ∀ {l : List ν} {v : ν} {cap : ℕ} {seen : List α},
    Leads next v l u → ((v :: l).map addr).Nodup → (∀ w ∈ v :: l, addr w ∉ seen) →
    addr u ∈ seen ∨ addr u ∈ (v :: l).map addr → l.length < cap →
    cutPath addr next cap seen (some v) = v :: l
  | l, v, 0, _, _, _, _, _, hcap => absurd hcap (Nat.not_lt_zero _)
  | [], v, cap + 1, seen, hleads, _, hseen, hu, _ => by
    have hlink : next v = some u := hleads
    have hback : addr u ∈ addr v :: seen := by
      rw [List.mem_cons]
      rcases hu with hu | hu
      · exact Or.inr hu
      · exact Or.inl (List.mem_singleton.mp hu)
    rw [cutPath, if_neg (hseen v List.mem_cons_self), hlink]
    cases cap with
    | zero => rfl
    | succ cap => rw [cutPath, if_pos hback]
  | w :: l, v, cap + 1, seen, hleads, hnodup, hseen, hu, hcap => by
    rw [List.map_cons, List.nodup_cons] at hnodup
    have hseen' : ∀ x ∈ w :: l, addr x ∉ addr v :: seen := by
      intro x hx
      rw [List.mem_cons, not_or]
      refine ⟨fun heq => hnodup.1 (heq ▸ List.mem_map_of_mem hx), hseen x (List.mem_cons_of_mem v hx)⟩
    have hu' : addr u ∈ addr v :: seen ∨ addr u ∈ (w :: l).map addr := by
      rcases hu with hu | hu
      · exact Or.inl (List.mem_cons_of_mem _ hu)
      · rw [List.map_cons, List.mem_cons] at hu
        rcases hu with heq | hu
        · exact Or.inl (heq ▸ List.mem_cons_self)
        · exact Or.inr hu
    rw [cutPath, if_neg (hseen v List.mem_cons_self), hleads.1,
      cutPath_of_leads hleads.2 hnodup.2 hseen' hu' (Nat.lt_of_succ_lt_succ hcap)]

/-- **A ring is walked once around.** -/
theorem cutPath_ring [DecidableEq α] {v : ν} {l : List ν} (h : Leads next v l v)
    (hnodup : ((v :: l).map addr).Nodup) (hcap : l.length < cap) :
    cutPath addr next cap [] (some v) = v :: l :=
  cutPath_of_leads h hnodup (fun _ _ => List.not_mem_nil) (Or.inr List.mem_cons_self) hcap

theorem Leads.congr {next' : ν → Option ν} {u : ν} : ∀ {l : List ν} {v : ν}, Leads next v l u →
    (∀ w ∈ v :: l, next' w = next w) → Leads next' v l u
  | [], v, h, heq => (heq v List.mem_cons_self).trans h
  | _ :: _, v, h, heq => ⟨(heq v List.mem_cons_self).trans h.1,
      Leads.congr h.2 fun x hx => heq x (List.mem_cons_of_mem v hx)⟩

/-- Links between the images of nodes. -/
theorem Leads.map {μ : Type*} {next' : μ → Option μ} (f : ν → μ) {u : ν}
    (hf : ∀ v, next' (f v) = (next v).map f) : ∀ {l : List ν} {v : ν}, Leads next v l u →
    Leads next' (f v) (l.map f) (f u)
  | [], v, h => (hf v).trans (congrArg (Option.map f) h)
  | _ :: _, v, h => ⟨(hf v).trans (congrArg (Option.map f) h.1), Leads.map f hf h.2⟩

/-- **Unlinking a node**: if the link of its predecessor leads to where its own led, and the links of
the others are as before, it has dropped out. -/
theorem Leads.unlink {next' : ν → Option ν} {x u : ν} {post : List ν} : ∀ {pre : List ν} {v : ν},
    Leads next v (pre ++ x :: post) u → (v :: (pre ++ x :: post)).Nodup →
    next' ((v :: pre).getLast (List.cons_ne_nil v pre)) = next x →
    (∀ w ∈ v :: (pre ++ post), w ≠ (v :: pre).getLast (List.cons_ne_nil v pre) → next' w = next w) →
    Leads next' v (pre ++ post) u
  | [], v, h, hnodup, hlink, hothers => by
    have hlink' : next' v = next x := hlink
    have hnot : ∀ w ∈ post, next' w = next w := by
      intro w hw
      refine hothers w (List.mem_cons_of_mem v hw) ?_
      rintro rfl
      exact (List.nodup_cons.mp hnodup).1 (List.mem_cons_of_mem x hw)
    rcases post with _ | ⟨y, post⟩
    · exact hlink'.trans h.2
    · exact ⟨hlink'.trans h.2.1, Leads.congr h.2.2 hnot⟩
  | y :: pre, v, h, hnodup, hlink, hothers => by
    have hlast : (v :: y :: pre).getLast (List.cons_ne_nil v _) =
        (y :: pre).getLast (List.cons_ne_nil y pre) := List.getLast_cons (List.cons_ne_nil y pre)
    rw [hlast] at hlink hothers
    rw [List.cons_append, List.nodup_cons] at hnodup
    have hv : next' v = next v := by
      refine hothers v List.mem_cons_self fun heq => hnodup.1 ?_
      have hmem := List.getLast_mem (List.cons_ne_nil y pre)
      rw [← heq] at hmem
      rcases List.mem_cons.mp hmem with rfl | hmem
      · exact List.mem_cons_self
      · exact List.mem_cons_of_mem y (List.mem_append_left _ hmem)
    exact ⟨hv.trans h.1, Leads.unlink h.2 hnodup.2 hlink fun w hw =>
      hothers w (List.mem_cons_of_mem v hw)⟩

end VantaCore.Lib.LinkedPath
