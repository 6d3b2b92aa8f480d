import VantaCore.Lib.Json.Values
import VantaCore.Lib.Json.RoundTrip

/-! # What comes back

Reading a text and writing it again sorts every object by its keys and keeps the last entry of a
key (`canon`, `toTree_ofTree`). So the text comes back as it was exactly if in every object the
keys increase (`canon_eq_iff`), and the text of a value does exactly if in every dictionary the
strings its keys are written as increase in the order they are written in (`Stable`, `stable_iff`).
Keys that are numbers need not: 2 is written before 10. -/

namespace VantaCore.Lib.Json.Canonical

open VantaCore.Lib VantaCore.Lib.PyText VantaCore.Lib.Json.Strings VantaCore.Lib.Json.Text
open VantaCore.Lib.Json.Values VantaCore.Lib.Json.RoundTrip

variable {F : Type}

/-- An object read as a dictionary, with its values as they are. -/
def objectOf (es : List (List CodeUnit × JsonTree F)) : Dict PyStr (JsonTree F) :=
  Dict.ofList (es.map fun e => (ofUnits e.1, e.2))

/-- A dictionary written as an object. -/
def toObject (d : Dict PyStr (JsonTree F)) : JsonTree F :=
  .obj ((sortByKey d.entries).map fun e => (units e.1, e.2))

mutual

/-- A value read and written again. -/
def canon : JsonTree F → JsonTree F
  | .arr xs => .arr (canonItems xs)
  | .obj es => toObject (Dict.ofList (canonEntries es))
  | x => x

def canonItems : List (JsonTree F) → List (JsonTree F)
  | [] => []
  | x :: xs => canon x :: canonItems xs

def canonEntries : List (List CodeUnit × JsonTree F) → List (PyStr × JsonTree F)
  | [] => []
  | (k, x) :: es => (ofUnits k, canon x) :: canonEntries es

end

theorem canonEntries_eq : ∀ es : List (List CodeUnit × JsonTree F),
    canonEntries es = es.map fun e => (ofUnits e.1, canon e.2) := by
  intro es
  induction es with
  | nil => rfl
  | cons e es ih =>
    rw [canonEntries, ih]
    rfl

theorem canon_obj (es : List (List CodeUnit × JsonTree F)) :
    canon (.obj es) = toObject ((objectOf es).mapValues canon) := by
  rw [canon, canonEntries_eq, objectOf, Dict.mapValues_ofList, List.map_map]
  rfl

theorem mem_objectOf {es : List (List CodeUnit × JsonTree F)} {e : PyStr × JsonTree F}
    (h : e ∈ (objectOf es).entries) : ∃ k, ofUnits k = e.1 ∧ (k, e.2) ∈ es := by
  obtain ⟨e', he', rfl⟩ := List.mem_map.mp (Dict.mem_of_mem_ofList h)
  exact ⟨e'.1, rfl, he'⟩

/-! ### Reading and writing -/

theorem ofTreeEntries_eq : ∀ es : List (List CodeUnit × JsonTree F),
    ofTreeEntries es = es.map fun e => (ofUnits e.1, ofTree e.2) := by
  intro es
  induction es with
  | nil => rfl
  | cons e es ih =>
    rw [ofTreeEntries, ih]
    rfl

theorem ofList_ofTreeEntries (es : List (List CodeUnit × JsonTree F)) :
    Dict.ofList (ofTreeEntries es) = (objectOf es).mapValues ofTree := by
  rw [ofTreeEntries_eq, objectOf, Dict.mapValues_ofList, List.map_map]
  rfl

section Write

variable [FloatText F]

theorem toTreeItems_map {α : Type} {f : α → PyVal F} {g : α → JsonTree F} :
    ∀ {l : List (PyStr × α)}, (∀ e ∈ l, toTree (f e.2) = some (g e.2)) →
      toTreeItems (l.map fun e => (.str e.1, f e.2)) = some (l.map fun e => (.str e.1, g e.2))
  | [], _ => rfl
  | e :: l, h => by
    have ih := toTreeItems_map (fun e he => h e (List.mem_cons_of_mem _ he))
    rw [List.map_cons, toTreeItems, h e List.mem_cons_self, ih]
    rfl

theorem sortItems_str {α : Type} (l : List (PyStr × α)) :
    sortItems (F := F) (l.map fun e => (.str e.1, e.2)) =
      some ((sortByKey l).map fun e => (.str e.1, e.2)) := by
  unfold sortItems
  split_ifs with hlen hstr
  · rcases l with _ | ⟨e, _ | ⟨e', l⟩⟩
    · rfl
    · rfl
    · simp at hlen
  · refine congrArg some (Eq.symm ?_)
    exact List.map_insertionSort (fun a b : PyStr × α => a.1 ≤ b.1)
      (fun a b : PyKey F × α => (keyStr a.1).getD [] ≤ (keyStr b.1).getD [])
      (fun e : PyStr × α => (PyKey.str e.1, e.2)) l fun _ _ _ _ => Iff.rfl
  · simp [keyStr] at hstr
  · simp [keyStr] at hstr

/-- **A dictionary whose keys are strings**, by the texts of its values. -/
theorem toTree_ofDict {α : Type} {f : α → PyVal F} {g : α → JsonTree F} {d : Dict PyStr α}
    (h : ∀ e ∈ d.entries, toTree (f e.2) = some (g e.2)) :
    toTree (ofDict (d.mapValues f)) = some (toObject (d.mapValues g)) := by
  have hitems : (d.mapValues f).entries.map (fun e => (PyKey.str (F := F) e.1, e.2)) =
      d.entries.map fun e => (.str e.1, f e.2) := by
    rw [Dict.mapValues, List.map_map]; rfl
  have hsort := sortItems_str (F := F) (d.mapValues g).entries
  rw [Dict.mapValues, List.map_map] at hsort
  rw [ofDict, hitems, toTree, toTreeItems_map h]
  simp only
  rw [show (d.entries.map fun e => (PyKey.str (F := F) e.1, g e.2)) =
    d.entries.map ((fun e => (PyKey.str e.1, e.2)) ∘ fun e => (e.1, g e.2)) from rfl, hsort]
  rw [Option.map_some, List.map_map]
  rfl

mutual

/-- **Reading and writing again.** -/
theorem toTree_ofTree : ∀ x : JsonTree F, toTree (ofTree x) = some (canon x)
  | .null => rfl
  | .bool _ => rfl
  | .int _ => rfl
  | .float _ => rfl
  | .str us => by rw [ofTree, toTree, units_ofUnits]; rfl
  | .arr xs => by rw [ofTree, toTree, toTrees_ofTrees xs]; rfl
  | .obj es => by
    have hes := toTree_ofTree_of_mem es
    rw [ofTree, ofList_ofTreeEntries, canon_obj]
    refine toTree_ofDict fun e he => ?_
    obtain ⟨k, -, hk⟩ := mem_objectOf he
    exact hes _ hk

theorem toTrees_ofTrees : ∀ xs : List (JsonTree F), toTrees (ofTrees xs) = some (canonItems xs)
  | [] => rfl
  | x :: xs => by rw [ofTrees, toTrees, toTree_ofTree x, toTrees_ofTrees xs]; rfl

theorem toTree_ofTree_of_mem : ∀ es : List (List CodeUnit × JsonTree F),
    ∀ e ∈ es, toTree (ofTree e.2) = some (canon e.2)
  | [], _, he => absurd he List.not_mem_nil
  | (_, x) :: es, e, he => by
    rcases List.mem_cons.mp he with rfl | he
    · exact toTree_ofTree x
    · exact toTree_ofTree_of_mem es e he

end

end Write

/-! ### Increasing keys -/

/-- The keys of an object increase. -/
def KeysIncrease (es : List (List CodeUnit × JsonTree F)) : Prop :=
  (es.map fun e => ofUnits e.1).Pairwise (· < ·)

mutual

/-- In every object the keys increase. -/
def Increasing : JsonTree F → Prop
  | .arr xs => IncreasingItems xs
  | .obj es => KeysIncrease es ∧ IncreasingEntries es
  | _ => True

def IncreasingItems : List (JsonTree F) → Prop
  | [] => True
  | x :: xs => Increasing x ∧ IncreasingItems xs

def IncreasingEntries : List (List CodeUnit × JsonTree F) → Prop
  | [] => True
  | (_, x) :: es => Increasing x ∧ IncreasingEntries es

end

theorem increasingEntries_iff : ∀ es : List (List CodeUnit × JsonTree F),
    IncreasingEntries es ↔ ∀ e ∈ es, Increasing e.2 := by
  intro es
  induction es with
  | nil => simp [IncreasingEntries]
  | cons e es ih => rw [IncreasingEntries, ih, List.forall_mem_cons]

/-- An object read keeps its entries if its keys increase. -/
theorem entries_objectOf {es : List (List CodeUnit × JsonTree F)} (h : KeysIncrease es) :
    (objectOf es).entries = es.map fun e => (ofUnits e.1, e.2) := by
  refine Dict.entries_ofList ?_
  rw [List.map_map]
  exact h.imp ne_of_lt

/-- **An object whose keys increase** is written as it was read. -/
theorem toObject_objectOf {es : List (List CodeUnit × JsonTree F)} (h : KeysIncrease es)
    (f : JsonTree F → JsonTree F) :
    toObject ((objectOf es).mapValues f) = .obj (es.map fun e => (e.1, f e.2)) := by
  have hentries : ((objectOf es).mapValues f).entries =
      es.map fun e => (ofUnits e.1, f e.2) := by
    have hmap := congrArg (List.map fun e => (e.1, f e.2)) (entries_objectOf h)
    rwa [List.map_map] at hmap
  have hinc : ((es.map fun e => (ofUnits e.1, f e.2)).map Prod.fst).Pairwise (· < ·) := by
    rw [List.map_map]; exact h
  rw [toObject, hentries, sortByKey_of_increasing hinc, List.map_map]
  refine congrArg _ (List.map_congr_left fun e _ => ?_)
  rw [Function.comp_apply, units_ofUnits]

/-- The keys of a dictionary written as an object, if they come back as they are. -/
theorem keysIncrease_toObject {d : Dict PyStr (JsonTree F)}
    (h : ∀ k ∈ d.keys, normal k = k) :
    KeysIncrease ((sortByKey d.entries).map fun e => (units e.1, e.2)) := by
  have hkeys : ((sortByKey d.entries).map fun e => (units e.1, e.2)).map (fun e => ofUnits e.1) =
      (sortByKey d.entries).map Prod.fst := by
    rw [List.map_map]
    refine List.map_congr_left fun e he => ?_
    exact h e.1 (List.mem_map_of_mem (mem_sortByKey.mp he))
  rw [KeysIncrease, hkeys]
  exact increasing_sortByKey d.nodup

theorem normal_ofUnits (us : List CodeUnit) : normal (ofUnits us) = ofUnits us := by
  rw [normal, units_ofUnits]

theorem normal_of_mem_objectOf {es : List (List CodeUnit × JsonTree F)} :
    ∀ k ∈ (objectOf es).keys, normal k = k := by
  intro k hk
  obtain ⟨e, he, rfl⟩ := List.mem_map.mp hk
  obtain ⟨us, hus, -⟩ := mem_objectOf he
  rw [← hus, normal_ofUnits]

mutual

theorem increasing_canon : ∀ x : JsonTree F, Increasing (canon x)
  | .null => trivial
  | .bool _ => trivial
  | .int _ => trivial
  | .float _ => trivial
  | .str _ => trivial
  | .arr xs => by rw [canon, Increasing]; exact increasing_canonItems xs
  | .obj es => by
    have hes := increasing_canon_of_mem es
    rw [canon_obj, toObject, Increasing, increasingEntries_iff]
    refine ⟨keysIncrease_toObject fun k hk => ?_, fun e he => ?_⟩
    · rw [Dict.keys_mapValues] at hk
      exact normal_of_mem_objectOf k hk
    · obtain ⟨e', he', rfl⟩ := List.mem_map.mp he
      obtain ⟨e'', he'', rfl⟩ := List.mem_map.mp (mem_sortByKey.mp he')
      obtain ⟨k, -, hk⟩ := mem_objectOf he''
      exact hes _ hk

theorem increasing_canonItems : ∀ xs : List (JsonTree F), IncreasingItems (canonItems xs)
  | [] => trivial
  | x :: xs => by
    rw [canonItems, IncreasingItems]
    exact ⟨increasing_canon x, increasing_canonItems xs⟩

theorem increasing_canon_of_mem : ∀ es : List (List CodeUnit × JsonTree F),
    ∀ e ∈ es, Increasing (canon e.2)
  | [], _, he => absurd he List.not_mem_nil
  | (_, x) :: es, e, he => by
    rcases List.mem_cons.mp he with rfl | he
    · exact increasing_canon x
    · exact increasing_canon_of_mem es e he

end

mutual

theorem canon_of_increasing : ∀ x : JsonTree F, Increasing x → canon x = x
  | .null, _ => rfl
  | .bool _, _ => rfl
  | .int _, _ => rfl
  | .float _, _ => rfl
  | .str _, _ => rfl
  | .arr xs, h => by
    rw [Increasing] at h
    rw [canon, canonItems_of_increasing xs h]
  | .obj es, h => by
    rw [Increasing] at h
    have hes := canon_of_mem es h.2
    rw [canon_obj, toObject_objectOf h.1]
    refine congrArg _ ((List.map_congr_left fun e he => ?_).trans (List.map_id es))
    rw [hes e he]; rfl

theorem canonItems_of_increasing : ∀ xs : List (JsonTree F), IncreasingItems xs →
    canonItems xs = xs
  | [], _ => rfl
  | x :: xs, h => by
    rw [IncreasingItems] at h
    rw [canonItems, canon_of_increasing x h.1, canonItems_of_increasing xs h.2]

theorem canon_of_mem : ∀ es : List (List CodeUnit × JsonTree F), IncreasingEntries es →
    ∀ e ∈ es, canon e.2 = e.2
  | [], _, _, he => absurd he List.not_mem_nil
  | (_, x) :: es, h, e, he => by
    rw [IncreasingEntries] at h
    rcases List.mem_cons.mp he with rfl | he
    · exact canon_of_increasing x h.1
    · exact canon_of_mem es h.2 e he

end

/-- **A value comes back as it was exactly if its keys increase.** -/
theorem canon_eq_iff {x : JsonTree F} : canon x = x ↔ Increasing x :=
  ⟨fun h => h ▸ increasing_canon x, canon_of_increasing x⟩

/-! ### Values that come back -/

section Stable

variable [FloatText F]

/-- The strings the keys of a dictionary are written as, in the order they are written in. -/
def writtenKeys {α : Type} (es : List (PyKey F × α)) : Option (List PyStr) :=
  (sortItems es).map fun es => es.map fun e => normal (keyText e.1)

mutual

/-- **A value whose text comes back**: in every dictionary the strings its keys are written as
increase in the order they are written in. -/
def Stable : PyVal F → Prop
  | .list xs => StableItems xs
  | .dict es => (∀ ks ∈ writtenKeys es, ks.Pairwise (· < ·)) ∧ StableEntries es
  | _ => True

def StableItems : List (PyVal F) → Prop
  | [] => True
  | x :: xs => Stable x ∧ StableItems xs

def StableEntries : List (PyKey F × PyVal F) → Prop
  | [] => True
  | (_, x) :: es => Stable x ∧ StableEntries es

end

mutual

/-- Whether a value is stable. -/
def decideStable : (x : PyVal F) → Decidable (Stable x)
  | .none => .isTrue trivial
  | .bool _ => .isTrue trivial
  | .int _ => .isTrue trivial
  | .float _ => .isTrue trivial
  | .str _ => .isTrue trivial
  | .other => .isTrue trivial
  | .list xs => decideStableItems xs
  | .dict es =>
    haveI := decideStableEntries es
    inferInstanceAs (Decidable ((∀ ks ∈ writtenKeys es, ks.Pairwise (· < ·)) ∧ StableEntries es))

def decideStableItems : (xs : List (PyVal F)) → Decidable (StableItems xs)
  | [] => .isTrue trivial
  | x :: xs =>
    haveI := decideStable x
    haveI := decideStableItems xs
    inferInstanceAs (Decidable (Stable x ∧ StableItems xs))

def decideStableEntries : (es : List (PyKey F × PyVal F)) → Decidable (StableEntries es)
  | [] => .isTrue trivial
  | (_, x) :: es =>
    haveI := decideStable x
    haveI := decideStableEntries es
    inferInstanceAs (Decidable (Stable x ∧ StableEntries es))

end

instance (x : PyVal F) : Decidable (Stable x) := decideStable x

example : ¬ Stable (F := Empty) (.dict [(.int 2, .none), (.int 10, .none)]) := by decide

theorem stableEntries_iff : ∀ es : List (PyKey F × PyVal F),
    StableEntries es ↔ ∀ e ∈ es, Stable e.2
  | [] => by simp [StableEntries]
  | (k, x) :: es => by rw [StableEntries, stableEntries_iff es, List.forall_mem_cons]

theorem sortItems_map {α β : Type} (f : α → β) (es : List (PyKey F × α)) :
    sortItems (es.map fun e => (e.1, f e.2)) =
      (sortItems es).map (List.map fun e => (e.1, f e.2)) := by
  have hstr : ((es.map fun e => (e.1, f e.2)).all fun e => (keyStr e.1).isSome) =
      es.all fun e => (keyStr e.1).isSome := by rw [List.all_map]; rfl
  have hnum : ((es.map fun e => (e.1, f e.2)).all fun e => IsNumber e.1) =
      es.all fun e => IsNumber e.1 := by rw [List.all_map]; rfl
  unfold sortItems
  rw [List.length_map, hstr, hnum]
  split_ifs
  · rfl
  · exact congrArg some (List.map_insertionSort
      (fun a b : PyKey F × α => (keyStr a.1).getD [] ≤ (keyStr b.1).getD [])
      (fun a b : PyKey F × β => (keyStr a.1).getD [] ≤ (keyStr b.1).getD [])
      (fun e => (e.1, f e.2)) es fun _ _ _ _ => Iff.rfl).symm
  · exact congrArg some (List.map_insertionSort
      (fun a b : PyKey F × α => numberLt b.1 a.1 = false)
      (fun a b : PyKey F × β => numberLt b.1 a.1 = false)
      (fun e => (e.1, f e.2)) es fun _ _ _ _ => Iff.rfl).symm
  · rfl

theorem perm_sortItems {α : Type} {es es' : List (PyKey F × α)} (h : sortItems es = some es') :
    es'.Perm es := by
  unfold sortItems at h
  split_ifs at h
  · rw [Option.some.inj h]
  · rw [← Option.some.inj h]; exact List.perm_insertionSort _ es
  · rw [← Option.some.inj h]; exact List.perm_insertionSort _ es

/-- The order depends on the keys only. -/
theorem writtenKeys_map {α β : Type} (f : α → β) (es : List (PyKey F × α)) :
    writtenKeys (es.map fun e => (e.1, f e.2)) = writtenKeys es := by
  rw [writtenKeys, sortItems_map, Option.map_map, writtenKeys]
  refine congrArg (fun g => Option.map g (sortItems es)) (funext fun es => ?_)
  rw [Function.comp_apply, List.map_map]
  rfl

/-- The text of a value that has one. -/
def tree (x : PyVal F) : JsonTree F := (toTree x).getD .null

theorem tree_of_toTree {x : PyVal F} {t : JsonTree F} (h : toTree x = some t) : tree x = t := by
  rw [tree, h, Option.getD_some]

theorem toTreeItems_eq_some_iff : ∀ {es : List (PyKey F × PyVal F)}
    {ts : List (PyKey F × JsonTree F)}, toTreeItems es = some ts ↔
      (∀ e ∈ es, (toTree e.2).isSome) ∧ ts = es.map fun e => (e.1, tree e.2)
  | [], ts => by
    rw [toTreeItems, List.map_nil, Option.some.injEq]
    exact ⟨fun h => ⟨fun _ he => absurd he List.not_mem_nil, h.symm⟩, fun h => h.2.symm⟩
  | (k, x) :: es, ts => by
    have ih := @toTreeItems_eq_some_iff es
    rw [toTreeItems, List.forall_mem_cons, List.map_cons]
    cases hx : toTree x with
    | none => simp
    | some t =>
      rw [tree_of_toTree hx]
      cases hes : toTreeItems es with
      | none =>
        have hno : ¬ ∀ e ∈ es, (toTree e.2).isSome := fun h =>
          absurd (hes.symm.trans (ih.mpr ⟨h, rfl⟩)) (by simp)
        exact ⟨fun h => absurd h (by simp), fun h => absurd h.1.2 hno⟩
      | some ts' =>
        obtain ⟨hall, rfl⟩ := ih.mp hes
        exact ⟨fun h => ⟨⟨rfl, hall⟩, (Option.some.inj h).symm⟩, fun h => congrArg some h.2.symm⟩

mutual

/-- **A value comes back exactly if it is stable.** -/
theorem stable_iff : ∀ {x : PyVal F} {t : JsonTree F}, toTree x = some t → (Stable x ↔ Increasing t)
  | .none, _, h => by rw [← Option.some.inj h]; exact Iff.rfl
  | .bool _, _, h => by rw [← Option.some.inj h]; exact Iff.rfl
  | .int _, _, h => by rw [← Option.some.inj h]; exact Iff.rfl
  | .float _, _, h => by rw [← Option.some.inj h]; exact Iff.rfl
  | .str _, _, h => by rw [← Option.some.inj h]; exact Iff.rfl
  | .other, _, h => absurd h (by simp [toTree])
  | .list xs, t, h => by
    rw [toTree, Option.map_eq_some_iff] at h
    obtain ⟨ts, hts, rfl⟩ := h
    rw [Stable, Increasing, stableItems_iff hts]
  | .dict es, t, h => by
    have hes := stable_iff_of_mem es
    rw [toTree] at h
    cases hitems : toTreeItems es with
    | none => simp [hitems] at h
    | some ts =>
      obtain ⟨hall, rfl⟩ := toTreeItems_eq_some_iff.mp hitems
      rw [hitems] at h
      obtain ⟨sorted, hsorted, rfl⟩ := Option.map_eq_some_iff.mp h
      have hkeys : writtenKeys es = some (sorted.map fun e => normal (keyText e.1)) := by
        rw [← writtenKeys_map tree es, writtenKeys, hsorted, Option.map_some]
      rw [Stable, Increasing, hkeys, KeysIncrease, List.map_map, stableEntries_iff,
        increasingEntries_iff]
      refine and_congr ⟨fun h => h _ rfl, fun h ks hks => Option.some.inj hks ▸ h⟩ ?_
      constructor
      · intro h e' he'
        obtain ⟨e'', he'', rfl⟩ := List.mem_map.mp he'
        obtain ⟨e, he, rfl⟩ := List.mem_map.mp ((perm_sortItems hsorted).mem_iff.mp he'')
        obtain ⟨t, ht⟩ := Option.isSome_iff_exists.mp (hall e he)
        show Increasing (tree e.2)
        rw [tree_of_toTree ht]
        exact (hes e he t ht).mp (h e he)
      · intro h e he
        obtain ⟨t, ht⟩ := Option.isSome_iff_exists.mp (hall e he)
        refine (hes e he t ht).mpr ?_
        have hmem := (perm_sortItems hsorted).mem_iff.mpr (List.mem_map_of_mem he)
        have := h _ (List.mem_map_of_mem (f := fun e => (units (keyText e.1), e.2)) hmem)
        rwa [tree_of_toTree ht] at this

theorem stableItems_iff : ∀ {xs : List (PyVal F)} {ts : List (JsonTree F)},
    toTrees xs = some ts → (StableItems xs ↔ IncreasingItems ts)
  | [], _, h => by rw [← Option.some.inj h]; exact Iff.rfl
  | x :: xs, ts, h => by
    rw [toTrees] at h
    cases hx : toTree x with
    | none => simp [hx] at h
    | some t =>
      cases hxs : toTrees xs with
      | none => simp [hx, hxs] at h
      | some ts' =>
        rw [hx, hxs] at h
        rw [← Option.some.inj h, StableItems, IncreasingItems, stable_iff hx, stableItems_iff hxs]

theorem stable_iff_of_mem : ∀ (es : List (PyKey F × PyVal F)), ∀ e ∈ es, ∀ t : JsonTree F,
    toTree e.2 = some t → (Stable e.2 ↔ Increasing t)
  | [], _, he, _, _ => absurd he List.not_mem_nil
  | (_, x) :: es, e, he, t, h => by
    rcases List.mem_cons.mp he with rfl | he
    · exact stable_iff h
    · exact stable_iff_of_mem es e he t h

end

theorem toTree_ofDict_of_isSome {d : Dict PyStr (PyVal F)}
    (h : ∀ e ∈ d.entries, (toTree e.2).isSome) :
    toTree (ofDict d) = some (toObject (d.mapValues tree)) := by
  have hid : d.mapValues id = d := Dict.ext (List.map_id d.entries)
  have htree := toTree_ofDict (f := id) (g := tree) fun e he => by
    obtain ⟨t, ht⟩ := Option.isSome_iff_exists.mp (h e he)
    rw [id, ht, tree_of_toTree ht]
  rwa [hid] at htree

/-- **When a dictionary whose keys are strings is written**, and what. -/
theorem toTree_ofDict_iff {d : Dict PyStr (PyVal F)} {t : JsonTree F} :
    toTree (ofDict d) = some t ↔
      (∀ e ∈ d.entries, (toTree e.2).isSome) ∧ t = toObject (d.mapValues tree) := by
  constructor
  · intro h
    have hall : ∀ e ∈ d.entries, (toTree e.2).isSome := by
      rw [ofDict, toTree] at h
      cases hitems : toTreeItems (d.entries.map fun e => (PyKey.str e.1, e.2)) with
      | none => simp [hitems] at h
      | some ts =>
        exact fun e he => (toTreeItems_eq_some_iff.mp hitems).1 _ (List.mem_map_of_mem he)
    rw [toTree_ofDict_of_isSome hall] at h
    exact ⟨hall, (Option.some.inj h).symm⟩
  · rintro ⟨hall, rfl⟩
    exact toTree_ofDict_of_isSome hall

end Stable

end VantaCore.Lib.Json.Canonical
