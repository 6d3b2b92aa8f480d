import VantaCore.Lib.Json.Canonical

/-! # JSON Lines

A text with an object on every line. A line that `json.dumps` writes holds no line end, so the lines
of what was written are what was written (`lines_unlines`), and what is read of a line is the object
with its entries sorted and its keys as they come back (`loadsObject_print`). -/

namespace VantaCore.Lib.Json.Lines

open VantaCore.Lib VantaCore.Lib.PyText VantaCore.Lib.Json.Strings VantaCore.Lib.Json.Text
open VantaCore.Lib.Json.Values VantaCore.Lib.Json.RoundTrip VantaCore.Lib.Json.Canonical

/-- The lines of a text, without their ends. -/
def lines : List Char → List (List Char)
  | [] => []
  | c :: cs =>
    if c = '\n' then [] :: lines cs
    else match lines cs with
      | [] => [[c]]
      | l :: ls => (c :: l) :: ls

/-- Lines as a text, each with its end. -/
def unlines (ls : List (List Char)) : List Char := ls.flatMap (· ++ ['\n'])

theorem lines_append : ∀ {l : List Char}, '\n' ∉ l → ∀ cs, lines (l ++ '\n' :: cs) = l :: lines cs
  | [], _, cs => by rw [List.nil_append, lines, if_pos rfl]
  | c :: l, h, cs => by
    rw [List.mem_cons, not_or] at h
    rw [List.cons_append, lines, if_neg (Ne.symm h.1), lines_append h.2]

theorem lines_unlines : ∀ {ls : List (List Char)}, (∀ l ∈ ls, '\n' ∉ l) → lines (unlines ls) = ls
  | [], _ => rfl
  | l :: ls, h => by
    rw [List.forall_mem_cons] at h
    rw [unlines, List.flatMap_cons, List.append_assoc, List.singleton_append, lines_append h.1]
    exact congrArg (l :: ·) (lines_unlines h.2)

variable {F : Type}

/-- The objects of the lines. -/
def loadsLines [FloatText F] (cs : List Char) : Option (List (Dict PyStr (PyVal F))) :=
  (lines cs).mapM loadsObject

theorem mapM_loadsObject [FloatText F] {α : Type*} {write : α → List Char}
    {read : α → Dict PyStr (PyVal F)} : ∀ {l : List α},
    (∀ a ∈ l, loadsObject (write a) = some (read a)) →
    (l.map write).mapM loadsObject = some (l.map read)
  | [], _ => rfl
  | a :: l, h => by
    rw [List.forall_mem_cons] at h
    rw [List.map_cons, List.mapM_cons, h.1, mapM_loadsObject h.2]
    rfl

/-- **The objects of lines that are written one by one** are what is read of each. -/
theorem loadsLines_unlines [FloatText F] {α : Type*} {write : α → List Char}
    {read : α → Dict PyStr (PyVal F)} {l : List α} (hline : ∀ a ∈ l, '\n' ∉ write a)
    (hread : ∀ a ∈ l, loadsObject (write a) = some (read a)) :
    loadsLines (unlines (l.map write)) = some (l.map read) := by
  rw [loadsLines, lines_unlines (List.forall_mem_map.mpr hline), mapM_loadsObject hread]

/-! ### What is read of a line -/

/-- What is read of a dictionary written as an object, with its values as they are. -/
def readBack (d : Dict PyStr (JsonTree F)) : Dict PyStr (JsonTree F) :=
  objectOf ((sortByKey d.entries).map fun e => (units e.1, e.2))

theorem readBack_eq (d : Dict PyStr (JsonTree F)) :
    readBack d = Dict.ofList ((sortByKey d.entries).map fun e => (normal e.1, e.2)) := by
  rw [readBack, objectOf, List.map_map]
  rfl

/-- A key below the surrogates is read where it was written. -/
theorem normal_eq_iff {k s : PyStr} (hk : Low k) : normal s = k ↔ s = k := by
  constructor
  · rintro rfl
    exact eq_of_units_eq hk (units_ofUnits (units s)).symm
  · rintro rfl
    exact normal_of_encodable hk.encodable

theorem mem_readBack {d : Dict PyStr (JsonTree F)} {k : PyStr} (hk : Low k)
    {x : JsonTree F} (h : (k, x) ∈ (readBack d).entries) : (k, x) ∈ d.entries := by
  rw [readBack_eq] at h
  obtain ⟨e, he, hek⟩ := List.mem_map.mp (Dict.mem_of_mem_ofList h)
  obtain ⟨h₁, rfl⟩ := Prod.mk.inj hek
  rw [← (normal_eq_iff hk).mp h₁]
  exact mem_sortByKey.mp he

/-- **The value of a key that comes back.** -/
theorem get?_readBack (d : Dict PyStr (JsonTree F)) {k : PyStr} (hk : Low k) :
    (readBack d).get? k = d.get? k := by
  cases hd : d.get? k with
  | none =>
    rw [Dict.get?_eq_none_iff] at hd ⊢
    intro hmem
    obtain ⟨e, he, rfl⟩ := List.mem_map.mp hmem
    exact hd (List.mem_map_of_mem (mem_readBack hk he))
  | some x =>
    have hmem : k ∈ (readBack d).keys := by
      rw [readBack_eq, Dict.mem_keys_ofList, List.map_map]
      have he := mem_sortByKey.mpr (Dict.get?_eq_some_iff.mp hd)
      exact List.mem_map.mpr ⟨(k, x), he, (normal_eq_iff hk).mpr rfl⟩
    obtain ⟨x', hx'⟩ := Dict.mem_keys_iff.mp hmem
    have := Dict.get?_eq_some_iff.mpr (mem_readBack hk (Dict.get?_eq_some_iff.mp hx'))
    rw [hx', ← this, hd]

/-- **Without a key that comes back.** -/
theorem erase_readBack (d : Dict PyStr (JsonTree F)) {k : PyStr} (hk : Low k) :
    (readBack d).erase k = readBack (d.erase k) := by
  have hfilter : ((sortByKey d.entries).map fun e => (normal e.1, e.2)).filter (·.1 ≠ k) =
      ((sortByKey d.entries).filter (·.1 ≠ k)).map fun e => (normal e.1, e.2) := by
    rw [List.filter_map]
    refine congrArg _ (List.filter_congr fun e _ => ?_)
    simp [normal_eq_iff hk]
  rw [readBack_eq, readBack_eq, Dict.erase_ofList, hfilter, filter_sortByKey d.nodup]
  rfl

/-- The keys an object was written with, of those that come back. -/
theorem mem_keys_of_toObject_eq {d d' : Dict PyStr (JsonTree F)} (h : toObject d = toObject d')
    {k : PyStr} (hk : Low k) (hmem : k ∈ d.keys) : k ∈ d'.keys := by
  obtain ⟨e, he, rfl⟩ := List.mem_map.mp hmem
  have hes := JsonTree.obj.inj h
  have he' := List.mem_map_of_mem (f := fun e => (units e.1, e.2)) (mem_sortByKey.mpr he)
  rw [hes] at he'
  obtain ⟨e', hmem', heq⟩ := List.mem_map.mp he'
  rw [← eq_of_units_eq hk (Prod.mk.inj heq).1]
  exact List.mem_map_of_mem (mem_sortByKey.mp hmem')

/-! ### Objects of changed dictionaries -/

/-- Dictionaries with the same values are written as one object. -/
theorem toObject_congr {d d' : Dict PyStr (JsonTree F)} (h : ∀ k, d.get? k = d'.get? k) :
    toObject d = toObject d' := by
  have hperm : d.entries.Perm d'.entries :=
    (List.perm_ext_iff_of_nodup d.nodup.of_map d'.nodup.of_map).mpr fun e => by
      rw [← Dict.get?_eq_some_iff, ← Dict.get?_eq_some_iff, h]
  rw [toObject, toObject, sortByKey_eq_of_perm d.nodup hperm]

theorem units_eq_iff {k s : PyStr} (hk : Low k) : units s = units k ↔ s = k :=
  ⟨eq_of_units_eq hk, congrArg units⟩

/-- Without a key, what is written is still the same. -/
theorem toObject_erase_eq {d d' : Dict PyStr (JsonTree F)} (h : toObject d = toObject d') {k : PyStr}
    (hk : Low k) : toObject (d.erase k) = toObject (d'.erase k) := by
  have herase : ∀ d : Dict PyStr (JsonTree F), toObject (d.erase k) =
      .obj (((sortByKey d.entries).map fun e => (units e.1, e.2)).filter (·.1 ≠ units k)) := by
    intro d
    have hfilter : (sortByKey d.entries).filter (fun e => e.1 ≠ k) =
        (sortByKey d.entries).filter fun e => units e.1 ≠ units k :=
      List.filter_congr fun e _ => by simp [units_eq_iff hk]
    rw [toObject, Dict.erase, ← filter_sortByKey d.nodup, hfilter, List.filter_map]
    rfl
  rw [herase, herase, JsonTree.obj.inj h]

/-- With another value of a key, too. -/
theorem toObject_set_eq {d d' : Dict PyStr (JsonTree F)} {k : PyStr} {v v' : JsonTree F}
    (h : toObject (d.set k v) = toObject (d'.set k v')) (hk : Low k) (w : JsonTree F) :
    toObject (d.set k w) = toObject (d'.set k w) := by
  have hset : ∀ (d : Dict PyStr (JsonTree F)) (v : JsonTree F), toObject (d.set k w) =
      .obj (((sortByKey (d.set k v).entries).map fun e => (units e.1, e.2)).map
        fun e => if e.1 = units k then (e.1, w) else e) := by
    intro d v
    have hentries : (d.set k w).entries =
        (d.set k v).entries.map fun e => if e.1 = k then (e.1, w) else e :=
      (Dict.map_setEntries_replace k v w d.nodup).symm
    rw [toObject, hentries, ← map_sortByKey fun e => by split_ifs <;> rfl, List.map_map,
      List.map_map]
    refine congrArg JsonTree.obj (List.map_congr_left fun e _ => ?_)
    simp only [Function.comp_apply, units_eq_iff hk]
    split_ifs <;> rfl
  rw [hset d v, hset d' v', JsonTree.obj.inj h]

section Text

variable [FloatText F]

/-- **What is read of a line.** -/
theorem loadsObject_print (d : Dict PyStr (JsonTree F)) :
    loadsObject (print (toObject d)) = some ((readBack d).mapValues ofTree) := by
  rw [loadsObject, parse_print, toObject]
  exact congrArg some (ofList_ofTreeEntries _)

/-- What is written after reading. -/
theorem toTree_readBack (d : Dict PyStr (JsonTree F)) :
    toTree (ofDict ((readBack d).mapValues ofTree)) = some (canon (toObject d)) := by
  rw [toObject, canon_obj]
  exact toTree_ofDict fun e _ => toTree_ofTree e.2

/-! ### Dictionaries that were read -/

/-- A dictionary that was read: its keys are as they come back, its values were read too. -/
def Loaded (d : Dict PyStr (PyVal F)) : Prop :=
  ∃ t : Dict PyStr (JsonTree F), (∀ k ∈ t.keys, normal k = k) ∧ d = t.mapValues ofTree

theorem loaded_of_loadsObject {cs : List Char} {d : Dict PyStr (PyVal F)}
    (h : loadsObject cs = some d) : Loaded d := by
  unfold loadsObject at h
  split at h
  · rename_i es _
    rw [ofList_ofTreeEntries, Option.some.injEq] at h
    exact ⟨objectOf es, normal_of_mem_objectOf, h.symm⟩
  · simp at h

theorem loaded_of_mapM : ∀ {ls : List (List Char)} {records : List (Dict PyStr (PyVal F))},
    ls.mapM loadsObject = some records → ∀ r ∈ records, Loaded r
  | [], records, h => by
    rw [List.mapM_nil] at h
    rw [← Option.some.inj h]
    exact fun _ hr => absurd hr List.not_mem_nil
  | l :: ls, records, h => by
    rw [List.mapM_cons] at h
    obtain ⟨d, hd, h⟩ := Option.bind_eq_some_iff.mp h
    obtain ⟨ds, hds, h⟩ := Option.bind_eq_some_iff.mp h
    rw [← Option.some.inj h]
    exact List.forall_mem_cons.mpr ⟨loaded_of_loadsObject hd, loaded_of_mapM hds⟩

theorem loaded_of_loadsLines {cs : List Char} {records : List (Dict PyStr (PyVal F))}
    (h : loadsLines cs = some records) : ∀ r ∈ records, Loaded r := loaded_of_mapM h

omit [FloatText F] in
theorem Loaded.erase {d : Dict PyStr (PyVal F)} (h : Loaded d) (k : PyStr) :
    Loaded (d.erase k) := by
  obtain ⟨t, ht, rfl⟩ := h
  refine ⟨t.erase k, fun k' hk' => ht k' ?_, (Dict.mapValues_erase _ t k).symm⟩
  exact (List.filter_sublist.map _).subset hk'

omit [FloatText F] in
theorem Loaded.set {d : Dict PyStr (PyVal F)} (h : Loaded d) {k : PyStr} (hk : normal k = k)
    (x : JsonTree F) : Loaded (d.set k (ofTree x)) := by
  obtain ⟨t, ht, rfl⟩ := h
  refine ⟨t.set k x, fun k' hk' => ?_, (Dict.mapValues_set _ t k x).symm⟩
  rw [Dict.keys_set] at hk'
  split_ifs at hk'
  · exact ht k' hk'
  · rcases List.mem_append.mp hk' with hk' | hk'
    · exact ht k' hk'
    · rw [List.mem_singleton.mp hk', hk]

/-- It can be written. -/
theorem Loaded.isSome {d : Dict PyStr (PyVal F)} (h : Loaded d) :
    ∀ e ∈ d.entries, (toTree e.2).isSome := by
  obtain ⟨t, -, rfl⟩ := h
  intro e he
  obtain ⟨e', -, rfl⟩ := List.mem_map.mp he
  exact Option.isSome_iff_exists.mpr ⟨_, toTree_ofTree e'.2⟩

/-- **What was read comes back.** -/
theorem Loaded.stable {d : Dict PyStr (PyVal F)} (h : Loaded d) : Stable (ofDict d) := by
  obtain ⟨t, ht, rfl⟩ := h
  have htree : toTree (ofDict (t.mapValues ofTree)) = some (toObject (t.mapValues canon)) :=
    toTree_ofDict fun e _ => toTree_ofTree e.2
  rw [stable_iff htree, toObject, Increasing, increasingEntries_iff]
  refine ⟨keysIncrease_toObject fun k hk => ht k (by rwa [Dict.keys_mapValues] at hk), ?_⟩
  intro e he
  obtain ⟨e', he', rfl⟩ := List.mem_map.mp he
  obtain ⟨e'', -, rfl⟩ := List.mem_map.mp (mem_sortByKey.mp he')
  exact increasing_canon e''.2

omit [FloatText F] in
/-- Objects with the same text, of keys as they come back, have the same values. -/
theorem get?_of_toObject_eq {d d' : Dict PyStr (JsonTree F)} (hd : ∀ k ∈ d.keys, normal k = k)
    (hd' : ∀ k ∈ d'.keys, normal k = k) (h : toObject d = toObject d') (k : PyStr) :
    d.get? k = d'.get? k := by
  have hback : ∀ d : Dict PyStr (JsonTree F), (∀ k ∈ d.keys, normal k = k) →
      ((sortByKey d.entries).map fun e => (units e.1, e.2)).map (fun e => (ofUnits e.1, e.2)) =
        sortByKey d.entries := by
    intro d hd
    rw [List.map_map]
    refine (List.map_congr_left fun e he => ?_).trans (List.map_id _)
    exact Prod.ext (hd e.1 (List.mem_map_of_mem (mem_sortByKey.mp he))) rfl
  have hsorted : sortByKey d.entries = sortByKey d'.entries := by
    rw [← hback d hd, ← hback d' hd', JsonTree.obj.inj h]
  refine Option.ext fun x => ?_
  rw [Dict.get?_eq_some_iff, Dict.get?_eq_some_iff, ← mem_sortByKey, hsorted, mem_sortByKey]

theorem Loaded.get?_eq {d d' : Dict PyStr (PyVal F)} (hd : Loaded d) (hd' : Loaded d')
    (h : toObject (d.mapValues tree) = toObject (d'.mapValues tree)) (k : PyStr) :
    (d.get? k).map tree = (d'.get? k).map tree := by
  have hkeys : ∀ d : Dict PyStr (PyVal F), Loaded d →
      ∀ k ∈ (d.mapValues tree).keys, normal k = k := by
    rintro d ⟨t, ht, rfl⟩ k hk
    rw [Dict.keys_mapValues, Dict.keys_mapValues] at hk
    exact ht k hk
  have := get?_of_toObject_eq (hkeys d hd) (hkeys d' hd') h k
  rwa [Dict.get?_mapValues, Dict.get?_mapValues] at this

end Text

end VantaCore.Lib.Json.Lines
