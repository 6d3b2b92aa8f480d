import Mathlib.Data.List.Nodup
import Mathlib.Tactic

/-! # Dictionaries in insertion order

A Python dictionary: entries in the order their keys were first set, every key once. Setting a key
that is there replaces its value in place, a new key goes to the end (`set`); `update` sets the
entries of another dictionary one by one, so its values win (`get?_update`). -/

namespace VantaCore.Lib.Dict

variable {κ ν : Type*} [DecidableEq κ]

/-- The value of a key in a list of entries. -/
def find (k : κ) : List (κ × ν) → Option ν
  | [] => none
  | e :: es => if e.1 = k then some e.2 else find k es

/-- The entries after setting a key. -/
def setEntries (k : κ) (v : ν) : List (κ × ν) → List (κ × ν)
  | [] => [(k, v)]
  | e :: es => if e.1 = k then (k, v) :: es else e :: setEntries k v es

theorem find_eq_none_iff {k : κ} : ∀ {es : List (κ × ν)}, find k es = none ↔ k ∉ es.map Prod.fst
  | [] => by simp [find]
  | e :: es => by
    have ih : find k es = none ↔ k ∉ es.map Prod.fst := find_eq_none_iff
    rw [find, List.map_cons, List.mem_cons, not_or, ← ih]
    by_cases h : e.1 = k
    · simp [h]
    · simp [h, Ne.symm h]

theorem find_setEntries (k k' : κ) (v : ν) :
    ∀ es : List (κ × ν), find k' (setEntries k v es) = if k = k' then some v else find k' es
  | [] => rfl
  | e :: es => by
    unfold setEntries
    by_cases h : e.1 = k
    · rw [if_pos h, find, find, h]
      by_cases h' : k = k' <;> simp [h']
    · rw [if_neg h, find, find, find_setEntries k k' v es]
      by_cases h' : k = k'
      · rw [if_neg (by rw [← h']; exact h), if_pos h', if_pos h']
      · rw [if_neg h', if_neg h']

theorem keys_setEntries (k : κ) (v : ν) : ∀ es : List (κ × ν), (setEntries k v es).map Prod.fst =
    if k ∈ es.map Prod.fst then es.map Prod.fst else es.map Prod.fst ++ [k]
  | [] => rfl
  | e :: es => by
    unfold setEntries
    by_cases h : e.1 = k
    · simp [h]
    · rw [if_neg h, List.map_cons, List.map_cons, keys_setEntries k v es]
      by_cases hk : k ∈ es.map Prod.fst
      · rw [if_pos hk, if_pos (List.mem_cons_of_mem _ hk)]
      · rw [if_neg hk, if_neg (by simp only [List.mem_cons, not_or]; exact ⟨Ne.symm h, hk⟩)]
        rfl

theorem mem_of_find {k : κ} {v : ν} : ∀ {es : List (κ × ν)}, find k es = some v → (k, v) ∈ es
  | e :: es, h => by
    rw [find] at h
    split_ifs at h with hk
    · rw [← hk, ← Option.some.inj h]; exact List.mem_cons_self
    · exact List.mem_cons_of_mem _ (mem_of_find h)

theorem find_of_mem {k : κ} {v : ν} :
    ∀ {es : List (κ × ν)}, (es.map Prod.fst).Nodup → (k, v) ∈ es → find k es = some v
  | e :: es, hn, h => by
    rw [List.map_cons, List.nodup_cons] at hn
    rw [find]
    rcases List.mem_cons.mp h with rfl | h
    · rw [if_pos rfl]
    · rw [if_neg, find_of_mem hn.2 h]
      intro he
      exact hn.1 (he ▸ List.mem_map_of_mem h)

theorem setEntries_of_not_mem {k : κ} {v : ν} :
    ∀ {es : List (κ × ν)}, k ∉ es.map Prod.fst → setEntries k v es = es ++ [(k, v)]
  | [], _ => rfl
  | e :: es, h => by
    rw [List.map_cons, List.mem_cons, not_or] at h
    rw [setEntries, if_neg (Ne.symm h.1), setEntries_of_not_mem h.2, List.cons_append]

theorem map_setEntries {μ : Type*} (f : ν → μ) (k : κ) (v : ν) : ∀ es : List (κ × ν),
    (setEntries k v es).map (fun e => (e.1, f e.2)) =
      setEntries k (f v) (es.map fun e => (e.1, f e.2))
  | [] => rfl
  | e :: es => by
    rw [setEntries, List.map_cons, setEntries]
    by_cases h : e.1 = k
    · simp [h]
    · rw [if_neg h, if_neg h, List.map_cons, map_setEntries f k v es]

/-- A value that is set is the value of its entry. -/
theorem map_setEntries_replace (k : κ) (v w : ν) : ∀ {es : List (κ × ν)}, (es.map Prod.fst).Nodup →
    (setEntries k v es).map (fun e => if e.1 = k then (e.1, w) else e) = setEntries k w es
  | [], _ => by simp [setEntries]
  | e :: es, h => by
    rw [List.map_cons, List.nodup_cons] at h
    unfold setEntries
    by_cases he : e.1 = k
    · have hid : es.map (fun e => if e.1 = k then (e.1, w) else e) = es := by
        refine (List.map_congr_left fun e' he' => if_neg ?_).trans (List.map_id es)
        rintro rfl
        exact h.1 (he ▸ List.mem_map_of_mem he')
      rw [if_pos he, if_pos he, List.map_cons, hid, if_pos rfl]
    · rw [if_neg he, if_neg he, List.map_cons, map_setEntries_replace k v w h.2, if_neg he]

theorem setEntries_setEntries (k : κ) (v v' : ν) : ∀ es : List (κ × ν),
    setEntries k v (setEntries k v' es) = setEntries k v es
  | [] => by simp [setEntries]
  | e :: es => by
    rw [setEntries]
    by_cases h : e.1 = k
    · simp [h, setEntries]
    · rw [if_neg h, setEntries, if_neg h, setEntries_setEntries k v v' es, setEntries, if_neg h]

/-- Setting a key that is there and another. -/
theorem setEntries_comm {k k' : κ} (hne : k ≠ k') (v v' : ν) : ∀ {es : List (κ × ν)},
    k ∈ es.map Prod.fst →
      setEntries k v (setEntries k' v' es) = setEntries k' v' (setEntries k v es)
  | e :: es, hk => by
    rw [setEntries, setEntries]
    by_cases h : e.1 = k
    · have h' : e.1 ≠ k' := fun h' => hne (h.symm.trans h')
      rw [if_neg h', if_pos h, setEntries, if_pos h, setEntries, if_neg hne]
    · have hk' : k ∈ es.map Prod.fst :=
        (List.mem_cons.mp hk).resolve_left (Ne.symm h)
      rw [if_neg h]
      by_cases h' : e.1 = k'
      · rw [if_pos h', setEntries, if_neg (Ne.symm hne), setEntries, if_pos h']
      · rw [if_neg h', setEntries, if_neg h, setEntries, if_neg h', setEntries_comm hne v v' hk']

/-- Setting a key, seen without the entries of a key. -/
theorem filter_setEntries (k k' : κ) (v : ν) : ∀ es : List (κ × ν),
    (setEntries k v es).filter (·.1 ≠ k') = if k = k' then es.filter (·.1 ≠ k')
      else setEntries k v (es.filter (·.1 ≠ k'))
  | [] => by by_cases h : k = k' <;> simp [setEntries, h]
  | e :: es => by
    have ih := filter_setEntries k k' v es
    rw [setEntries]
    by_cases h : e.1 = k
    · by_cases hk : k = k' <;> simp [h, hk, setEntries]
    · rw [if_neg h]
      by_cases he : e.1 = k'
      · rw [List.filter_cons_of_neg (by simpa using he), ih,
          List.filter_cons_of_neg (by simpa using he)]
      · rw [List.filter_cons_of_pos (by simpa using he), ih,
          List.filter_cons_of_pos (by simpa using he)]
        split_ifs
        · rfl
        · rw [setEntries, if_neg h]

/-- With every key once, the last entry of a key is the one that is found. -/
theorem find?_reverse {k : κ} {es : List (κ × ν)} (h : (es.map Prod.fst).Nodup) :
    (es.reverse.find? (·.1 = k)).map Prod.snd = find k es := by
  cases hr : es.reverse.find? (·.1 = k) with
  | none =>
    symm
    rw [Option.map_none, find_eq_none_iff, List.mem_map]
    rintro ⟨e, he, rfl⟩
    have := List.find?_eq_none.mp hr e (List.mem_reverse.mpr he)
    simp at this
  | some e =>
    have hk : e.1 = k := by simpa using List.find?_some hr
    have he : e ∈ es := List.mem_reverse.mp (List.mem_of_find?_eq_some hr)
    exact (find_of_mem h (by rw [← hk]; exact he)).symm

end VantaCore.Lib.Dict

namespace VantaCore.Lib

/-- **A dictionary**: entries in insertion order, every key once. -/
@[ext] structure Dict (κ ν : Type*) where
  entries : List (κ × ν)
  nodup : (entries.map Prod.fst).Nodup

namespace Dict

variable {κ ν : Type*} [DecidableEq κ]

/-- `{}`. -/
def empty : Dict κ ν := ⟨[], List.nodup_nil⟩

/-- `d.keys()`. -/
def keys (d : Dict κ ν) : List κ := d.entries.map Prod.fst

/-- `d.get(k)`. -/
def get? (d : Dict κ ν) (k : κ) : Option ν := find k d.entries

/-- `d[k] = v`. -/
def set (d : Dict κ ν) (k : κ) (v : ν) : Dict κ ν where
  entries := setEntries k v d.entries
  nodup := by
    rw [keys_setEntries]
    split_ifs with h
    · exact d.nodup
    · exact List.nodup_append.mpr ⟨d.nodup, List.nodup_singleton k, fun a ha b hb => by
        rw [List.mem_singleton.mp hb]; rintro rfl; exact h ha⟩

/-- `for k, v in es: d[k] = v`. -/
def setAll (d : Dict κ ν) (es : List (κ × ν)) : Dict κ ν := es.foldl (fun d e => d.set e.1 e.2) d

/-- `dict(es)`. -/
def ofList (es : List (κ × ν)) : Dict κ ν := empty.setAll es

/-- `d.update(d')`. -/
def update (d d' : Dict κ ν) : Dict κ ν := d.setAll d'.entries

/-- `d[k] = f(d[k])` for a key that is there. -/
def modify (d : Dict κ ν) (k : κ) (f : ν → ν) : Dict κ ν :=
  match d.get? k with
  | some v => d.set k (f v)
  | none => d

/-- `del d[k]`, for a key that is there. -/
def erase (d : Dict κ ν) (k : κ) : Dict κ ν where
  entries := d.entries.filter (·.1 ≠ k)
  nodup := d.nodup.sublist (List.filter_sublist.map _)

/-- The values, by a function. -/
def mapValues {μ : Type*} (f : ν → μ) (d : Dict κ ν) : Dict κ μ where
  entries := d.entries.map fun e => (e.1, f e.2)
  nodup := by rw [List.map_map]; exact d.nodup

/-! ### Keys and values -/

@[simp] theorem get?_empty (k : κ) : (empty : Dict κ ν).get? k = none := rfl

omit [DecidableEq κ] in
@[simp] theorem keys_empty : (empty : Dict κ ν).keys = [] := rfl

theorem get?_eq_none_iff {d : Dict κ ν} {k : κ} : d.get? k = none ↔ k ∉ d.keys := find_eq_none_iff

theorem mem_keys_iff {d : Dict κ ν} {k : κ} : k ∈ d.keys ↔ ∃ v, d.get? k = some v := by
  rw [← not_iff_not, ← get?_eq_none_iff, Option.eq_none_iff_forall_ne_some, not_exists]

theorem get?_eq_some_iff {d : Dict κ ν} {k : κ} {v : ν} : d.get? k = some v ↔ (k, v) ∈ d.entries :=
  ⟨mem_of_find, find_of_mem d.nodup⟩

theorem get?_set (d : Dict κ ν) (k k' : κ) (v : ν) :
    (d.set k v).get? k' = if k = k' then some v else d.get? k' := find_setEntries k k' v d.entries

theorem keys_set (d : Dict κ ν) (k : κ) (v : ν) :
    (d.set k v).keys = if k ∈ d.keys then d.keys else d.keys ++ [k] := keys_setEntries k v d.entries

theorem get?_modify (d : Dict κ ν) (k k' : κ) (f : ν → ν) :
    (d.modify k f).get? k' = if k = k' then (d.get? k').map f else d.get? k' := by
  unfold modify
  cases h : d.get? k with
  | none =>
    by_cases hk : k = k'
    · rw [if_pos hk, ← hk, h, Option.map_none]
    · rw [if_neg hk]
  | some v =>
    simp only [get?_set]
    by_cases hk : k = k'
    · rw [if_pos hk, if_pos hk, ← hk, h, Option.map_some]
    · rw [if_neg hk, if_neg hk]

theorem setAll_cons (d : Dict κ ν) (e : κ × ν) (es : List (κ × ν)) :
    d.setAll (e :: es) = (d.set e.1 e.2).setAll es := rfl

/-- The last entry of a key wins, and one that was there before stays if there is none. -/
theorem get?_setAll (k : κ) : ∀ (es : List (κ × ν)) (d : Dict κ ν),
    (d.setAll es).get? k = ((es.reverse.find? (·.1 = k)).map Prod.snd).or (d.get? k)
  | [], d => by simp [setAll]
  | e :: es, d => by
    rw [setAll_cons, get?_setAll k es, get?_set, List.reverse_cons, List.find?_append]
    cases es.reverse.find? (·.1 = k) with
    | some e' => simp
    | none => by_cases h : e.1 = k <;> simp [h]

theorem mem_keys_setAll (k : κ) : ∀ (es : List (κ × ν)) (d : Dict κ ν),
    k ∈ (d.setAll es).keys ↔ k ∈ d.keys ∨ k ∈ es.map Prod.fst
  | [], d => by simp [setAll]
  | e :: es, d => by
    rw [setAll_cons, mem_keys_setAll k es, keys_set, List.map_cons, List.mem_cons]
    split_ifs with h
    · constructor
      · rintro (h' | h')
        · exact Or.inl h'
        · exact Or.inr (Or.inr h')
      · rintro (h' | rfl | h')
        · exact Or.inl h'
        · exact Or.inl h
        · exact Or.inr h'
    · simp only [List.mem_append, List.mem_singleton, or_assoc]

theorem mem_keys_ofList {k : κ} {es : List (κ × ν)} :
    k ∈ (ofList es).keys ↔ k ∈ es.map Prod.fst := by
  rw [ofList, mem_keys_setAll]; simp

theorem get?_ofList (k : κ) (es : List (κ × ν)) :
    (ofList es).get? k = (es.reverse.find? (·.1 = k)).map Prod.snd := by
  rw [ofList, get?_setAll]; simp

theorem get?_ofList_const {α : Type*} (f : α → κ) (c : ν) (l : List α) (k : κ) :
    (ofList (l.map fun a => (f a, c))).get? k = if k ∈ l.map f then some c else none := by
  split_ifs with h
  · obtain ⟨v, hv⟩ := mem_keys_iff.mp (mem_keys_ofList.mpr
      (show k ∈ (l.map fun a => (f a, c)).map Prod.fst by rwa [List.map_map]))
    rw [hv]
    rw [get?_ofList, Option.map_eq_some_iff] at hv
    obtain ⟨e, he, rfl⟩ := hv
    have := List.mem_reverse.mp (List.mem_of_find?_eq_some he)
    obtain ⟨a, -, rfl⟩ := List.mem_map.mp this
    rfl
  · rw [get?_eq_none_iff, mem_keys_ofList, List.map_map]
    exact h

/-- **The values of the dictionary merged in win.** -/
theorem get?_update (d d' : Dict κ ν) (k : κ) :
    (d.update d').get? k = (d'.get? k).or (d.get? k) := by
  rw [update, get?_setAll, find?_reverse d'.nodup]
  rfl

theorem mem_keys_update {d d' : Dict κ ν} {k : κ} :
    k ∈ (d.update d').keys ↔ k ∈ d.keys ∨ k ∈ d'.keys := mem_keys_setAll k _ d

omit [DecidableEq κ] in
@[simp] theorem keys_mapValues {μ : Type*} (f : ν → μ) (d : Dict κ ν) :
    (d.mapValues f).keys = d.keys := by
  rw [keys, mapValues, List.map_map]; rfl

theorem get?_mapValues {μ : Type*} (f : ν → μ) (d : Dict κ ν) (k : κ) :
    (d.mapValues f).get? k = (d.get? k).map f := by
  cases h : d.get? k with
  | none => rwa [Option.map_none, get?_eq_none_iff, keys_mapValues, ← get?_eq_none_iff]
  | some v =>
    rw [Option.map_some, get?_eq_some_iff]
    exact List.mem_map.mpr ⟨(k, v), get?_eq_some_iff.mp h, rfl⟩

theorem get?_erase (d : Dict κ ν) (k k' : κ) :
    (d.erase k).get? k' = if k = k' then none else d.get? k' := by
  split_ifs with h
  · rw [get?_eq_none_iff, keys, erase]
    simp [h]
  · cases hv : d.get? k' with
    | none =>
      rw [get?_eq_none_iff] at hv ⊢
      exact fun hk => hv ((List.filter_sublist.map _).subset hk)
    | some v =>
      rw [get?_eq_some_iff] at hv ⊢
      exact List.mem_filter.mpr ⟨hv, by simpa using Ne.symm h⟩

theorem erase_set (d : Dict κ ν) (k : κ) (v : ν) : (d.set k v).erase k = d.erase k := by
  ext1
  exact (filter_setEntries k k v d.entries).trans (if_pos rfl)

theorem erase_of_not_mem {d : Dict κ ν} {k : κ} (h : k ∉ d.keys) : d.erase k = d := by
  ext1
  refine List.filter_eq_self.mpr fun e he => ?_
  have : e.1 ≠ k := by rintro rfl; exact h (List.mem_map_of_mem he)
  simpa using this

theorem erase_setAll (k : κ) : ∀ (es : List (κ × ν)) (d : Dict κ ν),
    (d.setAll es).erase k = (d.erase k).setAll (es.filter (·.1 ≠ k))
  | [], _ => rfl
  | e :: es, d => by
    have hset : (d.set e.1 e.2).erase k =
        if e.1 = k then d.erase k else (d.erase k).set e.1 e.2 := by
      ext1
      have hfilter := filter_setEntries e.1 k e.2 d.entries
      split_ifs at hfilter ⊢ <;> exact hfilter
    rw [setAll_cons, erase_setAll k es, hset]
    by_cases h : e.1 = k
    · rw [if_pos h, List.filter_cons_of_neg (by simpa using h)]
    · rw [if_neg h, List.filter_cons_of_pos (by simpa using h), setAll_cons]

theorem erase_ofList (k : κ) (es : List (κ × ν)) :
    (ofList es).erase k = ofList (es.filter (·.1 ≠ k)) := erase_setAll k es empty

/-- A value that is set again behind does not matter. -/
theorem setAll_set_of_mem {k : κ} (v v' : ν) : ∀ {es : List (κ × ν)} (d : Dict κ ν),
    k ∈ es.map Prod.fst → (d.set k v).setAll es = (d.set k v').setAll es
  | e :: es, d, hk => by
    rw [setAll_cons, setAll_cons]
    by_cases h : e.1 = k
    · have hset : (d.set k v).set e.1 e.2 = (d.set k v').set e.1 e.2 := by
        ext1
        rw [h]
        exact (setEntries_setEntries k _ _ _).trans (setEntries_setEntries k _ _ _).symm
      rw [hset]
    · have hkeys : k ∈ (d.set k v').entries.map Prod.fst :=
        mem_keys_iff.mpr ⟨v', (get?_set d k k v').trans (if_pos rfl)⟩
      have hcomm : ∀ w : ν, (d.set k w).set e.1 e.2 = ((d.set k v').set e.1 e.2).set k w := by
        intro w
        ext1
        refine Eq.trans ?_ (setEntries_comm (Ne.symm h) w e.2 hkeys).symm
        exact congrArg (setEntries e.1 e.2) (setEntries_setEntries k w v' d.entries).symm
      rw [hcomm v, setAll_set_of_mem v v' _ ((List.mem_cons.mp hk).resolve_left (Ne.symm h)),
        ← hcomm v']

theorem mapValues_set {μ : Type*} (f : ν → μ) (d : Dict κ ν) (k : κ) (v : ν) :
    (d.set k v).mapValues f = (d.mapValues f).set k (f v) :=
  Dict.ext (map_setEntries f k v d.entries)

theorem mapValues_erase {μ : Type*} (f : ν → μ) (d : Dict κ ν) (k : κ) :
    (d.erase k).mapValues f = (d.mapValues f).erase k :=
  Dict.ext (List.filter_map (f := fun e : κ × ν => (e.1, f e.2)) (p := (·.1 ≠ k))).symm

theorem mapValues_setAll {μ : Type*} (f : ν → μ) : ∀ (es : List (κ × ν)) (d : Dict κ ν),
    (d.setAll es).mapValues f = (d.mapValues f).setAll (es.map fun e => (e.1, f e.2))
  | [], _ => rfl
  | e :: es, d => by
    rw [setAll_cons, mapValues_setAll f es, mapValues_set, List.map_cons, setAll_cons]

theorem mapValues_ofList {μ : Type*} (f : ν → μ) (es : List (κ × ν)) :
    (ofList es).mapValues f = ofList (es.map fun e => (e.1, f e.2)) := mapValues_setAll f es empty

theorem entries_setAll : ∀ (es : List (κ × ν)) (d : Dict κ ν),
    (d.keys ++ es.map Prod.fst).Nodup → (d.setAll es).entries = d.entries ++ es
  | [], d, _ => (List.append_nil _).symm
  | e :: es, d, h => by
    have hnot : e.1 ∉ d.keys := fun hk =>
      (List.nodup_append.mp h).2.2 e.1 hk e.1 List.mem_cons_self rfl
    have hentries : (d.set e.1 e.2).entries = d.entries ++ [e] := setEntries_of_not_mem hnot
    rw [setAll_cons, entries_setAll es, hentries, List.append_assoc, List.singleton_append]
    rw [keys_set, if_neg hnot, List.append_assoc]
    exact h

/-- With every key once, a list of entries is a dictionary. -/
theorem entries_ofList {es : List (κ × ν)} (h : (es.map Prod.fst).Nodup) :
    (ofList es).entries = es := entries_setAll es empty h

theorem mem_of_mem_ofList {es : List (κ × ν)} {e : κ × ν} (h : e ∈ (ofList es).entries) :
    e ∈ es := by
  have hget : (ofList es).get? e.1 = some e.2 := get?_eq_some_iff.mpr h
  rw [get?_ofList, Option.map_eq_some_iff] at hget
  obtain ⟨e', he', hv⟩ := hget
  have hk : e'.1 = e.1 := by simpa using List.find?_some he'
  rw [← Prod.ext hk hv]
  exact List.mem_reverse.mp (List.mem_of_find?_eq_some he')

end Dict

end VantaCore.Lib
