import VantaCore.Lib.Json.Text
import VantaCore.Lib.Dict
import Mathlib.Data.List.Sort
import Mathlib.Data.List.Lex

/-! # Values and their texts

`json.dumps(v, sort_keys=True)` and `json.loads`. A dictionary is written with its entries sorted
by key and every key as a string (`toTree`); an object is read into a dictionary, the last entry of
a key winning (`ofTree`). A value with keys that cannot be compared, or of a type `json` does not
know, raises. -/

namespace VantaCore.Lib.Json.Values

open VantaCore.Lib VantaCore.Lib.PyText VantaCore.Lib.Json.Strings VantaCore.Lib.Json.Text

/-- A key of a dictionary, of the types `json` writes. -/
inductive PyKey (F : Type) where
  | str (s : PyStr)
  | int (z : ℤ)
  | bool (b : Bool)
  | none
  | float (x : PyFloat F)

/-- A value; `other` is one `json` cannot write. Lists and tuples are written alike. -/
inductive PyVal (F : Type) where
  | none
  | bool (b : Bool)
  | int (z : ℤ)
  | float (x : PyFloat F)
  | str (s : PyStr)
  | list (xs : List (PyVal F))
  | dict (es : List (PyKey F × PyVal F))
  | other

/-- The code points of a text. -/
def ofChars (cs : List Char) : PyStr := cs.map fun c => Fin.ofNat _ c.toNat

theorem val_ofNat_char (c : Char) : (Fin.ofNat 0x110000 c.toNat).val = c.toNat := by
  refine Nat.mod_eq_of_lt ?_
  rcases c.valid with h | h
  · exact lt_trans h (by norm_num)
  · exact h.2

theorem encodable_ofChars (cs : List Char) : Utf8Encodable (ofChars cs) := by
  intro x hx
  obtain ⟨c, -, rfl⟩ := List.mem_map.mp hx
  rw [val_ofNat_char]
  rcases c.valid with h | h
  · exact Or.inl h
  · exact Or.inr h.1

theorem ofChars_injective {cs cs' : List Char} (h : ofChars cs = ofChars cs') : cs = cs' := by
  refine List.map_injective_iff.mpr (fun c c' hc => ?_) h
  have hval := congrArg Fin.val hc
  rw [val_ofNat_char, val_ofNat_char] at hval
  exact Char.ext (UInt32.toNat_inj.mp hval)

variable {F : Type} [FloatText F]

/-! ### Keys -/

/-- The string a key is written as. -/
def keyText : PyKey F → PyStr
  | .str s => s
  | .int z => ofChars (printInt z)
  | .bool b => ofChars (printBool b)
  | .none => ofChars ['n', 'u', 'l', 'l']
  | .float x => ofChars (printFloat x)

/-- The string of a key that is one. -/
def keyStr : PyKey F → Option PyStr
  | .str s => some s
  | _ => Option.none

/-- A key that compares with numbers. -/
def IsNumber : PyKey F → Bool
  | .int _ | .bool _ | .float _ => true
  | _ => false

/-- The place of a number: the infinities around the rest. `nan` has none. -/
def place : PyKey F → Option (ℤ × ℚ)
  | .int z => some (0, z)
  | .bool b => some (0, if b then 1 else 0)
  | .float (.finite x) => some (0, FloatText.value x)
  | .float .infinity => some (1, 0)
  | .float .negInfinity => some (-1, 0)
  | _ => Option.none

/-- `a < b` for numbers. -/
def numberLt (a b : PyKey F) : Bool :=
  match place a, place b with
  | some (i, p), some (j, q) => i < j || (i = j && p < q)
  | _, _ => false

/-! ### Sorting -/

section ByKey

variable {κ : Type*} [LinearOrder κ] {α β : Type*}

/-- The entries in the order of their keys. -/
def sortByKey (es : List (κ × α)) : List (κ × α) := es.insertionSort fun a b => a.1 ≤ b.1

theorem perm_sortByKey (es : List (κ × α)) : (sortByKey es).Perm es := List.perm_insertionSort _ es

theorem mem_sortByKey {es : List (κ × α)} {e : κ × α} : e ∈ sortByKey es ↔ e ∈ es :=
  (perm_sortByKey es).mem_iff

theorem sortByKey_of_increasing {es : List (κ × α)} (h : (es.map Prod.fst).Pairwise (· < ·)) :
    sortByKey es = es :=
  List.Pairwise.insertionSort_eq ((List.pairwise_map.mp h).imp le_of_lt)

theorem pairwise_sortByKey (es : List (κ × α)) : (sortByKey es).Pairwise fun a b => a.1 ≤ b.1 :=
  haveI : Std.Total fun a b : κ × α => a.1 ≤ b.1 := ⟨fun a b => le_total a.1 b.1⟩
  haveI : IsTrans (κ × α) fun a b => a.1 ≤ b.1 := ⟨fun _ _ _ => le_trans⟩
  List.pairwise_insertionSort _ es

/-- **With every key once, the sorted keys increase.** -/
theorem increasing_sortByKey {es : List (κ × α)} (h : (es.map Prod.fst).Nodup) :
    ((sortByKey es).map Prod.fst).Pairwise (· < ·) := by
  have hnodup : ((sortByKey es).map Prod.fst).Nodup := ((perm_sortByKey es).map _).nodup_iff.mpr h
  have hle : ((sortByKey es).map Prod.fst).Pairwise (· ≤ ·) :=
    List.pairwise_map.mpr (pairwise_sortByKey es)
  exact (hle.and hnodup).imp fun ⟨hab, hne⟩ => lt_of_le_of_ne hab hne

/-- With every key once, there is one sorted order. -/
theorem sortByKey_eq_of_perm {es es' : List (κ × α)} (h : (es.map Prod.fst).Nodup)
    (hperm : es.Perm es') : sortByKey es = sortByKey es' := by
  have hnodup : (es'.map Prod.fst).Nodup := (hperm.map _).nodup_iff.mp h
  exact List.Perm.eq_of_pairwise (fun a b _ _ hab hba => absurd (lt_trans hab hba) (lt_irrefl _))
    (List.pairwise_map.mp (increasing_sortByKey h))
    (List.pairwise_map.mp (increasing_sortByKey hnodup))
    ((perm_sortByKey es).trans (hperm.trans (perm_sortByKey es').symm))

theorem filter_sortByKey {es : List (κ × α)} (h : (es.map Prod.fst).Nodup) (p : κ × α → Bool) :
    (sortByKey es).filter p = sortByKey (es.filter p) := by
  have hinc : (((sortByKey es).filter p).map Prod.fst).Pairwise (· < ·) :=
    (increasing_sortByKey h).sublist (List.filter_sublist.map _)
  rw [← sortByKey_of_increasing hinc]
  exact sortByKey_eq_of_perm (hinc.imp ne_of_lt) ((perm_sortByKey es).filter p)

/-- A function that leaves the keys is applied before or after. -/
theorem map_sortByKey {f : κ × α → κ × β} (hf : ∀ e, (f e).1 = e.1) (es : List (κ × α)) :
    (sortByKey es).map f = sortByKey (es.map f) :=
  List.map_insertionSort _ _ f es fun a _ b _ => by rw [hf, hf]

end ByKey

/-- `sorted(dct.items())`: keys that are all strings or all numbers compare, and one key needs no
comparison. -/
def sortItems {α : Type} (es : List (PyKey F × α)) : Option (List (PyKey F × α)) :=
  if es.length ≤ 1 then some es
  else if es.all fun e => (keyStr e.1).isSome then
    some (es.insertionSort fun a b => (keyStr a.1).getD [] ≤ (keyStr b.1).getD [])
  else if es.all fun e => IsNumber e.1 then
    some (es.insertionSort fun a b => numberLt b.1 a.1 = false)
  else none

/-! ### Writing and reading -/

mutual

/-- What `json.dumps(v, sort_keys=True)` writes. -/
def toTree : PyVal F → Option (JsonTree F)
  | .none => some .null
  | .bool b => some (.bool b)
  | .int z => some (.int z)
  | .float x => some (.float x)
  | .str s => some (.str (units s))
  | .list xs => (toTrees xs).map .arr
  | .dict es =>
    match toTreeItems es with
    | Option.none => Option.none
    | some es => (sortItems es).map fun es => .obj (es.map fun e => (units (keyText e.1), e.2))
  | .other => Option.none

def toTrees : List (PyVal F) → Option (List (JsonTree F))
  | [] => some []
  | x :: xs =>
    match toTree x, toTrees xs with
    | some x, some xs => some (x :: xs)
    | _, _ => Option.none

def toTreeItems : List (PyKey F × PyVal F) → Option (List (PyKey F × JsonTree F))
  | [] => some []
  | (k, x) :: es =>
    match toTree x, toTreeItems es with
    | some x, some es => some ((k, x) :: es)
    | _, _ => Option.none

end

/-- A dictionary whose keys are strings. -/
def ofDict (d : Dict PyStr (PyVal F)) : PyVal F := .dict (d.entries.map fun e => (.str e.1, e.2))

mutual

/-- What `json.loads` reads. -/
def ofTree : JsonTree F → PyVal F
  | .null => .none
  | .bool b => .bool b
  | .int z => .int z
  | .float x => .float x
  | .str us => .str (ofUnits us)
  | .arr xs => .list (ofTrees xs)
  | .obj es => ofDict (Dict.ofList (ofTreeEntries es))

def ofTrees : List (JsonTree F) → List (PyVal F)
  | [] => []
  | x :: xs => ofTree x :: ofTrees xs

def ofTreeEntries : List (List CodeUnit × JsonTree F) → List (PyStr × PyVal F)
  | [] => []
  | (k, x) :: es => (ofUnits k, ofTree x) :: ofTreeEntries es

end

/-- `json.dumps(v, sort_keys=True)`; `none` is a `TypeError`. -/
def dumps (v : PyVal F) : Option (List Char) := (toTree v).map print

/-- `json.loads(text)` where it is a dictionary. -/
def loadsObject (cs : List Char) : Option (Dict PyStr (PyVal F)) :=
  match parse cs with
  | some (.obj es) => some (Dict.ofList (ofTreeEntries es))
  | _ => none

end VantaCore.Lib.Json.Values
