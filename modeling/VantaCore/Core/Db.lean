import VantaCore.Lib.Dict
import VantaCore.Lib.Json.Strings

/-! # The SQLite state manager

`SQLiteWALStateManager` holds four tables with primary keys. Its parameters are bound as SQLite
values before a statement runs: a string must be UTF-8 encodable and an `int` a signed 64-bit value,
else the call raises and the tables are as before. What the manager is for is a set and three maps
whose answers are those of the calls made (`Agrees`); it is that exactly for calls whose parameters
can be bound (`faithful_iff`), and a kernel address is none (`not_faithful`). -/

namespace VantaCore.Core.Db

open VantaCore.Lib VantaCore.Lib.PyText VantaCore.Lib.Json.Strings

/-! ### Tables -/

/-- The columns of a node beside its key. -/
structure Node where
  nodeType : PyStr
  label : Option PyStr
  rawBytes : Option (List UInt8)
deriving DecidableEq

/-- The key of an edge. -/
structure EdgeKey where
  sourceNamespace : PyStr
  sourceVa : ℤ
  targetNamespace : PyStr
  targetVa : ℤ
  edgeType : PyStr
deriving DecidableEq

/-- The database: each table by its primary key. -/
structure Tables where
  visitedPointers : Dict (PyStr × ℤ) Unit
  scanMetadata : Dict PyStr PyStr
  extractedNodes : Dict (PyStr × ℤ) Node
  extractedEdges : Dict EdgeKey (Option ℤ)

/-- `CREATE TABLE` of the four tables in a new database. -/
def Tables.create : Tables := ⟨.empty, .empty, .empty, .empty⟩

/-- `INSERT OR IGNORE`. -/
def insertOrIgnore {κ ν : Type*} [DecidableEq κ] (d : Dict κ ν) (k : κ) (v : ν) : Dict κ ν :=
  if k ∈ d.keys then d else d.set k v

/-- `INSERT OR REPLACE`. -/
def insertOrReplace {κ ν : Type*} [DecidableEq κ] (d : Dict κ ν) (k : κ) (v : ν) : Dict κ ν :=
  d.set k v

/-- A manager: its database, and whether the connection is open. -/
structure Manager where
  db : Tables
  conn : Bool

/-- `SQLiteWALStateManager(db_path)` on a new file. -/
def Manager.init : Manager := ⟨.create, true⟩

/-- `close()`. -/
def Manager.close (m : Manager) : Manager := { m with conn := false }

/-! ### Binding -/

/-- What a call raises. -/
inductive Error where
  | runtimeError (msg : String)
  | overflowError
  | unicodeEncodeError
deriving DecidableEq

/-- A value of an INTEGER column. -/
def IsInteger (i : ℤ) : Prop := -2 ^ 63 ≤ i ∧ i < 2 ^ 63

instance (i : ℤ) : Decidable (IsInteger i) := inferInstanceAs (Decidable (_ ∧ _))

/-- Binding an `int`. -/
def bindInt (i : ℤ) : Except Error ℤ := if IsInteger i then .ok i else .error .overflowError

/-- Binding a `str`. -/
def bindText (s : PyStr) : Except Error PyStr :=
  if Utf8Encodable s then .ok s else .error .unicodeEncodeError

/-- `if self._conn is None: raise RuntimeError(...)`. -/
def checkConn (m : Manager) : Except Error Unit :=
  if m.conn then .ok () else .error (.runtimeError "Database connection is closed.")

/-! ### Calls -/

def markVisited (ns : PyStr) (virtualAddress : ℤ) (m : Manager) : Except Error Manager := do
  checkConn m
  let ns ← bindText ns
  let va ← bindInt virtualAddress
  return { m with db.visitedPointers := insertOrIgnore m.db.visitedPointers (ns, va) () }

def isVisited (ns : PyStr) (virtualAddress : ℤ) (m : Manager) : Except Error Bool := do
  checkConn m
  let ns ← bindText ns
  let va ← bindInt virtualAddress
  return (m.db.visitedPointers.get? (ns, va)).isSome

def setMetadata (key value : PyStr) (m : Manager) : Except Error Manager := do
  checkConn m
  let key ← bindText key
  let value ← bindText value
  return { m with db.scanMetadata := insertOrReplace m.db.scanMetadata key value }

def getMetadata (key : PyStr) (m : Manager) : Except Error (Option PyStr) := do
  checkConn m
  let key ← bindText key
  return m.db.scanMetadata.get? key

def insertNode (ns : PyStr) (virtualAddress : ℤ) (nodeType : PyStr) (label : Option PyStr)
    (rawBytes : Option (List UInt8)) (m : Manager) : Except Error Manager := do
  checkConn m
  let ns ← bindText ns
  let va ← bindInt virtualAddress
  let nodeType ← bindText nodeType
  let label ← label.mapM bindText
  return { m with
    db.extractedNodes := insertOrReplace m.db.extractedNodes (ns, va) ⟨nodeType, label, rawBytes⟩ }

def insertEdge (sourceNamespace : PyStr) (sourceVa : ℤ) (targetNamespace : PyStr) (targetVa : ℤ)
    (edgeType : PyStr) (offsetInStruct : Option ℤ) (m : Manager) : Except Error Manager := do
  checkConn m
  let sourceNamespace ← bindText sourceNamespace
  let sourceVa ← bindInt sourceVa
  let targetNamespace ← bindText targetNamespace
  let targetVa ← bindInt targetVa
  let edgeType ← bindText edgeType
  let offsetInStruct ← offsetInStruct.mapM bindInt
  return { m with
    db.extractedEdges := insertOrReplace m.db.extractedEdges
      ⟨sourceNamespace, sourceVa, targetNamespace, targetVa, edgeType⟩ offsetInStruct }

/-- A call with its arguments. -/
inductive Call where
  | markVisited (ns : PyStr) (virtualAddress : ℤ)
  | isVisited (ns : PyStr) (virtualAddress : ℤ)
  | setMetadata (key value : PyStr)
  | getMetadata (key : PyStr)
  | insertNode (ns : PyStr) (virtualAddress : ℤ) (node : Node)
  | insertEdge (key : EdgeKey) (offsetInStruct : Option ℤ)
deriving DecidableEq

/-- What a call returns. -/
inductive Answer where
  | none
  | bool (b : Bool)
  | text (value : Option PyStr)
deriving DecidableEq

/-- A call: the manager after it and what it returns, or what it raises. -/
def exec (m : Manager) : Call → Except Error (Manager × Answer)
  | .markVisited ns va => return (← markVisited ns va m, .none)
  | .isVisited ns va => return (m, .bool (← isVisited ns va m))
  | .setMetadata key value => return (← setMetadata key value m, .none)
  | .getMetadata key => return (m, .text (← getMetadata key m))
  | .insertNode ns va ⟨nodeType, label, rawBytes⟩ =>
    return (← insertNode ns va nodeType label rawBytes m, .none)
  | .insertEdge ⟨ns, va, ns', va', edgeType⟩ offset =>
    return (← insertEdge ns va ns' va' edgeType offset m, .none)

/-- The manager after a call; one that raises leaves it as it was. -/
def step (m : Manager) (c : Call) : Manager :=
  match exec m c with
  | .ok (m', _) => m'
  | .error _ => m

/-- The manager after a sequence of calls. -/
def run (calls : List Call) : Manager := calls.foldl step .init

/-! ### What the manager is for -/

/-- What the last of the calls said about something. -/
def last {α : Type*} (f : Call → Option α) (calls : List Call) : Option α :=
  calls.reverse.findSome? f

/-- The value a metadata key was last set to. -/
def lastMetadata (key : PyStr) : List Call → Option PyStr :=
  last fun
    | .setMetadata key' value => if key' = key then some value else none
    | _ => none

/-- The node last inserted at an address. -/
def lastNode (key : PyStr × ℤ) : List Call → Option Node :=
  last fun
    | .insertNode ns va node => if (ns, va) = key then some node else none
    | _ => none

/-- The offset of the edge last inserted. -/
def lastEdge (key : EdgeKey) : List Call → Option (Option ℤ) :=
  last fun
    | .insertEdge key' offset => if key' = key then some offset else none
    | _ => none

/-- The tables hold what the calls have put there. -/
structure Agrees (t : Tables) (calls : List Call) : Prop where
  visited : ∀ ns va, (t.visitedPointers.get? (ns, va)).isSome ↔ .markVisited ns va ∈ calls
  metadata : ∀ key, t.scanMetadata.get? key = lastMetadata key calls
  nodes : ∀ key, t.extractedNodes.get? key = lastNode key calls
  edges : ∀ key, t.extractedEdges.get? key = lastEdge key calls

/-- What a call is to return, by the calls before it. -/
def expected (calls : List Call) : Call → Answer
  | .isVisited ns va => .bool (.markVisited ns va ∈ calls)
  | .getMetadata key => .text (lastMetadata key calls)
  | _ => .none

/-- Every call returns what the calls before it say, and the tables hold what the calls say. -/
def Faithful (calls : List Call) : Prop :=
  (∀ pre c post, calls = pre ++ c :: post →
    ∃ m, exec (run pre) c = .ok (m, expected pre c)) ∧
  Agrees (run calls).db calls

/-- The parameters of a call can be bound. -/
def Bindable : Call → Prop
  | .markVisited ns va | .isVisited ns va => Utf8Encodable ns ∧ IsInteger va
  | .setMetadata key value => Utf8Encodable key ∧ Utf8Encodable value
  | .getMetadata key => Utf8Encodable key
  | .insertNode ns va node => Utf8Encodable ns ∧ IsInteger va ∧ Utf8Encodable node.nodeType ∧
      ∀ label ∈ node.label, Utf8Encodable label
  | .insertEdge key offset => Utf8Encodable key.sourceNamespace ∧ IsInteger key.sourceVa ∧
      Utf8Encodable key.targetNamespace ∧ IsInteger key.targetVa ∧ Utf8Encodable key.edgeType ∧
      ∀ i ∈ offset, IsInteger i

/-! ### One call -/

/-- The tables after a call whose parameters are bound. -/
def Tables.put (t : Tables) : Call → Tables
  | .markVisited ns va =>
    { t with visitedPointers := insertOrIgnore t.visitedPointers (ns, va) () }
  | .setMetadata key value => { t with scanMetadata := insertOrReplace t.scanMetadata key value }
  | .insertNode ns va node =>
    { t with extractedNodes := insertOrReplace t.extractedNodes (ns, va) node }
  | .insertEdge key offset =>
    { t with extractedEdges := insertOrReplace t.extractedEdges key offset }
  | .isVisited _ _ | .getMetadata _ => t

/-- What a call returns whose parameters are bound. -/
def Tables.answer (t : Tables) : Call → Answer
  | .isVisited ns va => .bool (t.visitedPointers.get? (ns, va)).isSome
  | .getMetadata key => .text (t.scanMetadata.get? key)
  | _ => .none

section Exec

variable {m : Manager} {calls : List Call} {c : Call} {t : Tables}

theorem bind_ok {α β : Type} {x : Except Error α} {f : α → Except Error β} {a : α} {b : β}
    (hx : x = .ok a) (hf : f a = .ok b) : x >>= f = .ok b := by
  rw [hx]
  exact hf

theorem mapM_bind {α : Type} {bind : α → Except Error α} {o : Option α}
    (h : ∀ x ∈ o, bind x = .ok x) : o.mapM bind = .ok o := by
  cases o with
  | none => rfl
  | some x =>
    rw [Option.mapM_some, h x rfl]
    rfl

theorem bind_eq_ok {α β : Type} {x : Except Error α} {f : α → Except Error β} {b : β}
    (h : x >>= f = .ok b) : ∃ a, x = .ok a ∧ f a = .ok b := by
  cases x with
  | error e => cases h
  | ok a => exact ⟨a, rfl, h⟩

theorem isInteger_of_bindInt {i j : ℤ} (h : bindInt i = .ok j) : IsInteger i := by
  by_contra hi
  rw [bindInt, if_neg hi] at h
  cases h

theorem encodable_of_bindText {s s' : PyStr} (h : bindText s = .ok s') : Utf8Encodable s := by
  by_contra hs
  rw [bindText, if_neg hs] at h
  cases h

theorem bind_of_mapM {α : Type} {bind : α → Except Error α} {o o' : Option α}
    (h : o.mapM bind = .ok o') : ∀ x ∈ o, ∃ y, bind x = .ok y := by
  rintro x rfl
  rw [Option.mapM_some] at h
  cases hx : bind x with
  | error e =>
    rw [hx] at h
    cases h
  | ok y => exact ⟨y, rfl⟩

/-- **A call whose parameters can be bound.** -/
theorem exec_of_bindable (hconn : m.conn = true) (h : Bindable c) :
    exec m c = .ok ({ m with db := m.db.put c }, m.db.answer c) := by
  have hcheck : checkConn m = .ok () := if_pos hconn
  cases c with
  | markVisited ns va | isVisited ns va =>
    refine bind_ok (bind_ok hcheck ?_) rfl
    exact bind_ok (if_pos h.1) (bind_ok (if_pos h.2) rfl)
  | setMetadata key value =>
    refine bind_ok (bind_ok hcheck ?_) rfl
    exact bind_ok (if_pos h.1) (bind_ok (if_pos h.2) rfl)
  | getMetadata key => exact bind_ok (bind_ok hcheck (bind_ok (if_pos h) rfl)) rfl
  | insertNode ns va node =>
    obtain ⟨hns, hva, htype, hlabel⟩ := h
    have hmapM : node.label.mapM bindText = .ok node.label :=
      mapM_bind fun label hl => if_pos (hlabel label hl)
    refine bind_ok (bind_ok hcheck ?_) rfl
    refine bind_ok (if_pos hns) (bind_ok (if_pos hva) ?_)
    exact bind_ok (if_pos htype) (bind_ok hmapM rfl)
  | insertEdge key offset =>
    obtain ⟨hns, hva, hns', hva', htype, hoffset⟩ := h
    have hmapM : offset.mapM bindInt = .ok offset := mapM_bind fun i hi => if_pos (hoffset i hi)
    refine bind_ok (bind_ok hcheck ?_) rfl
    refine bind_ok (if_pos hns) (bind_ok (if_pos hva) ?_)
    refine bind_ok (if_pos hns') (bind_ok (if_pos hva') ?_)
    exact bind_ok (if_pos htype) (bind_ok hmapM rfl)

/-- A call that returns has bound its parameters. -/
theorem bindable_of_exec {r : Manager × Answer} (h : exec m c = .ok r) : Bindable c := by
  cases c with
  | markVisited ns va | isVisited ns va =>
    obtain ⟨_, h, -⟩ := bind_eq_ok h
    obtain ⟨_, -, h⟩ := bind_eq_ok h
    obtain ⟨_, hns, h⟩ := bind_eq_ok h
    obtain ⟨_, hva, -⟩ := bind_eq_ok h
    exact ⟨encodable_of_bindText hns, isInteger_of_bindInt hva⟩
  | setMetadata key value =>
    obtain ⟨_, h, -⟩ := bind_eq_ok h
    obtain ⟨_, -, h⟩ := bind_eq_ok h
    obtain ⟨_, hkey, h⟩ := bind_eq_ok h
    obtain ⟨_, hvalue, -⟩ := bind_eq_ok h
    exact ⟨encodable_of_bindText hkey, encodable_of_bindText hvalue⟩
  | getMetadata key =>
    obtain ⟨_, h, -⟩ := bind_eq_ok h
    obtain ⟨_, -, h⟩ := bind_eq_ok h
    obtain ⟨_, hkey, -⟩ := bind_eq_ok h
    exact encodable_of_bindText hkey
  | insertNode ns va node =>
    obtain ⟨_, h, -⟩ := bind_eq_ok h
    obtain ⟨_, -, h⟩ := bind_eq_ok h
    obtain ⟨_, hns, h⟩ := bind_eq_ok h
    obtain ⟨_, hva, h⟩ := bind_eq_ok h
    obtain ⟨_, htype, h⟩ := bind_eq_ok h
    obtain ⟨_, hlabel, -⟩ := bind_eq_ok h
    refine ⟨encodable_of_bindText hns, isInteger_of_bindInt hva, encodable_of_bindText htype,
      fun label hl => ?_⟩
    obtain ⟨_, hbind⟩ := bind_of_mapM hlabel label hl
    exact encodable_of_bindText hbind
  | insertEdge key offset =>
    obtain ⟨_, h, -⟩ := bind_eq_ok h
    obtain ⟨_, -, h⟩ := bind_eq_ok h
    obtain ⟨_, hns, h⟩ := bind_eq_ok h
    obtain ⟨_, hva, h⟩ := bind_eq_ok h
    obtain ⟨_, hns', h⟩ := bind_eq_ok h
    obtain ⟨_, hva', h⟩ := bind_eq_ok h
    obtain ⟨_, htype, h⟩ := bind_eq_ok h
    obtain ⟨_, hoffset, -⟩ := bind_eq_ok h
    refine ⟨encodable_of_bindText hns, isInteger_of_bindInt hva, encodable_of_bindText hns',
      isInteger_of_bindInt hva', encodable_of_bindText htype, fun i hi => ?_⟩
    obtain ⟨_, hbind⟩ := bind_of_mapM hoffset i hi
    exact isInteger_of_bindInt hbind

/-- A closed manager answers no call. -/
theorem exec_close (m : Manager) (c : Call) :
    exec m.close c = .error (.runtimeError "Database connection is closed.") := by
  cases c <;> rfl

/-! ### One call and the tables -/

theorem get?_insertOrIgnore {κ : Type*} [DecidableEq κ] (d : Dict κ Unit) (k k' : κ) :
    ((insertOrIgnore d k ()).get? k').isSome ↔ k = k' ∨ (d.get? k').isSome := by
  unfold insertOrIgnore
  by_cases hk : k ∈ d.keys
  · obtain ⟨v, hv⟩ := Dict.mem_keys_iff.mp hk
    rw [if_pos hk]
    constructor
    · exact Or.inr
    · rintro (rfl | h)
      · rw [hv]
        rfl
      · exact h
  · rw [if_neg hk, Dict.get?_set]
    by_cases h : k = k' <;> simp [h]

theorem last_append {α : Type*} (f : Call → Option α) (calls : List Call) (c : Call) :
    last f (calls ++ [c]) = (f c).or (last f calls) := by
  unfold last
  rw [List.reverse_append, List.reverse_singleton, List.singleton_append, List.findSome?_cons]
  cases f c <;> rfl

theorem get?_insertOrReplace {κ ν : Type*} [DecidableEq κ] (d : Dict κ ν) (k k' : κ) (v : ν) :
    (insertOrReplace d k v).get? k' = (if k = k' then some v else none).or (d.get? k') := by
  rw [insertOrReplace, Dict.get?_set]
  by_cases h : k = k' <;> simp [h]

/-- **A call puts into its table what it says, and leaves the others.** -/
theorem Agrees.put (h : Agrees t calls) (c : Call) : Agrees (t.put c) (calls ++ [c]) := by
  have hmem : ∀ ns va, Call.markVisited ns va ∈ calls ++ [c] ↔
      c = .markVisited ns va ∨ (t.visitedPointers.get? (ns, va)).isSome := fun ns va => by
    rw [h.visited, List.mem_append, List.mem_singleton, or_comm, eq_comm]
  constructor
  · intro ns va
    rw [hmem]
    cases c with
    | markVisited ns' va' =>
      rw [Tables.put, get?_insertOrIgnore, Call.markVisited.injEq, Prod.mk.injEq]
    | _ => simp [Tables.put]
  · intro key
    rw [lastMetadata, last_append, ← lastMetadata, ← h.metadata]
    cases c with
    | setMetadata key' value => exact get?_insertOrReplace t.scanMetadata key' key value
    | _ => rfl
  · intro key
    rw [lastNode, last_append, ← lastNode, ← h.nodes]
    cases c with
    | insertNode ns va node => exact get?_insertOrReplace t.extractedNodes (ns, va) key node
    | _ => rfl
  · intro key
    rw [lastEdge, last_append, ← lastEdge, ← h.edges]
    cases c with
    | insertEdge key' offset => exact get?_insertOrReplace t.extractedEdges key' key offset
    | _ => rfl

theorem Agrees.answer (h : Agrees t calls) (c : Call) : t.answer c = expected calls c := by
  cases c with
  | isVisited ns va =>
    rw [Tables.answer, expected, Bool.eq_iff_iff.mpr ((h.visited ns va).trans decide_eq_true_iff.symm)]
  | getMetadata key => rw [Tables.answer, expected, h.metadata]
  | _ => rfl

end Exec

/-! ### Runs -/

theorem agrees_init : Agrees Tables.create [] := by
  constructor <;> simp [Tables.create, lastMetadata, lastNode, lastEdge, last]

/-- **Calls whose parameters can be bound.** -/
theorem run_of_bindable {calls : List Call} (h : ∀ c ∈ calls, Bindable c) :
    (run calls).conn = true ∧ Agrees (run calls).db calls := by
  induction calls using List.reverseRecOn with
  | nil => exact ⟨rfl, agrees_init⟩
  | append_singleton calls c ih =>
    obtain ⟨hconn, hagrees⟩ := ih fun c' hc' => h c' (List.mem_append_left _ hc')
    have hexec := exec_of_bindable hconn (h c (List.mem_append_right _ List.mem_cons_self))
    have hstep : run (calls ++ [c]) = { run calls with db := (run calls).db.put c } := by
      rw [run, List.foldl_append, List.foldl_cons, List.foldl_nil, ← run, step, hexec]
    rw [hstep]
    exact ⟨hconn, hagrees.put c⟩

/-- **When the manager is faithful.** -/
theorem faithful_iff (calls : List Call) : Faithful calls ↔ ∀ c ∈ calls, Bindable c := by
  constructor
  · rintro ⟨hreturns, -⟩ c hc
    obtain ⟨pre, post, hcalls⟩ := List.append_of_mem hc
    obtain ⟨m, hm⟩ := hreturns pre c post hcalls
    exact bindable_of_exec hm
  · refine fun h => ⟨fun pre c post hcalls => ?_, (run_of_bindable h).2⟩
    have hpre : ∀ c' ∈ pre, Bindable c' := fun c' hc' => h c' (by
      rw [hcalls]
      exact List.mem_append_left _ hc')
    have hc : Bindable c := h c (by
      rw [hcalls]
      exact List.mem_append_right _ List.mem_cons_self)
    obtain ⟨hconn, hagrees⟩ := run_of_bindable hpre
    rw [← hagrees.answer c]
    exact ⟨_, exec_of_bindable hconn hc⟩

/-- The addresses of a call are virtual addresses. -/
def VirtualAddresses : Call → Prop
  | .markVisited _ va | .isVisited _ va | .insertNode _ va _ => 0 ≤ va ∧ va < 2 ^ 64
  | .insertEdge key _ => (0 ≤ key.sourceVa ∧ key.sourceVa < 2 ^ 64) ∧
      0 ≤ key.targetVa ∧ key.targetVa < 2 ^ 64
  | _ => True

/-- A kernel address cannot be marked as visited. -/
theorem not_faithful :
    ¬ ∀ calls : List Call, (∀ c ∈ calls, VirtualAddresses c) → Faithful calls := by
  intro h
  have hf := h [.markVisited "GLOBAL_KERNEL" 0xffff888000000000] (by simp [VirtualAddresses])
  have hb := (faithful_iff _).mp hf _ List.mem_cons_self
  exact absurd hb.2 (by decide)

end VantaCore.Core.Db
