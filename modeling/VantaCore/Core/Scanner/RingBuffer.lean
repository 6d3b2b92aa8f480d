import Mathlib.Logic.Function.Basic
import Mathlib.Tactic

/-! # The ring buffer of the scanner

`SharedMemoryRingBuffer` keeps a head, a tail and the slots of a ring in shared memory, and guards
`put` and `get` with the lock its constructor obtained: the one it is given, or else a new one. The
coordinator creates the ring and puts addresses into it; every worker attaches to it by name and
gets addresses out of it. A call is run step by step: it acquires the lock, reads the head, the
tail and the capacity, accesses the slot, writes the index, and returns the lock. A schedule is a
list of steps of the parties in any order. -/

namespace VantaCore.Core.Scanner.RingBuffer

/-! ### Handles -/

/-- The metadata and the slots of a ring. -/
structure Shm where
  head : ℕ
  tail : ℕ
  capacity : ℕ
  data : ℕ → UInt64

/-- The locks and the rings made so far; a lock is its number, a ring is named by its place. -/
structure World where
  locks : ℕ
  rings : List Shm

/-- What a `SharedMemoryRingBuffer` keeps. -/
structure Handle where
  lock : ℕ
  name : ℕ
deriving DecidableEq, Repr

/-- `HARD_CAPACITY_LIMIT`. -/
def hardCapacityLimit : ℕ := 65536

/-- The lock of a new handle: the one it is given, or `multiprocessing.Lock()`. -/
def obtainLock (w : World) : Option ℕ → ℕ × World
  | some lock => (lock, w)
  | none => (w.locks, { w with locks := w.locks + 1 })

/-- `SharedMemoryRingBuffer(capacity, lock, create=True)`; `none` is a `ValueError`. -/
def create (w : World) (capacity : ℕ) (lock : Option ℕ) : Option (Handle × World) :=
  let (lock, w) := obtainLock w lock
  if capacity = 0 ∨ hardCapacityLimit < capacity then none
  else some (⟨lock, w.rings.length⟩,
    { w with rings := w.rings ++ [⟨0, 0, capacity, fun _ => 0⟩] })

/-- `SharedMemoryRingBuffer(lock=lock, create=False, data_name=…, meta_name=…)`; `none` is an error,
of a name that is missing or that no ring has. -/
def attach (w : World) (lock : Option ℕ) (name : Option ℕ) : Option (Handle × World) :=
  let (lock, w) := obtainLock w lock
  match name with
  | none => none
  | some name => if name < w.rings.length then some (⟨lock, name⟩, w) else none

/-- The handles `scanner_worker_main` makes in `n` workers. -/
def attachWorkers (name : ℕ) : ℕ → World → Option (List Handle × World)
  | 0, w => some ([], w)
  | n + 1, w => do
    let (worker, w) ← attach w none (some name)
    let (workers, w) ← attachWorkers name n w
    some (worker :: workers, w)

/-- `ScannerCoordinator.start`: the coordinator's handle and those of its workers. -/
def start (w : World) (capacity numWorkers : ℕ) : Option (Handle × List Handle × World) := do
  let (coordinator, w) ← create w capacity none
  let (workers, w) ← attachWorkers coordinator.name numWorkers w
  some (coordinator, workers, w)

/-! ### Calls -/

/-- The coordinator or a worker. -/
inductive Party (n : ℕ) where
  | coordinator
  | worker (i : Fin n)
deriving DecidableEq

/-- Where a party is in a call, with what the call has read. -/
inductive Pc where
  | idle
  | putAcquire (addr : UInt64)
  | putReadHead (addr : UInt64)
  | putReadTail (addr : UInt64) (head : ℕ)
  | putReadCap (addr : UInt64) (head tail : ℕ)
  | putWriteSlot (addr : UInt64) (tail nextTail : ℕ)
  | putWriteTail (addr : UInt64) (nextTail : ℕ)
  | putRelease (addr : UInt64) (res : Bool)
  | getAcquire
  | getReadHead
  | getReadTail (head : ℕ)
  | getReadCap (head tail : ℕ)
  | getReadSlot (head cap : ℕ)
  | getWriteHead (addr : UInt64) (nextHead : ℕ)
  | getRelease (res : Option UInt64)
deriving DecidableEq

/-- A call that starts or returns. -/
inductive Event (n : ℕ) where
  | putCall (addr : UInt64)
  | putRet (addr : UInt64) (res : Bool)
  | getCall (p : Party n)
  | getRet (p : Party n) (res : Option UInt64)
deriving DecidableEq

/-- The state of the parties on one ring. -/
structure State (n : ℕ) where
  shm : Shm
  holder : ℕ → Option (Party n)
  pc : Party n → Pc
  trace : List (Event n)

/-- A schedule says who starts a call and who takes a step. -/
inductive Label (n : ℕ) where
  | put (addr : UInt64)
  | get (i : Fin n)
  | tick (p : Party n)

variable {n : ℕ}

namespace State

/-- The party goes on at `pc`. -/
def goto (s : State n) (p : Party n) (pc : Pc) : State n :=
  { s with pc := Function.update s.pc p pc }

/-- `with self._lock:`, unless a party holds the lock. -/
def acquire (s : State n) (p : Party n) (lock : ℕ) : Option (State n) :=
  if s.holder lock = none then some { s with holder := Function.update s.holder lock (some p) }
  else none

/-- The end of `with self._lock:`. -/
def release (s : State n) (lock : ℕ) : State n :=
  { s with holder := Function.update s.holder lock none }

/-- A call starts or returns. -/
def emit (s : State n) (e : Event n) : State n := { s with trace := s.trace ++ [e] }

end State

/-- The next step of a party's call. -/
def tick (lockOf : Party n → ℕ) (s : State n) (p : Party n) : Option (State n) :=
  match s.pc p with
  | .idle => none
  | .putAcquire addr => (s.acquire p (lockOf p)).map fun s => s.goto p (.putReadHead addr)
  | .putReadHead addr => some (s.goto p (.putReadTail addr s.shm.head))
  | .putReadTail addr head => some (s.goto p (.putReadCap addr head s.shm.tail))
  | .putReadCap addr head tail =>
    let nextTail := (tail + 1) % s.shm.capacity
    some (s.goto p (if nextTail = head then .putRelease addr false
      else .putWriteSlot addr tail nextTail))
  | .putWriteSlot addr tail nextTail =>
    some ({ s with shm := { s.shm with data := Function.update s.shm.data tail addr } }.goto p
      (.putWriteTail addr nextTail))
  | .putWriteTail addr nextTail =>
    some ({ s with shm := { s.shm with tail := nextTail } }.goto p (.putRelease addr true))
  | .putRelease addr res => some (((s.release (lockOf p)).emit (.putRet addr res)).goto p .idle)
  | .getAcquire => (s.acquire p (lockOf p)).map fun s => s.goto p .getReadHead
  | .getReadHead => some (s.goto p (.getReadTail s.shm.head))
  | .getReadTail head => some (s.goto p (.getReadCap head s.shm.tail))
  | .getReadCap head tail =>
    some (s.goto p (if head = tail then .getRelease none else .getReadSlot head s.shm.capacity))
  | .getReadSlot head cap => some (s.goto p (.getWriteHead (s.shm.data head) ((head + 1) % cap)))
  | .getWriteHead addr nextHead =>
    some ({ s with shm := { s.shm with head := nextHead } }.goto p (.getRelease (some addr)))
  | .getRelease res => some (((s.release (lockOf p)).emit (.getRet p res)).goto p .idle)

/-- One step of a schedule; a party starts a call only when it is in none. -/
def step (lockOf : Party n → ℕ) (s : State n) : Label n → Option (State n)
  | .put addr =>
    if s.pc .coordinator = .idle then
      some ((s.emit (.putCall addr)).goto .coordinator (.putAcquire addr))
    else none
  | .get i =>
    if s.pc (.worker i) = .idle then
      some ((s.emit (.getCall (.worker i))).goto (.worker i) .getAcquire)
    else none
  | .tick p => tick lockOf s p

/-- The state a schedule leads to, if all its steps are enabled. -/
def exec (lockOf : Party n → ℕ) : List (Label n) → State n → Option (State n)
  | [], s => some s
  | l :: ls, s => (step lockOf s l).bind (exec lockOf ls)

/-- **What every step of a schedule keeps, the schedule keeps.** -/
theorem exec_induction {lockOf : Party n → ℕ} {P : State n → Prop} :
    ∀ {ls : List (Label n)}, (∀ l ∈ ls, ∀ s s', P s → step lockOf s l = some s' → P s') →
      ∀ {s s' : State n}, P s → exec lockOf ls s = some s' → P s'
  | [], _, s, s', h, hs => by
    obtain rfl := Option.some.inj hs
    exact h
  | l :: ls, hstep, s, s', h, hs => by
    obtain ⟨s₁, h₁, h₂⟩ := Option.bind_eq_some_iff.mp hs
    have h' : P s₁ := hstep l List.mem_cons_self s s₁ h h₁
    exact exec_induction (fun l hl => hstep l (List.mem_cons_of_mem _ hl)) h' h₂

/-- No calls yet, on a ring. -/
def State.init (shm : Shm) : State n := ⟨shm, fun _ => none, fun _ => .idle, []⟩

/-- The locks of the handles. -/
def lockOf (coordinator : Handle) (workers : List Handle) : Party workers.length → ℕ
  | .coordinator => coordinator.lock
  | .worker i => workers[i].lock

/-! ### What a trace says -/

/-- The addresses whose `put` returned `True`, in order. -/
def accepted (t : List (Event n)) : List UInt64 :=
  t.filterMap fun
    | .putRet addr true => some addr
    | _ => none

/-- The addresses `get` returned, in order. -/
def delivered (t : List (Event n)) : List UInt64 :=
  t.filterMap fun
    | .getRet _ res => res
    | _ => none

end VantaCore.Core.Scanner.RingBuffer
