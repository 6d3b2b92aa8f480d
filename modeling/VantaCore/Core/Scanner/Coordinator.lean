import VantaCore.Core.Scanner.RingBuffer
import VantaCore.Core.Scanner.Worker

/-! # The scanner coordinator

`ScannerCoordinator` makes a ring and a stop event, starts its workers one by one, replaces a worker
that has crashed, once in each slot, and takes all down in `stop`. Beside its fields the state holds
what it has made: the processes, by number, with their exit codes, and the rings whose segments
exist. What the calls meet is given with them: which processes cannot be started (`raises`), and
which of the running workers turn out to have exited when they are polled (`polled`). -/

namespace VantaCore.Core.Scanner.Coordinator

open VantaCore.Core.Scanner.RingBuffer (hardCapacityLimit)

/-- The settings of a coordinator. -/
structure Settings where
  numWorkers : ℕ
  ringBufferCapacity : ℕ

/-- What happens to workers: the slot, and whether the stop event is set. -/
inductive Event where
  | start
  | spawn (slot : ℕ) (stopSet : Bool)
  | respawn (slot : ℕ) (stopSet : Bool)
  | stop
deriving DecidableEq, Repr

/-- The fields of a coordinator, and what it has made. -/
structure State where
  workers : List ℕ
  respawnCounts : ℕ → ℕ
  stopEvent : Option Bool
  ringBuffer : Option ℕ
  started : Bool
  /-- The exit codes of the processes started so far; a process that runs has none. -/
  processes : List (Option ℤ)
  /-- The rings made so far, and those whose segments exist. -/
  rings : ℕ
  segments : List ℕ
  trace : List Event

namespace State

/-- `ScannerCoordinator(...)`. -/
def init : State := ⟨[], fun _ => 0, none, none, false, [], 0, [], []⟩

/-- `self._stop_event.is_set()`. -/
def stopSet (s : State) : Bool := s.stopEvent = some true

/-- `self._stop_event.set()`, if there is one. -/
def setStop (s : State) : State := { s with stopEvent := s.stopEvent.map fun _ => true }

/-- `worker.exitcode`. -/
def exitcode (s : State) (pid : ℕ) : Option ℤ := s.processes.getD pid none

/-- A running process exits. -/
def exit (s : State) (pid : ℕ) (code : Option ℤ) : State :=
  { s with processes := s.processes.modify pid fun c => c.or code }

/-- `p = multiprocessing.Process(...)` and `p.start()`. -/
def spawned (s : State) (e : Event) : State :=
  { s with processes := s.processes ++ [none], trace := s.trace ++ [e] }

/-- `self._workers.append(p)`. -/
def add (s : State) (pid : ℕ) : State := { s with workers := s.workers ++ [pid] }

/-- `self._workers[i] = p`, counted. -/
def replace (s : State) (i pid : ℕ) : State :=
  { s with
    workers := s.workers.set i pid
    respawnCounts := Function.update s.respawnCounts i (s.respawnCounts i + 1) }

/-- A new ring, a new stop event, and no workers yet. -/
def began (s : State) : State :=
  { s with
    ringBuffer := some s.rings
    rings := s.rings + 1
    segments := s.segments ++ [s.rings]
    stopEvent := some false
    workers := []
    trace := s.trace ++ [.start] }

end State

/-! ### Starting -/

/-- The loop of `start` over the workers; `true` if starting one raises. -/
def spawnLoop (raises : ℕ → Bool) : List ℕ → State → State × Bool
  | [], s => (s, false)
  | k :: ks, s =>
    if raises k then (s, true)
    else
      let pid := s.processes.length
      spawnLoop raises ks ((s.spawned (.spawn k s.stopSet)).add pid)

/-- `start()`; `true` if it raises: when started, when there is no dump, when the ring has no valid
capacity, or when a process cannot be started. -/
def start (cfg : Settings) (sizeRaises : Bool) (raises : ℕ → Bool) (s : State) : State × Bool :=
  if s.started then (s, true)
  else if sizeRaises then (s, true)
  else if cfg.ringBufferCapacity = 0 ∨ hardCapacityLimit < cfg.ringBufferCapacity then (s, true)
  else
    match spawnLoop raises (List.range cfg.numWorkers) s.began with
    | (s, true) => (s, true)
    | (s, false) => ({ s with respawnCounts := fun _ => 0, started := true }, false)

/-! ### Checking -/

/-- `_respawn_worker(i)`; `true` if the process cannot be started. -/
def respawnWorker (raises : ℕ → Bool) (s : State) (i : ℕ) : State × Bool :=
  if 1 ≤ s.respawnCounts i then (s.setStop, false)
  else if raises i then (s, true)
  else
    let pid := s.processes.length
    ((s.spawned (.respawn i s.stopSet)).replace i pid, false)

/-- The body of the loop of `_check_workers` on slot `i`. -/
def checkWorker (polled : ℕ → Option ℤ) (raises : ℕ → Bool) (s : State) (i : ℕ) : State × Bool :=
  match s.workers[i]? with
  | none => (s, false)
  | some pid =>
    let s := s.exit pid (polled i)
    match s.exitcode pid with
    | none => (s, false)
    | some code =>
      if code ≠ 0 then
        if s.started then respawnWorker raises s i else (s, false)
      else (s, false)

/-- The loop of `_check_workers`, up to the slot whose process cannot be started. -/
def checkLoop (polled : ℕ → Option ℤ) (raises : ℕ → Bool) : List ℕ → State → State × Bool
  | [], s => (s, false)
  | i :: is, s =>
    match checkWorker polled raises s i with
    | (s, true) => (s, true)
    | (s, false) => checkLoop polled raises is s

/-- `_check_workers()`. -/
def checkWorkers (polled : ℕ → Option ℤ) (raises : ℕ → Bool) (s : State) : State × Bool :=
  checkLoop polled raises (List.range s.workers.length) s

/-! ### Stopping -/

namespace State

/-- `worker.terminate()` for the workers that are alive: their exit code is that of `SIGTERM`. -/
def terminate (s : State) : State := s.workers.foldl (fun s pid => s.exit pid (some (-15))) s

/-- The rest of `stop`: no workers, and `self._ring_buffer.unlink()`. -/
def closed (s : State) : State :=
  { s with
    workers := []
    segments := s.segments.filter fun ring => s.ringBuffer ≠ some ring
    ringBuffer := none
    started := false
    trace := s.trace ++ [.stop] }

end State

/-- `stop()`; the workers that exit while it waits for them are seen by its pass. -/
def stop (polled : ℕ → Option ℤ) (raises : ℕ → Bool) (s : State) : State × Bool :=
  if s.started then
    match checkWorkers polled raises s.setStop with
    | (s, true) => (s, true)
    | (s, false) => (s.terminate.closed, false)
  else (s, false)

/-! ### Runs -/

/-- A call, or a worker that exits; `submit` and `drain_results` change nothing here. -/
inductive Label where
  | start (sizeRaises : Bool) (raises : ℕ → Bool)
  | submit
  | drainResults
  | checkWorkers (polled : ℕ → Option ℤ) (raises : ℕ → Bool)
  | stop (polled : ℕ → Option ℤ) (raises : ℕ → Bool)
  | exit (pid : ℕ) (code : ℤ)

def step (cfg : Settings) (s : State) : Label → State
  | .start sizeRaises raises => (start cfg sizeRaises raises s).1
  | .submit | .drainResults => s
  | .checkWorkers polled raises => (checkWorkers polled raises s).1
  | .stop polled raises => (stop polled raises s).1
  | .exit pid code => s.exit pid (some code)

/-- The state after a sequence of calls and exits. -/
def run (cfg : Settings) (ls : List Label) (s : State) : State := ls.foldl (step cfg) s

/-- Every step of the run meets a condition on the state before it. -/
def AllSteps (cfg : Settings) (C : State → Label → Prop) : List Label → State → Prop
  | [], _ => True
  | l :: ls, s => C s l ∧ AllSteps cfg C ls (step cfg s l)

/-- **What every step keeps, a run keeps.** -/
theorem run_induction {cfg : Settings} {P : State → Prop} (hstep : ∀ s l, P s → P (step cfg s l)) :
    ∀ (ls : List Label) {s : State}, P s → P (run cfg ls s)
  | [], _, h => h
  | l :: ls, s, h => run_induction hstep ls (hstep s l h)

end VantaCore.Core.Scanner.Coordinator
