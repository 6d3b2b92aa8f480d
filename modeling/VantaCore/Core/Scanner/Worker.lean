import VantaCore.Core.DumpHandle

/-! # The scanner worker

A worker process attaches to the ring, opens the dump, and then gets addresses out of the ring and
puts the pointer candidates of each on the result queue, until the stop event is set and the ring is
empty. It is run step by step (`proceed`); `get` is one step here, on a queue of addresses. An
exception that is raised in any step is caught if it is an `Exception` (`raiseIn`), and the process
then ends like one whose work is done (`exitCode`). -/

namespace VantaCore.Core.Scanner.Worker

open VantaCore.Core.DumpHandle

/-! ### One address -/

/-- `np.frombuffer(window, dtype=np.uint64)`. -/
def frombuffer (window : List UInt8) : List ℕ :=
  (List.range (window.length / 8)).map fun i => unpackLE (readAt window (8 * i) 8)

/-- `_process_address`: what it puts on the result queue, in order. -/
def processAddress (dump : Dump) (addr : ℤ) (windowSize dumpFileSize : ℕ) : List ℕ :=
  if addr < 0 ∨ addr + windowSize > dumpFileSize then []
  else
    let window := readAt dump addr.toNat windowSize
    if window.length < 8 then []
    else
      let usableLen := window.length - window.length % 8
      let candidates := frombuffer (window.take usableLen)
      candidates.filter fun c => 0x1000 ≤ c ∧ (c : ℤ) ≤ dumpFileSize - 8

/-! ### The process -/

/-- Where a worker is: in the two loops a value of the address in hand is put at a time. -/
inductive WorkerPc where
  | attach
  | openDump
  | checkStop
  | mainGet
  | mainProcess (rest : List ℕ)
  | drainGet
  | drainProcess (rest : List ℕ)
  | exited (code : ℤ)
deriving DecidableEq, Repr

/-- The next step of `scanner_worker_main`, with the addresses it leaves in the ring and the value it
puts on the result queue. -/
def proceed (dump : Dump) (windowSize dumpFileSize : ℕ) (stop : Bool) (ring : List ℕ) :
    WorkerPc → Option (WorkerPc × List ℕ × Option ℕ)
  | .attach => some (.openDump, ring, none)
  | .openDump => some (.checkStop, ring, none)
  | .checkStop => some (if stop then .drainGet else .mainGet, ring, none)
  | .mainGet =>
    match ring with
    | [] => some (.checkStop, [], none)
    | addr :: ring =>
      some (.mainProcess (processAddress dump addr windowSize dumpFileSize), ring, none)
  | .mainProcess (c :: cs) => some (.mainProcess cs, ring, some c)
  | .mainProcess [] => some (.checkStop, ring, none)
  | .drainGet =>
    match ring with
    | [] => some (.exited 0, [], none)
    | addr :: ring =>
      some (.drainProcess (processAddress dump addr windowSize dumpFileSize), ring, none)
  | .drainProcess (c :: cs) => some (.drainProcess cs, ring, some c)
  | .drainProcess [] => some (.drainGet, ring, none)
  | .exited _ => none

/-! ### Exceptions -/

/-- What a step may raise: an `Exception`, or one of the other base exceptions. -/
inductive Exc where
  | exception
  | keyboardInterrupt
  | systemExit (code : ℤ)
deriving DecidableEq, Repr

/-- `except Exception`. -/
def exceptException : Exc → Except Exc Unit
  | .exception => .ok ()
  | e => .error e

/-- How `scanner_worker_main` ends if the step at `pc` raises `e`. -/
def raiseIn (e : Exc) : WorkerPc → Option (Except Exc Unit)
  | .attach => some (exceptException e)
  | .openDump => some (exceptException e)
  | .checkStop | .mainGet | .mainProcess _ | .drainGet | .drainProcess _ => some (exceptException e)
  | .exited _ => none

/-- The exit code of a process whose target ends so. -/
def exitCode : Except Exc Unit → ℤ
  | .ok () => 0
  | .error (.systemExit code) => code % 256
  | .error _ => 1

end VantaCore.Core.Scanner.Worker
