import VantaCore.Extractors.Linux.ListWalk
import VantaCore.Extractors.Linux.Process

/-! # Processes by two paths

`LinuxProcessExtractor.run`: the task list is walked from the `init` task, if one is found near the
kernel base; then the dump is carved. A task carved that the list does not have is an anomaly. -/

namespace VantaCore.Extractors.Linux.ProcessRun

open VantaCore.Core.DumpHandle VantaCore.Lib VantaCore.Lib.Chunks VantaCore.Lib.PyText
open VantaCore.Extractors.Linux.Fields VantaCore.Extractors.Linux.ListWalk
open VantaCore.Extractors.Linux.Process

def taskTasksNext : ℕ := 0x4A8
def taskParentOffset : ℕ := 0x4B8

variable {σ : Type}

/-! ### Reading a task -/

/-- What `_read_task_struct` returns. -/
structure TaskInfo where
  task : Task
  ppid : ℤ
  va : ℕ
deriving DecidableEq

/-- The pid of the parent, zero if it cannot be read or is not valid. -/
def readParentPid (b : Backend σ) (va parentVa : ℕ) : StateM σ ℤ := do
  if isValidKernelVa parentVa ∧ parentVa ≠ va then
    match ← b.readVirtual parentVa 0x600 with
    | none => return 0
    | some parentBuf =>
      if taskPidOffset + 4 ≤ parentBuf.length then
        let parentPid := unpackSigned 4 parentBuf taskPidOffset
        return if 0 ≤ parentPid ∧ parentPid < validPidMax then parentPid else 0
      else return 0
  else return 0

/-- `_read_task_struct`. -/
def readTaskStruct (b : Backend σ) (va : ℕ) : StateM σ (Option TaskInfo) := do
  match ← b.readVirtual va 0x700 with
  | none => return none
  | some buf =>
    if buf.length < 0x688 then return none
    else
      let pid := unpackSigned 4 buf taskPidOffset
      if ¬ (0 ≤ pid ∧ pid < validPidMax) then return none
      else
        match cleanComm (readAt buf taskCommOffset 16) with
        | none => return none
        | some comm =>
          let tgid := unpackSigned 4 buf taskTgidOffset
          let state := unpackSigned 8 buf taskStateOffset
          let ppid ← readParentPid b va (unpackFrom 8 buf taskParentOffset)
          return some { task := ⟨pid, tgid, comm, state⟩, ppid, va }

/-! ### The init task -/

/-- Pid 1 and the name of an `init` process. -/
def isInitTask (pid : ℤ) (comm : PyStr) : Bool :=
  pid = 1 && (("systemd" : PyStr).isPrefixOf comm || ("init" : PyStr).isPrefixOf comm ||
    comm = ("swapper" : PyStr))

/-- The scan of `_find_init_task_va` over addresses. -/
def scanInitTask (b : Backend σ) : List ℕ → StateM σ (Option ℕ)
  | [] => return none
  | va :: vas => do
    match ← b.readVirtual va 256 with
    | none => scanInitTask b vas
    | some buf =>
      if buf.length < 256 then scanInitTask b vas
      else if taskCommOffset + 16 ≤ buf.length ∧ (cleanComm (readAt buf taskCommOffset 16)).any
          (isInitTask (unpackSigned 4 buf taskPidOffset)) then return some va
      else
        match ← readTaskStruct b va with
        | none => scanInitTask b vas
        | some info =>
          if isInitTask info.task.pid info.task.comm then return some va else scanInitTask b vas

/-- `_find_init_task_va`. -/
def findInitTaskVa (b : Backend σ) : StateM σ (Option ℕ) := do
  match ← b.getKernelBase with
  | none => return none
  | some kernelBase =>
    if kernelBase = 0 ∨ ¬ isValidKernelVa kernelBase then return none
    else scanInitTask b ((steps (4 * 1024 * 1024) 256).map (kernelBase + ·))

/-! ### The run -/

/-- The walk over the task list. -/
def walker (b : Backend σ) : Walker σ TaskInfo ProcessEntry ℤ where
  readStruct := readTaskStruct b
  readNext := readLink b taskTasksNext
  key info := info.task.pid
  entry info := ⟨info.task, info.ppid, .listWalk⟩

/-- The next task is the one that holds the target of the link at `va + 0x4A8`. -/
theorem readNext_eq_some_iff {b : Backend σ} {va next : ℕ} {backend : σ} :
    (((walker b).readNext va).run backend).1 = some next ↔
      ∃ bytes, ((b.readVirtual (va + 0x4A8) 8).run backend).1 = some bytes ∧ 8 ≤ bytes.length ∧
        isValidKernelVa (unpackFrom 8 bytes 0) ∧ isValidKernelVa next ∧
        next = unpackFrom 8 bytes 0 - 0x4A8 := readLink_eq_some_iff

/-- An entry of `dkom_anomalies`. -/
structure DkomAnomaly where
  pid : ℤ
  comm : PyStr
  physOffset : ℕ
  severity : String
deriving DecidableEq

/-- What `run` returns. -/
structure Result where
  processes : List ProcessEntry
  dkomAnomalies : List DkomAnomaly
deriving DecidableEq

/-- The hits of the carving whose pid the list walk did not find. -/
def dkomAnomalies (listWalkPids : List ℤ) (carveResults : List CarveResult) : List DkomAnomaly :=
  (carveResults.filter (·.pid ∉ listWalkPids)).map fun item =>
    ⟨item.pid, item.comm, item.physOffset, "HIGH"⟩

theorem mem_pids_dkomAnomalies {listWalkPids : List ℤ} {carveResults : List CarveResult} {k : ℤ} :
    k ∈ (dkomAnomalies listWalkPids carveResults).map (·.pid) ↔
      k ∈ carveResults.map (·.pid) ∧ k ∉ listWalkPids := by
  unfold dkomAnomalies
  simp only [List.map_map, List.mem_map, List.mem_filter, decide_eq_true_eq, Function.comp]
  constructor
  · rintro ⟨item, ⟨hitem, hnot⟩, rfl⟩
    exact ⟨⟨item, hitem, rfl⟩, hnot⟩
  · rintro ⟨⟨item, hitem, rfl⟩, hnot⟩
    exact ⟨item, ⟨hitem, hnot⟩, rfl⟩

/-- `run`; `none` if the turns given to the walk do not suffice. -/
def run (b : Backend σ) (dump : Dump) (backend : σ) : Option Result :=
  (listWalk (walker b) (findInitTaskVa b) backend).map fun s =>
    let c := carve dump s.entries s.seen
    { processes := c.processes, dkomAnomalies := dkomAnomalies s.walked c.carveResults }

end VantaCore.Extractors.Linux.ProcessRun
