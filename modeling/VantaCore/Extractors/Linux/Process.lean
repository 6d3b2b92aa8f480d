import VantaCore.Extractors.Linux.Fields

/-! # Carving processes

The secondary path of `LinuxProcessExtractor.run`: the dump is read in chunks of 64 KiB, and in each
chunk every eighth offset is tested for a `task_struct`. What it records are the tasks of the windows
that end before the end of their chunk (`carve_eq`). -/

namespace VantaCore.Extractors.Linux.Process

open VantaCore.Core.DumpHandle VantaCore.Lib.Chunks VantaCore.Lib.PyText
open VantaCore.Extractors.Linux.Fields

/-! ### Fields -/

def taskPidOffset : ℕ := 0x558
def taskTgidOffset : ℕ := 0x55C
def taskCommOffset : ℕ := 0x678
def taskStateOffset : ℕ := 0x000

def validPidMax : ℕ := 4194304
def validStates : List ℤ := [0, 1, 2, 4, 8, 16, 32, 64, 128]

/-- `_clean_comm`: the printable ASCII text before the first NUL. -/
def cleanComm (commBytes : List UInt8) : Option PyStr :=
  let rawName := beforeNul commBytes
  if rawName = [] then none
  else if Printable rawName then some (ofBytes rawName)
  else none

/-! ### One offset -/

/-- The fields of a task. -/
structure Task where
  pid : ℤ
  tgid : ℤ
  comm : PyStr
  state : ℤ
deriving DecidableEq

/-- The tests on a chunk at an offset. -/
def carveTask (chunk : List UInt8) (alignOff : ℕ) : Option Task :=
  if taskCommOffset + 16 > chunk.length - alignOff then none
  else
    let pid := unpackSigned 4 chunk (alignOff + taskPidOffset)
    if ¬ (1 ≤ pid ∧ pid < validPidMax) then none
    else
      let state := unpackSigned 8 chunk (alignOff + taskStateOffset)
      if state ∉ validStates then none
      else
        match (cleanComm (readAt chunk (alignOff + taskCommOffset) 16)).filter (· ≠ []) with
        | none => none
        | some comm => some ⟨pid, unpackSigned 4 chunk (alignOff + taskTgidOffset), comm, state⟩

/-! ### The loop -/

/-- How a process was found. -/
inductive Source where
  | listWalk
  | carve
deriving DecidableEq

/-- An entry of `processes`. -/
structure ProcessEntry where
  task : Task
  ppid : ℤ
  source : Source
deriving DecidableEq

/-- An entry of `carve_results`. -/
structure CarveResult where
  pid : ℤ
  comm : PyStr
  physOffset : ℕ
deriving DecidableEq

/-- What the loop changes. -/
structure CarveState where
  processes : List ProcessEntry
  seenPids : List ℤ
  carveResults : List CarveResult
  carveHops : ℕ

/-- What is recorded of a task. -/
def CarveState.record (s : CarveState) (physOff : ℕ) (t : Task) : CarveState :=
  { s with
    processes := if t.pid ∈ s.seenPids then s.processes else s.processes ++ [⟨t, 0, .carve⟩]
    seenPids := if t.pid ∈ s.seenPids then s.seenPids else s.seenPids ++ [t.pid]
    carveResults := s.carveResults ++ [⟨t.pid, t.comm, physOff⟩] }

/-- The body of the loop over the offsets of a chunk. -/
def carveAt (offset : ℕ) (chunk : List UInt8) (s : CarveState) (alignOff : ℕ) : CarveState :=
  match carveTask chunk alignOff with
  | none => s
  | some t => s.record (offset + alignOff) t

/-- The body of the loop over the chunks. -/
def carveChunk (offset : ℕ) (chunk : List UInt8) (s : CarveState) : CarveState :=
  (steps (chunk.length - 0x700) 8).foldl (carveAt offset chunk)
    { s with carveHops := s.carveHops + 1 }

/-- The carving, with the processes of the list walk. -/
def carve (dump : Dump) (processes : List ProcessEntry) (seenPids : List ℤ) : CarveState :=
  scan 65536 (fun s => 500000 ≤ s.carveHops) carveChunk dump ⟨processes, seenPids, [], 0⟩

/-! ### What is recorded -/

section Carve

variable {dump : Dump} {o : ℕ}

/-- The tests at an offset read the window there. -/
theorem carveTask_chunkAt {c a n : ℕ} (h : a + 0x700 ≤ (chunkAt n dump c).length) :
    carveTask (chunkAt n dump c) a = carveTask dump (c + a) := by
  have hlen : (chunkAt n dump c).length = min n (dump.length - c) := length_chunkAt
  have hfield : ∀ k m, k + m ≤ 0x700 →
      readAt (chunkAt n dump c) (a + k) m = readAt dump (c + a + k) m := fun k m hkm => by
    rw [readAt_chunkAt (by omega), Nat.add_assoc]
  unfold carveTask unpackSigned unpackFrom
  rw [hfield _ 4 (by decide), hfield _ 8 (by decide), hfield _ 16 (by decide),
    hfield taskTgidOffset 4 (by decide)]
  have hcomm : taskCommOffset + 16 ≤ 0x700 := by decide
  have hchunk : ¬ taskCommOffset + 16 > (chunkAt n dump c).length - a := by omega
  have hdump : ¬ taskCommOffset + 16 > dump.length - (c + a) := by omega
  rw [if_neg hchunk, if_neg hdump]

/-- What is recorded of the tasks of a chunk. -/
theorem carveResults_carveChunk (c : ℕ) (chunk : List UInt8) (s : CarveState) :
    (carveChunk c chunk s).carveResults = s.carveResults ++
      chunkHits 0x700 8 carveTask (fun o t => ⟨t.pid, t.comm, o⟩) c chunk := by
  refine results_foldl (fun s a => ?_) _ _
  unfold carveAt
  cases carveTask chunk a with
  | none => exact (List.append_nil _).symm
  | some t => rfl

theorem carveHops_carveChunk (c : ℕ) (chunk : List UInt8) (s : CarveState) :
    (carveChunk c chunk s).carveHops = s.carveHops + 1 := by
  unfold carveChunk
  refine List.foldlRecOn (motive := fun t : CarveState => t.carveHops = s.carveHops + 1) _ _ rfl
    fun t ht a _ => ?_
  unfold carveAt
  cases carveTask chunk a <;> exact ht

/-- **What the loop records.** -/
theorem carve_eq (hlen : dump.length ≤ 500000 * 65536) (processes : List ProcessEntry)
    (seenPids : List ℤ) :
    (carve dump processes seenPids).carveResults =
      (windows 0x700 8 65536 dump).filterMap fun o =>
        (carveTask dump o).map fun t => ⟨t.pid, t.comm, o⟩ := by
  unfold carve
  rw [scan_eq_foldl_of_hops (by decide) (fun s => decide_eq_true_iff) carveHops_carveChunk hlen rfl]
  refine (results_foldl_of_nil (fun s c => carveResults_carveChunk c (chunkAt 65536 dump c) s) _
    rfl).trans ?_
  exact flatMap_chunkHits (by decide) fun c a h => carveTask_chunkAt h.le

end Carve

end VantaCore.Extractors.Linux.Process
