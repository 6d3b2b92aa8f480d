import VantaCore.Extractors.Linux.Fields

/-! # Carving kernel modules

The secondary path of `LinuxModulesExtractor.run`: as for processes, with a smaller structure and
other tests (`carve_eq`). -/

namespace VantaCore.Extractors.Linux.Modules

open VantaCore.Core.DumpHandle VantaCore.Lib.Chunks VantaCore.Lib.PyText
open VantaCore.Extractors.Linux.Fields

def moduleNameOffset : ℕ := 0x18
def moduleCoreLayoutBase : ℕ := 0x150
def moduleCoreLayoutSize : ℕ := 0x158

/-- A letter or an underscore. -/
def isIdStart (b : UInt8) : Bool := (65 ≤ b && b ≤ 90) || (97 ≤ b && b ≤ 122) || b = 95

/-- `decoded.isidentifier()`, of ASCII text. -/
def isIdentifier : List UInt8 → Bool
  | [] => false
  | b :: bs => isIdStart b && bs.all fun b => isIdStart b || (48 ≤ b && b ≤ 57)

/-- `_clean_module_name`: the identifier before the first NUL. -/
def cleanModuleName (nameBytes : List UInt8) : Option PyStr :=
  let raw := beforeNul nameBytes
  if raw = [] ∨ 55 < raw.length then none
  else if Printable raw ∧ isIdentifier raw then some (ofBytes raw)
  else none

/-! ### One offset -/

/-- The fields of a module. -/
structure Module where
  name : PyStr
  base : ℕ
  size : ℕ
deriving DecidableEq

/-- The tests on a chunk at an offset. -/
def carveModule (chunk : List UInt8) (alignOff : ℕ) : Option Module :=
  match (cleanModuleName (readAt chunk (alignOff + moduleNameOffset) 56)).filter (· ≠ []) with
  | none => none
  | some name =>
    let basePtr := unpackFrom 8 chunk (alignOff + moduleCoreLayoutBase)
    let size := unpackFrom 4 chunk (alignOff + moduleCoreLayoutSize)
    if isValidKernelVa basePtr ∧ 4096 ≤ size ∧ size ≤ 256 * 1024 * 1024 then
      some ⟨name, basePtr, size⟩
    else none

/-! ### The loop -/

/-- How a module was found. -/
inductive Source where
  | listWalk
  | carve
deriving DecidableEq

/-- An entry of `modules`. -/
structure ModuleEntry where
  module : Module
  source : Source
deriving DecidableEq

/-- An entry of `carve_results`. -/
structure CarveResult where
  module : Module
  physOffset : ℕ
deriving DecidableEq

/-- What the loop changes. -/
structure CarveState where
  modules : List ModuleEntry
  seenNames : List PyStr
  carveResults : List CarveResult
  carveHops : ℕ

/-- What is recorded of a module. -/
def CarveState.record (s : CarveState) (physOff : ℕ) (m : Module) : CarveState :=
  { s with
    carveResults := s.carveResults ++ [⟨m, physOff⟩]
    modules := if m.name ∈ s.seenNames then s.modules else s.modules ++ [⟨m, .carve⟩]
    seenNames := if m.name ∈ s.seenNames then s.seenNames else s.seenNames ++ [m.name] }

/-- The body of the loop over the offsets of a chunk. -/
def carveAt (offset : ℕ) (chunk : List UInt8) (s : CarveState) (alignOff : ℕ) : CarveState :=
  match carveModule chunk alignOff with
  | none => s
  | some m => s.record (offset + alignOff) m

/-- The body of the loop over the chunks. -/
def carveChunk (offset : ℕ) (chunk : List UInt8) (s : CarveState) : CarveState :=
  (steps (chunk.length - 0x200) 8).foldl (carveAt offset chunk)
    { s with carveHops := s.carveHops + 1 }

/-- The carving, with the modules of the list walk. -/
def carve (dump : Dump) (modules : List ModuleEntry) (seenNames : List PyStr) : CarveState :=
  scan 65536 (fun s => 500000 ≤ s.carveHops) carveChunk dump ⟨modules, seenNames, [], 0⟩

/-! ### What is recorded -/

section Carve

variable {dump : Dump}

/-- The tests at an offset read the window there. -/
theorem carveModule_chunkAt {c a n : ℕ} (h : a + 0x200 ≤ (chunkAt n dump c).length) :
    carveModule (chunkAt n dump c) a = carveModule dump (c + a) := by
  have hfield : ∀ k m, k + m ≤ 0x200 →
      readAt (chunkAt n dump c) (a + k) m = readAt dump (c + a + k) m := fun k m hkm => by
    rw [readAt_chunkAt (by omega), Nat.add_assoc]
  unfold carveModule unpackFrom
  rw [hfield _ 56 (by decide), hfield _ 8 (by decide), hfield _ 4 (by decide)]

/-- What is recorded of the modules of a chunk. -/
theorem carveResults_carveChunk (c : ℕ) (chunk : List UInt8) (s : CarveState) :
    (carveChunk c chunk s).carveResults = s.carveResults ++
      chunkHits 0x200 8 carveModule (fun o m => ⟨m, o⟩) c chunk := by
  refine results_foldl (fun s a => ?_) _ _
  unfold carveAt
  cases carveModule chunk a with
  | none => exact (List.append_nil _).symm
  | some m => rfl

theorem carveHops_carveChunk (c : ℕ) (chunk : List UInt8) (s : CarveState) :
    (carveChunk c chunk s).carveHops = s.carveHops + 1 := by
  unfold carveChunk
  refine List.foldlRecOn (motive := fun t : CarveState => t.carveHops = s.carveHops + 1) _ _ rfl
    fun t ht a _ => ?_
  unfold carveAt
  cases carveModule chunk a <;> exact ht

/-- **What the loop records.** -/
theorem carve_eq (hlen : dump.length ≤ 500000 * 65536) (modules : List ModuleEntry)
    (seenNames : List PyStr) :
    (carve dump modules seenNames).carveResults =
      (windows 0x200 8 65536 dump).filterMap fun o => (carveModule dump o).map fun m => ⟨m, o⟩ := by
  unfold carve
  rw [scan_eq_foldl_of_hops (by decide) (fun s => decide_eq_true_iff) carveHops_carveChunk hlen rfl]
  refine (results_foldl_of_nil (fun s c => carveResults_carveChunk c (chunkAt 65536 dump c) s) _
    rfl).trans ?_
  exact flatMap_chunkHits (by decide) fun c a h => carveModule_chunkAt h.le

end Carve

end VantaCore.Extractors.Linux.Modules
