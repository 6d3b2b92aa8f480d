import VantaCore.Extractors.Linux.ListWalk
import VantaCore.Extractors.Linux.Modules

/-! # Kernel modules by two paths

`LinuxModulesExtractor.run`: as for processes, with the module list, walked from a module of a common
name behind the kernel. -/

namespace VantaCore.Extractors.Linux.ModulesRun

open VantaCore.Core.DumpHandle VantaCore.Lib VantaCore.Lib.Chunks VantaCore.Lib.PyText
open VantaCore.Extractors.Linux.Fields VantaCore.Extractors.Linux.ListWalk
open VantaCore.Extractors.Linux.Modules

def moduleListNext : ℕ := 0x08

variable {σ : Type}

/-- What `_read_module_struct` returns. -/
structure ModInfo where
  module : Module
  va : ℕ
deriving DecidableEq

/-- `_read_module_struct`. -/
def readModuleStruct (b : Backend σ) (va : ℕ) : StateM σ (Option ModInfo) := do
  match ← b.readVirtual va 0x200 with
  | none => return none
  | some buf =>
    if buf.length < moduleCoreLayoutSize + 4 then return none
    else
      match (cleanModuleName (readAt buf moduleNameOffset 56)).filter (· ≠ []) with
      | none => return none
      | some name =>
        let basePtr := unpackFrom 8 buf moduleCoreLayoutBase
        let size := unpackFrom 4 buf moduleCoreLayoutSize
        return some { module := ⟨name, basePtr, size⟩, va }

/-! ### The head of the list -/

def commonModules : List PyStr := ["ext4", "loop", "e1000", "e1000e", "overlay", "fuse"]

/-- The scan of `_find_head_module_va` over addresses. -/
def scanHeadModule (b : Backend σ) : List ℕ → StateM σ (Option ℕ)
  | [] => return none
  | va :: vas => do
    match ← readModuleStruct b va with
    | none => scanHeadModule b vas
    | some modInfo =>
      if modInfo.module.name ∈ commonModules then return some va else scanHeadModule b vas

/-- `_find_head_module_va`. -/
def findHeadModuleVa (b : Backend σ) : StateM σ (Option ℕ) := do
  match ← b.getKernelBase with
  | none => return none
  | some kernelBase =>
    if kernelBase = 0 ∨ ¬ isValidKernelVa kernelBase then return none
    else
      let scanStart := kernelBase + 0x800000
      scanHeadModule b ((steps (4 * 1024 * 1024) 256).map (scanStart + ·))

/-! ### The run -/

/-- The walk over the module list. -/
def walker (b : Backend σ) : Walker σ ModInfo ModuleEntry PyStr where
  readStruct := readModuleStruct b
  readNext := readLink b moduleListNext
  key modInfo := modInfo.module.name
  entry modInfo := ⟨modInfo.module, .listWalk⟩

/-- The next module is the one that holds the target of the link at `va + 0x08`. -/
theorem readNext_eq_some_iff {b : Backend σ} {va next : ℕ} {backend : σ} :
    (((walker b).readNext va).run backend).1 = some next ↔
      ∃ bytes, ((b.readVirtual (va + 0x08) 8).run backend).1 = some bytes ∧ 8 ≤ bytes.length ∧
        isValidKernelVa (unpackFrom 8 bytes 0) ∧ isValidKernelVa next ∧
        next = unpackFrom 8 bytes 0 - 0x08 := readLink_eq_some_iff

/-- An entry of `dkom_anomalies`. -/
structure DkomAnomaly where
  name : PyStr
  physOffset : ℕ
  severity : String
deriving DecidableEq

/-- What `run` returns. -/
structure Result where
  modules : List ModuleEntry
  dkomAnomalies : List DkomAnomaly
deriving DecidableEq

/-- The hits of the carving whose name the list walk did not find. -/
def dkomAnomalies (listWalkNames : List PyStr) (carveResults : List CarveResult) :
    List DkomAnomaly :=
  (carveResults.filter (·.module.name ∉ listWalkNames)).map fun item =>
    ⟨item.module.name, item.physOffset, "HIGH"⟩

theorem mem_names_dkomAnomalies {listWalkNames : List PyStr} {carveResults : List CarveResult}
    {k : PyStr} : k ∈ (dkomAnomalies listWalkNames carveResults).map (·.name) ↔
      k ∈ carveResults.map (·.module.name) ∧ k ∉ listWalkNames := by
  unfold dkomAnomalies
  simp only [List.map_map, List.mem_map, List.mem_filter, decide_eq_true_eq, Function.comp]
  constructor
  · rintro ⟨item, ⟨hitem, hnot⟩, rfl⟩
    exact ⟨⟨item, hitem, rfl⟩, hnot⟩
  · rintro ⟨⟨item, hitem, rfl⟩, hnot⟩
    exact ⟨item, ⟨hitem, hnot⟩, rfl⟩

/-- `run`; `none` if the turns given to the walk do not suffice. -/
def run (b : Backend σ) (dump : Dump) (backend : σ) : Option Result :=
  (listWalk (walker b) (findHeadModuleVa b) backend).map fun s =>
    let c := carve dump s.entries s.seen
    { modules := c.modules, dkomAnomalies := dkomAnomalies s.walked c.carveResults }

end VantaCore.Extractors.Linux.ModulesRun
