import VantaCore.Core.Backends.CutHeader
import VantaCore.Core.Backends.ReadVirtual
import VantaCore.Extractors.Linux.ModulesRun
import VantaCore.Extractors.Linux.ProcessRun
import VantaCore.Lib.CallLog

/-! # The addresses the Linux extractors read

The two list walks on the x86-64 backend, with a log of their calls of `read_virtual`. An address the
walk visits is a valid kernel address, so that the structure there ends below `2 ^ 64`
(`walk_meets`). The searches check the kernel base only, and add up to 12 MiB to it: they stay in the
64-bit range exactly if they find what they look for before the first address whose read would pass
its end (`readsInRange_iff`). -/

namespace VantaCore.Extractors.Linux.AddressRange

open VantaCore.Core.DumpHandle VantaCore.Core.Backends VantaCore.Core.Backends.Detector
open VantaCore.Core.Backends.X8664 VantaCore.Core.Backends.X8664Walk
open VantaCore.Core.Backends.ReadVirtual VantaCore.Core.TranslationBase
open VantaCore.Lib.CallLog VantaCore.Lib.Chunks VantaCore.Lib.PyText
open VantaCore.Extractors.Linux.Fields VantaCore.Extractors.Linux.ListWalk
open VantaCore.Extractors.Linux.Process VantaCore.Extractors.Linux.ProcessRun
open VantaCore.Extractors.Linux.Modules VantaCore.Extractors.Linux.ModulesRun

/-! ### The calls -/

/-- A call of `read_virtual("GLOBAL_KERNEL", va, length)`. -/
structure ReadCall where
  va : ℕ
  length : ℕ
deriving DecidableEq

/-- What the x86-64 backend answers, `none` if it raises. -/
def answer (b : X86_64TranslationBackend) (r : ReadCall) : Option (List UInt8) :=
  (b.readVirtual "GLOBAL_KERNEL" r.va r.length).toOption

/-- The x86-64 backend, with a log of the calls of `read_virtual`. -/
def logged (b : X86_64TranslationBackend) : Backend (List ReadCall) where
  getKernelBase := return some b.kernelBase
  readVirtual va length := call (answer b) ⟨va, length⟩

/-- A call within the 64-bit kernel range. -/
def InKernelRange (r : ReadCall) : Prop := 0xFFFF800000000000 ≤ r.va ∧ r.va + r.length ≤ 2 ^ 64

/-- The list walk of the processes ends, and its calls and those of the search before it are within
the kernel range. -/
def ProcessReadsInRange (b : X86_64TranslationBackend) : Prop :=
  ∃ s, listWalk (ProcessRun.walker (logged b)) (findInitTaskVa (logged b)) [] = some s ∧
    ∀ r ∈ s.backend, InKernelRange r

/-- The same of the modules. -/
def ModuleReadsInRange (b : X86_64TranslationBackend) : Prop :=
  ∃ s, listWalk (ModulesRun.walker (logged b)) (findHeadModuleVa (logged b)) [] = some s ∧
    ∀ r ∈ s.backend, InKernelRange r

/-- **The address arithmetic stays in range** on a dump that the x86-64 backend has initialised. -/
def ReadsInRange (dump : Dump) : Prop :=
  ProcessReadsInRange (X8664.new.initializeBackend dump) ∧
    ModuleReadsInRange (X8664.new.initializeBackend dump)

/-! ### The walk -/

section Walk

variable {ρ S ε κ : Type} [DecidableEq κ] {P : ρ → Prop} {w : Walker (List ρ) S ε κ}

/-- The calls at every valid kernel address meet `P`. -/
def WalkerMeets (P : ρ → Prop) (w : Walker (List ρ) S ε κ) : Prop :=
  ∀ va, isValidKernelVa va → AllMeet P (w.readStruct va) ∧ AllMeet P (w.readNext va)

theorem visit_meets (hw : WalkerMeets P w) {va : ℕ} (hva : isValidKernelVa va)
    (s : WalkState (List ρ) ε κ) :
    (∀ r ∈ (visit w va s).backend, P r) ↔ ∀ r ∈ s.backend, P r := by
  obtain ⟨⟨info, hinfo⟩, next, hnext⟩ := hw va hva
  show (∀ r ∈ ((w.readNext va).run ((w.readStruct va).run s.backend).2).2, P r) ↔ _
  rw [hnext.run_snd, hinfo.run_snd, and_true, and_true]

/-- **A turn** reads at a valid kernel address, or nowhere. -/
theorem walkStep_meets (hw : WalkerMeets P w) {s s' : WalkState (List ρ) ε κ}
    (h : walkStep w s = some s') : (∀ r ∈ s'.backend, P r) ↔ ∀ r ∈ s.backend, P r := by
  unfold walkStep at h
  cases hq : s.queue with
  | nil =>
    rw [hq] at h
    cases h
  | cons va queue =>
    rw [hq] at h
    dsimp only at h
    split_ifs at h with hhops hskip
    · obtain rfl := Option.some.inj h
      exact Iff.rfl
    · obtain rfl := Option.some.inj h
      have hva : isValidKernelVa va = true := by
        by_contra hnot
        exact hskip (Or.inr (Or.inr hnot))
      exact visit_meets hw hva _

/-- **The walk** adds calls that meet `P` only. -/
theorem walk_meets (hw : WalkerMeets P w) : ∀ {turns : ℕ} {s s' : WalkState (List ρ) ε κ},
    walk w turns s = some s' → ((∀ r ∈ s'.backend, P r) ↔ ∀ r ∈ s.backend, P r)
  | 0, _, _, h => by cases h
  | turns + 1, s, s', h => by
    unfold walk at h
    cases hstep : walkStep w s with
    | none =>
      rw [hstep] at h
      obtain rfl := Option.some.inj h
      exact Iff.rfl
    | some t =>
      rw [hstep] at h
      exact (walk_meets hw h).trans (walkStep_meets hw hstep)

/-- The walk ends, and all calls meet `P` exactly if those of the search for its start do. -/
theorem listWalk_meets (hw : WalkerMeets P w) (hlinks : w.LinksValid)
    {findStart : StateM (List ρ) (Option ℕ)} {start : Option ℕ} {C : Prop}
    (hfind : CallsMeet P findStart start C) :
    (∃ s, listWalk w findStart [] = some s ∧ ∀ r ∈ s.backend, P r) ↔ C := by
  have hfound : (∀ r ∈ (findStart.run []).2, P r) ↔ C := by
    rw [hfind.run_snd]
    simp
  unfold listWalk
  dsimp only
  rw [hfind.run_fst]
  cases start with
  | none =>
    refine Iff.trans ?_ hfound
    constructor
    · rintro ⟨s, hs, hmeet⟩
      obtain rfl := Option.some.inj hs
      exact hmeet
    · exact fun hmeet => ⟨_, rfl, hmeet⟩
  | some va =>
    obtain ⟨s, hrun, -⟩ := walk_spec hlinks va (findStart.run []).2 le_rfl
    refine Iff.trans ?_ ((walk_meets hw hrun).trans hfound)
    constructor
    · rintro ⟨t, ht, hmeet⟩
      obtain rfl := Option.some.inj (hrun.symm.trans ht)
      exact hmeet
    · exact fun hmeet => ⟨s, hrun, hmeet⟩

end Walk

/-! ### Reading a structure -/

section Structures

variable {b : X86_64TranslationBackend} {va : ℕ}

theorem readVirtual_meets (b : X86_64TranslationBackend) (va n : ℕ) :
    CallsMeet InKernelRange ((logged b).readVirtual va n) (answer b ⟨va, n⟩)
      (InKernelRange ⟨va, n⟩) := callsMeet_call _ _

theorem kernelVaMin_le (hva : isValidKernelVa va) : 0xFFFF800000000000 ≤ va := by
  unfold isValidKernelVa kernelVaMin at hva
  simp only [Bool.and_eq_true, decide_eq_true_eq] at hva
  exact hva.1

/-- Less than 64 KiB at a valid kernel address are in range. -/
theorem inKernelRange_of_valid (hva : isValidKernelVa va) {o n : ℕ} (hn : o + n ≤ 0x10000) :
    InKernelRange ⟨va + o, n⟩ := by
  unfold isValidKernelVa kernelVaMin kernelVaMax at hva
  simp only [Bool.and_eq_true, decide_eq_true_eq] at hva
  unfold InKernelRange
  dsimp only
  omega

theorem readLink_meets (hva : isValidKernelVa va) {nextOffset : ℕ} (hoff : nextOffset ≤ 0xFFF8) :
    AllMeet InKernelRange (readLink (logged b) nextOffset va) := by
  have hcall : AllMeet InKernelRange ((logged b).readVirtual (va + nextOffset) 8) :=
    allMeet_call (inKernelRange_of_valid hva (by omega))
  exact hcall.bind fun _ => allMeet_pure _

/-- The parent is read at a valid kernel address. -/
theorem readParentPid_meets (va parentVa : ℕ) :
    AllMeet InKernelRange (readParentPid (logged b) va parentVa) := by
  unfold readParentPid
  split_ifs with hparent
  · have hcall : AllMeet InKernelRange ((logged b).readVirtual parentVa 0x600) :=
      allMeet_call (inKernelRange_of_valid (o := 0) hparent.1 (by norm_num))
    refine hcall.bind fun parentBuf => ?_
    cases parentBuf with
    | none => exact allMeet_pure _
    | some parentBuf =>
      dsimp only
      split_ifs <;> exact allMeet_pure _
  · exact allMeet_pure _

/-- What `_read_task_struct` returns. -/
def taskAt (b : X86_64TranslationBackend) (va : ℕ) : Option TaskInfo :=
  ((readTaskStruct (logged b) va).run []).1

/-- What `_read_module_struct` returns. -/
def moduleAt (b : X86_64TranslationBackend) (va : ℕ) : Option ModInfo :=
  ((readModuleStruct (logged b) va).run []).1

/-- A `task_struct` is in range if its first read is. -/
theorem readTaskStruct_meets (b : X86_64TranslationBackend) (va : ℕ) :
    CallsMeet InKernelRange (readTaskStruct (logged b) va) (taskAt b va)
      (InKernelRange ⟨va, 0x700⟩) := by
  refine callsMeet_value ?_
  unfold readTaskStruct
  refine (readVirtual_meets b va 0x700).bind_allMeet ?_
  cases answer b ⟨va, 0x700⟩ with
  | none => exact allMeet_pure _
  | some buf =>
    dsimp only
    split_ifs
    · exact allMeet_pure _
    · cases cleanComm (readAt buf taskCommOffset 16) with
      | none => exact allMeet_pure _
      | some comm => exact (readParentPid_meets va _).bind fun _ => allMeet_pure _
    · exact allMeet_pure _

/-- So is a module. -/
theorem readModuleStruct_meets (b : X86_64TranslationBackend) (va : ℕ) :
    CallsMeet InKernelRange (readModuleStruct (logged b) va) (moduleAt b va)
      (InKernelRange ⟨va, 0x200⟩) := by
  refine callsMeet_value ?_
  unfold readModuleStruct
  refine (readVirtual_meets b va 0x200).bind_allMeet ?_
  cases answer b ⟨va, 0x200⟩ with
  | none => exact allMeet_pure _
  | some buf =>
    dsimp only
    split_ifs
    · exact allMeet_pure _
    · cases (cleanModuleName (readAt buf moduleNameOffset 56)).filter (· ≠ []) with
      | none => exact allMeet_pure _
      | some name => exact allMeet_pure _

/-- **The walks read in range.** -/
theorem processWalker_meets (b : X86_64TranslationBackend) :
    WalkerMeets InKernelRange (ProcessRun.walker (logged b)) := by
  intro va hva
  have hrange : InKernelRange ⟨va, 0x700⟩ :=
    inKernelRange_of_valid (o := 0) hva (by norm_num)
  refine ⟨⟨taskAt b va, ?_⟩, readLink_meets hva (by decide)⟩
  exact (readTaskStruct_meets b va).congr (iff_true_intro hrange)

theorem moduleWalker_meets (b : X86_64TranslationBackend) :
    WalkerMeets InKernelRange (ModulesRun.walker (logged b)) := by
  intro va hva
  have hrange : InKernelRange ⟨va, 0x200⟩ :=
    inKernelRange_of_valid (o := 0) hva (by norm_num)
  refine ⟨⟨moduleAt b va, ?_⟩, readLink_meets hva (by decide)⟩
  exact (readModuleStruct_meets b va).congr (iff_true_intro hrange)

end Structures

/-! ### The searches -/

section Searches

variable {σ : Type}

/-- The body of the loop of `_find_init_task_va`. -/
def testInitTask (b : Backend σ) (va : ℕ) : StateM σ Bool := do
  match ← b.readVirtual va 256 with
  | none => return false
  | some buf =>
    if buf.length < 256 then return false
    else if taskCommOffset + 16 ≤ buf.length ∧ (cleanComm (readAt buf taskCommOffset 16)).any
        (isInitTask (unpackSigned 4 buf taskPidOffset)) then return true
    else
      match ← readTaskStruct b va with
      | none => return false
      | some info => return isInitTask info.task.pid info.task.comm

/-- The body of the loop of `_find_head_module_va`. -/
def testHeadModule (b : Backend σ) (va : ℕ) : StateM σ Bool := do
  match ← readModuleStruct b va with
  | none => return false
  | some modInfo => return decide (modInfo.module.name ∈ commonModules)

theorem scanInitTask_eq_firstFound (b : Backend σ) :
    ∀ vas, scanInitTask b vas = firstFound (testInitTask b) vas
  | [] => rfl
  | va :: vas => by
    rw [scanInitTask, firstFound, testInitTask, scanInitTask_eq_firstFound b vas, bind_assoc]
    refine bind_congr fun buf => ?_
    cases buf with
    | none => exact (pure_bind _ _).symm
    | some buf =>
      dsimp only
      split_ifs
      · exact (pure_bind _ _).symm
      · exact (pure_bind _ _).symm
      · rw [bind_assoc]
        refine bind_congr fun info => ?_
        cases info with
        | none => exact (pure_bind _ _).symm
        | some info =>
          dsimp only
          rw [pure_bind]
          cases isInitTask info.task.pid info.task.comm <;> rfl

theorem scanHeadModule_eq_firstFound (b : Backend σ) :
    ∀ vas, scanHeadModule b vas = firstFound (testHeadModule b) vas
  | [] => rfl
  | va :: vas => by
    rw [scanHeadModule, firstFound, testHeadModule, scanHeadModule_eq_firstFound b vas, bind_assoc]
    refine bind_congr fun modInfo => ?_
    cases modInfo with
    | none => exact (pure_bind _ _).symm
    | some modInfo =>
      dsimp only
      rw [pure_bind]
      by_cases hname : modInfo.module.name ∈ commonModules
      · rw [if_pos hname, decide_eq_true hname]
      · rw [if_neg hname, decide_eq_false hname]

end Searches

/-! ### When the searches stay in range -/

section Opened

variable {b : X86_64TranslationBackend} {dump : Dump}

/-- The backend answers with as many bytes as it is asked for. -/
theorem length_answer (hb : Opened b dump) {r : ReadCall} {buf : List UInt8}
    (h : answer b r = some buf) : buf.length = r.length := by
  unfold answer at h
  rw [readVirtual_opened hb] at h
  unfold readBytewise at h
  split_ifs at h
  obtain rfl := Option.some.inj h
  exact length_bytesAt _ _

/-- The search for the init task finds one at `va`. -/
def initTaskAt (b : X86_64TranslationBackend) (va : ℕ) : Bool :=
  (answer b ⟨va, 256⟩).isSome &&
    (taskAt b va).any fun info => isInitTask info.task.pid info.task.comm

/-- The search for the head of the module list finds a module of a common name at `va`. -/
def commonModuleAt (b : X86_64TranslationBackend) (va : ℕ) : Bool :=
  (moduleAt b va).any fun modInfo => decide (modInfo.module.name ∈ commonModules)

/-- The first 256 bytes at `va` pass the end of the address space, or they can be read and the
`task_struct` passes it. -/
def TaskOverruns (b : X86_64TranslationBackend) (va : ℕ) : Prop :=
  2 ^ 64 < va + 256 ∨ (answer b ⟨va, 256⟩).isSome ∧ 2 ^ 64 < va + 0x700

/-- The module at `va` passes the end of the address space. -/
def ModuleOverruns (va : ℕ) : Prop := 2 ^ 64 < va + 0x200

/-- The addresses of a search. -/
def scanAddresses (start : ℕ) : List ℕ := (steps (4 * 1024 * 1024) 256).map (start + ·)

/-- Both searches have found what they look for when they come to an address of which a read passes
the end of the address space. -/
structure StopsInRange (b : X86_64TranslationBackend) : Prop where
  initTask : FoundBefore (initTaskAt b) (TaskOverruns b) (scanAddresses b.kernelBase)
  headModule : FoundBefore (commonModuleAt b) ModuleOverruns
    (scanAddresses (b.kernelBase + 0x800000))

theorem sorted_scanAddresses (start : ℕ) : (scanAddresses start).Pairwise (· < ·) :=
  (sorted_steps (by decide)).map _ fun _ _ h => Nat.add_lt_add_left h start

theorem mem_scanAddresses {start va : ℕ} (h : va ∈ scanAddresses start) :
    start ≤ va ∧ va ≤ start + 0x3FFF00 := by
  obtain ⟨o, ho, rfl⟩ := List.mem_map.mp h
  obtain ⟨⟨k, rfl⟩, hlt⟩ := (mem_steps_iff (by decide)).mp ho
  omega

theorem inKernelRange_iff {va n : ℕ} (hva : 0xFFFF800000000000 ≤ va) :
    InKernelRange ⟨va, n⟩ ↔ ¬ 2 ^ 64 < va + n := by
  unfold InKernelRange
  dsimp only
  omega

theorem testInitTask_meets (hb : Opened b dump) {va : ℕ} (hva : 0xFFFF800000000000 ≤ va) :
    CallsMeet InKernelRange (testInitTask (logged b) va) (initTaskAt b va)
      (¬ TaskOverruns b va) := by
  unfold testInitTask initTaskAt TaskOverruns
  rw [not_or, ← inKernelRange_iff hva]
  refine (readVirtual_meets b va 256).bind ?_
  cases hbuf : answer b ⟨va, 256⟩ with
  | none =>
    refine (callsMeet_pure false).congr ?_
    simp
  | some buf =>
    have hlen : buf.length = 256 := length_answer hb hbuf
    -- 256 bytes do not reach up to the name
    have hshort : ¬ taskCommOffset + 16 ≤ buf.length := by
      rw [hlen]
      decide
    dsimp only
    rw [if_neg (by omega), if_neg (fun h => hshort h.1)]
    rw [Option.isSome_some, Bool.true_and, and_iff_right rfl, ← inKernelRange_iff hva]
    have hread := readTaskStruct_meets b va
    cases hinfo : taskAt b va with
    | none =>
      rw [hinfo] at hread
      exact (hread.bind (callsMeet_pure false)).congr (iff_of_eq (and_true _))
    | some info =>
      rw [hinfo] at hread
      have hvalue := callsMeet_pure (isInitTask info.task.pid info.task.comm)
        (P := InKernelRange)
      exact (hread.bind hvalue).congr (iff_of_eq (and_true _))

theorem testHeadModule_meets {va : ℕ} (hva : 0xFFFF800000000000 ≤ va) :
    CallsMeet InKernelRange (testHeadModule (logged b) va) (commonModuleAt b va)
      (¬ ModuleOverruns va) := by
  unfold testHeadModule commonModuleAt ModuleOverruns
  rw [← inKernelRange_iff hva]
  have hread := readModuleStruct_meets b va
  cases hinfo : moduleAt b va with
  | none =>
    rw [hinfo] at hread
    exact (hread.bind (callsMeet_pure false)).congr (iff_of_eq (and_true _))
  | some modInfo =>
    rw [hinfo] at hread
    have hvalue := callsMeet_pure (decide (modInfo.module.name ∈ commonModules))
      (P := InKernelRange)
    exact (hread.bind hvalue).congr (iff_of_eq (and_true _))

/-- A search from the kernel base does nothing if that is not valid. -/
theorem search_meets {search : ℕ → StateM (List ReadCall) (Option ℕ)} {start : Option ℕ} {C : Prop}
    (h : isValidKernelVa b.kernelBase →
      CallsMeet InKernelRange (search b.kernelBase) start C) :
    ∃ start, CallsMeet InKernelRange (do
      match ← (logged b).getKernelBase with
      | none => return none
      | some kernelBase =>
        if kernelBase = 0 ∨ ¬ isValidKernelVa kernelBase then return none else search kernelBase)
      start (isValidKernelVa b.kernelBase → C) := by
  have hbase := callsMeet_pure (P := InKernelRange) (some b.kernelBase)
  by_cases hvalid : isValidKernelVa b.kernelBase = true
  · have hzero : b.kernelBase ≠ 0 := by
      have hmin := kernelVaMin_le hvalid
      omega
    refine ⟨start, (hbase.bind (D := C) ?_).congr (by simp [hvalid])⟩
    dsimp only
    rw [if_neg (not_or.mpr ⟨hzero, not_not.mpr hvalid⟩)]
    exact h hvalid
  · refine ⟨none, (hbase.bind (D := True) ?_).congr (by simp [hvalid])⟩
    dsimp only
    rw [if_pos (Or.inr hvalid)]
    exact callsMeet_pure none

/-- **The process list**: the search stays in range, and with it all reads, if it finds an init task
before it has to stop. -/
theorem processReadsInRange_iff (hb : Opened b dump) :
    ProcessReadsInRange b ↔ (isValidKernelVa b.kernelBase →
      FoundBefore (initTaskAt b) (TaskOverruns b) (scanAddresses b.kernelBase)) := by
  have hlinks : (ProcessRun.walker (logged b)).LinksValid := linksValid_of_readLink rfl
  have hscan : isValidKernelVa b.kernelBase →
      CallsMeet InKernelRange (scanInitTask (logged b) (scanAddresses b.kernelBase))
        ((scanAddresses b.kernelBase).find? (initTaskAt b))
        (FoundBefore (initTaskAt b) (TaskOverruns b) (scanAddresses b.kernelBase)) := by
    intro hbase
    have hmin := kernelVaMin_le hbase
    rw [scanInitTask_eq_firstFound]
    refine CallsMeet.firstFound (sorted_scanAddresses _) fun va hva => testInitTask_meets hb ?_
    exact hmin.trans (mem_scanAddresses hva).1
  have hsearch : ∃ start, CallsMeet InKernelRange (findInitTaskVa (logged b)) start
      (isValidKernelVa b.kernelBase → _) := search_meets hscan
  obtain ⟨start, hfind⟩ := hsearch
  exact listWalk_meets (processWalker_meets b) hlinks hfind

/-- **The module list**, likewise. -/
theorem moduleReadsInRange_iff :
    ModuleReadsInRange b ↔ (isValidKernelVa b.kernelBase →
      FoundBefore (commonModuleAt b) ModuleOverruns
        (scanAddresses (b.kernelBase + 0x800000))) := by
  have hlinks : (ModulesRun.walker (logged b)).LinksValid := linksValid_of_readLink rfl
  have hscan : isValidKernelVa b.kernelBase →
      CallsMeet InKernelRange
        (scanHeadModule (logged b) (scanAddresses (b.kernelBase + 0x800000)))
        ((scanAddresses (b.kernelBase + 0x800000)).find? (commonModuleAt b))
        (FoundBefore (commonModuleAt b) ModuleOverruns
          (scanAddresses (b.kernelBase + 0x800000))) := by
    intro hbase
    have hmin := kernelVaMin_le hbase
    rw [scanHeadModule_eq_firstFound]
    refine CallsMeet.firstFound (sorted_scanAddresses _) fun va hva => testHeadModule_meets ?_
    have hle := (mem_scanAddresses hva).1
    omega
  have hsearch : ∃ start, CallsMeet InKernelRange (findHeadModuleVa (logged b)) start
      (isValidKernelVa b.kernelBase → _) := search_meets hscan
  obtain ⟨start, hfind⟩ := hsearch
  exact listWalk_meets (moduleWalker_meets b) hlinks hfind

/-- A kernel base that leaves room for both searches. -/
theorem stopsInRange_of_le (h : b.kernelBase + 0xC00100 ≤ 2 ^ 64) : StopsInRange b where
  initTask va hva hover := by
    have hle := (mem_scanAddresses hva).2
    rcases hover with hover | ⟨-, hover⟩ <;> omega
  headModule va hva hover := by
    have hle := (mem_scanAddresses hva).2
    unfold ModuleOverruns at hover
    omega

end Opened

/-! ### Dumps -/

/-- **The reads stay in range** exactly if the kernel base is not valid, and nothing is searched, or
both searches stop in range. -/
theorem readsInRange_iff (dump : Dump) :
    ReadsInRange dump ↔
      (isValidKernelVa (X8664.new.initializeBackend dump).kernelBase →
        StopsInRange (X8664.new.initializeBackend dump)) := by
  unfold ReadsInRange
  rw [processReadsInRange_iff (opened_initializeBackend X8664.new dump), moduleReadsInRange_iff]
  constructor
  · rintro ⟨hinit, hhead⟩ hbase
    exact ⟨hinit hbase, hhead hbase⟩
  · intro h
    exact ⟨fun hbase => (h hbase).initTask, fun hbase => (h hbase).headModule⟩

/-- The page walk drops the bits from 48 on. -/
theorem walkPml4_wrap (b : X86_64TranslationBackend) (cr3 va k : ℕ) :
    b.walkPml4 cr3 (va + 2 ^ 48 * k) = b.walkPml4 cr3 va := by
  have hoff : ∀ n ≤ 48, (va + 2 ^ 48 * k) &&& (2 ^ n - 1) = va &&& (2 ^ n - 1) := by
    intro n hn
    obtain ⟨c, hc⟩ := pow_dvd_pow 2 hn
    rw [Nat.and_two_pow_sub_one_eq_mod, Nat.and_two_pow_sub_one_eq_mod, hc, Nat.mul_assoc,
      Nat.add_mul_mod_self_left]
  have hindex : ∀ s ≤ 39, ((va + 2 ^ 48 * k) >>> s) &&& 0x1FF = (va >>> s) &&& 0x1FF := by
    intro s hs
    have hand : ∀ x, x &&& 0x1FF = x % 2 ^ 9 := fun x => Nat.and_two_pow_sub_one_eq_mod x 9
    have hpow : (2 : ℕ) ^ 48 = 2 ^ s * (2 ^ 9 * 2 ^ (39 - s)) := by
      rw [← pow_add, ← pow_add]
      congr 1
      omega
    rw [hand, hand, Nat.shiftRight_eq_div_pow, Nat.shiftRight_eq_div_pow, hpow, Nat.mul_assoc,
      Nat.add_mul_div_left _ _ (by positivity), Nat.mul_assoc, Nat.add_mul_mod_self_left]
  have hpage : (va + 2 ^ 48 * k) &&& 0xFFF = va &&& 0xFFF := hoff 12 (by norm_num)
  have hlarge : (va + 2 ^ 48 * k) &&& 0x1FFFFF = va &&& 0x1FFFFF := hoff 21 (by norm_num)
  unfold X86_64TranslationBackend.walkPml4
  simp only [hindex 39 (by norm_num), hindex 30 (by norm_num), hindex 21 (by norm_num),
    hindex 12 (by norm_num), hpage, hlarge]

/-- An ELF header of an x86-64 core file, and on its second page a descriptor with the limit `0x100`
and a base 8 MiB below the end of the address space. -/
def topDump : Dump :=
  Appliances.Detectors.elfMagic ++ [2, 1, 1] ++ List.replicate 9 0 ++ [4, 0, 62, 0] ++
    List.replicate 4076 0 ++ [0x00, 0x01] ++ [0x00, 0x00, 0x80, 0xFF, 0xFF, 0xFF, 0xFF, 0xFF]

theorem kernelBase_topDump :
    (X8664.new.initializeBackend topDump).kernelBase = 2 ^ 64 - 0x800000 := by
  have h0 : kaslrBaseAt topDump 0 = none := by decide +kernel
  have h1 : kaslrBaseAt topDump 0x1000 = some (2 ^ 64 - 0x800000) := by decide +kernel
  have hlen : topDump.length = 4106 := by decide +kernel
  have hloop : kaslrLoop topDump (min (2 * 1024 * 1024 * 1024) topDump.length) 0 =
      some (2 ^ 64 - 0x800000) := by
    rw [hlen, kaslrLoop, if_pos (by norm_num), h0]
    dsimp only
    rw [kaslrLoop, if_pos (by norm_num), h1]
  unfold X86_64TranslationBackend.initializeBackend X86_64TranslationBackend.scanKaslrBase
  dsimp only
  rw [hloop]

/-- The detector takes it for x86-64, and the search for the modules starts at `2 ^ 64`, which is
walked as the address zero. -/
theorem not_readsInRange_topDump :
    (architectureDetect topDump = .ok (.x8664 (X8664.new.initializeBackend topDump)) ∧
      ∀ cr3, (X8664.new.initializeBackend topDump).walkPml4 cr3 (2 ^ 64) =
        (X8664.new.initializeBackend topDump).walkPml4 cr3 0) ∧
      ¬ ReadsInRange topDump := by
  refine ⟨⟨?_, fun cr3 => ?_⟩, ?_⟩
  · have helf : Agreement.IsX8664Elf topDump :=
      ⟨by decide +kernel, by decide +kernel, by decide +kernel, by decide +kernel⟩
    exact CutHeader.architectureDetect_of_forX8664 (Or.inr helf)
  · have hwrap := walkPml4_wrap (X8664.new.initializeBackend topDump) cr3 0 (2 ^ 16)
    rwa [Nat.zero_add, ← pow_add] at hwrap
  · rintro ⟨-, hmodules⟩
    have hbase : isValidKernelVa (X8664.new.initializeBackend topDump).kernelBase = true := by
      rw [kernelBase_topDump]
      decide
    have hfound := moduleReadsInRange_iff.mp hmodules hbase
    rw [kernelBase_topDump] at hfound
    have hfirst : 2 ^ 64 ∈ scanAddresses (2 ^ 64 - 0x800000 + 0x800000) :=
      List.mem_map.mpr ⟨0, (mem_steps_iff (by decide)).mpr ⟨dvd_zero 256, by norm_num⟩, by norm_num⟩
    obtain ⟨va, hva, hlt, -⟩ := hfound (2 ^ 64) hfirst (by unfold ModuleOverruns; norm_num)
    have hle := (mem_scanAddresses hva).1
    omega

end VantaCore.Extractors.Linux.AddressRange
