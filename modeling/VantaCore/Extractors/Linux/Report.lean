import VantaCore.Extractors.Linux.DualPath

/-! # What the two paths report

The reports of the process and of the module extractor, in terms of what the walk reads
(`walkedInfos`) and of what stands in the dump (`carvedTasks`, `carvedModules`): the entries are the
first of each pid, or name, of both, and the anomalies are all that was carved under a key that was not
walked (`report_eq`). -/

namespace VantaCore.Extractors.Linux.Report

open VantaCore.Core.DumpHandle VantaCore.Lib VantaCore.Lib.Chunks VantaCore.Lib.LinkedPath
open VantaCore.Lib.TwoPass VantaCore.Lib.PyText
open VantaCore.Extractors.Linux.Fields VantaCore.Extractors.Linux.ListWalk

variable {σ S ε κ : Type} [DecidableEq κ]

/-! ### The walk -/

/-- The valid structures on the list from the address that is found, in the order of the list. -/
def walkedInfos (w : Walker σ S ε κ) (findStart : StateM σ (Option ℕ)) (backend : σ) : List S :=
  let start := findStart.run backend
  match start.1 with
  | none => []
  | some va =>
    (cutPath Prod.snd (nextNode w) maxHops [] (firstNode va start.2)).filterMap (structAt w)

/-- What the walk leaves behind. -/
theorem listWalk_eq {w : Walker σ S ε κ} (hw : w.LinksValid) (findStart : StateM σ (Option ℕ))
    (backend : σ) : ∃ s, listWalk w findStart backend = some s ∧
      s.entries = (FirstBy.firsts w.key [] (walkedInfos w findStart backend)).map w.entry ∧
      s.seen = ((FirstBy.firsts w.key [] (walkedInfos w findStart backend)).map w.key).reverse ∧
      s.walked = ((FirstBy.firsts w.key [] (walkedInfos w findStart backend)).map w.key).reverse := by
  unfold listWalk walkedInfos
  dsimp only
  cases (findStart.run backend).1 with
  | none => exact ⟨noWalk _, rfl, rfl, rfl, rfl⟩
  | some va =>
    obtain ⟨s, hrun, hwalked⟩ := walk_spec hw va (findStart.run backend).2 le_rfl
    exact ⟨s, hrun, hwalked.entries, hwalked.seen.trans (List.append_nil _),
      hwalked.walked.trans (List.append_nil _)⟩

/-- The entries of both passes are the first of each key. -/
theorem firsts_both {τ : Type} (w : Walker σ S ε κ) (key : ε → κ) (entry : τ → ε) (infos : List S)
    (hits : List τ) (hkey : ∀ info, key (w.entry info) = w.key info) :
    (FirstBy.firsts w.key [] infos).map w.entry ++
      (FirstBy.firsts (fun t => key (entry t))
        ((FirstBy.firsts w.key [] infos).map w.key).reverse hits).map entry =
      FirstBy.firsts key [] (infos.map w.entry ++ hits.map entry) := by
  have hwalked : FirstBy.firsts key [] (infos.map w.entry) =
      (FirstBy.firsts w.key [] infos).map w.entry := by
    rw [FirstBy.firsts_map]
    exact congrArg (fun k => (FirstBy.firsts k [] infos).map w.entry) (funext hkey)
  have hkeys : ((FirstBy.firsts w.key [] infos).map w.entry).map key =
      (FirstBy.firsts w.key [] infos).map w.key := by
    rw [List.map_map]
    exact List.map_congr_left fun info _ => hkey info
  rw [FirstBy.firsts_append, hwalked, hkeys, List.append_nil, FirstBy.firsts_map]

/-- The bytes before the hop cap of the carving loops. -/
def carvedImage (dump : Dump) : Dump := dump.take (500000 * 65536)

/-! ### Processes -/

section Process

open VantaCore.Extractors.Linux.Process VantaCore.Extractors.Linux.ProcessRun

/-- The tasks in the windows of the dump, with their offsets. -/
def carvedTasks (dump : Dump) : List (ℕ × Task) :=
  (windows 0x700 8 65536 (carvedImage dump)).filterMap fun o =>
    (carveTask (carvedImage dump) o).map (Prod.mk o)

/-- The entry of a carved task. -/
def taskEntry (hit : ℕ × Task) : ProcessEntry := ⟨hit.2, 0, .carve⟩

/-- What the carving meets. -/
abbrev meetTask : List ProcessEntry × List ℤ × List CarveResult → ℕ × Task →
    List ProcessEntry × List ℤ × List CarveResult :=
  meet (fun hit => hit.2.pid) taskEntry fun hit => ⟨hit.2.pid, hit.2.comm, hit.1⟩

/-- The part of the state that is reported. -/
def processPart (s : CarveState) : List ProcessEntry × List ℤ × List CarveResult :=
  (s.processes, s.seenPids, s.carveResults)

theorem processPart_fst (s : CarveState) : (processPart s).1 = s.processes := rfl

theorem processPart_hits (s : CarveState) : (processPart s).2.2 = s.carveResults := rfl

theorem processPart_carveChunk (c : ℕ) (chunk : List UInt8) (s : CarveState) :
    processPart (carveChunk c chunk s) =
      (chunkHits 0x700 8 carveTask Prod.mk c chunk).foldl meetTask (processPart s) := by
  refine proj_foldl (fun s a => ?_) _ _
  unfold carveAt
  cases carveTask chunk a <;> rfl

theorem processPart_carve (dump : Dump) (processes : List ProcessEntry) (seenPids : List ℤ) :
    processPart (carve dump processes seenPids) =
      (carvedTasks dump).foldl meetTask (processes, seenPids, []) := by
  unfold carve carvedTasks
  rw [scan_eq_foldl_take (by decide) (fun s => decide_eq_true_iff) carveHops_carveChunk rfl,
    ← flatMap_chunkHits (by decide) fun c a h => carveTask_chunkAt h.le]
  exact proj_foldl
    (fun s c => processPart_carveChunk c (chunkAt 65536 (carvedImage dump) c) s) _ _

theorem carve_report (dump : Dump) (processes : List ProcessEntry) (seenPids : List ℤ) :
    (carve dump processes seenPids).processes = processes ++
        (FirstBy.firsts (fun hit : ℕ × Task => hit.2.pid) seenPids (carvedTasks dump)).map taskEntry ∧
      (carve dump processes seenPids).carveResults =
        (carvedTasks dump).map fun hit => ⟨hit.2.pid, hit.2.comm, hit.1⟩ := by
  rw [← processPart_fst, ← processPart_hits, processPart_carve]
  obtain ⟨hprocesses, hresults⟩ := foldl_meet _ _ _ (carvedTasks dump) processes seenPids seenPids []
    fun _ => Iff.rfl
  exact ⟨hprocesses, hresults.trans (List.nil_append _)⟩

/-- The anomaly of a carved task. -/
def taskAnomaly (hit : ℕ × Task) : DkomAnomaly := ⟨hit.2.pid, hit.2.comm, hit.1, "HIGH"⟩

/-- The report on the tasks of the list and of the dump. -/
def processReport (infos : List TaskInfo) (hits : List (ℕ × Task)) : Result where
  processes := FirstBy.firsts (·.task.pid) []
    (infos.map (fun info => ⟨info.task, info.ppid, .listWalk⟩) ++ hits.map taskEntry)
  dkomAnomalies := (hits.filter fun hit => hit.2.pid ∉ infos.map (·.task.pid)).map taskAnomaly

theorem process_report (b : Backend σ) (dump : Dump) (backend : σ) :
    ProcessRun.run b dump backend = some (processReport
      (walkedInfos (ProcessRun.walker b) (findInitTaskVa b) backend) (carvedTasks dump)) := by
  set infos := walkedInfos (ProcessRun.walker b) (findInitTaskVa b) backend with hinfos
  have hlinks : (ProcessRun.walker b).LinksValid := linksValid_of_readLink rfl
  obtain ⟨s, hrun, hentries, hseen, hwalked⟩ := listWalk_eq hlinks (findInitTaskVa b) backend
  obtain ⟨hprocesses, hresults⟩ := carve_report dump s.entries s.seen
  have hboth := firsts_both (ProcessRun.walker b) (fun e => e.task.pid) taskEntry infos
    (carvedTasks dump) fun _ => rfl
  have hwalkedPids : ∀ pid, pid ∈ s.walked ↔ pid ∈ infos.map (·.task.pid) := by
    intro pid
    rw [hwalked, List.mem_reverse]
    exact FirstBy.mem_map_firsts
  have hanomalies : dkomAnomalies s.walked (carve dump s.entries s.seen).carveResults =
      ((carvedTasks dump).filter fun hit => hit.2.pid ∉ infos.map (·.task.pid)).map taskAnomaly := by
    unfold dkomAnomalies
    rw [hresults, List.filter_map, List.map_map]
    refine congrArg (List.map taskAnomaly) (List.filter_congr fun hit _ => ?_)
    exact decide_eq_decide.mpr (not_congr (hwalkedPids hit.2.pid))
  have hreport : ProcessRun.run b dump backend = some ⟨(carve dump s.entries s.seen).processes,
      dkomAnomalies s.walked (carve dump s.entries s.seen).carveResults⟩ := by
    rw [ProcessRun.run, hrun]
    rfl
  rw [hreport, hanomalies, hprocesses, hentries, hseen]
  exact congrArg (fun ps => some (Result.mk ps _)) hboth

end Process

/-! ### Modules -/

section Modules

open VantaCore.Extractors.Linux.Modules VantaCore.Extractors.Linux.ModulesRun

/-- The modules in the windows of the dump, with their offsets. -/
def carvedModules (dump : Dump) : List (ℕ × Module) :=
  (windows 0x200 8 65536 (carvedImage dump)).filterMap fun o =>
    (carveModule (carvedImage dump) o).map (Prod.mk o)

/-- The entry of a carved module. -/
def moduleEntry (hit : ℕ × Module) : ModuleEntry := ⟨hit.2, .carve⟩

/-- What the carving meets. -/
abbrev meetModule : List ModuleEntry × List PyStr × List CarveResult → ℕ × Module →
    List ModuleEntry × List PyStr × List CarveResult :=
  meet (fun hit => hit.2.name) moduleEntry fun hit => ⟨hit.2, hit.1⟩

/-- The part of the state that is reported. -/
def modulePart (s : CarveState) : List ModuleEntry × List PyStr × List CarveResult :=
  (s.modules, s.seenNames, s.carveResults)

theorem modulePart_fst (s : CarveState) : (modulePart s).1 = s.modules := rfl

theorem modulePart_hits (s : CarveState) : (modulePart s).2.2 = s.carveResults := rfl

theorem modulePart_record (s : CarveState) (o : ℕ) (m : Module) :
    modulePart (s.record o m) = meetModule (modulePart s) (o, m) := by
  unfold modulePart CarveState.record meetModule meet
  by_cases hname : m.name ∈ s.seenNames
  · simp only [if_pos hname]
  · simp only [if_neg hname]
    rfl

theorem modulePart_carveChunk (c : ℕ) (chunk : List UInt8) (s : CarveState) :
    modulePart (carveChunk c chunk s) =
      (chunkHits 0x200 8 carveModule Prod.mk c chunk).foldl meetModule (modulePart s) := by
  refine proj_foldl (fun s a => ?_) _ _
  unfold carveAt
  cases carveModule chunk a with
  | none => rfl
  | some m => exact modulePart_record s (c + a) m

theorem modulePart_carve (dump : Dump) (modules : List ModuleEntry) (seenNames : List PyStr) :
    modulePart (carve dump modules seenNames) =
      (carvedModules dump).foldl meetModule (modules, seenNames, []) := by
  unfold carve carvedModules
  rw [scan_eq_foldl_take (by decide) (fun s => decide_eq_true_iff) carveHops_carveChunk rfl,
    ← flatMap_chunkHits (by decide) fun c a h => carveModule_chunkAt h.le]
  exact proj_foldl
    (fun s c => modulePart_carveChunk c (chunkAt 65536 (carvedImage dump) c) s) _ _

theorem carveModules_report (dump : Dump) (modules : List ModuleEntry) (seenNames : List PyStr) :
    (carve dump modules seenNames).modules = modules ++
        (FirstBy.firsts (fun hit : ℕ × Module => hit.2.name) seenNames (carvedModules dump)).map
          moduleEntry ∧
      (carve dump modules seenNames).carveResults =
        (carvedModules dump).map fun hit => ⟨hit.2, hit.1⟩ := by
  rw [← modulePart_fst, ← modulePart_hits, modulePart_carve]
  obtain ⟨hmodules, hresults⟩ := foldl_meet _ _ _ (carvedModules dump) modules seenNames seenNames []
    fun _ => Iff.rfl
  exact ⟨hmodules, hresults.trans (List.nil_append _)⟩

/-- The anomaly of a carved module. -/
def moduleAnomaly (hit : ℕ × Module) : DkomAnomaly := ⟨hit.2.name, hit.1, "HIGH"⟩

/-- The report on the modules of the list and of the dump. -/
def modulesReport (infos : List ModInfo) (hits : List (ℕ × Module)) : Result where
  modules := FirstBy.firsts (·.module.name) []
    (infos.map (fun info => ⟨info.module, .listWalk⟩) ++ hits.map moduleEntry)
  dkomAnomalies := (hits.filter fun hit => hit.2.name ∉ infos.map (·.module.name)).map moduleAnomaly

theorem modules_report (b : Backend σ) (dump : Dump) (backend : σ) :
    ModulesRun.run b dump backend = some (modulesReport
      (walkedInfos (ModulesRun.walker b) (findHeadModuleVa b) backend) (carvedModules dump)) := by
  set infos := walkedInfos (ModulesRun.walker b) (findHeadModuleVa b) backend with hinfos
  have hlinks : (ModulesRun.walker b).LinksValid := linksValid_of_readLink rfl
  obtain ⟨s, hrun, hentries, hseen, hwalked⟩ := listWalk_eq hlinks (findHeadModuleVa b) backend
  obtain ⟨hmodules, hresults⟩ := carveModules_report dump s.entries s.seen
  have hboth := firsts_both (ModulesRun.walker b) (fun e => e.module.name) moduleEntry infos
    (carvedModules dump) fun _ => rfl
  have hwalkedNames : ∀ name, name ∈ s.walked ↔ name ∈ infos.map (·.module.name) := by
    intro name
    rw [hwalked, List.mem_reverse]
    exact FirstBy.mem_map_firsts
  have hanomalies : dkomAnomalies s.walked (carve dump s.entries s.seen).carveResults =
      ((carvedModules dump).filter fun hit =>
        hit.2.name ∉ infos.map (·.module.name)).map moduleAnomaly := by
    unfold dkomAnomalies
    rw [hresults, List.filter_map, List.map_map]
    refine congrArg (List.map moduleAnomaly) (List.filter_congr fun hit _ => ?_)
    exact decide_eq_decide.mpr (not_congr (hwalkedNames hit.2.name))
  have hreport : ModulesRun.run b dump backend = some ⟨(carve dump s.entries s.seen).modules,
      dkomAnomalies s.walked (carve dump s.entries s.seen).carveResults⟩ := by
    rw [ModulesRun.run, hrun]
    rfl
  rw [hreport, hanomalies, hmodules, hentries, hseen]
  exact congrArg (fun ms => some (Result.mk ms _)) hboth

end Modules

/-- **What the two paths report**, for every backend and every dump. -/
theorem report_eq (b : Backend σ) (dump : Dump) (backend : σ) :
    ProcessRun.run b dump backend = some (processReport
      (walkedInfos (ProcessRun.walker b) (ProcessRun.findInitTaskVa b) backend)
      (carvedTasks dump)) ∧
    ModulesRun.run b dump backend = some (modulesReport
      (walkedInfos (ModulesRun.walker b) (ModulesRun.findHeadModuleVa b) backend)
      (carvedModules dump)) :=
  ⟨process_report b dump backend, modules_report b dump backend⟩

end VantaCore.Extractors.Linux.Report
