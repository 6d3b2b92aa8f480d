import VantaCore.Extractors.Linux.ModulesRun
import VantaCore.Extractors.Linux.ProcessRun
import VantaCore.Lib.TwoPass

/-! # The two paths together

`run` of the process and of the module extractor list every pid, or name, once, and report as
anomalies those that were carved and not walked (`run_consistent`). Their walks end on every memory
and follow the kernel list (`follows_walker`). Both hold for every backend, whatever its calls
answer. -/

namespace VantaCore.Extractors.Linux.DualPath

open VantaCore.Core.DumpHandle VantaCore.Lib VantaCore.Lib.LinkedPath VantaCore.Lib.TwoPass
open VantaCore.Lib.PyText
open VantaCore.Extractors.Linux.ListWalk

variable {σ S ε κ : Type} [DecidableEq κ]

/-! ### Consistency -/

/-- No two entries have one key, the anomalies are the keys of the carved entries, and none of them
is the key of a walked one. -/
structure Consistent (key : ε → κ) (walked carved : ε → Prop) (entries : List ε)
    (anomalies : List κ) : Prop where
  nodup : (entries.map key).Nodup
  mem_anomalies : ∀ k, k ∈ anomalies ↔ ∃ e ∈ entries, carved e ∧ key e = k
  not_walked : ∀ k ∈ anomalies, ∀ e ∈ entries, walked e → key e ≠ k

omit [DecidableEq κ] in
/-- What the two passes leave is consistent. -/
theorem Consistent.of_passes {key : ε → κ} {walked carved : ε → Prop} {entries : List ε}
    {early seen hits anomalies : List κ} (h : Passes key carved early entries seen hits)
    (hsource : ∀ e, walked e → ¬ carved e) (ha : ∀ k, k ∈ anomalies ↔ k ∈ hits ∧ k ∉ early) :
    Consistent key walked carved entries anomalies where
  nodup := h.nodup
  mem_anomalies k := by rw [ha, h.late_iff]
  not_walked k hk e he hw := by
    rintro rfl
    exact ((ha _).mp hk).2 ((h.mem_early _).mpr ⟨e, he, hsource e hw, rfl⟩)

/-- What a walk leaves for the carving. -/
theorem passes_of_firsts {w : Walker σ S ε κ} {key : ε → κ} {carved : ε → Prop} {infos : List S}
    {s : WalkState σ ε κ} (hkey : ∀ info, key (w.entry info) = w.key info)
    (hcarved : ∀ info, ¬ carved (w.entry info))
    (hentries : s.entries = (FirstBy.firsts w.key [] infos).map w.entry)
    (hseen : s.seen = ((FirstBy.firsts w.key [] infos).map w.key).reverse)
    (hwalked : s.walked = ((FirstBy.firsts w.key [] infos).map w.key).reverse) :
    Passes key carved s.walked s.entries s.seen [] := by
  have hkeys : s.entries.map key = (FirstBy.firsts w.key [] infos).map w.key := by
    rw [hentries, List.map_map]
    exact List.map_congr_left fun info _ => hkey info
  refine Passes.init ?_ ?_ ?_ ?_
  · rw [hkeys]
    exact List.pairwise_map.mpr (FirstBy.pairwise_firsts [] infos)
  · rw [hentries]
    rintro e he
    obtain ⟨info, -, rfl⟩ := List.mem_map.mp he
    exact hcarved info
  · intro k
    rw [hseen, hkeys, List.mem_reverse]
  · intro k
    rw [hwalked, hkeys, List.mem_reverse]

/-! ### Processes -/

section Process

open VantaCore.Extractors.Linux.Process VantaCore.Extractors.Linux.ProcessRun

variable {walked : List ℤ} {s : CarveState}

/-- The two passes over pids. -/
abbrev PidPasses (walked : List ℤ) (s : CarveState) : Prop :=
  Passes (fun e : ProcessEntry => e.task.pid) (fun e => e.source = .carve) walked s.processes
    s.seenPids (s.carveResults.map (·.pid))

theorem PidPasses.record (h : PidPasses walked s) (physOff : ℕ) (t : Task) :
    PidPasses walked (s.record physOff t) := by
  unfold PidPasses CarveState.record
  rw [List.map_append]
  by_cases hpid : t.pid ∈ s.seenPids
  · simp only [if_pos hpid]
    exact h.old hpid
  · simp only [if_neg hpid]
    exact Passes.new (e := ⟨t, 0, .carve⟩) h hpid rfl

theorem PidPasses.carveChunk (h : PidPasses walked s) (offset : ℕ) (chunk : List UInt8) :
    PidPasses walked (Process.carveChunk offset chunk s) := by
  unfold Process.carveChunk
  refine List.foldlRecOn _ _ h fun s hs a _ => ?_
  unfold Process.carveAt
  cases carveTask chunk a with
  | none => exact hs
  | some t => exact PidPasses.record hs _ t

theorem process_consistent (b : Backend σ) (dump : Dump) (backend : σ) :
    ∃ r, ProcessRun.run b dump backend = some r ∧
      Consistent (fun e : ProcessEntry => e.task.pid) (fun e => e.source = .listWalk)
        (fun e => e.source = .carve) r.processes (r.dkomAnomalies.map (·.pid)) := by
  have hlinks : (ProcessRun.walker b).LinksValid := linksValid_of_readLink rfl
  obtain ⟨s, infos, hrun, hentries, hseen, hwalked⟩ :=
    listWalk_spec hlinks (findInitTaskVa b) backend
  have hinit : PidPasses s.walked ⟨s.entries, s.seen, [], 0⟩ :=
    passes_of_firsts (fun _ => rfl) (fun _ => by simp [ProcessRun.walker]) hentries hseen hwalked
  have hcarve : PidPasses s.walked (Process.carve dump s.entries s.seen) :=
    Chunks.scan_induction (P := PidPasses s.walked)
      (fun offset chunk _ h => PidPasses.carveChunk h offset chunk) hinit
  refine ⟨_, by rw [ProcessRun.run, hrun]; rfl, Consistent.of_passes hcarve ?_ fun k => ?_⟩
  · intro e he
    rw [he]
    decide
  · exact mem_pids_dkomAnomalies

end Process

/-! ### Modules -/

section Modules

open VantaCore.Extractors.Linux.Modules VantaCore.Extractors.Linux.ModulesRun

variable {walked : List PyStr} {s : CarveState}

/-- The two passes over names. -/
abbrev NamePasses (walked : List PyStr) (s : CarveState) : Prop :=
  Passes (fun e : ModuleEntry => e.module.name) (fun e => e.source = .carve) walked s.modules
    s.seenNames (s.carveResults.map (·.module.name))

theorem NamePasses.record (h : NamePasses walked s) (physOff : ℕ) (m : Module) :
    NamePasses walked (s.record physOff m) := by
  unfold NamePasses CarveState.record
  rw [List.map_append]
  by_cases hname : m.name ∈ s.seenNames
  · simp only [if_pos hname]
    exact h.old hname
  · simp only [if_neg hname]
    exact Passes.new (e := ⟨m, .carve⟩) h hname rfl

theorem NamePasses.carveChunk (h : NamePasses walked s) (offset : ℕ) (chunk : List UInt8) :
    NamePasses walked (Modules.carveChunk offset chunk s) := by
  unfold Modules.carveChunk
  refine List.foldlRecOn _ _ h fun s hs a _ => ?_
  unfold Modules.carveAt
  cases carveModule chunk a with
  | none => exact hs
  | some m => exact NamePasses.record hs _ m

theorem modules_consistent (b : Backend σ) (dump : Dump) (backend : σ) :
    ∃ r, ModulesRun.run b dump backend = some r ∧
      Consistent (fun e : ModuleEntry => e.module.name) (fun e => e.source = .listWalk)
        (fun e => e.source = .carve) r.modules (r.dkomAnomalies.map (·.name)) := by
  have hlinks : (ModulesRun.walker b).LinksValid := linksValid_of_readLink rfl
  obtain ⟨s, infos, hrun, hentries, hseen, hwalked⟩ :=
    listWalk_spec hlinks (findHeadModuleVa b) backend
  have hinit : NamePasses s.walked ⟨s.entries, s.seen, [], 0⟩ :=
    passes_of_firsts (fun _ => rfl) (fun _ => by simp [ModulesRun.walker]) hentries hseen hwalked
  have hcarve : NamePasses s.walked (Modules.carve dump s.entries s.seen) :=
    Chunks.scan_induction (P := NamePasses s.walked)
      (fun offset chunk _ h => NamePasses.carveChunk h offset chunk) hinit
  refine ⟨_, by rw [ModulesRun.run, hrun]; rfl, Consistent.of_passes hcarve ?_ fun k => ?_⟩
  · intro e he
    rw [he]
    decide
  · exact mem_names_dkomAnomalies

end Modules

/-- **The result of the two paths is consistent**, for every backend and every dump. -/
theorem run_consistent (b : Backend σ) (dump : Dump) (backend : σ) :
    (∃ r, ProcessRun.run b dump backend = some r ∧
      Consistent (fun e : Process.ProcessEntry => e.task.pid) (fun e => e.source = .listWalk)
        (fun e => e.source = .carve) r.processes (r.dkomAnomalies.map (·.pid))) ∧
    ∃ r, ModulesRun.run b dump backend = some r ∧
      Consistent (fun e : Modules.ModuleEntry => e.module.name) (fun e => e.source = .listWalk)
        (fun e => e.source = .carve) r.modules (r.dkomAnomalies.map (·.name)) :=
  ⟨process_consistent b dump backend, modules_consistent b dump backend⟩

/-! ### The walks -/

/-- The walk from an address ends. It visits the places of the list that starts there, no address
twice and at most `maxHops`, cut at the first repeated address, the first link that is invalid or
cannot be read, or the cap (`CutPath`), and appends the first entry of each key of the valid
structures there, in order. -/
def Follows (w : Walker σ S ε κ) (start : ℕ) (backend : σ) : Prop :=
  ∃ s l, (∀ turns, walkTurns ≤ turns → walk w turns (walkInit start backend) = some s) ∧
    CutPath Prod.snd (nextNode w) (firstNode start backend) maxHops l ∧
    s.visited.reverse = l.map Prod.snd ∧ s.visited.Nodup ∧ s.visited.length ≤ maxHops ∧
    s.entries = (FirstBy.firsts w.key [] (l.filterMap (structAt w))).map w.entry

theorem follows_of_linksValid {w : Walker σ S ε κ} (hw : w.LinksValid) (start : ℕ) (backend : σ) :
    Follows w start backend := by
  obtain ⟨s, hrun, hwalked⟩ := walk_spec hw start backend le_rfl
  have hpath : CutPath Prod.snd (nextNode w) (firstNode start backend) maxHops
      (cutPath Prod.snd (nextNode w) maxHops [] (firstNode start backend)) :=
    cutPath_spec maxHops (firstNode start backend)
  have hvisited : s.visited.reverse =
      (cutPath Prod.snd (nextNode w) maxHops [] (firstNode start backend)).map Prod.snd := by
    rw [hwalked.visited]
    simp [walkInit]
  refine ⟨s, _, fun turns ht => walk_of_le hrun ht, hpath, hvisited, ?_, ?_, hwalked.entries⟩
  · rw [← List.nodup_reverse, hvisited]
    exact hpath.nodup
  · rw [← List.length_reverse, hvisited, List.length_map]
    exact hpath.le_cap

/-- **The walks over the task list and over the module list** follow it, from every address and on
every memory. -/
theorem follows_walker (b : Backend σ) (start : ℕ) (backend : σ) :
    Follows (ProcessRun.walker b) start backend ∧ Follows (ModulesRun.walker b) start backend :=
  ⟨follows_of_linksValid (linksValid_of_readLink rfl) start backend,
    follows_of_linksValid (linksValid_of_readLink rfl) start backend⟩

end VantaCore.Extractors.Linux.DualPath
