import VantaCore.Extractors.Cisco.Text
import VantaCore.Lib.ChunkSearch

/-! # IOS processes and memory pools

`IOSProcessesExtractor.run`: one loop over the chunks that looks for the lines of a process table and
for the magic of memory pools. Of the lines with one PID the first is reported, in the order of the
loop, and of the memory pools the first 500 that no end of a chunk cuts (`run_reports`). -/

namespace VantaCore.Extractors.Cisco.Ios.IosProcesses

open VantaCore.Core.DumpHandle VantaCore.Lib.Chunks VantaCore.Lib.Search VantaCore.Lib.PyText
open VantaCore.Lib.FirstBy VantaCore.Lib.ChunkSearch VantaCore.Extractors.Cisco.TextScan
open VantaCore.Extractors.Cisco.Text

/-- `_MEMPOOL_MAGIC` -/
def mempoolMagic : List UInt8 := [0xab, 0x12, 0x34, 0xcd]

/-- `_MAX_MEMPOOL_HITS` -/
def maxMempoolHits : ℕ := 500

/-! ### Lines -/

/-- What a line of the process table says. -/
structure ProcessLine where
  pid : ℤ
  name : PyStr
deriving DecidableEq

/-- The line behind a pattern of `_PID_PATTERNS`. -/
def parseProcess (snippet : List UInt8) : Option ProcessLine :=
  match split (lineOf snippet) with
  | _ :: pidToken :: nameToken :: _ =>
    let pidStr := stripChars ":,;()" pidToken
    -- `int` raises on a superscript, and the occurrence is skipped
    if isdigit pidStr then (int pidStr).map fun pid => ⟨pid, stripChars ":,;()" nameToken⟩
    else none
  | _ => none

/-- The searches for `_PID_PATTERNS`. -/
def passes : List (Pass ProcessLine) :=
  [⟨ascii "PID ", 64, parseProcess, by decide, by decide⟩,
    ⟨ascii "Pid:", 64, parseProcess, by decide, by decide⟩]

/-! ### The loop -/

/-- An entry of `ios_processes`. -/
structure IosProcess where
  pid : ℤ
  name : PyStr
  physicalOffset : ℕ
deriving DecidableEq

/-- What the loop changes; `mempool` holds `mempool_regions` and `seen_mempool_offsets`. -/
structure IosState where
  processes : List IosProcess
  seenPids : List ℤ
  mempool : Collected ℕ

/-- A process is recorded unless its PID was seen or it has no name. -/
def record (physOff : ℕ) (line : ProcessLine) (s : IosState) : IosState :=
  if line.pid ∈ s.seenPids ∨ line.name = [] then s
  else
    { s with
      processes := s.processes ++ [⟨line.pid, line.name, physOff⟩]
      seenPids := line.pid :: s.seenPids }

/-- The second half of the loop body. -/
def scanMempool (offset : ℕ) (chunk : List UInt8) (s : IosState) : IosState :=
  let found := (findAll mempoolMagic chunk).map (offset + ·)
  { s with mempool := collectChunk maxMempoolHits id found s.mempool }

/-- The body of the loop over the chunks. -/
def scanBody (offset : ℕ) (chunk : List UInt8) (t : IosState × ℕ) : IosState × ℕ :=
  (scanMempool offset chunk (scanChunk record passes offset chunk t.1), t.2 + 1)

/-- What the extractor returns. -/
structure IosResult where
  iosProcesses : List IosProcess
  mempoolRegions : List ℕ
deriving DecidableEq

/-- `IOSProcessesExtractor.run` with chunks of `n` bytes. -/
def run (n : ℕ) (dump : Dump) : IosResult :=
  let s := (scan n (fun t : IosState × ℕ => maxHops ≤ t.2) scanBody dump (⟨[], [], ⟨[], []⟩⟩, 0)).1
  ⟨s.processes, s.mempool.records⟩

/-! ### The two halves -/

variable {n : ℕ} {dump : Dump} {h : Hit ProcessLine}

theorem record_mempool (pos : ℕ) (line : ProcessLine) (s : IosState) (m : Collected ℕ) :
    record pos line { s with mempool := m } = { record pos line s with mempool := m } := by
  unfold record
  dsimp only
  split_ifs <;> rfl

theorem foldl_record_mempool (m : Collected ℕ) : ∀ (l : List (Hit ProcessLine)) (s : IosState),
    l.foldl (fun s h => record h.pos h.value s) { s with mempool := m } =
      { l.foldl (fun s h => record h.pos h.value s) s with mempool := m }
  | [], _ => rfl
  | h :: l, s => by rw [List.foldl_cons, record_mempool, foldl_record_mempool m l, List.foldl_cons]

/-- **The halves of the loop body do not meet.** -/
theorem foldl_scanBody (chunks : ℕ → List UInt8) : ∀ (l : List ℕ) (t : IosState × ℕ),
    (l.foldl (fun t c => scanBody c (chunks c) t) t).1 =
      { (l.flatMap fun c => chunkHits passes c (chunks c)).foldl
          (fun s h => record h.pos h.value s) t.1 with
        mempool := l.foldl (fun s c => collectChunk maxMempoolHits id
          ((findAll mempoolMagic (chunks c)).map (c + ·)) s) t.1.mempool }
  | [], _ => rfl
  | c :: l, t => by
    have hpools := congrArg IosState.mempool
      (foldl_record_mempool t.1.mempool (chunkHits passes c (chunks c)) t.1)
    rw [List.foldl_cons, foldl_scanBody chunks l, List.flatMap_cons, List.foldl_append,
      List.foldl_cons]
    unfold scanBody scanMempool
    dsimp only
    rw [scanChunk_eq_foldl, foldl_record_mempool, hpools]

/-- The lines the loop comes to. -/
def lineHits (n : ℕ) (dump : Dump) : List (Hit ProcessLine) := hits n passes (scanned n dump)

theorem run_eq (hn : 0 < n) :
    run n dump =
      ⟨((lineHits n dump).foldl (fun s h => record h.pos h.value s) ⟨[], [], ⟨[], []⟩⟩).processes,
        (uncut n mempoolMagic (scanned n dump)).take maxMempoolHits⟩ := by
  have hloop := @scan_eq_foldl_take _ (IosState × ℕ) n dump (fun t => decide (maxHops ≤ t.2)) scanBody
    hn Prod.snd maxHops (fun _ => decide_eq_true_iff) (fun _ _ _ => rfl) (⟨[], [], ⟨[], []⟩⟩, 0) rfl
  unfold run
  rw [hloop, foldl_scanBody fun c => chunkAt n (dump.take (maxHops * n)) c]
  dsimp only
  rw [records_foldl hn (by decide) (by decide), List.map_id]
  rfl

/-! ### The processes -/

/-- The line names a process. -/
def Named (h : Hit ProcessLine) : Prop := h.value.name ≠ []

instance (h : Hit ProcessLine) : Decidable (Named h) := inferInstanceAs (Decidable (_ ≠ _))

/-- What is recorded of a line. -/
def entry (h : Hit ProcessLine) : IosProcess := ⟨h.value.pid, h.value.name, h.pos⟩

theorem records_record : Records (Option.guard fun h => Named h) (fun h => h.value.pid)
    (fun h => [entry h]) (fun s h => record h.pos h.value s) IosState.seenPids
    IosState.processes where
  skip s h hnone := by
    rw [Option.guard_eq_none_iff, decide_eq_false_iff_not, Named, not_not] at hnone
    rw [record, if_pos (Or.inr hnone)]
    exact ⟨rfl, rfl⟩
  old s h h' hsome hmem := by
    obtain ⟨rfl, -⟩ := Option.guard_eq_some_iff.mp hsome
    rw [record, if_pos (Or.inl hmem)]
    exact ⟨rfl, rfl⟩
  new s h h' hsome hmem := by
    obtain ⟨rfl, hname⟩ := Option.guard_eq_some_iff.mp hsome
    rw [record, if_neg (not_or.mpr ⟨hmem, of_decide_eq_true hname⟩)]
    exact ⟨rfl, rfl⟩

/-- The lines that name a process, in the order of the loop. -/
def namedHits (n : ℕ) (dump : Dump) : List (Hit ProcessLine) := (lineHits n dump).filter (Named ·)

/-- **The first line of each PID is recorded.** -/
theorem iosProcesses_eq (hn : 0 < n) : (run n dump).iosProcesses =
    (firsts (fun h => h.value.pid) [] (namedHits n dump)).map entry := by
  rw [run_eq hn]
  dsimp only
  rw [records_record.found_foldl, List.nil_append, List.map_eq_flatMap, List.filterMap_eq_filter]
  rfl

/-- A pass reads the line at its position, and it names a process. -/
def Reads (n : ℕ) (dump : Dump) (h : Hit ProcessLine) : Prop :=
  (∃ p, passes[h.pass]? = some p ∧ hitAt n p (scanned n dump) h.pos = some h.value) ∧ Named h

theorem mem_namedHits_iff (hn : 0 < n) : h ∈ namedHits n dump ↔ Reads n dump h := by
  unfold namedHits lineHits Reads
  rw [List.mem_filter, decide_eq_true_iff, mem_hits_iff hn]

theorem eq_of_not_before {h' : Hit ProcessLine} (hh : h ∈ namedHits n dump)
    (hh' : h' ∈ namedHits n dump) (hbefore : ¬ Before n h h') (hbefore' : ¬ Before n h' h) :
    h = h' := by
  unfold Before at hbefore hbefore'
  have hplace : h.pass = h'.pass ∧ h.pos = h'.pos := by omega
  exact eq_of_mem_hits (List.mem_filter.mp hh).1 (List.mem_filter.mp hh').1 hplace.1 hplace.2

/-- **A line is reported if none of its PID comes before it.** -/
theorem mem_firsts_iff (hn : 0 < n) : h ∈ firsts (fun h => h.value.pid) [] (namedHits n dump) ↔
    Reads n dump h ∧ ∀ h', Reads n dump h' → h'.value.pid = h.value.pid → ¬ Before n h' h := by
  have hsorted : (namedHits n dump).Pairwise (Before n) := (sorted_hits hn).filter _
  constructor
  · intro hh
    have hmem := (mem_of_mem_firsts hh).1
    refine ⟨(mem_namedHits_iff hn).mp hmem, fun h' hreads hpid => ?_⟩
    exact not_lt_of_mem_firsts hsorted Before.asymm hh ((mem_namedHits_iff hn).mpr hreads) hpid
  · rintro ⟨hreads, hfirst⟩
    have hmem := (mem_namedHits_iff hn).mpr hreads
    obtain ⟨b, hb, hpid⟩ : ∃ b ∈ firsts (fun h => h.value.pid) [] (namedHits n dump),
        b.value.pid = h.value.pid := exists_mem_firsts hmem List.not_mem_nil
    have hbmem := (mem_of_mem_firsts hb).1
    have hnot := not_lt_of_mem_firsts hsorted Before.asymm hb hmem hpid.symm
    rw [eq_of_not_before hmem hbmem hnot (hfirst b ((mem_namedHits_iff hn).mp hbmem) hpid)]
    exact hb

/-- **What the extractor reports.** The memory pools are the first 500 places of the magic that no end
of a chunk cuts; no PID is reported twice; and a process is reported exactly if a pass reads its line
and no line of its PID comes before, in the order of chunk, pattern and position. -/
theorem run_reports (hn : 0 < n) (dump : Dump) :
    (run n dump).mempoolRegions = (uncut n mempoolMagic (scanned n dump)).take maxMempoolHits ∧
      ((run n dump).iosProcesses.map IosProcess.pid).Nodup ∧
      ∀ e, e ∈ (run n dump).iosProcesses ↔ ∃ h, Reads n dump h ∧ entry h = e ∧
        ∀ h', Reads n dump h' → h'.value.pid = h.value.pid → ¬ Before n h' h := by
  refine ⟨congrArg IosResult.mempoolRegions (run_eq hn), ?_, fun e => ?_⟩
  · rw [iosProcesses_eq hn, List.map_map]
    exact List.pairwise_map.mpr (pairwise_firsts [] (namedHits n dump))
  · rw [iosProcesses_eq hn, List.mem_map]
    constructor
    · rintro ⟨h, hh, rfl⟩
      obtain ⟨hreads, hfirst⟩ := (mem_firsts_iff hn).mp hh
      exact ⟨h, hreads, rfl, hfirst⟩
    · rintro ⟨h, hreads, rfl, hfirst⟩
      exact ⟨h, (mem_firsts_iff hn).mpr ⟨hreads, hfirst⟩, rfl⟩

/-- Two lines of one PID and two memory pools, the second one cut by the end of a chunk. -/
def sample : Dump :=
  ascii "PID 7 (init)\x00\x00\x00\x00PID 7 sh\x00" ++ mempoolMagic ++ 0 :: mempoolMagic

theorem run_reports_sample : run 16 sample = ⟨[⟨7, "init", 0⟩], [25]⟩ ∧
    (run 16 sample).mempoolRegions = (uncut 16 mempoolMagic (scanned 16 sample)).take maxMempoolHits ∧
      ((run 16 sample).iosProcesses.map IosProcess.pid).Nodup ∧
      ∀ e, e ∈ (run 16 sample).iosProcesses ↔ ∃ h, Reads 16 sample h ∧ entry h = e ∧
        ∀ h', Reads 16 sample h' → h'.value.pid = h.value.pid → ¬ Before 16 h' h :=
  ⟨by decide, run_reports (by decide) sample⟩

end VantaCore.Extractors.Cisco.Ios.IosProcesses
