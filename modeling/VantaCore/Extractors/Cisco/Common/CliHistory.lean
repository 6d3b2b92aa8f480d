import VantaCore.Extractors.Cisco.Text

/-! # The command history

`CLIHistoryExtractor.run`. The commands are sorted by their offsets and cut into clusters; no command is
lost (`flatten_clusters`). -/

namespace VantaCore.Extractors.Cisco.Common.CliHistory

open VantaCore.Core.DumpHandle VantaCore.Lib.Chunks VantaCore.Lib.PyText
open VantaCore.Extractors.Cisco.TextScan VantaCore.Extractors.Cisco.Text

/-- The bytes `_extract_command_string` consumes. -/
def commandRun (chunk : List UInt8) (offset : ℕ) : List UInt8 :=
  (chunkAt 256 chunk offset).takeWhile fun b => 32 ≤ b && b ≤ 126

/-- `_extract_command_string` -/
def extractCommandString (chunk : List UInt8) (offset : ℕ) : Option PyStr :=
  let cmd := strip (ofBytes (commandRun chunk offset))
  if cmd = [] then none else some cmd

def parseCommand (snippet : List UInt8) : Option PyStr := extractCommandString snippet 0

/-- The searches for `_CLI_SENTINELS`. -/
def passes : List (Pass PyStr) :=
  [⟨ascii "show ", 256, parseCommand, by decide, by decide⟩,
    ⟨ascii "configure terminal", 256, parseCommand, by decide, by decide⟩,
    ⟨ascii "enable", 256, parseCommand, by decide, by decide⟩,
    ⟨ascii "no ", 256, parseCommand, by decide, by decide⟩,
    ⟨ascii "exit", 256, parseCommand, by decide, by decide⟩]

/-- The matches of the loop over the dump with chunks of `n` bytes. -/
def rawMatches (n : ℕ) (dump : Dump) : List (ℕ × PyStr) :=
  scanText (fun physOff cmd raw => raw ++ [(physOff, cmd)]) n passes dump []

/-! ### Clusters -/

/-- The loop over the sorted matches. -/
structure ClusterState where
  clusters : List (List PyStr)
  currentCluster : List PyStr
  prevOffset : ℕ

/-- The clusters with the current one. -/
def ClusterState.close (s : ClusterState) : List (List PyStr) :=
  if s.currentCluster = [] then s.clusters else s.clusters ++ [s.currentCluster]

/-- A match that is near joins the current cluster unless it is full. -/
def ClusterState.add (s : ClusterState) (m : ℕ × PyStr) : ClusterState :=
  if m.1 - s.prevOffset ≤ 512 ∧ s.currentCluster.length < 256 then
    { s with currentCluster := s.currentCluster ++ [m.2], prevOffset := m.1 }
  else { clusters := s.close, currentCluster := [m.2], prevOffset := m.1 }

/-- The clusters of the sorted matches. -/
def clusters : List (ℕ × PyStr) → List (List PyStr)
  | [] => []
  | m :: rest => (rest.foldl ClusterState.add ⟨[], [m.2], m.1⟩).close

/-- `raw_matches.sort(key=lambda x: x[0])` -/
def sortMatches (raw : List (ℕ × PyStr)) : List (ℕ × PyStr) := raw.mergeSort fun a b => a.1 ≤ b.1

/-- An entry of `cli_history`. -/
structure History where
  commands : List PyStr
  source : PyStr
  confidence : PyStr
deriving DecidableEq

/-- What the extractor returns. -/
structure Result where
  cliHistory : List History
  cliHistoryConfidence : PyStr
deriving DecidableEq

/-- `CLIHistoryExtractor.run` with chunks of `n` bytes. -/
def run (n : ℕ) (dump : Dump) : Result :=
  let cliHistory := (clusters (sortMatches (rawMatches n dump))).map fun cluster =>
    ⟨cluster, "pattern_scan", "LOW"⟩
  { cliHistory := cliHistory
    cliHistoryConfidence := if cliHistory = [] then "NOT_FOUND" else "FOUND" }

/-! ### The commands -/

theorem flatten_add (s : ClusterState) (m : ℕ × PyStr) :
    (s.add m).close.flatten = s.close.flatten ++ [m.2] := by
  unfold ClusterState.add
  split_ifs
  · unfold ClusterState.close
    by_cases hempty : s.currentCluster = [] <;> simp [hempty]
  · simp [ClusterState.close]

/-- **No command is lost, duplicated or moved.** -/
theorem flatten_clusters (sorted : List (ℕ × PyStr)) :
    (clusters sorted).flatten = sorted.map Prod.snd := by
  have hfold : ∀ (l : List (ℕ × PyStr)) (s : ClusterState),
      (l.foldl ClusterState.add s).close.flatten = s.close.flatten ++ l.map Prod.snd := by
    intro l
    induction l with
    | nil => exact fun s => (List.append_nil _).symm
    | cons m l ih =>
      intro s
      rw [List.foldl_cons, ih, flatten_add, List.append_assoc, List.map_cons, List.singleton_append]
  cases sorted with
  | nil => rfl
  | cons m rest => exact hfold rest ⟨[], [m.2], m.1⟩

/-- The matches are the hits. -/
theorem rawMatches_eq {n : ℕ} {dump : Dump} (hn : 0 < n) :
    rawMatches n dump = (hits n passes (scanned n dump)).map fun h => (h.pos, h.value) := by
  unfold rawMatches
  rw [scanText_eq_foldl_scanned hn]
  have hfold : ∀ (l : List (Hit PyStr)) (raw : List (ℕ × PyStr)),
      l.foldl (fun raw h => raw ++ [(h.pos, h.value)]) raw =
        raw ++ l.map fun h => (h.pos, h.value) := by
    intro l
    induction l with
    | nil => exact fun raw => (List.append_nil raw).symm
    | cons h l ih =>
      intro raw
      rw [List.foldl_cons, ih, List.append_assoc, List.map_cons, List.singleton_append]
  exact hfold _ []

end VantaCore.Extractors.Cisco.Common.CliHistory
