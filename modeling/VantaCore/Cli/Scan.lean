import VantaCore.Cli.Verify
import VantaCore.Core.Audit.Failures
import VantaCore.Extractors.ScanStatus

/-! # The command `scan`

`_cmd_scan` detects the platform and the architecture of a dump, opens the audit trail of the output
directory, records that the dump is ingested, runs the extractors of the platform, records their
status and writes the result. What a scan leaves in the directory does not depend on what is there: it
adds the lines of the records it came to, and replaces the output file if it opens it (`dir_cmdScan`).
It returns exactly if it opens the file and can write its result (`cmdScan_eq_ok_iff`). What the
extractors do, the times, and which writes raise are parameters. -/

namespace VantaCore.Cli.Scan

open VantaCore.Lib VantaCore.Lib.PyText VantaCore.Lib.Json.Strings VantaCore.Lib.Json.Text
open VantaCore.Lib.Json.Values VantaCore.Lib.Json.Canonical VantaCore.Lib.Json.Lines
open VantaCore.Lib.MacChain
open VantaCore.Core.DumpHandle VantaCore.Core.Backends VantaCore.Core.Backends.Detector
open VantaCore.Core.Audit.Trail VantaCore.Core.Audit.Line VantaCore.Core.Audit.Runs
open VantaCore.Core.Audit.Chain VantaCore.Core.Audit.Failures
open VantaCore.Extractors.Base VantaCore.Extractors.Base.ExtractorDAGExecutor
open VantaCore.Extractors.ScanStatus VantaCore.Cli.Verify

/-! ### The command -/

/-- A call of the command. -/
structure ScanCall (F : Type) where
  dumpPath : PyStr
  dump : Dump
  /-- `_discover_extractors()`. -/
  allExtractors : List BaseExtractor
  run : BaseExtractor → Outcome (PyVal F)
  /-- An extractor raises something that is no `Exception`. -/
  interrupted : Bool
  ingestedAt : PyStr
  ingestedRaises : Bool
  completedAt : PyStr
  completedRaises : Bool
  /-- The output file cannot be opened. -/
  openRaises : Bool

/-- What is in `vantacore_output.json`; `cut` is the beginning of a result that could not be
written. -/
inductive OutputFile (F : Type) where
  | absent
  | complete (result : Dict String (Entry (PyVal F)))
  | cut

/-- The output directory. -/
structure OutputDir (F : Type) where
  audit : Text
  output : OutputFile F

/-- What the command raises. -/
inductive ScanError where
  | detector (e : Detector.Error)
  | audit (e : AuditError)
  | baseException
  | osError
  | typeError
deriving DecidableEq

/-- What the command prints. -/
structure Report (F : Type) where
  sha256 : String
  platform : String
  confidence : ℕ
  architecture : String
  result : Dict String (Entry (PyVal F))

section Values

variable {F : Type}

/-- A list of strings. -/
def strings (ss : List String) : PyVal F := .list (ss.map fun s => .str (ofString s))

/-- The status block as a value. -/
def statusVal (s : ScanStatus) : PyVal F :=
  .dict [(.str "overall", .str (ofString s.overall)),
    (.str "extractors_succeeded", strings s.extractorsSucceeded),
    (.str "extractors_failed", strings s.extractorsFailed),
    (.str "extractors_skipped", strings s.extractorsSkipped)]

/-- A value of the result. -/
def entryVal : Entry (PyVal F) → PyVal F
  | .status s => statusVal s
  | .artefact v => v

mutual

/-- `json.dump` writes the value without raising. -/
def serialisable : PyVal F → Bool
  | .list xs => serialisableItems xs
  | .dict es => serialisableEntries es
  | .other => false
  | _ => true

def serialisableItems : List (PyVal F) → Bool
  | [] => true
  | x :: xs => serialisable x && serialisableItems xs

def serialisableEntries : List (PyKey F × PyVal F) → Bool
  | [] => true
  | (_, x) :: es => serialisable x && serialisableEntries es

end

/-- `audit.record(DUMP_INGESTED, …)`. -/
def dumpIngested (scan : ScanCall F) (platformName archName : String) : Call F where
  ts := scan.ingestedAt
  eventName := "dump_ingested"
  fields := Dict.ofList [("file_path", .str scan.dumpPath), ("file_size", .int scan.dump.length),
    ("platform", .str (ofString platformName)), ("architecture", .str (ofString archName))]
  writeRaises := scan.ingestedRaises

/-- `audit.record(SCAN_COMPLETED, scan_status=result.get("scan_status", {}))`. -/
def scanCompleted (scan : ScanCall F) (result : Dict String (Entry (PyVal F))) : Call F where
  ts := scan.completedAt
  eventName := "scan_completed"
  fields := Dict.ofList [("scan_status", ((result.get? "scan_status").map entryVal).getD (.dict []))]
  writeRaises := scan.completedRaises

end Values

variable {F : Type}

/-- `result`, of the extractors of a platform. -/
def resultOf (scan : ScanCall F) (platformName : String) : Dict String (Entry (PyVal F)) :=
  (new scan.allExtractors platformName).execute scan.run

/-- `json.dump` of the result does not raise. -/
def ResultWritable (result : Dict String (Entry (PyVal F))) : Prop :=
  result.entries.all (fun e => serialisable (entryVal e.2)) = true

instance (result : Dict String (Entry (PyVal F))) : Decidable (ResultWritable result) :=
  inferInstanceAs (Decidable (_ = true))

/-- The output file is opened and the result written to it. -/
def writeOutput (scan : ScanCall F) (result : Dict String (Entry (PyVal F)))
    (output : OutputFile F) : Except ScanError Unit × OutputFile F :=
  if scan.openRaises then (.error .osError, output)
  else if ResultWritable result then (.ok (), .complete result)
  else (.error .typeError, .cut)

section Command

variable [FloatText F] (libs : Libraries) (H : Hashes)

/-- What the command does once the extractors have run. -/
def complete (scan : ScanCall F) (audit : ForensicAuditTrail)
    (result : Dict String (Entry (PyVal F))) (dir : OutputDir F) :
    Except ScanError Unit × OutputDir F :=
  match record H audit dir.audit (scanCompleted scan result) with
  | (.error e, _, log) => (.error (.audit e), ⟨log, dir.output⟩)
  | (.ok (), _, log) =>
    let (outcome, output) := writeOutput scan result dir.output
    (outcome, ⟨log, output⟩)

/-- What the command does once the detectors have run. -/
def ingest (scan : ScanCall F) (platformName archName : String) (dir : OutputDir F) :
    Except ScanError Unit × OutputDir F :=
  match init H (ofString (libs.sha256 scan.dump)) with
  | .error e => (.error (.audit e), dir)
  | .ok audit =>
    match record H audit dir.audit (dumpIngested scan platformName archName) with
    | (.error e, _, log) => (.error (.audit e), ⟨log, dir.output⟩)
    | (.ok (), audit, log) =>
      if scan.interrupted then (.error .baseException, ⟨log, dir.output⟩)
      else complete H scan audit (resultOf scan platformName) ⟨log, dir.output⟩

/-- `_cmd_scan`, of a file that can be opened and an output directory that can be made. -/
def cmdScan (scan : ScanCall F) (dir : OutputDir F) : Except ScanError (Report F) × OutputDir F :=
  match platform libs scan.dump with
  | none => (.error (.detector .structError), dir)
  | some (platformName, confidence) =>
    match architectureDetect scan.dump with
    | .error e => (.error (.detector e), dir)
    | .ok backend =>
      match ingest libs H scan platformName (architectureName backend) dir with
      | (.error e, dir) => (.error e, dir)
      | (.ok (), dir) =>
        (.ok ⟨libs.sha256 scan.dump, platformName, confidence, architectureName backend,
          resultOf scan platformName⟩, dir)

/-- The directory after calls of the command. -/
def scans (ss : List (ScanCall F)) (dir : OutputDir F) : OutputDir F :=
  ss.foldl (fun dir scan => (cmdScan libs H scan dir).2) dir

end Command

/-! ### The records of a scan -/

section Records

variable [FloatText F] {libs : Libraries} {H : Hashes} {scan : ScanCall F} {dir : OutputDir F}
  {p a : String}

omit [FloatText F] in
theorem encodable_ofString (s : String) : Utf8Encodable (ofString s) := encodable_ofChars s.toList

/-- The second record is made. -/
def Completes (scan : ScanCall F) (platformName : String) : Prop :=
  scan.interrupted = false ∧ Returns (scanCompleted scan (resultOf scan platformName))

instance (scan : ScanCall F) (platformName : String) : Decidable (Completes scan platformName) :=
  inferInstanceAs (Decidable (_ ∧ _))

/-- The calls of `record` that return, of a scan that detects `platformName` and `archName`. -/
def recordsAs (scan : ScanCall F) (platformName archName : String) : List (Call F) :=
  if scan.ingestedRaises then []
  else if Completes scan platformName then
    [dumpIngested scan platformName archName, scanCompleted scan (resultOf scan platformName)]
  else [dumpIngested scan platformName archName]

/-- What calls of `record` by a scan add to the log. -/
def sessionText (libs : Libraries) (H : Hashes) (scan : ScanCall F) (rs : List (Call F)) : Text :=
  unlines (writtenLines (sessionEntries H (ofString (libs.sha256 scan.dump)) rs))

theorem returns_dumpIngested (scan : ScanCall F) (platformName archName : String) :
    Returns (dumpIngested scan platformName archName) ↔ scan.ingestedRaises = false := by
  have hkeys : (dumpIngested scan platformName archName).fields.keys =
      ["file_path", "file_size", "platform", "architecture"] := rfl
  have hwritable : Writable (dumpIngested scan platformName archName).fields := by
    intro e he
    have hmem := Dict.mem_of_mem_ofList he
    simp only [List.mem_cons, List.not_mem_nil, or_false] at hmem
    rcases hmem with rfl | rfl | rfl | rfl <;> rfl
  rw [Returns, hkeys]
  exact ⟨fun h => h.2.2.2, fun h => ⟨by decide, by decide, hwritable, h⟩⟩

/-- A call on an open trail that raises writes nothing. -/
theorem record_of_not_returns {t : ForensicAuditTrail} {c : Call F} (file : Text)
    (hopen : t.closed = false) (h : ¬ Returns c) :
    ∃ e t', record H t file c = (.error e, t', file) := by
  have hfile : (record H t file c).2.2 = file := by
    by_cases hhashed : Hashed c
    · have hraises : c.writeRaises = true := by
        by_contra hno
        exact h (returns_iff.mpr ⟨hhashed, Bool.eq_false_iff.mpr hno⟩)
      rw [record_snd_of_hashed hopen hhashed]
      exact if_pos hraises
    · rw [record_snd_of_not_hashed hhashed]
  rcases hrecord : record H t file c with ⟨e | ⟨⟩, t', file'⟩
  · rw [hrecord] at hfile
    obtain rfl : file' = file := hfile
    exact ⟨e, t', rfl⟩
  · exact absurd (record_eq_ok_iff.mp hrecord).1 h

theorem complete_of_not_returns {result : Dict String (Entry (PyVal F))} {t : ForensicAuditTrail}
    (hopen : t.closed = false) (h : ¬ Returns (scanCompleted scan result)) :
    ∃ e, complete H scan t result dir = (.error e, dir) := by
  obtain ⟨e, t', hrecord⟩ := record_of_not_returns (H := H) dir.audit hopen h
  unfold complete
  rw [hrecord]
  exact ⟨_, rfl⟩

theorem complete_of_returns {result : Dict String (Entry (PyVal F))} {t : ForensicAuditTrail}
    (hopen : t.closed = false) (h : Returns (scanCompleted scan result)) :
    complete H scan t result dir = ((writeOutput scan result dir.output).1,
      ⟨dir.audit ++ (line (payload t.dumpHash (scanCompleted scan result)) (H.hmac t.hmacKey
        (text (payload t.dumpHash (scanCompleted scan result)) ++ t.prevHmac)) ++ ['\n']),
        (writeOutput scan result dir.output).2⟩) := by
  unfold complete
  rw [record_eq_ok_iff.mpr ⟨h, hopen, rfl, rfl⟩]

/-- The trail of a scan. -/
def trail (libs : Libraries) (H : Hashes) (scan : ScanCall F) : ForensicAuditTrail :=
  let dumpHash := ofString (libs.sha256 scan.dump)
  ⟨dumpHash, H.sha256 dumpHash, [], false⟩

omit [FloatText F] in
theorem init_trail : init H (ofString (libs.sha256 scan.dump)) = .ok (trail libs H scan) :=
  if_pos (encodable_ofString _)

/-- A scan whose first call of `record` raises leaves the directory as it was. -/
theorem ingest_of_raises (libs : Libraries) (H : Hashes) (p a : String) (dir : OutputDir F)
    (h : scan.ingestedRaises = true) :
    ∃ e, ingest libs H scan p a dir = (.error e, dir) := by
  have hnot : ¬ Returns (dumpIngested scan p a) := by
    rw [returns_dumpIngested, h]
    decide
  obtain ⟨e, t', hrecord⟩ := record_of_not_returns (H := H) (t := trail libs H scan) dir.audit rfl hnot
  unfold ingest
  rw [init_trail]
  dsimp only
  rw [hrecord]
  exact ⟨_, rfl⟩

/-- The text and the HMAC of the record that the dump is ingested. -/
def ingestedLine (libs : Libraries) (H : Hashes) (scan : ScanCall F) (p a : String) : Text × Text :=
  let payload := payload (trail libs H scan).dumpHash (dumpIngested scan p a)
  let mac := H.hmac (trail libs H scan).hmacKey (text payload ++ (trail libs H scan).prevHmac)
  (line payload mac ++ ['\n'], mac)

theorem ingest_eq (h : scan.ingestedRaises = false) : ingest libs H scan p a dir =
    if scan.interrupted then
      (.error .baseException, ⟨dir.audit ++ (ingestedLine libs H scan p a).1, dir.output⟩)
    else
      complete H scan { trail libs H scan with prevHmac := (ingestedLine libs H scan p a).2 }
        (resultOf scan p) ⟨dir.audit ++ (ingestedLine libs H scan p a).1, dir.output⟩ := by
  have hreturns : Returns (dumpIngested scan p a) := (returns_dumpIngested scan p a).mpr h
  unfold ingest
  rw [init_trail]
  dsimp only
  rw [record_eq_ok_iff.mpr ⟨hreturns, rfl, rfl, rfl⟩]
  rfl

theorem sessionText_ingested : sessionText libs H scan [dumpIngested scan p a] =
    (ingestedLine libs H scan p a).1 := List.append_nil _

/-- A scan that does not make the second record writes the line of the first. -/
theorem ingest_of_not_completes (libs : Libraries) (H : Hashes) (a : String) (dir : OutputDir F)
    (hraises : scan.ingestedRaises = false) (h : ¬ Completes scan p) :
    ∃ e, ingest libs H scan p a dir =
      (.error e, ⟨dir.audit ++ sessionText libs H scan (recordsAs scan p a), dir.output⟩) := by
  have hrecords : recordsAs scan p a = [dumpIngested scan p a] := by
    rw [recordsAs, hraises, if_neg h]
    rfl
  rw [ingest_eq hraises, hrecords, sessionText_ingested]
  by_cases hint : scan.interrupted = true
  · exact ⟨_, if_pos hint⟩
  · rw [if_neg hint]
    exact complete_of_not_returns rfl fun hret => h ⟨Bool.eq_false_iff.mpr hint, hret⟩

/-- **A scan that makes both records** writes their lines, then the output file. -/
theorem ingest_of_completes (hraises : scan.ingestedRaises = false) (h : Completes scan p) :
    ingest libs H scan p a dir = ((writeOutput scan (resultOf scan p) dir.output).1,
      ⟨dir.audit ++ sessionText libs H scan (recordsAs scan p a),
        (writeOutput scan (resultOf scan p) dir.output).2⟩) := by
  have hrecords : recordsAs scan p a =
      [dumpIngested scan p a, scanCompleted scan (resultOf scan p)] := by
    rw [recordsAs, hraises, if_pos h]
    rfl
  let completed := payload (trail libs H scan).dumpHash (scanCompleted scan (resultOf scan p))
  have hlines : sessionText libs H scan
      [dumpIngested scan p a, scanCompleted scan (resultOf scan p)] =
      (ingestedLine libs H scan p a).1 ++ ((line completed (H.hmac (trail libs H scan).hmacKey
        (text completed ++ (ingestedLine libs H scan p a).2)) ++ ['\n']) ++ []) := rfl
  rw [ingest_eq hraises, h.1, if_neg Bool.false_ne_true, complete_of_returns rfl h.2, hrecords,
    hlines, List.append_nil, List.append_assoc]

/-! ### One scan -/

/-- The detectors take the dump. -/
structure Detected (libs : Libraries) (scan : ScanCall F) (platformName : String) (confidence : ℕ)
    (archName : String) : Prop where
  platform_eq : platform libs scan.dump = some (platformName, confidence)
  arch_eq : ∃ backend, architectureDetect scan.dump = .ok backend ∧
    architectureName backend = archName

/-- **The records of a scan.** -/
def records (libs : Libraries) (scan : ScanCall F) : List (Call F) :=
  match platform libs scan.dump, architectureDetect scan.dump with
  | some (platformName, _), .ok backend => recordsAs scan platformName (architectureName backend)
  | _, _ => []

/-- A scan that opens the output file. -/
def Opens (scan : ScanCall F) (platformName : String) : Prop :=
  scan.ingestedRaises = false ∧ Completes scan platformName ∧ scan.openRaises = false

instance (scan : ScanCall F) (platformName : String) : Decidable (Opens scan platformName) :=
  inferInstanceAs (Decidable (_ ∧ _))

/-- The result of a scan that opens the output file. -/
def opened (libs : Libraries) (scan : ScanCall F) : Option (Dict String (Entry (PyVal F))) :=
  match platform libs scan.dump, architectureDetect scan.dump with
  | some (platformName, _), .ok _ =>
    if Opens scan platformName then some (resultOf scan platformName) else none
  | _, _ => none

/-- What is in the output file once it has been opened to write a result. -/
def outputOf (result : Dict String (Entry (PyVal F))) : OutputFile F :=
  if ResultWritable result then .complete result else .cut

/-- A scan whose dump no backend takes leaves the directory as it was. -/
theorem cmdScan_of_not_detected (libs : Libraries) (H : Hashes) (dir : OutputDir F)
    (h : ∀ b, architectureDetect scan.dump ≠ .ok b) :
    (∃ e, cmdScan libs H scan dir = (.error e, dir)) ∧ records libs scan = [] ∧
      opened libs scan = none := by
  obtain ⟨⟨p, c⟩, hp⟩ := Option.ne_none_iff_exists'.mp (platform_ne_none libs scan.dump)
  cases hb : architectureDetect scan.dump with
  | ok b => exact absurd hb (h b)
  | error e =>
    unfold cmdScan records opened
    rw [hp, hb]
    exact ⟨⟨_, rfl⟩, rfl, rfl⟩

omit [FloatText F] in
theorem exists_detected (libs : Libraries) {b : Backend} (h : architectureDetect scan.dump = .ok b) :
    ∃ p c a, Detected libs scan p c a := by
  obtain ⟨⟨p, c⟩, hp⟩ := Option.ne_none_iff_exists'.mp (platform_ne_none libs scan.dump)
  exact ⟨p, c, _, hp, b, h, rfl⟩

omit [FloatText F] in
/-- The detectors find one platform and one architecture. -/
theorem Detected.unique {c c' : ℕ} {p' a' : String} (h : Detected libs scan p c a)
    (h' : Detected libs scan p' c' a') : p = p' ∧ c = c' ∧ a = a' := by
  obtain ⟨hp, b, hb, rfl⟩ := h
  obtain ⟨hp', b', hb', rfl⟩ := h'
  obtain ⟨rfl, rfl⟩ := Prod.mk.inj (Option.some.inj (hp.symm.trans hp'))
  obtain rfl := Except.ok.inj (hb.symm.trans hb')
  exact ⟨rfl, rfl, rfl⟩

theorem Detected.records_eq {c : ℕ} (h : Detected libs scan p c a) :
    records libs scan = recordsAs scan p a := by
  obtain ⟨hp, b, hb, rfl⟩ := h
  unfold records
  rw [hp, hb]

theorem Detected.opened_eq {c : ℕ} (h : Detected libs scan p c a) : opened libs scan =
    if Opens scan p then some (resultOf scan p) else none := by
  obtain ⟨hp, b, hb, rfl⟩ := h
  unfold opened
  rw [hp, hb]

/-- What a scan does once the detectors have run. -/
theorem Detected.cmdScan_eq {c : ℕ} (h : Detected libs scan p c a) : cmdScan libs H scan dir =
    ((ingest libs H scan p a dir).1.map fun _ =>
      ⟨libs.sha256 scan.dump, p, c, a, resultOf scan p⟩, (ingest libs H scan p a dir).2) := by
  obtain ⟨hp, b, hb, rfl⟩ := h
  unfold cmdScan
  rw [hp, hb]
  dsimp only
  rcases ingest libs H scan p (architectureName b) dir with ⟨e | ⟨⟩, dir'⟩ <;> rfl

omit [FloatText F] in
theorem writeOutput_of_open {result : Dict String (Entry (PyVal F))} {output : OutputFile F}
    (h : scan.openRaises = false) : writeOutput scan result output =
      (if ResultWritable result then .ok () else .error .typeError, outputOf result) := by
  unfold writeOutput outputOf
  rw [h, if_neg Bool.false_ne_true]
  split_ifs <;> rfl

/-- How a scan goes whose dump is detected: its error, if any, its lines, and the output file. -/
theorem ingest_spec (libs : Libraries) (H : Hashes) (scan : ScanCall F) (p a : String)
    (dir : OutputDir F) :
    ((ingest libs H scan p a dir).1 = .ok () ↔ Opens scan p ∧ ResultWritable (resultOf scan p)) ∧
    (ingest libs H scan p a dir).2 = ⟨dir.audit ++ sessionText libs H scan (recordsAs scan p a),
      if Opens scan p then outputOf (resultOf scan p) else dir.output⟩ := by
  by_cases hraises : scan.ingestedRaises = true
  · obtain ⟨e, he⟩ := ingest_of_raises libs H p a dir hraises
    have hnot : ¬ Opens scan p := fun h => by rw [h.1] at hraises; cases hraises
    have hnone : sessionText libs H scan (recordsAs scan p a) = [] := by
      rw [recordsAs, if_pos hraises]
      rfl
    rw [he, if_neg hnot, hnone, List.append_nil]
    exact ⟨iff_of_false (fun h => nomatch h) fun h => hnot h.1, rfl⟩
  rw [Bool.not_eq_true] at hraises
  by_cases hcompletes : Completes scan p
  · rw [ingest_of_completes hraises hcompletes]
    by_cases hopen : scan.openRaises = true
    · have hnot : ¬ Opens scan p := fun h => by rw [h.2.2] at hopen; cases hopen
      have hwrite : writeOutput scan (resultOf scan p) dir.output = (.error .osError, dir.output) :=
        if_pos hopen
      rw [hwrite, if_neg hnot]
      exact ⟨iff_of_false (fun h => nomatch h) fun h => hnot h.1, rfl⟩
    · have hopens : Opens scan p := ⟨hraises, hcompletes, Bool.eq_false_iff.mpr hopen⟩
      rw [writeOutput_of_open hopens.2.2, if_pos hopens]
      refine ⟨?_, rfl⟩
      by_cases hwritable : ResultWritable (resultOf scan p)
      · rw [if_pos hwritable]
        exact iff_of_true rfl ⟨hopens, hwritable⟩
      · rw [if_neg hwritable]
        exact iff_of_false (fun h => nomatch h) fun h => hwritable h.2
  · obtain ⟨e, he⟩ := ingest_of_not_completes libs H a dir hraises hcompletes
    have hnot : ¬ Opens scan p := fun h => hcompletes h.2.1
    rw [he, if_neg hnot]
    exact ⟨iff_of_false (fun h => nomatch h) fun h => hnot h.1, rfl⟩

/-- **What a scan leaves in the directory**: the log with the lines of its records behind it, and the
output file as it was unless the scan opens it. -/
theorem dir_cmdScan (libs : Libraries) (H : Hashes) (scan : ScanCall F) (dir : OutputDir F) :
    (cmdScan libs H scan dir).2 = ⟨dir.audit ++ sessionText libs H scan (records libs scan),
      ((opened libs scan).map outputOf).getD dir.output⟩ := by
  by_cases hdetect : ∃ b, architectureDetect scan.dump = .ok b
  · obtain ⟨b, hb⟩ := hdetect
    obtain ⟨p, c, a, h⟩ := exists_detected libs hb
    rw [h.cmdScan_eq, h.records_eq, h.opened_eq]
    dsimp only
    rw [(ingest_spec libs H scan p a dir).2]
    split_ifs <;> rfl
  · obtain ⟨⟨e, he⟩, hrecords, hopened⟩ :=
      cmdScan_of_not_detected libs H dir fun b hb => hdetect ⟨b, hb⟩
    have hnone : sessionText libs H scan (records libs scan) = [] := by
      rw [hrecords]
      rfl
    rw [he, hnone, hopened, List.append_nil]
    rfl

/-- **A scan returns** exactly if it opens the output file and can write its result, and it reports
what the detectors found and that result. -/
theorem cmdScan_eq_ok_iff {report : Report F} : (cmdScan libs H scan dir).1 = .ok report ↔
    opened libs scan = some report.result ∧ ResultWritable report.result ∧
      report.sha256 = libs.sha256 scan.dump ∧
      Detected libs scan report.platform report.confidence report.architecture := by
  by_cases hdetect : ∃ b, architectureDetect scan.dump = .ok b
  · obtain ⟨b, hb⟩ := hdetect
    obtain ⟨p, c, a, h⟩ := exists_detected libs hb
    have hspec := (ingest_spec libs H scan p a dir).1
    rw [h.cmdScan_eq, h.opened_eq]
    constructor
    · intro hok
      cases hingest : (ingest libs H scan p a dir).1 with
      | error e =>
        rw [hingest] at hok
        cases hok
      | ok u =>
        rw [hingest] at hok
        obtain rfl := Except.ok.inj hok
        obtain ⟨hopens, hwritable⟩ := hspec.mp hingest
        exact ⟨if_pos hopens, hwritable, rfl, h⟩
    · rintro ⟨hopened, hwritable, hsha, hdet⟩
      obtain ⟨hopens, hresult⟩ := Option.ite_none_right_eq_some.mp hopened
      obtain ⟨rfl, rfl, rfl⟩ := h.unique hdet
      rw [← Option.some.inj hresult] at hwritable
      rw [hspec.mpr ⟨hopens, hwritable⟩, Option.some.inj hresult, ← hsha]
      rfl
  · obtain ⟨⟨e, he⟩, -, hopened⟩ :=
      cmdScan_of_not_detected libs H dir fun b hb => hdetect ⟨b, hb⟩
    rw [he, hopened]
    exact iff_of_false (fun h => nomatch h) fun h => nomatch h.1

end Records

end VantaCore.Cli.Scan
