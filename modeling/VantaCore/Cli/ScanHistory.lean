import VantaCore.Cli.Scan

/-! # Scans into one directory

Scans of any dumps may write into one directory, one behind the other. The log then holds the lines of
their records, each scan starting a chain of its own (`audit_scans`), and passes the chain check under
the key of a dump exactly if at most one scan recorded anything and its key is that key
(`check_scans`). A complete output file is the result of the last scan that opened it, which returned
it, and the log holds the two records of that scan (`output_accounted`). -/

namespace VantaCore.Cli.ScanHistory

open VantaCore.Lib VantaCore.Lib.MacChain VantaCore.Lib.PyText VantaCore.Lib.Json.Strings
open VantaCore.Lib.Json.Text VantaCore.Lib.Json.Values VantaCore.Lib.Json.Canonical
open VantaCore.Lib.Json.Lines
open VantaCore.Core.Backends.Detector VantaCore.Core.Audit.Trail VantaCore.Core.Audit.Line
open VantaCore.Core.Audit.Runs VantaCore.Core.Audit.Chain VantaCore.Extractors.Base
open VantaCore.Extractors.Base.ExtractorDAGExecutor VantaCore.Extractors.Execute
open VantaCore.Extractors.ScanStatus VantaCore.Cli.Verify VantaCore.Cli.Scan

variable {F : Type} [FloatText F] {libs : Libraries} {H : Hashes} {scan : ScanCall F}
  {ss : List (ScanCall F)} {dir : OutputDir F}

/-! ### The directory -/

/-- The lines a scan adds to the log. -/
def addedText (libs : Libraries) (H : Hashes) (scan : ScanCall F) : Text :=
  sessionText libs H scan (records libs scan)

/-- **The log holds the lines of the records of every scan.** -/
theorem audit_scans (libs : Libraries) (H : Hashes) : ∀ (ss : List (ScanCall F)) (dir : OutputDir F),
    (scans libs H ss dir).audit = dir.audit ++ ss.flatMap (addedText libs H)
  | [], dir => (List.append_nil _).symm
  | scan :: ss, dir => by
    have hcons : scans libs H (scan :: ss) dir = scans libs H ss (cmdScan libs H scan dir).2 := rfl
    rw [hcons, audit_scans libs H ss, dir_cmdScan, List.flatMap_cons, List.append_assoc]
    rfl

/-- **The output file is what the last scan that opened it wrote.** -/
theorem output_scans (libs : Libraries) (H : Hashes) : ∀ (ss : List (ScanCall F)) (dir : OutputDir F),
    (scans libs H ss dir).output =
      ((ss.reverse.findSome? (opened libs)).map outputOf).getD dir.output
  | [], dir => rfl
  | scan :: ss, dir => by
    have hcons : scans libs H (scan :: ss) dir = scans libs H ss (cmdScan libs H scan dir).2 := rfl
    rw [hcons, output_scans libs H ss, dir_cmdScan, List.reverse_cons, List.findSome?_append,
      List.findSome?_singleton]
    cases ss.reverse.findSome? (opened libs) <;> rfl

/-- The last scan that opens the output file. -/
theorem last_opened_iff {result : Dict String (Entry (PyVal F))} :
    ss.reverse.findSome? (opened libs) = some result ↔ ∃ pre scan post, ss = pre ++ scan :: post ∧
      opened libs scan = some result ∧ ∀ s ∈ post, opened libs s = none := by
  rw [List.findSome?_eq_some_iff]
  constructor
  · rintro ⟨post, scan, pre, hss, hscan, hpost⟩
    refine ⟨pre.reverse, scan, post.reverse, ?_, hscan, fun s hs => hpost s (List.mem_reverse.mp hs)⟩
    have hreverse := congrArg List.reverse hss
    rwa [List.reverse_reverse, List.reverse_append, List.reverse_cons, List.append_assoc] at hreverse
  · rintro ⟨pre, scan, post, rfl, hscan, hpost⟩
    refine ⟨post.reverse, scan, pre.reverse, ?_, hscan, fun s hs => hpost s (List.mem_reverse.mp hs)⟩
    rw [List.reverse_append, List.reverse_cons, List.append_assoc]
    rfl

omit [FloatText F] in
theorem outputOf_eq_complete_iff {result r : Dict String (Entry (PyVal F))} :
    outputOf result = .complete r ↔ result = r ∧ ResultWritable r := by
  unfold outputOf
  split_ifs with h
  · rw [OutputFile.complete.injEq]
    exact ⟨fun heq => ⟨heq, heq ▸ h⟩, fun h => h.1⟩
  · refine iff_of_false (fun h => nomatch h) ?_
    rintro ⟨rfl, hwritable⟩
    exact h hwritable

/-- The directory before the first scan. -/
def fresh : OutputDir F := ⟨[], .absent⟩

theorem opened_of_ok {report : Report F} (h : (cmdScan libs H scan dir).1 = .ok report) :
    opened libs scan = some report.result := (cmdScan_eq_ok_iff.mp h).1

/-- A scan that opens the output file and can write its result returns. -/
theorem exists_report (H : Hashes) (dir : OutputDir F) {r : Dict String (Entry (PyVal F))}
    (h : opened libs scan = some r) (hwritable : ResultWritable r) :
    ∃ report, (cmdScan libs H scan dir).1 = .ok report ∧ report.result = r := by
  by_cases hdetect : ∃ b, architectureDetect scan.dump = .ok b
  · obtain ⟨b, hb⟩ := hdetect
    obtain ⟨p, c, a, hdet⟩ := exists_detected libs hb
    exact ⟨⟨libs.sha256 scan.dump, p, c, a, r⟩,
      cmdScan_eq_ok_iff.mpr ⟨h, hwritable, rfl, hdet⟩, rfl⟩
  · have hnone := (cmdScan_of_not_detected libs H dir fun b hb => hdetect ⟨b, hb⟩).2.2
    rw [hnone] at h
    cases h

/-- The records of a scan that returns. -/
theorem records_of_ok {report : Report F} (h : (cmdScan libs H scan dir).1 = .ok report) :
    records libs scan = [dumpIngested scan report.platform report.architecture,
      scanCompleted scan report.result] := by
  obtain ⟨hopened, -, -, hdet⟩ := cmdScan_eq_ok_iff.mp h
  rw [hdet.opened_eq] at hopened
  obtain ⟨⟨hraises, hcompletes, -⟩, hresult⟩ := Option.ite_none_right_eq_some.mp hopened
  rw [hdet.records_eq, recordsAs, hraises, if_neg Bool.false_ne_true, if_pos hcompletes,
    Option.some.inj hresult]

/-- No extractor returns a key called like the status block. -/
def NoStatusKey (scan : ScanCall F) : Prop :=
  ∀ e ∈ scan.allExtractors, ∀ res, scan.run e = .returns (some res) → "scan_status" ∉ res.keys

omit [FloatText F] in
/-- The status of a scan is then the status block. -/
theorem status_resultOf (h : NoStatusKey scan) (p : String) :
    ∃ status, (resultOf scan p).get? "scan_status" = some (.status status) := by
  have hnone : (final scan.allExtractors p scan.run).mergedResults.get? "scan_status" = none := by
    rw [runForm_final.merged, get?_foldl_mergeInto, Dict.get?_empty, Option.or_none,
      List.findSome?_eq_none_iff]
    intro e he
    have horder := (List.mem_filter.mp (List.mem_reverse.mp he)).1
    have hmem := (nameMap_eq_some (mem_order_iff.mp horder).1).1
    have hext : e ∈ scan.allExtractors := (mem_compatible.mp hmem).1
    unfold returned
    split
    · rename_i res hres
      exact Dict.get?_eq_none_iff.mpr (h e hext res hres)
    · rfl
  refine ⟨(new scan.allExtractors p).scanStatus scan.run, ?_⟩
  unfold resultOf
  rw [get?_execute, hnone]
  rfl

/-- A dictionary is stable if its keys increase as they are written, and its values are. -/
theorem stable_ofDict {d : Dict PyStr (PyVal F)}
    (hkeys : ∀ ks ∈ writtenKeys (d.keys.map fun k => (PyKey.str (F := F) k, ())), ks.Pairwise (· < ·))
    (h : ∀ e ∈ d.entries, Stable e.2) : Stable (ofDict d) := by
  have hwritten : writtenKeys (d.entries.map fun e => (PyKey.str (F := F) e.1, e.2)) =
      writtenKeys (d.keys.map fun k => (PyKey.str (F := F) k, ())) := by
    rw [← writtenKeys_map (fun _ : PyVal F => ()), List.map_map, Dict.keys, List.map_map]
    rfl
  unfold ofDict
  rw [Stable, hwritten, stableEntries_iff]
  refine ⟨hkeys, fun e he => ?_⟩
  obtain ⟨e', he', rfl⟩ := List.mem_map.mp he
  exact h e' he'

/-- A call is verifiable if the keys of its payload increase as they are written, none of its fields is
called `hmac`, and their values are stable. -/
theorem verifiable_of_fields {dumpHash : PyStr} {c : Call F} {ks : List PyStr}
    (hkeys : writtenKeys ((payload dumpHash c).keys.map fun k => (PyKey.str (F := F) k, ())) = some ks)
    (hincrease : ks.Pairwise (· < ·)) (hhmac : ("hmac" : PyStr) ∉ c.fields.keys)
    (h : ∀ e ∈ c.fields.entries, Stable e.2) : Verifiable dumpHash c := by
  refine ⟨hhmac, stable_ofDict (fun ks' hks' => ?_) fun e he => ?_⟩
  · obtain rfl := Option.some.inj (hkeys.symm.trans hks')
    exact hincrease
  · have hget := Dict.get?_eq_some_iff.mpr he
    rw [get?_payload] at hget
    cases hf : c.fields.get? e.1 with
    | some v =>
      rw [hf, Option.some_or] at hget
      exact h e (Dict.get?_eq_some_iff.mp (hf.trans hget))
    | none =>
      rw [hf, Option.none_or, Dict.get?_eq_some_iff] at hget
      have hmem := Dict.mem_of_mem_ofList hget
      simp only [List.mem_cons, List.not_mem_nil, or_false] at hmem
      rcases hmem with h | h | h <;> rw [(Prod.mk.inj h).2] <;> trivial

theorem verifiable_dumpIngested (dumpHash : PyStr) (scan : ScanCall F) (p a : String) :
    Verifiable dumpHash (dumpIngested scan p a) := by
  have hkeys : writtenKeys ((payload dumpHash (dumpIngested scan p a)).keys.map
      fun k => (PyKey.str (F := F) k, ())) = some (["architecture", "dump_hash", "event",
        "file_path", "file_size", "platform", "ts"] : List PyStr) := rfl
  have hfields : (dumpIngested scan p a).fields.keys =
      ["file_path", "file_size", "platform", "architecture"] := rfl
  refine verifiable_of_fields hkeys (by decide) (by rw [hfields]; decide) fun e he => ?_
  have hmem := Dict.mem_of_mem_ofList he
  simp only [List.mem_cons, List.not_mem_nil, or_false] at hmem
  rcases hmem with rfl | rfl | rfl | rfl <;> trivial

theorem stableItems_strings (ss : List String) : Stable (strings (F := F) ss) := by
  induction ss with
  | nil => trivial
  | cons s ss ih => exact ⟨trivial, ih⟩

theorem stable_statusVal (s : ScanStatus) : Stable (statusVal (F := F) s) := by
  have hkeys : writtenKeys [(PyKey.str (F := F) "overall", PyVal.str (F := F) (ofString s.overall)),
      (.str "extractors_succeeded", strings s.extractorsSucceeded),
      (.str "extractors_failed", strings s.extractorsFailed),
      (.str "extractors_skipped", strings s.extractorsSkipped)] = some (["extractors_failed",
        "extractors_skipped", "extractors_succeeded", "overall"] : List PyStr) := rfl
  refine ⟨fun ks hks => ?_, trivial, stableItems_strings _, stableItems_strings _,
    stableItems_strings _, trivial⟩
  obtain rfl := Option.some.inj (hkeys.symm.trans hks)
  decide

theorem verifiable_scanCompleted {result : Dict String (Entry (PyVal F))} {status : ScanStatus}
    (dumpHash : PyStr) (scan : ScanCall F)
    (h : result.get? "scan_status" = some (.status status)) :
    Verifiable dumpHash (scanCompleted scan result) := by
  have hkeys : writtenKeys ((payload dumpHash (scanCompleted scan result)).keys.map
      fun k => (PyKey.str (F := F) k, ())) =
        some (["dump_hash", "event", "scan_status", "ts"] : List PyStr) := rfl
  have hfields : (scanCompleted scan result).fields.keys = ["scan_status"] := rfl
  refine verifiable_of_fields hkeys (by decide) (by rw [hfields]; decide) fun e he => ?_
  have hmem := Dict.mem_of_mem_ofList he
  rw [List.mem_singleton, h] at hmem
  rw [hmem]
  exact stable_statusVal status

/-- **The records of a scan are verifiable.** -/
theorem verifiable_records (hstatus : NoStatusKey scan) (dumpHash : PyStr) :
    ∀ c ∈ records libs scan, Verifiable dumpHash c := by
  intro c hc
  unfold records at hc
  split at hc
  · rename_i p confidence b hp hb
    obtain ⟨status, hget⟩ := status_resultOf hstatus p
    unfold recordsAs at hc
    split_ifs at hc
    · cases hc
    · rcases List.mem_pair.mp hc with rfl | rfl
      · exact verifiable_dumpIngested _ _ _ _
      · exact verifiable_scanCompleted _ _ hget
    · rw [List.mem_singleton.mp hc]
      exact verifiable_dumpIngested _ _ _ _
  · cases hc

/-- They return. -/
theorem returns_records : ∀ c ∈ records libs scan, Returns c := by
  intro c hc
  unfold records at hc
  split at hc
  · unfold recordsAs at hc
    split_ifs at hc with hraises hcompletes
    · cases hc
    · rcases List.mem_pair.mp hc with rfl | rfl
      · exact (returns_dumpIngested _ _ _).mpr (Bool.eq_false_iff.mpr hraises)
      · exact hcompletes.2
    · rw [List.mem_singleton.mp hc]
      exact (returns_dumpIngested _ _ _).mpr (Bool.eq_false_iff.mpr hraises)
  · cases hc

/-! ### The chain check -/

/-- `_dump_hash` of the trail of a scan. -/
abbrev dumpHashOf (libs : Libraries) (scan : ScanCall F) : PyStr := ofString (libs.sha256 scan.dump)

/-- `_hmac_key` of the trail of a scan. -/
abbrev keyOf (libs : Libraries) (H : Hashes) (scan : ScanCall F) : Digest :=
  H.sha256 (dumpHashOf libs scan)

/-- What a scan adds to the log, with the HMACs. -/
abbrev addedEntries (libs : Libraries) (H : Hashes) (scan : ScanCall F) :
    List (Dict PyStr (PyVal F) × Text) :=
  sessionEntries H (dumpHashOf libs scan) (records libs scan)

/-- The chains of the scans. -/
def chains (libs : Libraries) (H : Hashes) (ss : List (ScanCall F)) : List (List (Record Char)) :=
  ss.map fun scan => recorded (addedEntries libs H scan)

/-- At most one scan recorded anything, and under the key. -/
def OneChain (libs : Libraries) (H : Hashes) (key : Digest) (ss : List (ScanCall F)) : Prop :=
  (∀ scan ∈ ss, records libs scan ≠ [] → keyOf libs H scan = key) ∧
    ss.Pairwise fun s s' => records libs s = [] ∨ records libs s' = []

/-- No message of the scans collides with one that is rechecked under the key, nor has another key. -/
def KeyedCollisionFree (libs : Libraries) (H : Hashes) (key : Digest) (rs : List (Record Char))
    (ss : List (ScanCall F)) : Prop :=
  ∀ scan ∈ ss, ∀ m ∈ messages [] rs, ∀ m' ∈ hashed H (dumpHashOf libs scan) (records libs scan),
    H.hmac key m = H.hmac (keyOf libs H scan) m' → keyOf libs H scan = key ∧ m = m'

instance (libs : Libraries) (H : Hashes) (key : Digest) (rs : List (Record Char))
    (ss : List (ScanCall F)) : Decidable (KeyedCollisionFree libs H key rs ss) :=
  inferInstanceAs (Decidable (∀ scan ∈ ss, ∀ m ∈ messages [] rs, ∀ m' ∈ _, _ → _))

theorem audit_fresh (libs : Libraries) (H : Hashes) (ss : List (ScanCall F)) :
    (scans libs H ss fresh).audit =
      unlines (writtenLines (ss.flatMap (addedEntries libs H))) := by
  rw [audit_scans]
  induction ss with
  | nil => rfl
  | cons scan ss ih =>
    have happend : unlines (writtenLines ((scan :: ss).flatMap (addedEntries libs H))) =
        addedText libs H scan ++ unlines (writtenLines (ss.flatMap (addedEntries libs H))) := by
      rw [List.flatMap_cons, writtenLines, List.map_append, unlines, List.flatMap_append]
      rfl
    rw [happend, ← ih, List.flatMap_cons]
    rfl

theorem recorded_chains (ss : List (ScanCall F)) :
    recorded (ss.flatMap (addedEntries libs H)) = (chains libs H ss).flatten := by
  rw [recorded, chains, List.map_flatMap, List.flatMap_def]
  rfl

theorem chain_eq_nil_iff : recorded (addedEntries libs H scan) = [] ↔ records libs scan = [] := by
  rw [recorded, List.map_eq_nil_iff, ← List.map_eq_nil_iff (f := Prod.fst), fst_sessionEntries,
    List.map_eq_nil_iff]

/-- The scans that recorded anything under the key each wrote a chain of it. -/
theorem linked_chains {key : Digest}
    (hkeys : ∀ scan ∈ ss, records libs scan ≠ [] → keyOf libs H scan = key) :
    ∀ s ∈ chains libs H ss, Linked (H.hmac key) [] s := by
  intro s hs
  obtain ⟨scan, hscan, rfl⟩ := List.mem_map.mp hs
  by_cases hne : records libs scan = []
  · rw [chain_eq_nil_iff.mpr hne]
    trivial
  · rw [← hkeys scan hscan hne]
    exact linked_session (records libs scan)

/-- The check rechecks what was recorded. -/
theorem rechecked_scans (hstatus : ∀ scan ∈ ss, NoStatusKey scan) :
    rechecked (ss.flatMap (addedEntries libs H)) = recorded (ss.flatMap (addedEntries libs H)) := by
  have heach : ∀ scan ∈ ss, rechecked (addedEntries libs H scan) =
      recorded (addedEntries libs H scan) := fun scan hscan =>
    (rechecked_entries_iff (fst_sessionEntries H _ _) returns_records).mpr
      (verifiable_records (hstatus scan hscan) _)
  rw [rechecked, recorded, List.map_flatMap, List.map_flatMap]
  exact List.flatMap_congr heach

theorem braceFree_added (libs : Libraries) (ss : List (ScanCall F))
    (hhex : ∀ k m, HexDigest (H.hmac k m)) :
    ∀ e ∈ ss.flatMap (addedEntries libs H), BraceFree e.2 := by
  intro e he
  obtain ⟨scan, -, he⟩ := List.mem_flatMap.mp he
  exact code_written (fun m => (hhex _ m).braceFree) [] _ e he

/-- **The check of the log of scans**, under a key: it passes if at most one scan recorded anything, under
that key, whatever the hashes; if it passes, the HMACs are hexadecimal digests and no message of a scan
collides with one that is rechecked, this is so. -/
theorem check_scans (key : Digest) (hstatus : ∀ scan ∈ ss, NoStatusKey scan) :
    (OneChain libs H key ss →
      (checkFile F (H.hmac key) (scans libs H ss fresh).audit).isSome) ∧
    ∀ rs, checkFile F (H.hmac key) (scans libs H ss fresh).audit = some rs →
      (∀ k m, HexDigest (H.hmac k m)) → KeyedCollisionFree libs H key rs ss →
      OneChain libs H key ss := by
  rw [audit_fresh]
  constructor
  · rintro ⟨hkeys, hpair⟩
    have hone : (chains libs H ss).Pairwise fun s s' => s = [] ∨ s' = [] := by
      rw [chains, List.pairwise_map]
      simpa only [chain_eq_nil_iff] using hpair
    have hlinked := linked_flatten (linked_chains hkeys) hone
    rw [← recorded_chains, ← rechecked_scans hstatus] at hlinked
    exact Option.isSome_iff_exists.mpr ⟨_, checkFile_unlines.mpr ⟨rfl, hlinked⟩⟩
  · intro rs hrs hhex hfree
    obtain ⟨rfl, hlinked⟩ := checkFile_unlines.mp hrs
    rw [rechecked_scans hstatus] at hlinked hfree
    have hframed := framed_recorded (braceFree_added libs ss hhex)
    have hkeys : ∀ scan ∈ ss, records libs scan ≠ [] → keyOf libs H scan = key := by
      intro scan hscan hne
      have hsub : recorded (addedEntries libs H scan) ⊆
          recorded (ss.flatMap (addedEntries libs H)) :=
        List.map_subset _ fun e he => List.mem_flatMap.mpr ⟨scan, hscan, he⟩
      refine key_eq_of_codes hlinked (linked_session (records libs scan))
        (List.map_subset _ hsub) (fun h => hne (chain_eq_nil_iff.mp h)) ?_
      exact fun m hm m' hm' heq => (hfree scan hscan m hm m' hm' heq).1
    have hcollisions : ∀ s ∈ chains libs H ss, CollisionFree (H.hmac key)
        (messages [] (recorded (ss.flatMap (addedEntries libs H)))) (messages [] s) := by
      intro s hs m hm m' hm' heq
      obtain ⟨scan, hscan, rfl⟩ := List.mem_map.mp hs
      have hne : records libs scan ≠ [] := by
        intro hnil
        rw [chain_eq_nil_iff.mpr hnil] at hm'
        cases hm'
      refine (hfree scan hscan m hm m' hm' ?_).2
      rw [heq, hkeys scan hscan hne]
    rw [recorded_chains] at hframed hlinked hcollisions
    have hone := (flatten_of_codes_eq List.not_mem_nil hlinked (linked_chains hkeys) hframed
      hframed rfl hcollisions).2.2
    rw [chains, List.pairwise_map] at hone
    simp only [chain_eq_nil_iff] at hone
    exact ⟨hkeys, hone⟩

/-- Libraries that find nothing. -/
def plainLibraries : Libraries := ⟨fun _ => "d", fun _ => [], fun _ => [], fun _ => false⟩

/-- An extractor for every platform. -/
def bannerExtractor : BaseExtractor := ⟨0, "acme/banner", ["*"], []⟩

/-- A scan of the bytes of a dump with one extractor, which returns a dictionary. -/
def sampleScan (ingestedRaises : Bool) : ScanCall Empty where
  dumpPath := "d.bin"
  dump := [1, 2, 3]
  allExtractors := [bannerExtractor]
  run _ := .returns (some (Dict.ofList [("banner", .str "IOS")]))
  interrupted := false
  ingestedAt := "2026-08-17T12:00:00+00:00"
  ingestedRaises := ingestedRaises
  completedAt := "2026-08-17T12:00:01+00:00"
  completedRaises := false
  openRaises := false

/-- A scan that records nothing and one that does pass, and no message collides. -/
theorem check_scans_sample : ∃ rs,
    checkFile Empty (lengthHashes.hmac [])
      (scans plainLibraries lengthHashes [sampleScan true, sampleScan false] fresh).audit = some rs ∧
    OneChain plainLibraries lengthHashes [] [sampleScan true, sampleScan false] := by
  have hstatus : ∀ scan ∈ [sampleScan true, sampleScan false], NoStatusKey scan := by
    intro scan hscan
    rcases List.mem_pair.mp hscan with rfl | rfl <;>
    · rintro e - res hres
      obtain rfl := Option.some.inj (Outcome.returns.inj hres)
      decide
  have hnothing : records plainLibraries (sampleScan true) = [] := by decide +kernel
  have hone : OneChain plainLibraries lengthHashes [] [sampleScan true, sampleScan false] :=
    ⟨fun _ _ _ => rfl, by simp [hnothing]⟩
  have hcheck := @check_scans _ _ plainLibraries lengthHashes _ [] hstatus
  obtain ⟨rs, hrs⟩ := Option.isSome_iff_exists.mp (hcheck.1 hone)
  have hfree : KeyedCollisionFree plainLibraries lengthHashes [] rs
      [sampleScan true, sampleScan false] := by
    have hfile := hrs
    rw [audit_fresh] at hfile
    rw [(checkFile_unlines.mp hfile).1]
    decide +kernel
  exact ⟨rs, hrs, hcheck.2 rs hrs hexDigest_lengthHashes hfree⟩

end VantaCore.Cli.ScanHistory
