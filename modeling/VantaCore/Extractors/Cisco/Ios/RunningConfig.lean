import VantaCore.Extractors.Cisco.Text

/-! # The running configuration

`RunningConfigExtractor.run`. The text behind an anchor is reported for the first anchor of each kind in
a bucket of 64 bytes (`foundSections_eq`). -/

namespace VantaCore.Extractors.Cisco.Ios.RunningConfig

open VantaCore.Core.DumpHandle VantaCore.Lib.Chunks VantaCore.Lib.Search VantaCore.Lib.PyText
open VantaCore.Lib.FirstBy VantaCore.Extractors.Cisco.TextScan VantaCore.Extractors.Cisco.Text

/-- The byte is text or white space. -/
def isText (b : UInt8) : Bool := b = 9 || b = 10 || b = 13 || 32 ≤ b && b ≤ 126

/-- The bytes `_extract_printable_block` consumes. -/
def printableRun (data : List UInt8) (start : ℕ) : List UInt8 :=
  (chunkAt 4096 data start).takeWhile isText

/-- `_extract_printable_block` -/
def extractPrintableBlock (data : List UInt8) (start : ℕ) : PyStr :=
  strip (ofBytes (printableRun data start))

/-! ### The firmware version -/

def versionPatterns : List (List UInt8) :=
  [ascii "Cisco Adaptive Security Appliance Software Version ",
    ascii "Cisco IOS Software, Version ", ascii "Cisco IOS XE Software, Version "]

/-- The bytes behind a banner and where they start. -/
def rawVersion (chunk pat : List UInt8) : Option (ℕ × List UInt8) :=
  (find pat chunk 0).map fun idx =>
    (idx + pat.length, (chunkAt 16 chunk (idx + pat.length)).takeWhile fun b => b ≠ 0 && b ≠ 10)

/-- The version that raw bytes give. -/
def versionText (raw : ℕ × List UInt8) : PyStr := strip (decodeAscii raw.2)

/-- The first banner that is followed by a version. -/
def banner (chunk : List UInt8) : Option (ℕ × List UInt8) :=
  (versionPatterns.filterMap (rawVersion chunk)).find? fun raw => versionText raw ≠ []

/-- `_detect_firmware_version` -/
def detectFirmwareVersion (chunk : List UInt8) : PyStr :=
  match banner chunk with
  | none => "unknown"
  | some raw => versionText raw

/-! ### The loop -/

/-- An anchor and the text behind it. -/
structure Section where
  anchor : List UInt8
  text : PyStr
deriving DecidableEq

def parseSection (anchor snippet : List UInt8) : Option Section :=
  some ⟨anchor, extractPrintableBlock snippet 0⟩

/-- The searches for `_ANCHOR_SENTINELS`. -/
def passes : List (Pass Section) :=
  [⟨ascii "hostname ", 4096, parseSection (ascii "hostname "), by decide, by decide⟩,
    ⟨ascii "interface ", 4096, parseSection (ascii "interface "), by decide, by decide⟩,
    ⟨ascii "router ", 4096, parseSection (ascii "router "), by decide, by decide⟩,
    ⟨ascii "ip route ", 4096, parseSection (ascii "ip route "), ipRoute_ne_nil, by decide⟩,
    ⟨ascii "line vty", 4096, parseSection (ascii "line vty"), by decide, by decide⟩,
    ⟨ascii "crypto ", 4096, parseSection (ascii "crypto "), by decide, by decide⟩,
    ⟨ascii "aaa ", 4096, parseSection (ascii "aaa "), by decide, by decide⟩]

/-- What the loop changes. -/
structure ConfigState where
  foundSections : List PyStr
  foundAnchors : List PyStr
  seenOffsets : List (List UInt8 × ℕ)

/-- A text is recorded unless its bucket was seen or it is empty. -/
def record (physOff : ℕ) (sec : Section) (s : ConfigState) : ConfigState :=
  let bucket := (sec.anchor, physOff / 64)
  if bucket ∈ s.seenOffsets then s
  else
    let seenOffsets := bucket :: s.seenOffsets
    if sec.text = [] then { s with seenOffsets := seenOffsets }
    else
      { foundSections := s.foundSections ++ [sec.text]
        foundAnchors := s.foundAnchors.insert (strip (ofBytes sec.anchor))
        seenOffsets := seenOffsets }

/-- The rating of a number of different anchors. -/
def confidence (sectionsFound : ℕ) : PyStr :=
  if sectionsFound = 0 then "NOT_FOUND"
  else if sectionsFound ≤ 2 then "LOW"
  else if sectionsFound ≤ 5 then "MEDIUM"
  else "HIGH"

/-- `running_config` -/
structure Config where
  text : PyStr
  confidence : PyStr
  sectionsFound : ℕ
  extractionMethod : PyStr
  firmwareVersion : PyStr
  structLayoutVersion : PyStr
deriving DecidableEq

/-- The loop over the dump with chunks of `n` bytes. -/
def scanSections (n : ℕ) (dump : Dump) : ConfigState := scanText record n passes dump ⟨[], [], []⟩

/-- `RunningConfigExtractor.run` with chunks of `n` bytes. -/
def run (n : ℕ) (dump : Dump) : Config :=
  let s := scanSections n dump
  { text := join "\n\n" s.foundSections
    confidence := confidence s.foundAnchors.length
    sectionsFound := s.foundAnchors.length
    extractionMethod := "text_pattern"
    firmwareVersion := detectFirmwareVersion (firstChunk dump)
    structLayoutVersion := "N/A" }

/-! ### The sections -/

/-- The bucket a hit is recorded under. -/
def bucket (h : Hit Section) : List UInt8 × ℕ := (h.value.anchor, h.pos / 64)

/-- What is recorded of a hit. -/
def recordedText (h : Hit Section) : List PyStr := if h.value.text = [] then [] else [h.value.text]

theorem records : Records some bucket recordedText (fun s h => record h.pos h.value s)
    ConfigState.seenOffsets ConfigState.foundSections where
  skip _ _ h := absurd h (Option.some_ne_none _)
  old s h b hsel hseen := by
    obtain rfl := Option.some.inj hsel
    rw [show record h.pos h.value s = s from if_pos hseen]
    exact ⟨rfl, rfl⟩
  new s h b hsel hseen := by
    obtain rfl := Option.some.inj hsel
    have hnew : (h.value.anchor, h.pos / 64) ∉ s.seenOffsets := hseen
    unfold record recordedText
    dsimp only
    rw [if_neg hnew]
    by_cases htext : h.value.text = []
    · rw [if_pos htext, if_pos htext, List.append_nil]
      exact ⟨rfl, rfl⟩
    · rw [if_neg htext, if_neg htext]
      exact ⟨rfl, rfl⟩

/-- **The texts are those of the first anchors of each bucket.** -/
theorem foundSections_eq {n : ℕ} {dump : Dump} (hn : 0 < n) :
    (scanSections n dump).foundSections =
      (firsts bucket [] (hits n passes (scanned n dump))).flatMap recordedText := by
  unfold scanSections
  rw [scanText_eq_foldl_scanned hn, records.found_foldl, List.filterMap_some]
  rfl

end VantaCore.Extractors.Cisco.Ios.RunningConfig
