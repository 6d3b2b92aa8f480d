import VantaCore.Core.Backends.CutHeader
import VantaCore.Core.Entropy
import VantaCore.Utils.Validation

/-! # The command `verify`

`_cmd_verify` puts the hash of a dump, what the detectors say of it and whether its ELF header is valid
into one report. It hands the validator the open file where that takes bytes, and takes any exception
for an invalid header: no header is ever reported as valid (`elfValid_eq_false`), and a report is wrong
exactly where it is about an ELF core file (`elfValidRight_iff`). The hash, what `ELFFile` reads and
the entropy of a page are parameters. -/

namespace VantaCore.Cli.Verify

open VantaCore.Core.DumpHandle VantaCore.Core.Backends VantaCore.Core.Backends.Detector
open VantaCore.Core.Backends.Appliances.Detectors VantaCore.Core.Backends.Agreement
open VantaCore.Core.Backends.CutHeader VantaCore.Core.Entropy VantaCore.Utils.Validation

/-- `get_architecture_name` -/
def architectureName : Backend → String
  | .x8664 _ => "x86_64"
  | .flatImage _ => "flat"

/-- What the command prints; the confidence in hundredths. -/
structure Report where
  sha256 : String
  fileSize : ℕ
  elfValid : Bool
  platform : String
  confidence : ℕ
  architecture : String
  encrypted : Bool
deriving DecidableEq

/-- What the libraries the command calls compute of a dump. -/
structure Libraries where
  sha256 : Dump → String
  elfFile : ElfFile
  elfNotes : Dump → List ElfNote
  highEntropy : List UInt8 → Bool

/-- The check of the header: `elf_valid`. -/
def elfValid (dump : Dump) : Bool :=
  let magic := readAt dump 0 4
  if magic = elfMagic then
    match validateElfHeader (.file dump) with
    | .ok () => true
    | .error _ => false
  else false

/-- The platform and its confidence; the generic one where the registry finds none, `none` where the
detector raises. -/
def platform (libs : Libraries) (dump : Dump) : Option (String × ℕ) :=
  match registryDetect libs.elfFile detectors dump with
  | none => some (Detector.genericFlat.platformName, 10)
  | some d => (d.detect libs.elfFile dump).map fun confidence => (d.platformName, confidence)

/-- `_cmd_verify`, of a file that can be opened: its report, or what it raises. -/
def cmdVerify (libs : Libraries) (dump : Dump) : Except Detector.Error Report :=
  let fileSize := dump.length
  let enc := Core.Entropy.detect libs.highEntropy libs.elfNotes dump fileSize
  match platform libs dump with
  | none => .error .structError
  | some (platformName, confidence) =>
    match architectureDetect dump with
    | .error e => .error e
    | .ok backend =>
      .ok
        { sha256 := libs.sha256 dump
          fileSize := fileSize
          elfValid := elfValid dump
          platform := platformName
          confidence := confidence
          architecture := architectureName backend
          encrypted := enc.likelyEncrypted }

variable {libs : Libraries} {dump : Dump}

/-! ### The header -/

/-- **No header is reported as valid.** -/
theorem elfValid_eq_false (dump : Dump) : elfValid dump = false := by
  unfold elfValid
  rw [validateElfHeader_file]
  dsimp only
  split_ifs <;> rfl

/-- The first bytes of an ELF core file are its header. -/
theorem elfCore_header_iff : ElfCore (readAt dump 0 20) ↔ ElfCore dump := by
  have hfield : readAt (readAt dump 0 20) 16 2 = readAt dump 16 2 := by
    rw [readAt, readAt, readAt, List.drop_zero, List.drop_take, List.take_take]
    rfl
  unfold ElfCore
  rw [length_header, readAt_header (by decide), hfield, le_min_iff, and_iff_right le_rfl]

/-! ### The report -/

/-- The registry's detector does not raise. -/
theorem platform_ne_none (libs : Libraries) (dump : Dump) : platform libs dump ≠ none := by
  unfold platform
  cases h : registryDetect libs.elfFile detectors dump with
  | none => simp
  | some d =>
    unfold registryDetect at h
    obtain ⟨r, hmax, rfl⟩ := Option.map_eq_some_iff.mp h
    have hmem := (maxFirst_eq_some hmax).1
    obtain ⟨d, -, hd⟩ := List.mem_filterMap.mp (List.mem_filter.mp hmem).1
    obtain ⟨score, hscore, rfl⟩ := Option.map_eq_some_iff.mp hd
    simp [hscore]

/-- The command reports what the architecture detector takes. -/
theorem cmdVerify_of_ok {b : Backend} (h : architectureDetect dump = .ok b) :
    ∃ report, cmdVerify libs dump = .ok report := by
  obtain ⟨p, hp⟩ := Option.ne_none_iff_exists'.mp (platform_ne_none libs dump)
  unfold cmdVerify
  rw [hp, h]
  exact ⟨_, rfl⟩

theorem of_cmdVerify {report : Report} (h : cmdVerify libs dump = .ok report) :
    (∃ b, architectureDetect dump = .ok b) ∧ report.elfValid = elfValid dump := by
  unfold cmdVerify at h
  cases hp : platform libs dump with
  | none =>
    rw [hp] at h
    cases h
  | some p =>
    rw [hp] at h
    cases hdetect : architectureDetect dump with
    | error e =>
      rw [hdetect] at h
      cases h
    | ok b =>
      rw [hdetect] at h
      obtain rfl := Except.ok.inj h
      exact ⟨⟨b, rfl⟩, rfl⟩

/-- **The report is right about the header**: it is valid where the validator accepts the first bytes
of the file. -/
def ElfValidRight (libs : Libraries) (dump : Dump) : Prop :=
  ∀ report, cmdVerify libs dump = .ok report →
    (report.elfValid = true ↔ validateElfHeader (.bytes (readAt dump 0 20)) = .ok ())

/-- An ELF core file of an x86-64 machine. -/
def X8664Core (dump : Dump) : Prop := ElfCore dump ∧ IsX8664Elf dump

/-- An ELF file that is reported on is one of an x86-64 machine. -/
theorem isX8664Elf_of_detect {b : Backend} (helf : IsElf dump)
    (h : architectureDetect dump = .ok b) : IsX8664Elf dump := by
  rcases architectureDetect_cases h with ⟨-, hdetect⟩ | ⟨-, -, hnot⟩
  · rcases x8664Detect_iff.mp hdetect with hraw | hx8664
    · exact absurd helf hraw.1
    · exact hx8664
  · exact absurd helf hnot

theorem X8664Core.not_right (h : X8664Core dump) : ¬ ElfValidRight libs dump := by
  intro hright
  obtain ⟨hcore, hx8664⟩ := h
  have hreports : ∃ report, cmdVerify libs dump = .ok report :=
    cmdVerify_of_ok (architectureDetect_of_forX8664 (Or.inr hx8664))
  obtain ⟨report, hreport⟩ := hreports
  have haccepts := (hright report hreport).mpr
    (validateElfHeader_bytes_iff.mpr (elfCore_header_iff.mpr hcore))
  rw [(of_cmdVerify hreport).2, elfValid_eq_false] at haccepts
  cases haccepts

/-- **The validator accepts ELF core files**, and the report is right about the header exactly if the
file is not one of an x86-64 machine. -/
theorem elfValidRight_iff (libs : Libraries) (dump : Dump) :
    (validateElfHeader (.bytes (readAt dump 0 20)) = .ok () ↔ ElfCore dump) ∧
      (ElfValidRight libs dump ↔ ¬ X8664Core dump) := by
  have haccepts : validateElfHeader (.bytes (readAt dump 0 20)) = .ok () ↔ ElfCore dump :=
    validateElfHeader_bytes_iff.trans elfCore_header_iff
  refine ⟨haccepts, fun h hcore => hcore.not_right h, fun hcore report hreport => ?_⟩
  obtain ⟨⟨b, hdetect⟩, hvalid⟩ := of_cmdVerify hreport
  rw [hvalid, elfValid_eq_false, haccepts]
  refine iff_of_false (by decide) fun hheader => hcore ⟨hheader, ?_⟩
  exact isX8664Elf_of_detect hheader.2.1 hdetect

/-- The header of an x86-64 ELF core file. -/
def coreHeader : Dump := elfMagic ++ [2, 1, 1] ++ List.replicate 9 0 ++ [4, 0, 62, 0]

/-- The report calls the header of a core file invalid. -/
theorem not_elfValidRight : ¬ ∀ (libs : Libraries) (dump : Dump), ElfValidRight libs dump := by
  intro h
  have hcore : X8664Core coreHeader := ⟨⟨by decide, by decide, by decide⟩,
    ⟨by decide, by decide, by decide, by decide⟩⟩
  exact hcore.not_right (h ⟨fun _ => "", fun _ => [], fun _ => [], fun _ => false⟩ coreHeader)

end VantaCore.Cli.Verify
