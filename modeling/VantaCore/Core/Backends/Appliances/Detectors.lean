import VantaCore.Core.Backends.Appliances.ScanBytes
import VantaCore.Lib.PyText

/-! # The appliance detectors

Each detector gives a dump a score, in hundredths here, and the registry takes the best one that is
at least 0.6, the first of them in the order of discovery. What `ELFFile` reads is a parameter: the
segments it yields with their notes. -/

namespace VantaCore.Core.Backends.Appliances.Detectors

open VantaCore.Core.DumpHandle VantaCore.Lib.PyText
open VantaCore.Core.Backends.Appliances.ScanBytes

/-! ### ELF notes -/

/-- `note["n_type"]`. -/
inductive NoteType where
  | int (n : ℕ)
  | name (s : String)
deriving DecidableEq

/-- `note["n_desc"]`: bytes, a parsed structure with the field `pr_fname` (if it is there and
bytes), or something else. -/
inductive Desc where
  | bytes (bs : List UInt8)
  | fields (prFname : Option (List UInt8))
  | other
deriving DecidableEq

/-- A note. -/
structure Note where
  nType : NoteType
  nDesc : Desc
deriving DecidableEq

/-- A segment with the notes `iter_notes` yields, and whether it raises behind them. -/
structure Segment where
  pType : String
  notes : List Note
  raises : Bool
deriving DecidableEq

/-- `ELFFile(dump_handle).iter_segments()`: the segments before it ends or raises. -/
abbrev ElfFile := Dump → List Segment

/-- `pr_fname` of a note. -/
def prFname : Desc → List UInt8
  | .bytes bs => if 44 ≤ bs.length then readAt bs 40 16 else []
  | .fields (some fname) => fname
  | .fields none | .other => []

/-- The note names the process `lina`. -/
def isLina (note : Note) : Bool :=
  (note.nType = .int 3 || note.nType = .name "NT_PRPSINFO") &&
    (ascii "lina").isPrefixOf (prFname note.nDesc)

/-- What the loop over the segments adds to the score. An exception ends it. -/
def noteScore : List Segment → ℕ
  | [] => 0
  | segment :: segments =>
    if segment.pType ≠ "PT_NOTE" then noteScore segments
    else if segment.notes.any isLina then 65 + noteScore segments
    else if segment.raises then 0
    else noteScore segments

/-! ### Scores -/

/-- `b"\x7fELF"`. -/
def elfMagic : List UInt8 := [0x7f, 0x45, 0x4c, 0x46]

/-- The banner is found in the first `limit` bytes. -/
def hasBanner (dump : Dump) (banner : String) (limit : ℕ) : Bool :=
  (scanBytes dump (ascii banner) (min dump.length limit) defaultChunkSize).1

/-- `CiscoASADetector.detect`; `none` if it raises, on a header of less than 18 bytes. -/
def ciscoAsaDetect (elfFile : ElfFile) (dump : Dump) : Option ℕ :=
  let data := readAt dump 0 18
  if data.length < 5 ∨ readAt data 0 4 ≠ elfMagic ∨ data.getD 4 0 ≠ 2 then some 0
  else if data.length < 18 then none
  else
    let eType := unpackLE (readAt data 16 2)
    let score := if eType = 4 then 30 else 0
    let score := score + noteScore (elfFile dump)
    let scanLimit := 64 * 1024 * 1024
    let score :=
      if hasBanner dump "Cisco Adaptive Security Appliance" scanLimit then score + 50
      else if hasBanner dump "Cisco ASA" scanLimit then score + 30
      else score
    some (min score 100)

/-- `CiscoIOSDetector.detect`. -/
def ciscoIosDetect (dump : Dump) : ℕ :=
  let magic := readAt dump 0 4
  let scanLimit := 32 * 1024 * 1024
  let score := if hasBanner dump "Cisco IOS Software" scanLimit then 80 else 0
  let score := if hasBanner dump "IOS (tm)" scanLimit then score + 60 else score
  let score := if magic ≠ elfMagic ∧ 0 < score then score + 10 else score
  min score 100

/-- `CiscoIOSXEDetector.detect`. -/
def ciscoIosxeDetect (dump : Dump) : ℕ :=
  let magic := readAt dump 0 4
  if magic ≠ elfMagic then 0
  else
    let scanLimit := 64 * 1024 * 1024
    let score := if hasBanner dump "Cisco IOS XE Software" scanLimit then 80 else 0
    let score := if hasBanner dump "IOSd" scanLimit then score + 50 else score
    let score := if hasBanner dump "Linux version" scanLimit then score + 20 else score
    min score 100

/-! ### The registry -/

/-- The translation backends. -/
inductive BackendClass where
  | x8664TranslationBackend
  | flatImageBackend
deriving DecidableEq

/-- The shipped detectors. -/
inductive Detector where
  | ciscoAsa
  | ciscoIos
  | ciscoIosxe
  | genericFlat
deriving DecidableEq

namespace Detector

def platformName : Detector → String
  | ciscoAsa => "cisco_asa"
  | ciscoIos => "cisco_ios"
  | ciscoIosxe => "cisco_iosxe"
  | genericFlat => "generic_flat"

/-- `detect`; `none` if it raises. -/
def detect (elfFile : ElfFile) (dump : Dump) : Detector → Option ℕ
  | ciscoAsa => ciscoAsaDetect elfFile dump
  | ciscoIos => some (ciscoIosDetect dump)
  | ciscoIosxe => some (ciscoIosxeDetect dump)
  | genericFlat => some 10

def getTranslationBackendClass : Detector → BackendClass
  | ciscoAsa | ciscoIosxe => .x8664TranslationBackend
  | ciscoIos | genericFlat => .flatImageBackend

end Detector

/-- The detectors in the order their modules are discovered. -/
def detectors : List Detector := [.ciscoAsa, .ciscoIos, .ciscoIosxe, .genericFlat]

/-- `max(results, key=lambda item: item[0])`: the first of the best. -/
def maxFirst {δ : Type*} : List (ℕ × δ) → Option (ℕ × δ)
  | [] => none
  | r :: rs =>
    match maxFirst rs with
    | none => some r
    | some best => if r.1 < best.1 then some best else some r

/-- `PlatformDetectorRegistry.detect`; a detector that raises is skipped. -/
def registryDetect (elfFile : ElfFile) (detectors : List Detector) (dump : Dump) :
    Option Detector :=
  let results := detectors.filterMap fun d => (d.detect elfFile dump).map fun score => (score, d)
  let qualified := results.filter fun r => 60 ≤ r.1
  (maxFirst qualified).map (·.2)

/-! ### The first of the best -/

section MaxFirst

variable {δ : Type*} {r best : ℕ × δ} {rs : List (ℕ × δ)}

theorem maxFirst_cons_of_lt (h : maxFirst rs = some best) (hlt : r.1 < best.1) :
    maxFirst (r :: rs) = some best := by
  rw [maxFirst, h]
  exact if_pos hlt

theorem maxFirst_eq_some : ∀ {rs : List (ℕ × δ)} {best : ℕ × δ}, maxFirst rs = some best →
    best ∈ rs ∧ ∀ r ∈ rs, r.1 ≤ best.1
  | [], _, h => by cases h
  | r :: rs, best, h => by
    rw [maxFirst] at h
    cases hrs : maxFirst rs with
    | none =>
      rw [hrs] at h
      obtain rfl := Option.some.inj h
      have hnil : rs = [] := by
        cases rs with
        | nil => rfl
        | cons r' rs =>
          rw [maxFirst] at hrs
          cases hrs' : maxFirst rs <;> rw [hrs'] at hrs
          · cases hrs
          · dsimp only at hrs
            split_ifs at hrs
      subst hnil
      simp
    | some best' =>
      obtain ⟨hmem, hle⟩ := maxFirst_eq_some hrs
      rw [hrs] at h
      dsimp only at h
      split_ifs at h with hlt
      · obtain rfl := Option.some.inj h
        refine ⟨List.mem_cons_of_mem _ hmem, fun r' hr' => ?_⟩
        rcases List.mem_cons.mp hr' with rfl | hr'
        · omega
        · exact hle r' hr'
      · obtain rfl := Option.some.inj h
        refine ⟨List.mem_cons_self, fun r' hr' => ?_⟩
        rcases List.mem_cons.mp hr' with rfl | hr'
        · exact le_rfl
        · have := hle r' hr'
          omega

theorem maxFirst_cons_of_le (h : ∀ r' ∈ rs, r'.1 ≤ r.1) : maxFirst (r :: rs) = some r := by
  rw [maxFirst]
  cases hrs : maxFirst rs with
  | none => rfl
  | some best =>
    have := h best (maxFirst_eq_some hrs).1
    exact if_neg (by omega)

/-- The first wins against one that is not better. -/
theorem lt_of_maxFirst_cons (h : maxFirst (r :: rs) = some best) (hne : best ≠ r) :
    r.1 < best.1 := by
  rw [maxFirst] at h
  cases hrs : maxFirst rs with
  | none =>
    rw [hrs] at h
    exact absurd (Option.some.inj h).symm hne
  | some best' =>
    rw [hrs] at h
    dsimp only at h
    split_ifs at h with hlt
    · rwa [← Option.some.inj h]
    · exact absurd (Option.some.inj h).symm hne

end MaxFirst

end VantaCore.Core.Backends.Appliances.Detectors
