import VantaCore.Extractors.Cisco.Text
import VantaCore.Extractors.Linux.Fields
import VantaCore.Lib.ChunkSearch

/-! # The lina process

`LinaProcessExtractor`. The firmware version is what is printable behind the banner in the first
64 KiB. The threads are the last 256 notes of the ELF file whose type the library that reads it gives as
the number 1 or 3, or, where there are none, one nameless thread for each of the first 256 places of a
text (`linaThreads_eq`). Where the library knows both types by name no note is read
(`dumpProcesses_of_named`). -/

namespace VantaCore.Extractors.Cisco.Asa.LinaProcess

open VantaCore.Core.DumpHandle VantaCore.Lib.Search VantaCore.Lib.PyText VantaCore.Lib.ChunkSearch
open VantaCore.Extractors.Cisco.Text VantaCore.Extractors.Cisco.TextScan
open VantaCore.Extractors.Linux.Fields (unpackSigned)

/-- A printable ASCII character. -/
def isPrintable (c : CodePoint) : Bool := 32 ≤ c.val && c.val ≤ 126

/-- `_extract_printable` -/
def extractPrintable (b : List UInt8) : PyStr :=
  let raw := b.takeWhile (· ≠ 0)
  let decoded := decodeAscii raw
  strip (decoded.filter isPrintable)

/-- `_detect_firmware_version` -/
def detectFirmwareVersion (dump : Dump) : PyStr :=
  let headerChunk := readAt dump 0 65536
  match find versionPrefix headerChunk 0 with
  | none => "unknown"
  | some idx =>
    let start := idx + versionPrefix.length
    let verBytes := readAt headerChunk start 16
    let verStr := extractPrintable verBytes
    if verStr = [] then "unknown" else verStr

/-! ### Notes -/

/-- `_MAX_NOTES` -/
def maxNotes : ℕ := 256

/-- The type of a note as the library gives it: the name it knows, or a number that it has none for. -/
inductive NoteType
  | name (s : String)
  | number (k : ℕ)
deriving DecidableEq

/-- A note of an ELF file. -/
structure Note where
  nType : NoteType
  nDesc : List UInt8

/-- What the library reads of an ELF file: the notes of its `PT_NOTE` segments and those of its
sections, `none` where it raises on the way. -/
structure ElfFile where
  segmentNotes : Option (List Note)
  sectionNotes : Option (List Note)

/-- What a note says of a process. -/
structure ProcessInfo where
  pid : ℤ
  ppid : ℤ
  name : PyStr
  args : PyStr
deriving DecidableEq

/-- `_parse_prpsinfo_note` -/
def parsePrpsinfoNote (desc : List UInt8) : Option ProcessInfo :=
  if desc.length < 136 then none
  else
    let prFname := extractPrintable (readAt desc 40 16)
    some
      { pid := unpackSigned 4 desc 24
        ppid := unpackSigned 4 desc 28
        name := if prFname = [] then "lina" else prFname
        args := extractPrintable (readAt desc 56 80) }

/-- What is read of a note: `note.n_type in (1, 3)`, which no name is. -/
def processOf (note : Note) : Option ProcessInfo :=
  if note.nType = .number 1 ∨ note.nType = .number 3 then parsePrpsinfoNote note.nDesc else none

/-- `note_queue.append` of a queue of at most `cap` entries: a full one loses its first entry. -/
def push (cap : ℕ) (q : List ProcessInfo) (info : ProcessInfo) : List ProcessInfo :=
  (q ++ [info]).drop (q.length + 1 - cap)

/-- The loop over notes. -/
def readNotes (cap : ℕ) (notes : List Note) (q : List ProcessInfo) : List ProcessInfo :=
  notes.foldl (fun q note =>
    match processOf note with
    | none => q
    | some info => push cap q info) q

/-- The queue behind both loops, `none` for an exception. -/
def noteQueue (elf : ElfFile) : Option (List ProcessInfo) :=
  match elf.segmentNotes with
  | none => none
  | some notes =>
    let q := readNotes maxNotes notes []
    if q = [] then elf.sectionNotes.map fun notes => readNotes maxNotes notes q else some q

/-! ### Threads -/

/-- Where a thread was found. -/
inductive Source
  | elfNote
  | patternScan
deriving DecidableEq

/-- An entry of `lina_threads`. -/
structure LinaThread where
  info : ProcessInfo
  source : Source
  firmwareVersion : PyStr
  structLayoutVersion : PyStr
deriving DecidableEq

/-- The thread of a note. -/
def noteThread (fwVersion : PyStr) (info : ProcessInfo) : LinaThread :=
  ⟨info, .elfNote, fwVersion, "N/A"⟩

/-- The thread of a place of the text. -/
def patternThread (fwVersion : PyStr) : LinaThread := ⟨⟨0, 0, "lina", []⟩, .patternScan, fwVersion, "N/A"⟩

/-- The text the fallback looks for. -/
def linaPattern : List UInt8 := ascii "lina\x00"

/-- `LinaProcessExtractor.run` with chunks of `n` bytes; `elfFile` is the library, `none` where it raises
at once. -/
def run (elfFile : Dump → Option ElfFile) (n : ℕ) (dump : Dump) : List LinaThread :=
  let fwVersion := detectFirmwareVersion dump
  let threads :=
    match (elfFile dump).bind noteQueue with
    | none => []
    | some q => q.map (noteThread fwVersion)
  if threads = [] then
    collectScan maxHops maxNotes n (fun _ => patternThread fwVersion) linaPattern dump
  else threads

/-! ### What is reported -/

variable {cap n : ℕ}

/-- The last `cap` elements. -/
def lastOf (cap : ℕ) (l : List ProcessInfo) : List ProcessInfo := l.drop (l.length - cap)

@[simp] theorem lastOf_nil : lastOf cap [] = [] := List.drop_nil

theorem push_lastOf (l : List ProcessInfo) (info : ProcessInfo) :
    push cap (lastOf cap l) info = lastOf cap (l ++ [info]) := by
  unfold push lastOf
  rw [← List.drop_append_of_le_length (Nat.sub_le _ _), List.drop_drop, List.length_drop,
    List.length_append, List.length_singleton]
  congr 1
  omega

/-- The processes a list of notes tells of. -/
def processes (notes : List Note) : List ProcessInfo := notes.filterMap processOf

theorem readNotes_lastOf : ∀ (notes : List Note) (l : List ProcessInfo),
    readNotes cap notes (lastOf cap l) = lastOf cap (l ++ processes notes)
  | [], l => by
    rw [processes, List.filterMap_nil, List.append_nil]
    rfl
  | note :: notes, l => by
    have ih := readNotes_lastOf notes
    unfold readNotes processes at ih ⊢
    rw [List.foldl_cons, List.filterMap_cons]
    cases processOf note with
    | none => exact ih l
    | some info =>
      dsimp only
      rw [push_lastOf, ih, List.append_assoc, List.singleton_append]

/-- **The queue holds the last processes.** -/
theorem readNotes_nil (notes : List Note) :
    readNotes cap notes [] = lastOf cap (processes notes) := by
  have h := @readNotes_lastOf cap notes []
  rwa [lastOf_nil, List.nil_append] at h

theorem lastOf_eq_nil_iff (hcap : 0 < cap) {l : List ProcessInfo} : lastOf cap l = [] ↔ l = [] := by
  unfold lastOf
  rw [List.drop_eq_nil_iff, ← List.length_eq_zero_iff]
  omega

theorem lastOf_maxNotes_eq_nil_iff {l : List ProcessInfo} : lastOf maxNotes l = [] ↔ l = [] :=
  lastOf_eq_nil_iff (by decide)

/-- The processes of an ELF file: those of the segments, or those of the sections where the segments
tell of none. An exception loses them all. -/
def elfProcesses (elf : ElfFile) : List ProcessInfo :=
  match elf.segmentNotes with
  | none => []
  | some notes =>
    if processes notes = [] then (elf.sectionNotes.map processes).getD [] else processes notes

theorem noteQueue_getD (elf : ElfFile) :
    (noteQueue elf).getD [] = lastOf maxNotes (elfProcesses elf) := by
  unfold noteQueue elfProcesses
  cases elf.segmentNotes with
  | none => exact lastOf_nil.symm
  | some notes =>
    dsimp only
    rw [readNotes_nil]
    by_cases hnil : processes notes = []
    · rw [hnil, lastOf_nil, if_pos rfl, if_pos rfl]
      cases elf.sectionNotes with
      | none => exact lastOf_nil.symm
      | some notes' => exact readNotes_nil notes'
    · rw [if_neg fun h => hnil (lastOf_maxNotes_eq_nil_iff.mp h), if_neg hnil, Option.getD_some]

/-- The processes of a dump; there are none if it is no ELF file. -/
def dumpProcesses (elf : Option ElfFile) : List ProcessInfo := (elf.map elfProcesses).getD []

theorem queue_getD (elf : Option ElfFile) :
    (elf.bind noteQueue).getD [] = lastOf maxNotes (dumpProcesses elf) := by
  cases elf with
  | none => exact lastOf_nil.symm
  | some elf => exact noteQueue_getD elf

theorem linaPattern_ne_nil : linaPattern ≠ [] := by decide

theorem borderless_linaPattern : Borderless linaPattern := by decide

/-- **What the extractor reports**: the last 256 processes of the ELF file, or, where it tells of none,
one and the same thread as often as the text stands in a chunk, at most 256 times. -/
theorem linaThreads_eq (elfFile : Dump → Option ElfFile) (hn : 0 < n) (dump : Dump) :
    run elfFile n dump =
      if dumpProcesses (elfFile dump) = [] then
        List.replicate (min maxNotes (uncut n linaPattern (scanned n dump)).length)
          (patternThread (detectFirmwareVersion dump))
      else
        (lastOf maxNotes (dumpProcesses (elfFile dump))).map
          (noteThread (detectFirmwareVersion dump)) := by
  have hthreads : (match (elfFile dump).bind noteQueue with
      | none => []
      | some q => q.map (noteThread (detectFirmwareVersion dump))) =
      (lastOf maxNotes (dumpProcesses (elfFile dump))).map (noteThread (detectFirmwareVersion dump)) := by
    rw [← queue_getD]
    cases (elfFile dump).bind noteQueue <;> rfl
  have hnone : (lastOf maxNotes (dumpProcesses (elfFile dump))).map
      (noteThread (detectFirmwareVersion dump)) = [] ↔ dumpProcesses (elfFile dump) = [] := by
    rw [List.map_eq_nil_iff, lastOf_maxNotes_eq_nil_iff]
  unfold run
  dsimp only
  rw [hthreads]
  by_cases hprocesses : dumpProcesses (elfFile dump) = []
  · rw [if_pos (hnone.mpr hprocesses), if_pos hprocesses,
      collectScan_eq hn linaPattern_ne_nil borderless_linaPattern, List.map_const', List.length_take]
    rfl
  · rw [if_neg (mt hnone.mp hprocesses), if_neg hprocesses]

/-- The library gives no type as the number 1 or 3. -/
def Named (notes : List Note) : Prop :=
  ∀ note ∈ notes, note.nType ≠ .number 1 ∧ note.nType ≠ .number 3

theorem processes_of_named {notes : List Note} (h : Named notes) : processes notes = [] := by
  refine List.filterMap_eq_nil_iff.mpr fun note hnote => ?_
  obtain ⟨hone, hthree⟩ := h note hnote
  exact if_neg (not_or.mpr ⟨hone, hthree⟩)

/-- **A library that knows both types by name** tells of no process. -/
theorem dumpProcesses_of_named {elf : Option ElfFile}
    (h : ∀ e ∈ elf, ∀ notes, e.segmentNotes = some notes ∨ e.sectionNotes = some notes → Named notes) :
    dumpProcesses elf = [] := by
  cases elf with
  | none => rfl
  | some e =>
    show elfProcesses e = []
    unfold elfProcesses
    cases hsegments : e.segmentNotes with
    | none => rfl
    | some notes =>
      dsimp only
      rw [if_pos (processes_of_named (h e rfl notes (Or.inl hsegments)))]
      cases hsections : e.sectionNotes with
      | none => rfl
      | some notes' => exact processes_of_named (h e rfl notes' (Or.inr hsections))

/-- What the note of a process with the number 9 and the name `lina` holds. -/
def linaDesc : List UInt8 :=
  List.replicate 24 0 ++ [9, 0, 0, 0, 1, 0, 0, 0] ++ List.replicate 8 0 ++ ascii "lina\x00" ++
    List.replicate 91 0

/-- A 64-bit core file with one segment, of one `NT_PRPSINFO` note. -/
def coreFile : Dump :=
  [0x7f, 0x45, 0x4c, 0x46, 2, 1, 1] ++ List.replicate 9 0 ++
    [4, 0, 0x3e, 0, 1, 0, 0, 0] ++ List.replicate 8 0 ++ [64, 0, 0, 0, 0, 0, 0, 0] ++
    List.replicate 12 0 ++ [64, 0, 56, 0, 1, 0, 64, 0, 0, 0, 0, 0] ++
    [4, 0, 0, 0, 4, 0, 0, 0, 120, 0, 0, 0, 0, 0, 0, 0] ++ List.replicate 16 0 ++
    [156, 0, 0, 0, 0, 0, 0, 0, 156, 0, 0, 0, 0, 0, 0, 0, 4, 0, 0, 0, 0, 0, 0, 0] ++
    [5, 0, 0, 0, 136, 0, 0, 0, 3, 0, 0, 0] ++ ascii "CORE" ++ List.replicate 4 0 ++ linaDesc

/-- A library that names the type of the note, and raises at what is no ELF file. -/
def namingLibrary (dump : Dump) : Option ElfFile :=
  if dump = coreFile then some ⟨some [⟨.name "NT_PRPSINFO", linaDesc⟩], some []⟩ else none

/-- A dump that names the process three times, once over the end of a chunk. -/
def sampleDump : Dump := ascii "lina\x00 lina\x00     lina\x00"

/-- The process of the core file is not reported, the name in its note is. -/
theorem linaThreads_eq_sample :
    run namingLibrary 512 coreFile = [patternThread "unknown"] ∧
      run namingLibrary 8 sampleDump = [patternThread "unknown", patternThread "unknown"] := by
  have hversion : detectFirmwareVersion coreFile = "unknown" := by decide +kernel
  have hversion' : detectFirmwareVersion sampleDump = "unknown" := by decide +kernel
  have hprocesses : dumpProcesses (namingLibrary coreFile) = [] := by decide +kernel
  have hprocesses' : dumpProcesses (namingLibrary sampleDump) = [] := by decide +kernel
  have hplaces : (uncut 512 linaPattern (scanned 512 coreFile)).length = 1 := by decide +kernel
  have hplaces' : (uncut 8 linaPattern (scanned 8 sampleDump)).length = 2 := by decide +kernel
  constructor
  · rw [linaThreads_eq _ (by decide), hversion, if_pos hprocesses, hplaces]
    rfl
  · rw [linaThreads_eq _ (by decide), hversion', if_pos hprocesses', hplaces']
    rfl

end VantaCore.Extractors.Cisco.Asa.LinaProcess
