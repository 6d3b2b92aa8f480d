import VantaCore.Core.Backends.Appliances.Detectors
import VantaCore.Lib.Sampling

/-! # Encrypted memory

`EncryptedMemoryDetector.detect` samples up to 64 pages of a dump and takes it for encrypted if at
least three quarters of them are of high entropy; it also looks for the notes of an ELF file that say
so. Whether a page is of high entropy (`shannon_entropy > 7.9`, in floating point) is a parameter, and
so are the notes `ELFFile` yields. The confidence is a rational: the quotient of two counts up to 64
is rounded to 0.75 or more exactly if it is. -/

namespace VantaCore.Core.Entropy

open VantaCore.Lib.Sampling VantaCore.Core.DumpHandle
open VantaCore.Core.Backends.Appliances.Detectors (NoteType elfMagic)

/-! ### ELF notes -/

/-- `note.n_desc`: bytes, or another object with a length, that cannot be unpacked. -/
inductive NoteDesc where
  | bytes (noteData : List UInt8)
  | other (length : ℕ)
deriving DecidableEq

/-- A note of a section. -/
structure ElfNote where
  nName : String
  nType : NoteType
  nDesc : NoteDesc
deriving DecidableEq

/-- The evidence of one register: the encryption bit of AMD SEV or of Intel TME. -/
def registerEvidence (msrIdx msrVal : ℕ) : List String :=
  if msrIdx = 0xC0010131 ∧ msrVal &&& 1 ≠ 0 then ["AMD SEV active (MSR 0xC0010131 bit 0 set)"]
  else if msrIdx = 0x982 ∧ msrVal &&& 1 ≠ 0 then ["Intel TME active (MSR 0x982 bit 0 set)"]
  else []

/-- The loop over the records of a note, twelve bytes each. -/
def recordsEvidence (noteData : List UInt8) (offset : ℕ) : List String :=
  if offset + 12 ≤ noteData.length then
    let msrIdx := unpackLE (readAt noteData offset 4)
    let msrVal := unpackLE (readAt noteData (offset + 4) 8)
    registerEvidence msrIdx msrVal ++ recordsEvidence noteData (offset + 12)
  else []
termination_by noteData.length - offset
decreasing_by omega

/-- The loop over the notes. An exception ends it and keeps what was found. -/
def notesEvidence : List ElfNote → List String
  | [] => []
  | note :: notes =>
    if (note.nName = "LINUX" ∨ note.nName = "CORE") ∧ note.nType = .int 0x202 then
      match note.nDesc with
      | .bytes noteData => recordsEvidence noteData 0 ++ notesEvidence notes
      | .other length => if 12 ≤ length then [] else notesEvidence notes
    else notesEvidence notes

/-! ### The samples -/

/-- The counters of the loop over the samples. -/
structure Samples where
  highEntropyCount : ℕ
  totalSampledPages : ℕ
deriving DecidableEq, Repr

/-- `(i * step) & ~0xFFF`. -/
def pageOffset (step i : ℕ) : ℕ := i * step - (i * step &&& 0xFFF)

variable (highEntropy : List UInt8 → Bool) (elfNotes : Dump → List ElfNote) (dump : Dump)
variable (fileSize step : ℕ)

/-- The body of the loop. -/
def samplePage (s : Samples) (i : ℕ) : Samples :=
  if pageOffset step i + 4096 > fileSize then s
  else
    let page := readAt dump (pageOffset step i) 4096
    if page.length < 4096 then s
    else
      { totalSampledPages := s.totalSampledPages + 1
        highEntropyCount :=
          if highEntropy page then s.highEntropyCount + 1 else s.highEntropyCount }

/-- The loop over the 64 samples. -/
def samplePages : Samples :=
  (List.range 64).foldl (samplePage highEntropy dump fileSize step) ⟨0, 0⟩

/-- What `detect` returns. -/
structure Detection where
  likelyEncrypted : Bool
  confidence : ℚ
  evidence : List String
deriving DecidableEq

/-- `EncryptedMemoryDetector.detect`. -/
def detect : Detection :=
  if fileSize < 4096 then ⟨false, 0, []⟩
  else
    let step := max (fileSize / 64) 4096
    let s := samplePages highEntropy dump fileSize step
    let confidence : ℚ :=
      if 0 < s.totalSampledPages then (s.highEntropyCount : ℚ) / s.totalSampledPages else 0
    let likelyEncrypted := decide (confidence ≥ 3 / 4)
    let magic := readAt dump 0 4
    let evidence := if magic = elfMagic then notesEvidence (elfNotes dump) else []
    ⟨likelyEncrypted, confidence, evidence⟩

/-! ### The pages that are sampled -/

/-- The page at an offset is sampled: it is within the file and is read whole. -/
def IsSampled (o : ℕ) : Prop := o + 4096 ≤ fileSize ∧ 4096 ≤ (readAt dump o 4096).length

instance (o : ℕ) : Decidable (IsSampled dump fileSize o) := inferInstanceAs (Decidable (_ ∧ _))

/-- The offsets of the pages that are sampled, in order. -/
def sampledOffsets : List ℕ :=
  ((List.range 64).map (pageOffset step)).filter (IsSampled dump fileSize ·)

/-- A page that is sampled is counted. -/
def countPage (s : Samples) (o : ℕ) : Samples :=
  { totalSampledPages := s.totalSampledPages + 1
    highEntropyCount :=
      if highEntropy (readAt dump o 4096) then s.highEntropyCount + 1 else s.highEntropyCount }

variable {highEntropy elfNotes dump fileSize step}

theorem samplePage_eq (s : Samples) (i : ℕ) : samplePage highEntropy dump fileSize step s i =
    if IsSampled dump fileSize (pageOffset step i) then
      countPage highEntropy dump s (pageOffset step i)
    else s := by
  unfold samplePage
  by_cases h : IsSampled dump fileSize (pageOffset step i)
  · rw [if_pos h, if_neg (Nat.not_lt.mpr h.1)]
    exact if_neg (Nat.not_lt.mpr h.2)
  · rw [if_neg h]
    split_ifs with hend
    · rfl
    · have hshort : (readAt dump (pageOffset step i) 4096).length < 4096 :=
        Nat.not_le.mp fun hlen => h ⟨Nat.not_lt.mp hend, hlen⟩
      exact if_pos hshort

theorem foldl_countPage : ∀ (offsets : List ℕ) (s : Samples),
    offsets.foldl (countPage highEntropy dump) s =
      ⟨s.highEntropyCount + offsets.countP fun o => highEntropy (readAt dump o 4096),
        s.totalSampledPages + offsets.length⟩
  | [], _ => rfl
  | o :: offsets, s => by
    rw [List.foldl_cons, foldl_countPage offsets, List.countP_cons, List.length_cons]
    unfold countPage
    dsimp only
    rw [Samples.mk.injEq]
    split_ifs <;> omega

/-- **The counters count the pages that are sampled**, and those of them of high entropy. -/
theorem samplePages_eq : samplePages highEntropy dump fileSize step =
    ⟨(sampledOffsets dump fileSize step).countP fun o => highEntropy (readAt dump o 4096),
      (sampledOffsets dump fileSize step).length⟩ := by
  have hfold : samplePages highEntropy dump fileSize step =
      (sampledOffsets dump fileSize step).foldl (countPage highEntropy dump) ⟨0, 0⟩ := by
    unfold samplePages sampledOffsets
    rw [List.foldl_filter, List.foldl_map]
    refine List.foldl_ext _ _ _ fun s i _ => ?_
    rw [samplePage_eq]
    simp only [decide_eq_true_eq]
  rw [hfold, foldl_countPage, Nat.zero_add, Nat.zero_add]

theorem pageOffset_eq (i : ℕ) : pageOffset step i = i * step / 4096 * 4096 := by
  have hmod : i * step &&& 0xFFF = i * step % 4096 := Nat.and_two_pow_sub_one_eq_mod _ 12
  rw [pageOffset, hmod]
  omega

/-- **The pages that are sampled** are the evenly spread ones that fit into the file. -/
theorem sampledOffsets_eq_places :
    sampledOffsets dump dump.length (max (dump.length / 64) 4096) =
      places 4096 64 dump.length := by
  have hplace : pageOffset (max (dump.length / 64) 4096) = place 4096 64 dump.length :=
    funext fun i => pageOffset_eq i
  unfold sampledOffsets places
  rw [hplace]
  refine List.filter_congr fun o _ => decide_eq_decide.mpr ?_
  unfold IsSampled
  rw [length_readAt]
  omega

/-- **The samples of a dump**: their places, the counts of the loop, and what follows from them. -/
structure SamplesOnce (highEntropy : List UInt8 → Bool) (elfNotes : Dump → List ElfNote)
    (dump : Dump) (offsets : List ℕ) : Prop where
  counts : samplePages highEntropy dump dump.length (max (dump.length / 64) 4096) =
    ⟨offsets.countP fun o => highEntropy (readAt dump o 4096), offsets.length⟩
  length_eq : offsets.length = min 64 (dump.length / 4096)
  ne_zero : 0 < offsets.length
  increasing : offsets.Pairwise (· < ·)
  page : ∀ o ∈ offsets, 4096 ∣ o ∧ o + 4096 ≤ dump.length
  every : dump.length / 4096 ≤ 64 → ∀ i < dump.length / 4096, i * 4096 ∈ offsets
  likely : (detect highEntropy elfNotes dump dump.length).likelyEncrypted = true ↔
    3 * offsets.length ≤ 4 * offsets.countP fun o => highEntropy (readAt dump o 4096)

/-- The threshold, without division. -/
theorem three_quarters_iff {high total : ℕ} (h : 0 < total) :
    (high : ℚ) / total ≥ 3 / 4 ↔ 3 * total ≤ 4 * high := by
  have htotal : (0 : ℚ) < total := Nat.cast_pos.mpr h
  rw [ge_iff_le, div_le_div_iff₀ (by norm_num) htotal, mul_comm (high : ℚ) 4]
  exact_mod_cast Iff.rfl

theorem likelyEncrypted_iff (h : 4096 ≤ fileSize) {s : Samples}
    (hs : samplePages highEntropy dump fileSize (max (fileSize / 64) 4096) = s)
    (hpos : 0 < s.totalSampledPages) :
    (detect highEntropy elfNotes dump fileSize).likelyEncrypted = true ↔
      3 * s.totalSampledPages ≤ 4 * s.highEntropyCount := by
  unfold detect
  rw [if_neg (Nat.not_lt.mpr h)]
  dsimp only
  rw [hs, if_pos hpos, decide_eq_true_iff, three_quarters_iff hpos]

/-- **The detector samples `min 64 (s / 4096)` pages once each**, and takes the dump for encrypted if
three quarters of them are of high entropy. -/
theorem samplesOnce (highEntropy : List UInt8 → Bool) (elfNotes : Dump → List ElfNote)
    {dump : Dump} (h : 4096 ≤ dump.length) :
    SamplesOnce highEntropy elfNotes dump
      (sampledOffsets dump dump.length (max (dump.length / 64) 4096)) := by
  have hpage : 0 < 4096 := by decide
  have hcounts :
      samplePages highEntropy dump dump.length (max (dump.length / 64) 4096) =
        ⟨(sampledOffsets dump dump.length (max (dump.length / 64) 4096)).countP fun o =>
            highEntropy (readAt dump o 4096),
          (sampledOffsets dump dump.length (max (dump.length / 64) 4096)).length⟩ :=
    samplePages_eq
  rw [sampledOffsets_eq_places] at hcounts ⊢
  have hlen : (places 4096 64 dump.length).length = min 64 (dump.length / 4096) :=
    length_places hpage
  have hpos : 0 < (places 4096 64 dump.length).length := by omega
  exact
    { counts := hcounts
      length_eq := hlen
      ne_zero := hpos
      increasing := sorted_places hpage
      page := fun o ho => mem_places ho
      every := fun hle i hi => mul_mem_places hpage hle hi
      likely := likelyEncrypted_iff h hcounts hpos }

/-- A dump of two pages is sampled at both. -/
theorem samplesOnce_two_pages : SamplesOnce (fun _ => true) (fun _ => [])
    (List.replicate 8192 0)
    (sampledOffsets (List.replicate 8192 0) (List.replicate 8192 (0 : UInt8)).length
      (max ((List.replicate 8192 (0 : UInt8)).length / 64) 4096)) :=
  samplesOnce _ _ (by rw [List.length_replicate]; decide)

end VantaCore.Core.Entropy
