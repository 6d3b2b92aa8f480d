import VantaCore.Core.Backends.Agreement

/-! # What the architecture detector returns and raises

The x86-64 backend unpacks the machine of an ELF header at byte 18, but asks for 18 bytes only before
it does. On a file of 18 or 19 bytes that starts like an ELF file the field is cut off, and
`struct.error` goes through to the caller (`architectureDetect_structError_iff`); on all other files
the detector decides by header and size, and raises nothing but `TranslationError`
(`decides_iff`). -/

namespace VantaCore.Core.Backends.CutHeader

open VantaCore.Core.DumpHandle VantaCore.Core.Backends.Appliances.Detectors
open VantaCore.Core.Backends.Detector VantaCore.Core.Backends.Agreement

variable {dump : Dump}

/-! ### The decision -/

/-- A dump for the x86-64 backend: its ELF header, or a raw image of 64 MiB or more. -/
def ForX8664 (dump : Dump) : Prop := ¬ IsElf dump ∧ 67108864 ≤ dump.length ∨ IsX8664Elf dump

/-- A dump for the flat backend: a smaller raw image. -/
def ForFlatImage (dump : Dump) : Prop := ¬ IsElf dump ∧ dump.length < 67108864

/-- The backend has the dump open and knows its size. -/
def Initialized (dump : Dump) : Backend → Prop
  | .x8664 b => b.dumpHandle = some dump ∧ b.fileSize = dump.length
  | .flatImage b => b.dumpHandle = some dump ∧ b.fileSize = dump.length

/-- **The detector decides the dump**: it returns an initialised backend or raises
`TranslationError`, each on the dumps it is for. -/
structure Decides (dump : Dump) : Prop where
  outcome : (∃ b, architectureDetect dump = .ok b ∧ Initialized dump b) ∨
    ∃ message, architectureDetect dump = .error (.translationError message)
  x8664 : (∃ b, architectureDetect dump = .ok (.x8664 b)) ↔ ForX8664 dump
  flatImage : (∃ b, architectureDetect dump = .ok (.flatImage b)) ↔ ForFlatImage dump
  raises : (∃ message, architectureDetect dump = .error (.translationError message)) ↔
    ¬ ForX8664 dump ∧ ¬ ForFlatImage dump

/-- An ELF header that ends before or within the machine field, behind byte 17. -/
def CutBeforeMachine (dump : Dump) : Prop :=
  IsElf dump ∧ (dump.length = 18 ∨ dump.length = 19)

theorem not_forX8664_and_forFlatImage : ¬ (ForX8664 dump ∧ ForFlatImage dump) := by
  rintro ⟨hraw | hx8664, hnot, hlt⟩
  · have := hraw.2
    omega
  · exact hnot hx8664.1

/-! ### The backend of the dump -/

theorem x8664Detect_eq_none_iff : x8664Detect dump = none ↔ CutBeforeMachine dump := by
  unfold x8664Detect CutBeforeMachine
  simp only [length_header, readAt_header (show 4 ≤ 20 by decide)]
  by_cases helf : IsElf dump
  · have hmagic : readAt dump 0 4 = elfMagic := helf
    by_cases h18 : 18 ≤ dump.length
    · rw [if_pos ⟨by omega, hmagic⟩]
      by_cases h20 : 20 ≤ dump.length
      · rw [if_neg (by omega)]
        simp only [reduceCtorEq, false_iff]
        omega
      · rw [if_pos (by omega)]
        simp only [true_iff]
        exact ⟨helf, by omega⟩
    · rw [if_neg (by omega)]
      simp only [reduceCtorEq, false_iff]
      omega
  · rw [if_neg fun h => helf h.2]
    simp [helf]

/-- A cut header is for no backend. -/
theorem CutBeforeMachine.not_for (h : CutBeforeMachine dump) :
    ¬ ForX8664 dump ∧ ¬ ForFlatImage dump := by
  obtain ⟨helf, hlen⟩ := h
  refine ⟨?_, fun hflat => hflat.1 helf⟩
  rintro (hraw | hx8664)
  · exact hraw.1 helf
  · have : 20 ≤ dump.length := hx8664.2.1
    omega

/-- **The outcome on a dump for the x86-64 backend.** -/
theorem architectureDetect_of_forX8664 (h : ForX8664 dump) :
    architectureDetect dump = .ok (.x8664 (X8664.new.initializeBackend dump)) := by
  unfold architectureDetect
  rw [x8664Detect_iff.mpr h]

/-- The x86-64 backend declines a dump that is not for it, unless its header is cut. -/
theorem x8664Detect_eq_false (hcut : ¬ CutBeforeMachine dump) (h : ¬ ForX8664 dump) :
    x8664Detect dump = some false := by
  cases hdetect : x8664Detect dump with
  | none => exact absurd (x8664Detect_eq_none_iff.mp hdetect) hcut
  | some found =>
    cases found with
    | false => rfl
    | true => exact absurd (x8664Detect_iff.mp hdetect) h

/-- **The outcome on a dump for the flat backend.** -/
theorem architectureDetect_of_forFlatImage (h : ForFlatImage dump) :
    architectureDetect dump = .ok (.flatImage (FlatImage.new.initializeBackend dump)) := by
  have hcut : ¬ CutBeforeMachine dump := fun hcut => hcut.not_for.2 h
  have hx8664 : ¬ ForX8664 dump := fun hx8664 => not_forX8664_and_forFlatImage ⟨hx8664, h⟩
  have hflat : flatImageDetect dump = true := decide_eq_true h.1
  unfold architectureDetect
  rw [x8664Detect_eq_false hcut hx8664]
  exact if_pos hflat

/-- **The outcome on a dump for no backend** whose header is not cut. -/
theorem architectureDetect_of_not_for (hcut : ¬ CutBeforeMachine dump) (hx8664 : ¬ ForX8664 dump)
    (hflat : ¬ ForFlatImage dump) : architectureDetect dump =
      .error (.translationError "Failed to detect architecture for memory dump") := by
  have helf : IsElf dump := by
    by_contra helf
    rcases Nat.lt_or_ge dump.length 67108864 with hlt | hge
    · exact hflat ⟨helf, hlt⟩
    · exact hx8664 (Or.inl ⟨helf, hge⟩)
  have hdeclines : ¬ flatImageDetect dump = true := fun h => of_decide_eq_true h helf
  unfold architectureDetect
  rw [x8664Detect_eq_false hcut hx8664]
  exact if_neg hdeclines

/-- **`struct.error` is raised** exactly on a header that is cut before its machine. -/
theorem architectureDetect_structError_iff :
    architectureDetect dump = .error .structError ↔ CutBeforeMachine dump := by
  constructor
  · intro h
    by_contra hcut
    by_cases hx8664 : ForX8664 dump
    · rw [architectureDetect_of_forX8664 hx8664] at h
      cases h
    by_cases hflat : ForFlatImage dump
    · rw [architectureDetect_of_forFlatImage hflat] at h
      cases h
    · rw [architectureDetect_of_not_for hcut hx8664 hflat] at h
      cases h
  · intro hcut
    unfold architectureDetect
    rw [x8664Detect_eq_none_iff.mpr hcut]

/-! ### The backend it returns -/

theorem initialized_x8664 (b : X8664.X86_64TranslationBackend) :
    Initialized dump (.x8664 (b.initializeBackend dump)) := by
  unfold Initialized X8664.X86_64TranslationBackend.initializeBackend
    X8664.X86_64TranslationBackend.scanKaslrBase
  dsimp only
  split <;> exact ⟨rfl, rfl⟩

theorem initialized_flatImage (b : FlatImage.FlatImageBackend) :
    Initialized dump (.flatImage (b.initializeBackend dump)) := ⟨rfl, rfl⟩

theorem CutBeforeMachine.not_decides (hcut : CutBeforeMachine dump) : ¬ Decides dump := by
  intro h
  have hraised := architectureDetect_structError_iff.mpr hcut
  rcases h.outcome with ⟨b, hb, -⟩ | ⟨message, hmessage⟩
  · rw [hraised] at hb
    cases hb
  · rw [hraised] at hmessage
    cases hmessage

/-- **The detector decides every dump but those with a cut header.** -/
theorem decides_iff (dump : Dump) : Decides dump ↔ ¬ CutBeforeMachine dump := by
  constructor
  · exact fun h hcut => hcut.not_decides h
  · intro hcut
    by_cases hx8664 : ForX8664 dump
    · have hflat : ¬ ForFlatImage dump := fun h => not_forX8664_and_forFlatImage ⟨hx8664, h⟩
      have hdetect := architectureDetect_of_forX8664 hx8664
      exact
        { outcome := Or.inl ⟨_, hdetect, initialized_x8664 _⟩
          x8664 := by simp [hdetect, hx8664]
          flatImage := by simp [hdetect, hflat]
          raises := by simp [hdetect, hx8664] }
    by_cases hflat : ForFlatImage dump
    · have hdetect := architectureDetect_of_forFlatImage hflat
      exact
        { outcome := Or.inl ⟨_, hdetect, initialized_flatImage _⟩
          x8664 := by simp [hdetect, hx8664]
          flatImage := by simp [hdetect, hflat]
          raises := by simp [hdetect, hflat] }
    · have hdetect := architectureDetect_of_not_for hcut hx8664 hflat
      exact
        { outcome := Or.inr ⟨_, hdetect⟩
          x8664 := by simp [hdetect, hx8664]
          flatImage := by simp [hdetect, hflat]
          raises := by simp [hdetect, hx8664, hflat] }

/-- An ELF header of 18 bytes. -/
def cutHeader : Dump := elfMagic ++ [2, 1, 1] ++ List.replicate 9 0 ++ [4, 0]

/-- The detector raises `struct.error` on it. -/
theorem not_decides_cutHeader : ¬ ∀ dump, Decides dump := by
  intro h
  have hcut : CutBeforeMachine cutHeader := ⟨by decide, Or.inl (by decide)⟩
  exact hcut.not_decides (h cutHeader)

end VantaCore.Core.Backends.CutHeader
