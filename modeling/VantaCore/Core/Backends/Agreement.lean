import VantaCore.Core.Backends.Detector

/-! # Do the platform and the architecture agree?

The registry names a platform with a translation backend of its own, the architecture detector picks
one from the header and the size alone. The two differ where the platform is Cisco IOS and the
architecture x86-64: a raw IOS image of 64 MiB or more, or an x86-64 ELF file with an IOS banner that
no other detector scores better (`agrees_iff`). -/

namespace VantaCore.Core.Backends.Agreement

open VantaCore.Lib VantaCore.Core.DumpHandle VantaCore.Core.Backends.Appliances.Detectors
open VantaCore.Core.Backends.Detector

variable {elfFile : ElfFile} {dump : Dump}

/-- The backend of the architecture is an instance of the class of the platform, where both are
found. -/
def Agrees (elfFile : ElfFile) (dump : Dump) : Prop :=
  ∀ d b, registryDetect elfFile detectors dump = some d → architectureDetect dump = .ok b →
    b.cls = d.getTranslationBackendClass

/-! ### What decides -/

/-- An IOS banner in the first 32 MiB. -/
def IosBanner (dump : Dump) : Prop :=
  hasBanner dump "Cisco IOS Software" (32 * 1024 * 1024) ∨
    hasBanner dump "IOS (tm)" (32 * 1024 * 1024)

/-- A file that starts like an ELF file. -/
def IsElf (dump : Dump) : Prop := readAt dump 0 4 = elfMagic

instance (dump : Dump) : Decidable (IsElf dump) := inferInstanceAs (Decidable (_ = _))

/-- The header of an x86-64 ELF file. -/
def IsX8664Elf (dump : Dump) : Prop :=
  IsElf dump ∧ 20 ≤ dump.length ∧ (readAt dump 0 20).getD 4 0 = 2 ∧
    unpackLE (readAt (readAt dump 0 20) 18 2) = 62

/-- The Cisco IOS detector scores better than that of Cisco ASA and not worse than that of IOS-XE. -/
def IosBest (elfFile : ElfFile) (dump : Dump) : Prop :=
  (∀ score ∈ ciscoAsaDetect elfFile dump, score < ciscoIosDetect dump) ∧
    ciscoIosxeDetect dump ≤ ciscoIosDetect dump

/-- A raw image of 64 MiB or more, or an x86-64 ELF file that is most of all one of IOS, with an IOS
banner. -/
def IosOnX8664 (elfFile : ElfFile) (dump : Dump) : Prop :=
  IosBanner dump ∧
    (¬ IsElf dump ∧ 67108864 ≤ dump.length ∨ IsX8664Elf dump ∧ IosBest elfFile dump)

/-! ### The architecture -/

theorem length_header (n : ℕ) : (readAt dump 0 n).length = min n dump.length := by
  rw [length_readAt, Nat.sub_zero]

theorem readAt_header {m n : ℕ} (h : m ≤ n) : readAt (readAt dump 0 n) 0 m = readAt dump 0 m := by
  rw [readAt, readAt, readAt, List.drop_zero, List.drop_zero, List.take_take, min_eq_left h]

theorem IsElf.le (h : IsElf dump) : 4 ≤ dump.length := by
  have hlen := congrArg List.length (show readAt dump 0 4 = elfMagic from h)
  rw [length_header] at hlen
  have : elfMagic.length = 4 := rfl
  omega

theorem x8664Detect_iff :
    x8664Detect dump = some true ↔
      ¬ IsElf dump ∧ 67108864 ≤ dump.length ∨ IsX8664Elf dump := by
  unfold x8664Detect IsX8664Elf
  simp only [length_header, readAt_header (show 4 ≤ 20 by decide)]
  by_cases helf : IsElf dump
  · have hmagic : readAt dump 0 4 = elfMagic := helf
    have hle := helf.le
    by_cases h18 : 18 ≤ dump.length
    · rw [if_pos ⟨by omega, hmagic⟩]
      by_cases h20 : 20 ≤ dump.length
      · rw [if_neg (by omega)]
        simp [helf, h20]
      · rw [if_pos (by omega)]
        simp [helf, h20]
    · rw [if_neg (by omega)]
      simp only [helf, not_true_eq_false, false_and, false_or, Option.some.injEq,
        decide_eq_true_eq, true_and]
      constructor <;> intro h
      · omega
      · omega
  · have hmagic : ¬ (18 ≤ min 20 dump.length ∧ readAt dump 0 4 = elfMagic) := fun h => helf h.2
    rw [if_neg hmagic]
    simp [helf]

/-- **The architecture is x86-64, or the file is no ELF file.** -/
theorem architectureDetect_cases {b : Backend} (h : architectureDetect dump = .ok b) :
    (b.cls = .x8664TranslationBackend ∧ x8664Detect dump = some true) ∨
      (b.cls = .flatImageBackend ∧ x8664Detect dump ≠ some true ∧ ¬ IsElf dump) := by
  unfold architectureDetect at h
  cases hdetect : x8664Detect dump with
  | none =>
    rw [hdetect] at h
    cases h
  | some found =>
    rw [hdetect] at h
    cases found with
    | true =>
      obtain rfl := Except.ok.inj h
      exact Or.inl ⟨rfl, rfl⟩
    | false =>
      by_cases hflat : flatImageDetect dump = true
      · simp only [hflat, if_true] at h
        obtain rfl := Except.ok.inj h
        exact Or.inr ⟨rfl, by simp, of_decide_eq_true hflat⟩
      · simp only [hflat] at h
        cases h

theorem architectureDetect_of_x8664 (h : x8664Detect dump = some true) :
    ∃ b, architectureDetect dump = .ok b ∧ b.cls = .x8664TranslationBackend := by
  unfold architectureDetect
  rw [h]
  exact ⟨_, rfl, rfl⟩

/-! ### The platform -/

theorem ciscoIosDetect_iff : 60 ≤ ciscoIosDetect dump ↔ IosBanner dump := by
  unfold ciscoIosDetect IosBanner
  dsimp only
  by_cases h1 : hasBanner dump "Cisco IOS Software" (32 * 1024 * 1024) = true <;>
    by_cases h2 : hasBanner dump "IOS (tm)" (32 * 1024 * 1024) = true <;>
    simp only [h1, h2, if_true, if_false, or_true, or_false, Bool.false_eq_true] <;>
    split_ifs <;> simp

theorem isElf_of_ciscoAsaDetect {score : ℕ} (h : ciscoAsaDetect elfFile dump = some score)
    (hscore : 60 ≤ score) : IsElf dump := by
  by_contra helf
  have hmagic : readAt (readAt dump 0 18) 0 4 ≠ elfMagic := by
    rw [readAt_header (by decide)]
    exact helf
  unfold ciscoAsaDetect at h
  dsimp only at h
  rw [if_pos (Or.inr (Or.inl hmagic))] at h
  obtain rfl := Option.some.inj h
  omega

theorem isElf_of_ciscoIosxeDetect (h : 60 ≤ ciscoIosxeDetect dump) : IsElf dump := by
  by_contra helf
  unfold ciscoIosxeDetect at h
  dsimp only at h
  rw [if_pos (show readAt dump 0 4 ≠ elfMagic from helf)] at h
  omega

/-- The scores that reach the threshold. -/
def qualified (elfFile : ElfFile) (dump : Dump) : List (ℕ × Detector) :=
  (detectors.filterMap fun d => (d.detect elfFile dump).map fun score => (score, d)).filter
    fun r => 60 ≤ r.1

theorem mem_qualified_iff {r : ℕ × Detector} : r ∈ qualified elfFile dump ↔
    r.2.detect elfFile dump = some r.1 ∧ 60 ≤ r.1 := by
  obtain ⟨score, d⟩ := r
  unfold qualified
  simp only [List.mem_filter, List.mem_filterMap, Option.map_eq_some_iff, Prod.mk.injEq,
    decide_eq_true_eq]
  constructor
  · rintro ⟨⟨d', -, score', hscore, rfl, rfl⟩, hle⟩
    exact ⟨hscore, hle⟩
  · rintro ⟨hscore, hle⟩
    refine ⟨⟨d, ?_, score, hscore, rfl, rfl⟩, hle⟩
    cases d <;> decide

/-- The scores behind that of Cisco ASA. -/
def others (dump : Dump) : List (ℕ × Detector) :=
  [(ciscoIosDetect dump, .ciscoIos), (ciscoIosxeDetect dump, .ciscoIosxe),
    (10, .genericFlat)].filter fun r => 60 ≤ r.1

theorem qualified_of_ge {asa : ℕ} (hasa : ciscoAsaDetect elfFile dump = some asa)
    (h : 60 ≤ asa) : qualified elfFile dump = (asa, .ciscoAsa) :: others dump := by
  unfold qualified detectors others
  rw [List.filterMap_cons_some (by rw [Detector.detect, hasa]; rfl),
    List.filter_cons_of_pos (by simpa using h)]
  rfl

theorem qualified_of_lt (h : ∀ asa ∈ ciscoAsaDetect elfFile dump, asa < 60) :
    qualified elfFile dump = others dump := by
  unfold qualified detectors others
  cases hasa : ciscoAsaDetect elfFile dump with
  | none =>
    rw [List.filterMap_cons_none (by rw [Detector.detect, hasa]; rfl)]
    rfl
  | some asa =>
    have hlt := h asa hasa
    rw [List.filterMap_cons_some (by rw [Detector.detect, hasa]; rfl),
      List.filter_cons_of_neg (by simpa using hlt)]
    rfl

/-- **Which detector wins.** -/
theorem registryDetect_cases {d : Detector} (h : registryDetect elfFile detectors dump = some d) :
    (d = .ciscoIos ∧ 60 ≤ ciscoIosDetect dump ∧ IosBest elfFile dump) ∨
      (d.getTranslationBackendClass = .x8664TranslationBackend ∧ IsElf dump) := by
  obtain ⟨⟨score, d'⟩, hmax, rfl⟩ := Option.map_eq_some_iff.mp
    (show (maxFirst (qualified elfFile dump)).map (·.2) = some d from h)
  obtain ⟨hmem, hle⟩ := maxFirst_eq_some hmax
  obtain ⟨hscore, h60⟩ := mem_qualified_iff.mp hmem
  cases d' with
  | ciscoAsa => exact Or.inr ⟨rfl, isElf_of_ciscoAsaDetect hscore h60⟩
  | ciscoIosxe =>
    obtain rfl := Option.some.inj hscore
    exact Or.inr ⟨rfl, isElf_of_ciscoIosxeDetect h60⟩
  | genericFlat =>
    obtain rfl := Option.some.inj hscore
    omega
  | ciscoIos =>
    obtain rfl := Option.some.inj hscore
    refine Or.inl ⟨rfl, h60, fun asa hasa => ?_, ?_⟩
    · rcases Nat.lt_or_ge asa 60 with hlt | hge
      · dsimp only at h60
        omega
      · rw [qualified_of_ge hasa hge] at hmax
        exact lt_of_maxFirst_cons hmax (by simp)
    · rcases Nat.lt_or_ge (ciscoIosxeDetect dump) 60 with hlt | hge
      · dsimp only at h60
        omega
      · exact hle (ciscoIosxeDetect dump, .ciscoIosxe) (mem_qualified_iff.mpr ⟨rfl, hge⟩)

theorem registryDetect_of_iosBest (h : 60 ≤ ciscoIosDetect dump) (hbest : IosBest elfFile dump) :
    registryDetect elfFile detectors dump = some .ciscoIos := by
  have hmax : maxFirst (others dump) = some (ciscoIosDetect dump, Detector.ciscoIos) := by
    unfold others
    rw [List.filter_cons_of_pos (by simpa using h)]
    refine maxFirst_cons_of_le fun r hr => ?_
    obtain ⟨hr, h60⟩ := List.mem_filter.mp hr
    simp only [List.mem_cons, List.not_mem_nil, or_false] at hr
    rcases hr with rfl | rfl
    · exact hbest.2
    · simp at h60
  have hall : maxFirst (qualified elfFile dump) =
      some (ciscoIosDetect dump, Detector.ciscoIos) := by
    by_cases hasa : ∀ asa ∈ ciscoAsaDetect elfFile dump, asa < 60
    · rw [qualified_of_lt hasa, hmax]
    · push Not at hasa
      obtain ⟨asa, hmem, hge⟩ := hasa
      rw [qualified_of_ge hmem hge]
      exact maxFirst_cons_of_lt hmax (hbest.1 asa hmem)
  show (maxFirst (qualified elfFile dump)).map (·.2) = some .ciscoIos
  rw [hall]
  rfl

/-! ### Agreement -/

/-- **When the platform and the architecture agree.** -/
theorem agrees_iff (elfFile : ElfFile) (dump : Dump) :
    Agrees elfFile dump ↔ ¬ IosOnX8664 elfFile dump := by
  constructor
  · rintro h ⟨hbanner, hx86⟩
    have hios := ciscoIosDetect_iff.mpr hbanner
    have hbest : IosBest elfFile dump := by
      rcases hx86 with ⟨helf, -⟩ | ⟨-, hbest⟩
      · refine ⟨fun asa hasa => Nat.lt_of_not_le fun hle => helf ?_, Nat.le_of_not_lt fun hlt => helf ?_⟩
        · exact isElf_of_ciscoAsaDetect hasa (hios.trans hle)
        · exact isElf_of_ciscoIosxeDetect (hios.trans hlt.le)
      · exact hbest
    have hdetect : x8664Detect dump = some true :=
      x8664Detect_iff.mpr (hx86.imp id And.left)
    obtain ⟨b, hb, hcls⟩ := architectureDetect_of_x8664 hdetect
    have hagree := h _ b (registryDetect_of_iosBest hios hbest) hb
    rw [hcls] at hagree
    cases hagree
  · intro h d b hd hb
    rcases registryDetect_cases hd with ⟨rfl, hios, hbest⟩ | ⟨hclass, helf⟩
    · rcases architectureDetect_cases hb with ⟨-, hdetect⟩ | ⟨hcls, -⟩
      · refine absurd ⟨ciscoIosDetect_iff.mp hios, ?_⟩ h
        exact (x8664Detect_iff.mp hdetect).imp id fun helf => ⟨helf, hbest⟩
      · exact hcls
    · rcases architectureDetect_cases hb with ⟨hcls, -⟩ | ⟨-, -, hnot⟩
      · rw [hcls, hclass]
      · exact absurd helf hnot

/-- The header of an x86-64 ELF file and an IOS banner. -/
def iosElf : Dump :=
  elfMagic ++ [2] ++ List.replicate 13 0 ++ [62, 0] ++ PyText.ascii "Cisco IOS Software"

/-- It is Cisco IOS, and x86-64. -/
theorem not_agrees : ¬ ∀ (elfFile : ElfFile) (dump : Dump), Agrees elfFile dump := by
  intro h
  have hplatform : registryDetect (fun _ => []) detectors iosElf = some .ciscoIos := by
    decide +kernel
  have hdetect : x8664Detect iosElf = some true := by decide +kernel
  obtain ⟨b, hb, hcls⟩ := architectureDetect_of_x8664 hdetect
  have hagree := h (fun _ => []) iosElf _ b hplatform hb
  rw [hcls] at hagree
  cases hagree

end VantaCore.Core.Backends.Agreement
