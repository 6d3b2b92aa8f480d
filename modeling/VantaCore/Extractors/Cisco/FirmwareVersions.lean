import VantaCore.Extractors.Cisco.Asa.LinaProcess
import VantaCore.Extractors.Cisco.Ios.RunningConfig
import VantaCore.Lib.Trim

/-! # Four firmware versions

Four extractors report the firmware version of an ASA dump. All read the 16 bytes behind the first
banner up to a NUL; the tables of connections and rules take them as they are, the lina process keeps
the printable ones, and the running configuration stops at the end of the line and goes on to other
banners if that is blank. They agree exactly where the text has no unprintable character inside
(`versionsAgree_iff_of_visible`), apart from banners that are followed by a blank line
(`versionsAgree_iff`). -/

namespace VantaCore.Extractors.Cisco.FirmwareVersions

open VantaCore.Core.DumpHandle VantaCore.Lib VantaCore.Lib.Chunks VantaCore.Lib.Search
open VantaCore.Lib.PyText VantaCore.Lib.Trim VantaCore.Extractors.Cisco.Text
open VantaCore.Extractors.Cisco.Asa.LinaProcess (isPrintable extractPrintable)
open VantaCore.Extractors.Cisco.Ios.RunningConfig (versionPatterns rawVersion versionText)

variable {chunk raw : List UInt8} {dump : Dump} {s : PyStr}

/-- The firmware versions of the connection table, the access rules, the lina process and the running
configuration. -/
def firmwareVersions (dump : Dump) : List PyStr :=
  [extractFirmwareVersion (firstChunk dump), extractFirmwareVersion (firstChunk dump),
    Asa.LinaProcess.detectFirmwareVersion dump,
    Ios.RunningConfig.detectFirmwareVersion (firstChunk dump)]

/-- **The extractors report one version.** -/
def VersionsAgree (dump : Dump) : Prop :=
  ∀ v ∈ firmwareVersions dump, ∀ w ∈ firmwareVersions dump, v = w

/-- The text, or `unknown` for none. -/
def orUnknown (s : PyStr) : PyStr := if s = [] then "unknown" else s

/-- The bytes behind a banner at `idx`, up to a NUL. -/
def behind (chunk : List UInt8) (idx : ℕ) : List UInt8 :=
  (chunkAt 16 chunk (idx + versionPrefix.length)).takeWhile (· ≠ 0)

/-- The version of the later banners the running configuration tries. -/
def laterVersion (chunk : List UInt8) : PyStr :=
  match (versionPatterns.tail.filterMap (rawVersion chunk)).find? fun raw =>
    versionText raw ≠ [] with
  | none => "unknown"
  | some raw => versionText raw

/-! ### The versions -/

theorem extractFirmwareVersion_eq {idx : ℕ} (h : find versionPrefix chunk 0 = some idx) :
    extractFirmwareVersion chunk = orUnknown (strip (decodeAscii (behind chunk idx))) := by
  unfold extractFirmwareVersion
  rw [h]
  rfl

theorem linaFirmwareVersion_eq {idx : ℕ} (h : find versionPrefix (firstChunk dump) 0 = some idx) :
    Asa.LinaProcess.detectFirmwareVersion dump =
      orUnknown (strip ((decodeAscii (behind (firstChunk dump) idx)).filter isPrintable)) := by
  have h' : find versionPrefix (readAt dump 0 65536) 0 = some idx := h
  unfold Asa.LinaProcess.detectFirmwareVersion
  dsimp only
  rw [h']
  rfl

theorem ofByte_eq_newline_iff (b : UInt8) : Fin.ofNat 0x110000 b.toNat = char '\n' ↔ b = 10 := by
  rw [Fin.ext_iff, val_ofByte, ← UInt8.toNat_inj]
  exact Iff.rfl

/-- The first line of bytes, as text. -/
theorem decodeAscii_takeWhile : ∀ raw : List UInt8,
    decodeAscii (raw.takeWhile (· ≠ 10)) = before '\n' (decodeAscii raw)
  | [] => rfl
  | b :: raw => by
    have ih := decodeAscii_takeWhile raw
    unfold decodeAscii before ofBytes at ih ⊢
    by_cases hnl : b = 10
    · subst hnl
      rfl
    · have hchar : Fin.ofNat 0x110000 b.toNat ≠ char '\n' := fun h =>
        hnl ((ofByte_eq_newline_iff b).mp h)
      rw [List.takeWhile_cons_of_pos (by simpa using hnl)]
      by_cases hascii : b < 128
      · rw [List.filter_cons_of_pos (by simpa using hascii),
          List.filter_cons_of_pos (by simpa using hascii), List.map_cons, List.map_cons, ih,
          List.takeWhile_cons_of_pos (by simpa using hchar)]
      · rw [List.filter_cons_of_neg (by simpa using hascii),
          List.filter_cons_of_neg (by simpa using hascii), ih]

/-- The running configuration stops at the end of the line. -/
theorem runningConfigVersion_eq {idx : ℕ} (h : find versionPrefix chunk 0 = some idx) :
    Ios.RunningConfig.detectFirmwareVersion chunk =
      if strip (before '\n' (decodeAscii (behind chunk idx))) = [] then laterVersion chunk
      else strip (before '\n' (decodeAscii (behind chunk idx))) := by
  have hraw : rawVersion chunk versionPrefix =
      some (idx + versionPrefix.length, (behind chunk idx).takeWhile (· ≠ 10)) := by
    unfold rawVersion behind
    rw [h, Option.map_some, List.takeWhile_takeWhile]
    simp only [and_comm, Bool.decide_and, decide_eq_true_eq]
  have htext : versionText (idx + versionPrefix.length, (behind chunk idx).takeWhile (· ≠ 10)) =
      strip (before '\n' (decodeAscii (behind chunk idx))) := by
    unfold versionText
    rw [decodeAscii_takeWhile]
  have hpatterns : versionPatterns = versionPrefix :: versionPatterns.tail := rfl
  unfold Ios.RunningConfig.detectFirmwareVersion Ios.RunningConfig.banner
  rw [hpatterns, List.filterMap_cons_some hraw]
  by_cases hblank : strip (before '\n' (decodeAscii (behind chunk idx))) = []
  · rw [List.find?_cons_of_neg (by rw [htext]; simpa using hblank), if_pos hblank]
    rfl
  · rw [List.find?_cons_of_pos (by rw [htext]; simpa using hblank), if_neg hblank]
    exact htext

/-! ### Agreement -/

theorem versionsAgree_iff_eq : VersionsAgree dump ↔
    extractFirmwareVersion (firstChunk dump) = Asa.LinaProcess.detectFirmwareVersion dump ∧
      extractFirmwareVersion (firstChunk dump) =
        Ios.RunningConfig.detectFirmwareVersion (firstChunk dump) := by
  unfold VersionsAgree firmwareVersions
  constructor
  · exact fun h => ⟨h _ (by simp) _ (by simp), h _ (by simp) _ (by simp)⟩
  · rintro ⟨hlina, hconfig⟩
    have hall : ∀ v ∈ [extractFirmwareVersion (firstChunk dump),
        extractFirmwareVersion (firstChunk dump), Asa.LinaProcess.detectFirmwareVersion dump,
        Ios.RunningConfig.detectFirmwareVersion (firstChunk dump)],
        v = extractFirmwareVersion (firstChunk dump) := by
      simp [← hlina, ← hconfig]
    exact fun v hv w hw => (hall v hv).trans (hall w hw).symm

/-- No unprintable character is inside the text. -/
def PrintableInside (s : PyStr) : Prop := ∀ c ∈ strip s, isPrintable c = true

instance (s : PyStr) : Decidable (PrintableInside s) := inferInstanceAs (Decidable (∀ c ∈ _, _))

theorem isPrintable_unknown : ∀ c ∈ ofString "unknown", isPrintable c = true := by
  intro c hc
  have hvals : (ofString "unknown").map (·.val) = [117, 110, 107, 110, 111, 119, 110] := by decide
  have hprintable : ∀ k ∈ [117, 110, 107, 110, 111, 119, 110], (32 ≤ k && k ≤ 126) = true := by
    decide
  have hval : c.val ∈ (ofString "unknown").map (·.val) := List.mem_map_of_mem hc
  rw [hvals] at hval
  exact hprintable c.val hval

/-- **Leaving out unprintable characters** changes the version only if one is inside the text. -/
theorem orUnknown_filter_iff (s : PyStr) :
    orUnknown (strip s) = orUnknown (strip (s.filter isPrintable)) ↔ PrintableInside s := by
  constructor
  · intro h c hc
    have hne : strip s ≠ [] := List.ne_nil_of_mem hc
    rw [orUnknown, if_neg hne] at h
    have hmem : c ∈ orUnknown (strip (s.filter isPrintable)) := h ▸ hc
    unfold orUnknown at hmem
    split_ifs at hmem
    · exact isPrintable_unknown c hmem
    · exact (List.mem_filter.mp (mem_of_mem_trim hmem)).2
  · intro h
    have hfilter : strip (s.filter isPrintable) = strip s := trim_filter h
    rw [hfilter]

/-- The first line is the whole text, if it is not blank and no unprintable character is inside. -/
theorem strip_before (hline : strip (before '\n' s) ≠ []) (h : PrintableInside s) :
    strip (before '\n' s) = strip s := by
  refine trim_takeWhile hline fun c hc => decide_eq_true ?_
  rintro rfl
  exact absurd (h _ hc) (by decide)

theorem strip_ne_nil (hline : strip (before '\n' s) ≠ []) : strip s ≠ [] := fun hnil =>
  hline (trim_eq_nil_iff.mpr fun c hc => trim_eq_nil_iff.mp hnil c (List.takeWhile_subset _ hc))

/-- The text behind the first banner is plain: no unprintable character is inside, and if the first
line is blank the later banners give what the next lines do. -/
structure PlainVersion (chunk : List UInt8) (idx : ℕ) : Prop where
  printable : PrintableInside (decodeAscii (behind chunk idx))
  later : strip (before '\n' (decodeAscii (behind chunk idx))) = [] →
    orUnknown (strip (decodeAscii (behind chunk idx))) = laterVersion chunk

theorem agree_iff {idx : ℕ} (h : find versionPrefix (firstChunk dump) 0 = some idx) :
    VersionsAgree dump ↔ PlainVersion (firstChunk dump) idx := by
  rw [versionsAgree_iff_eq, extractFirmwareVersion_eq h, linaFirmwareVersion_eq h,
    runningConfigVersion_eq h, orUnknown_filter_iff]
  by_cases hline : strip (before '\n' (decodeAscii (behind (firstChunk dump) idx))) = []
  · rw [if_pos hline]
    exact ⟨fun ⟨hprintable, hlater⟩ => ⟨hprintable, fun _ => hlater⟩,
      fun hplain => ⟨hplain.printable, hplain.later hline⟩⟩
  · rw [if_neg hline]
    constructor
    · exact fun hagree => ⟨hagree.1, fun hblank => absurd hblank hline⟩
    · intro hplain
      refine ⟨hplain.printable, ?_⟩
      rw [orUnknown, if_neg (strip_ne_nil hline), strip_before hline hplain.printable]

/-- A banner in the first 64 KiB is followed by a visible character. -/
def BannerFollowed (dump : Dump) : Prop :=
  ∃ pos b, OccursAt versionPrefix (firstChunk dump) pos ∧
    (firstChunk dump)[pos + versionPrefix.length]? = some b ∧ Visible b

/-- The first line behind a banner is not blank if it starts with a visible character. -/
theorem line_ne_nil {idx : ℕ} {b : UInt8} (hb : chunk[idx + versionPrefix.length]? = some b)
    (hvis : Visible b) : strip (before '\n' (decodeAscii (behind chunk idx))) ≠ [] := by
  have hhigh : b.toNat ≤ 126 := UInt8.le_iff_toNat_le.mp hvis.2
  have hlow : 32 < b.toNat := UInt8.lt_iff_toNat_lt.mp hvis.1
  have hne : ∀ k : ℕ, k < 32 → b ≠ UInt8.ofNat k := by
    rintro k hk rfl
    rw [UInt8.toNat_ofNat'] at hlow
    omega
  have hascii : b < 128 := UInt8.lt_iff_toNat_lt.mpr (Nat.lt_of_le_of_lt hhigh (by decide))
  have hfirst : (chunkAt 16 chunk (idx + versionPrefix.length))[0]? = some b := by
    rw [getElem?_chunkAt (by decide), Nat.add_zero, hb]
  obtain ⟨rest, hrest⟩ : ∃ rest, chunkAt 16 chunk (idx + versionPrefix.length) = b :: rest := by
    cases hchunk : chunkAt 16 chunk (idx + versionPrefix.length) with
    | nil =>
      rw [hchunk] at hfirst
      cases hfirst
    | cons b' rest =>
      rw [hchunk] at hfirst
      obtain rfl := Option.some.inj hfirst
      exact ⟨rest, rfl⟩
  have hmem : Fin.ofNat 0x110000 b.toNat ∈ before '\n' (decodeAscii (behind chunk idx)) := by
    rw [← decodeAscii_takeWhile, behind, hrest,
      List.takeWhile_cons_of_pos (by simpa using hne 0 (by decide)),
      List.takeWhile_cons_of_pos (by simpa using hne 10 (by decide))]
    refine mem_ofBytes_iff.mpr (List.mem_filter.mpr ⟨List.mem_cons_self, decide_eq_true hascii⟩)
  intro hnil
  have hspace := trim_eq_nil_iff.mp hnil _ hmem
  rw [solid_of_visible b hvis] at hspace
  cases hspace

theorem versionPrefix_ne_nil : versionPrefix ≠ [] := by decide

/-- **The versions agree** exactly if the text behind the first banner is plain; where that banner is
the one that a visible character follows, if no unprintable character is inside the text. -/
theorem versionsAgree_iff (h : BannerFollowed dump) :
    ∃ idx, find versionPrefix (firstChunk dump) 0 = some idx ∧
      (VersionsAgree dump ↔ PlainVersion (firstChunk dump) idx) ∧
      ∀ b, (firstChunk dump)[idx + versionPrefix.length]? = some b → Visible b →
        (VersionsAgree dump ↔ PrintableInside (decodeAscii (behind (firstChunk dump) idx))) := by
  obtain ⟨pos, -, hocc, -, -⟩ := h
  have hfound : find versionPrefix (firstChunk dump) 0 ≠ none := fun hnone =>
    (find_eq_none_iff versionPrefix_ne_nil).mp hnone pos (Nat.zero_le _) hocc
  obtain ⟨idx, hidx⟩ := Option.ne_none_iff_exists'.mp hfound
  refine ⟨idx, hidx, agree_iff hidx, fun b hb hvis => (agree_iff hidx).trans ?_⟩
  exact ⟨fun hplain => hplain.printable, fun hprintable =>
    ⟨hprintable, fun hblank => absurd hblank (line_ne_nil hb hvis)⟩⟩

/-- A banner whose line ends within the 16 bytes. -/
def twoLines : Dump := versionPrefix ++ ascii "9.8(2)\nCompiled"

theorem firstChunk_twoLines : firstChunk twoLines = twoLines := by
  unfold firstChunk chunkAt
  rw [List.drop_zero]
  exact List.take_of_length_le (by decide)

theorem bannerFollowed_twoLines : BannerFollowed twoLines := by
  refine ⟨0, 57, ?_, ?_, by decide⟩
  · rw [firstChunk_twoLines, OccursAt, chunkAt, List.drop_zero]
    exact List.take_left
  · rw [firstChunk_twoLines]
    decide

theorem find_twoLines : find versionPrefix (firstChunk twoLines) 0 = some 0 := by
  rw [find_eq_some_iff versionPrefix_ne_nil, firstChunk_twoLines]
  refine ⟨le_rfl, ?_, fun j _ hj => absurd hj (Nat.not_lt_zero j)⟩
  rw [OccursAt, chunkAt, List.drop_zero]
  exact List.take_left

/-- The versions of the two lines agree if they are printable. -/
theorem versionsAgree_iff_twoLines : ∃ idx,
    find versionPrefix (firstChunk twoLines) 0 = some idx ∧
      (VersionsAgree twoLines ↔ PlainVersion (firstChunk twoLines) idx) ∧
      ∀ b, (firstChunk twoLines)[idx + versionPrefix.length]? = some b → Visible b →
        (VersionsAgree twoLines ↔
          PrintableInside (decodeAscii (behind (firstChunk twoLines) idx))) :=
  versionsAgree_iff bannerFollowed_twoLines

/-- The line end is inside the text of the tables and not of the others. -/
theorem not_versionsAgree : ¬ ∀ dump, BannerFollowed dump → VersionsAgree dump := by
  intro h
  have hplain := (agree_iff find_twoLines).mp (h twoLines bannerFollowed_twoLines)
  have htext : decodeAscii (behind (firstChunk twoLines) 0) = ofString "9.8(2)\nCompiled" := by
    rw [firstChunk_twoLines, behind, Nat.zero_add, chunkAt, twoLines, List.drop_left]
    decide
  have hprintable := hplain.printable
  rw [htext] at hprintable
  exact absurd (hprintable (char '\n') (by decide)) (by decide)

end VantaCore.Extractors.Cisco.FirmwareVersions
