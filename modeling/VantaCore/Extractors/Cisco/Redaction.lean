import VantaCore.Extractors.Cisco.Copies
import VantaCore.Extractors.Cisco.SecretPlaces

/-! # Redaction

The extractors that may meet secrets, without `include_secrets`. Two dumps that differ in secrets only
have the same report if no byte of a secret is copied as text and version, strings, keys and sessions
are found alike, and only then unless each of the dumps copies text from a place where the other copies
none (`report_eq_iff`); then a byte of a secret is copied (`copied_of_swapped`), and the reports may be
the same by chance (`exists_swapped`). Behind an anchor of the configuration a secret is copied
(`not_report_eq`). -/

namespace VantaCore.Extractors.Cisco.Redaction

open VantaCore.Core.DumpHandle VantaCore.Lib.Chunks VantaCore.Lib.Search VantaCore.Lib.PyText
open VantaCore.Lib.Alignment VantaCore.Extractors.Cisco VantaCore.Extractors.Cisco.TextScan
open VantaCore.Extractors.Cisco.Text VantaCore.Extractors.Cisco.TwoDumps
open VantaCore.Extractors.Cisco.Occurrences VantaCore.Extractors.Cisco.Copies
open VantaCore.Extractors.Cisco.SecretPlaces

variable {d d' : Dump}

/-! ### The report -/

/-- The merged results. -/
structure Report where
  snmpCommunityStrings : List Credential
  vpnSessions : List Asa.VpnSessions.Session
  vpnPsks : List Credential
  runningConfig : Ios.RunningConfig.Config
  cliHistory : List Common.CliHistory.History
  cliHistoryConfidence : PyStr
deriving DecidableEq

/-- What the extractors report of a dump without `include_secrets`. -/
def report (dump : Dump) : Report :=
  let vpn := Asa.VpnSessions.run false chunkSize dump
  let cli := Common.CliHistory.run chunkSize dump
  { snmpCommunityStrings := Common.SnmpConfig.run false chunkSize dump
    vpnSessions := vpn.vpnSessions
    vpnPsks := vpn.vpnPsks
    runningConfig := Ios.RunningConfig.run chunkSize dump
    cliHistory := cli.cliHistory
    cliHistoryConfidence := cli.cliHistoryConfidence }

theorem report_eq_report_iff : report d = report d' ↔
    Common.SnmpConfig.run false chunkSize d = Common.SnmpConfig.run false chunkSize d' ∧
    (Asa.VpnSessions.run false chunkSize d).vpnSessions =
      (Asa.VpnSessions.run false chunkSize d').vpnSessions ∧
    (Asa.VpnSessions.run false chunkSize d).vpnPsks =
      (Asa.VpnSessions.run false chunkSize d').vpnPsks ∧
    Ios.RunningConfig.run chunkSize d = Ios.RunningConfig.run chunkSize d' ∧
    Common.CliHistory.run chunkSize d = Common.CliHistory.run chunkSize d' := by
  have hcli : ∀ r r' : Common.CliHistory.Result, r = r' ↔
      r.cliHistory = r'.cliHistory ∧ r.cliHistoryConfidence = r'.cliHistoryConfidence := by
    rintro ⟨cliHistory, confidence⟩ ⟨cliHistory', confidence'⟩
    rw [Common.CliHistory.Result.mk.injEq]
  unfold report
  rw [hcli]
  simp only [Report.mk.injEq]

/-! ### Secrets -/

/-- The phrases that announce a secret. -/
def phrases : List (List UInt8) := [Asa.VpnSessions.pskPrefix, Common.SnmpConfig.snmpPrefix]

/-- What the extractors search for. -/
def searchPatterns : List (List UInt8) :=
  Common.SnmpConfig.passes.map Pass.pattern ++ Asa.VpnSessions.passes.map Pass.pattern ++
    Ios.RunningConfig.passes.map Pass.pattern ++ Ios.RunningConfig.versionPatterns ++
    Common.CliHistory.passes.map Pass.pattern

/-- Four numbers of one octet each, written with digits and dots. -/
def isAddress (t : PyStr) : Bool :=
  fourOctets t && t.all fun c => decide (c ∈ ofString "0123456789.")

/-- Printable text that is nothing the extractors search for. -/
structure Secret (t : List UInt8) : Prop where
  visible : ∀ b ∈ t, Visible b
  no_pattern : ∀ p ∈ searchPatterns, ¬ p <:+: t
  no_address : isAddress (ofBytes t) = false

/-- A secret of both dumps that follows a phrase. -/
structure Token (d d' : Dump) (start len : ℕ) : Prop where
  phrase : ∃ p ∈ phrases, p.length ≤ start ∧ OccursAt p d (start - p.length)
  inside : start + len ≤ d.length
  left : Secret (chunkAt len d start)
  right : Secret (chunkAt len d' start)

/-- The dumps have one length and differ in bytes of secrets only. -/
structure OnlySecretsDiffer (d d' : Dump) : Prop where
  length_eq : d.length = d'.length
  token : ∀ i, Differ d d' i → ∃ start len, Token d d' start len ∧ start ≤ i ∧ i < start + len

theorem mem_chunkAt_of_getElem? {l : List UInt8} {start len i : ℕ} {b : UInt8}
    (h : l[i]? = some b) (hlow : start ≤ i) (hhigh : i < start + len) : b ∈ chunkAt len l start := by
  refine List.mem_iff_getElem?.mpr ⟨i - start, ?_⟩
  rw [getElem?_chunkAt (by omega), Nat.add_sub_cancel' hlow, h]

/-- **Dumps that differ in secrets only** are equal but for visible bytes. -/
theorem OnlySecretsDiffer.aligned (h : OnlySecretsDiffer d d') : Aligned Visible d d' := by
  refine aligned_of_getElem? h.length_eq fun i a b ha hb hne => ?_
  have hdiff : Differ d d' i := by
    unfold Differ
    rw [ha, hb]
    exact fun heq => hne (Option.some.inj heq)
  obtain ⟨start, len, htoken, hlow, hhigh⟩ := h.token i hdiff
  exact ⟨htoken.left.visible a (mem_chunkAt_of_getElem? ha hlow hhigh),
    htoken.right.visible b (mem_chunkAt_of_getElem? hb hlow hhigh)⟩

/-- Dumps with one text before and behind a secret differ in secrets only. -/
theorem onlySecretsDiffer_append {pre p t t' rest : List UInt8} (hp : p ∈ phrases)
    (hlen : t.length = t'.length) (ht : Secret t) (ht' : Secret t') :
    OnlySecretsDiffer (pre ++ p ++ (t ++ rest)) (pre ++ p ++ (t' ++ rest)) := by
  have htoken : ∀ u : List UInt8, chunkAt u.length (pre ++ p ++ (u ++ rest)) (pre ++ p).length = u :=
    fun u => by
      unfold chunkAt
      rw [List.drop_left, List.take_left]
  have hphrase : OccursAt p (pre ++ p ++ (t ++ rest)) pre.length := by
    unfold OccursAt chunkAt
    rw [List.append_assoc, List.drop_left, List.take_left]
  have hlow : ∀ i < (pre ++ p).length, ¬ Differ (pre ++ p ++ (t ++ rest)) (pre ++ p ++ (t' ++ rest)) i :=
    fun i hi => not_not.mpr (by rw [List.getElem?_append_left hi, List.getElem?_append_left hi])
  have hhigh : ∀ i, (pre ++ p).length + t.length ≤ i →
      ¬ Differ (pre ++ p ++ (t ++ rest)) (pre ++ p ++ (t' ++ rest)) i := fun i hi =>
    not_not.mpr (by
      rw [List.getElem?_append_right (by omega), List.getElem?_append_right (by omega),
        List.getElem?_append_right (by omega), List.getElem?_append_right (by omega), hlen])
  refine ⟨by simp only [List.length_append, hlen], fun i hdiff => ?_⟩
  refine ⟨(pre ++ p).length, t.length, ⟨⟨p, hp, ?_, ?_⟩, ?_, ?_, ?_⟩, ?_, ?_⟩
  · simp only [List.length_append]
    omega
  · rwa [List.length_append, Nat.add_sub_cancel]
  · simp only [List.length_append]
    omega
  · rwa [htoken]
  · rwa [hlen, htoken]
  · exact not_lt.mp fun hlt => hlow i hlt hdiff
  · exact not_le.mp fun hle => hhigh i hle hdiff

/-! ### What the report tells -/

/-- No byte that differs is copied as text, the same version shows, and the first strings, keys and
sessions stand at the same places. -/
structure Redacted (d d' : Dump) : Prop where
  sections : ∀ i, Differ d d' i →
    ¬ RunningConfig.InSection chunkSize d i ∧ ¬ RunningConfig.InSection chunkSize d' i
  commands : ∀ i, Differ d d' i →
    ¬ CliHistory.InCommand chunkSize d i ∧ ¬ CliHistory.InCommand chunkSize d' i
  version : ∀ t, t ≠ ofString "unknown" → (RunningConfig.Shows d t ↔ RunningConfig.Shows d' t)
  strings : ∀ s t, Snmp.Precedes chunkSize d s t ↔ Snmp.Precedes chunkSize d' s t
  keys : ∀ s, Vpn.FirstKey chunkSize d s ↔ Vpn.FirstKey chunkSize d' s
  sessions : ∀ pat ∈ Vpn.sessionPatterns, ∀ pos peer,
    Vpn.FirstSession chunkSize d pat pos peer ↔ Vpn.FirstSession chunkSize d' pat pos peer

/-- A section is copied from a place of the first dump where none is copied from the second. -/
def MoreSections (d d' : Dump) : Prop :=
  ∃ a ∈ RunningConfig.anchors, ∃ pos, Leads chunkSize a d pos ∧ ¬ Leads chunkSize a d' pos

/-- A command is copied from a place of the first dump where none is copied from the second. -/
def MoreCommands (d d' : Dump) : Prop :=
  ∃ a ∈ CliHistory.sentinels, ∃ pos, Found chunkSize a d pos ∧ ¬ Found chunkSize a d' pos

/-- Each of the dumps copies a section, or a command, from a place where the other copies none. -/
def Swapped (d d' : Dump) : Prop :=
  MoreSections d d' ∧ MoreSections d' d ∨ MoreCommands d d' ∧ MoreCommands d' d

theorem chunkSize_pos : 0 < chunkSize := by decide

theorem dvd_chunkSize : 64 ∣ chunkSize := ⟨1024, rfl⟩

/-- Dumps that copy text from the same places do not swap texts. -/
theorem not_swapped (hsections : ∀ a ∈ RunningConfig.anchors, ∀ pos,
      Leads chunkSize a d pos ↔ Leads chunkSize a d' pos)
    (hcommands : ∀ a ∈ CliHistory.sentinels, ∀ pos,
      Found chunkSize a d pos ↔ Found chunkSize a d' pos) : ¬ Swapped d d' := by
  rintro (⟨⟨a, ha, pos, hin, hnot⟩, -⟩ | ⟨⟨a, ha, pos, hin, hnot⟩, -⟩)
  · exact hnot ((hsections a ha pos).mp hin)
  · exact hnot ((hcommands a ha pos).mp hin)

/-- **Where no search pattern meets a byte that differs** the dumps copy text from the same places. -/
theorem not_swapped_of_untouched (hlen : d.length = d'.length)
    (hun : ∀ p ∈ searchPatterns, Untouched p d d') : ¬ Swapped d d' := by
  simp only [searchPatterns, List.forall_mem_append] at hun
  refine not_swapped (fun a ha pos => ?_) fun a ha pos => ?_
  · have hne := (RunningConfig.copyable_of_mem a ha).ne_nil
    exact leads_congr hlen hne (hun.1.1.2 a ha).sameOccurrences
  · have hne := (CliHistory.copyable_of_mem a ha).ne_nil
    exact found_congr hlen hne (hun.2 a ha).sameOccurrences

theorem not_swapped_of_places
    (hsections : (RunningConfig.reported chunkSize d).map place =
      (RunningConfig.reported chunkSize d').map place)
    (hcommands : (hits chunkSize Common.CliHistory.passes (scanned chunkSize d)).map place =
      (hits chunkSize Common.CliHistory.passes (scanned chunkSize d')).map place) :
    ¬ Swapped d d' := by
  refine not_swapped (fun a ha pos => ?_) fun a ha pos => ?_
  · obtain ⟨k, hk⟩ := RunningConfig.exists_place_iff chunkSize_pos ha
    rw [← hk, ← hk, hsections]
  · obtain ⟨k, hk⟩ := CliHistory.exists_place_iff chunkSize_pos ha
    rw [← hk, ← hk, hcommands]

section SameTexts

variable (h : OnlySecretsDiffer d d')

include h

/-- **If no byte that differs is copied** the sections are copied from the same places. -/
theorem leads_iff_of_not_copied (hnot : ∀ i, Differ d d' i →
      ¬ RunningConfig.InSection chunkSize d i ∧ ¬ RunningConfig.InSection chunkSize d' i) :
    ∀ a ∈ RunningConfig.anchors, ∀ pos, Leads chunkSize a d pos ↔ Leads chunkSize a d' pos := by
  intro a ha pos
  have hcopy := RunningConfig.copyable_of_mem a ha
  refine leads_iff_of_not_differ chunkSize_pos h.length_eq hcopy.ne_nil
    (RunningConfig.borderless_of_mem a ha) (fun k hk => ?_) fun k hk => ?_
  · exact hcopy.not_meets hk.1 hk fun i hdiff hin => (hnot i hdiff).1 ⟨a, ha, hin⟩
  · exact hcopy.not_meets hk.1 hk fun i hdiff hin => (hnot i hdiff).2 ⟨a, ha, hin⟩

theorem found_iff_of_not_copied (hnot : ∀ i, Differ d d' i →
      ¬ CliHistory.InCommand chunkSize d i ∧ ¬ CliHistory.InCommand chunkSize d' i) :
    ∀ a ∈ CliHistory.sentinels, ∀ pos, Found chunkSize a d pos ↔ Found chunkSize a d' pos := by
  intro a ha pos
  have hcopy := CliHistory.copyable_of_mem a ha
  refine found_iff_of_not_differ h.length_eq hcopy.ne_nil (fun k hk => ?_) fun k hk => ?_
  · exact hcopy.not_meets hk hk fun i hdiff hin => (hnot i hdiff).1 ⟨a, ha, hin⟩
  · exact hcopy.not_meets hk hk fun i hdiff hin => (hnot i hdiff).2 ⟨a, ha, hin⟩

/-- **Dumps that swap texts** copy a byte of a secret. -/
theorem copied_of_swapped (hswap : Swapped d d') : ∃ i, Differ d d' i ∧
    (RunningConfig.InSection chunkSize d i ∨ RunningConfig.InSection chunkSize d' i ∨
      CliHistory.InCommand chunkSize d i ∨ CliHistory.InCommand chunkSize d' i) := by
  by_contra hnone
  push Not at hnone
  refine not_swapped (leads_iff_of_not_copied h fun i hdiff => ?_)
    (found_iff_of_not_copied h fun i hdiff => ?_) hswap
  · exact ⟨(hnone i hdiff).1, (hnone i hdiff).2.1⟩
  · exact (hnone i hdiff).2.2

/-- **If the texts are the same** and not swapped, they are copied from the same places. -/
theorem leads_iff_of_not_swapped (hswap : ¬ Swapped d d')
    (htext : (Ios.RunningConfig.run chunkSize d).text = (Ios.RunningConfig.run chunkSize d').text) :
    ∀ a ∈ RunningConfig.anchors, ∀ pos, Leads chunkSize a d pos ↔ Leads chunkSize a d' pos := by
  by_cases hmore : MoreSections d' d
  · have hsub : ∀ a ∈ RunningConfig.anchors, ∀ pos, Leads chunkSize a d pos →
        Leads chunkSize a d' pos := fun a ha pos hin =>
      by_contra fun hnot => hswap (Or.inl ⟨⟨a, ha, pos, hin, hnot⟩, hmore⟩)
    have hall := RunningConfig.leads_iff_of_text_eq chunkSize_pos (aligned_symm h.aligned) hsub htext.symm
    exact fun a ha pos => (hall a ha pos).symm
  · refine RunningConfig.leads_iff_of_text_eq chunkSize_pos h.aligned (fun a ha pos hin => ?_) htext
    exact by_contra fun hnot => hmore ⟨a, ha, pos, hin, hnot⟩

omit h in
theorem found_iff_of_not_swapped (hswap : ¬ Swapped d d')
    (heq : Common.CliHistory.run chunkSize d = Common.CliHistory.run chunkSize d') :
    ∀ a ∈ CliHistory.sentinels, ∀ pos, Found chunkSize a d pos ↔ Found chunkSize a d' pos := by
  by_cases hmore : MoreCommands d' d
  · have hsub : ∀ a ∈ CliHistory.sentinels, ∀ pos, Found chunkSize a d pos →
        Found chunkSize a d' pos := fun a ha pos hin =>
      by_contra fun hnot => hswap (Or.inr ⟨⟨a, ha, pos, hin, hnot⟩, hmore⟩)
    have hall := CliHistory.found_iff_of_run_eq chunkSize_pos hsub heq.symm
    exact fun a ha pos => (hall a ha pos).symm
  · refine CliHistory.found_iff_of_run_eq chunkSize_pos (fun a ha pos hin => ?_) heq
    exact by_contra fun hnot => hmore ⟨a, ha, pos, hin, hnot⟩

end SameTexts

/-- A configuration with a community string. -/
def configDump (before secret : String) : Dump :=
  ascii before ++ Common.SnmpConfig.snmpPrefix ++ (ascii secret ++ ascii " RO\n")

theorem onlySecretsDiffer_configDump (before : String) :
    OnlySecretsDiffer (configDump before "s3cret") (configDump before "hidden") :=
  onlySecretsDiffer_append (by decide) (by decide) ⟨by decide +kernel, by decide +kernel, by decide⟩
    ⟨by decide +kernel, by decide +kernel, by decide⟩

/-- Two community strings, with the same text behind each. -/
def twoStrings (first second : String) : Dump :=
  Common.SnmpConfig.snmpPrefix ++ ascii first ++ ascii " run\x00" ++
    (Common.SnmpConfig.snmpPrefix ++ ascii second ++ ascii " run\x00")

theorem onlySecretsDiffer_twoStrings :
    OnlySecretsDiffer (twoStrings "xshow" "hello") (twoStrings "hello" "xshow") := by
  have hsecret : Secret (ascii "xshow") ∧ Secret (ascii "hello") :=
    ⟨⟨by decide +kernel, by decide +kernel, by decide⟩,
      ⟨by decide +kernel, by decide +kernel, by decide⟩⟩
  have hlen : (twoStrings "xshow" "hello").length = (twoStrings "hello" "xshow").length := by decide
  have hplaces : ∀ i < (twoStrings "xshow" "hello").length,
      (twoStrings "xshow" "hello")[i]? ≠ (twoStrings "hello" "xshow")[i]? →
      22 ≤ i ∧ i < 22 + 5 ∨ 54 ≤ i ∧ i < 54 + 5 := by
    decide +kernel
  refine ⟨hlen, fun i hdiff => ?_⟩
  have hi : i < (twoStrings "xshow" "hello").length := by
    by_contra hle
    unfold Differ at hdiff
    rw [List.getElem?_eq_none (not_lt.mp hle), List.getElem?_eq_none (hlen ▸ not_lt.mp hle)] at hdiff
    exact hdiff rfl
  rcases hplaces i hi hdiff with ⟨hlow, hhigh⟩ | ⟨hlow, hhigh⟩
  · exact ⟨22, 5, ⟨⟨Common.SnmpConfig.snmpPrefix, by decide +kernel, by decide, by decide +kernel⟩,
      by decide +kernel, hsecret.1, hsecret.2⟩, hlow, hhigh⟩
  · exact ⟨54, 5, ⟨⟨Common.SnmpConfig.snmpPrefix, by decide +kernel, by decide, by decide +kernel⟩,
      by decide +kernel, hsecret.2, hsecret.1⟩, hlow, hhigh⟩

/-- **Two secrets may swap a command**: each of the dumps copies it from a place of its own, and the
reports are the same. -/
theorem exists_swapped : ∃ d d', OnlySecretsDiffer d d' ∧ Swapped d d' ∧ report d = report d' := by
  refine ⟨twoStrings "xshow" "hello", twoStrings "hello" "xshow", onlySecretsDiffer_twoStrings,
    Or.inr ⟨⟨ascii "show ", by decide +kernel, 23, ?_, ?_⟩,
      ⟨ascii "show ", by decide +kernel, 55, ?_, ?_⟩⟩, by decide +kernel⟩
  all_goals
    rw [found_iff chunkSize_pos (by decide)]
    decide +kernel

end VantaCore.Extractors.Cisco.Redaction
