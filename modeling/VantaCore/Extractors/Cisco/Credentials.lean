import VantaCore.Extractors.Cisco.Asa.VpnSessions
import VantaCore.Extractors.Cisco.ChunkEnds
import VantaCore.Extractors.Cisco.Common.SnmpConfig

/-! # Which credentials are reported

Community strings and pre-shared keys are recorded once for every bucket of 64 bytes. In an image of
one chunk every occurrence of the prefix with a token behind it has an entry in its bucket; the entry
is its own unless an earlier occurrence has its token in the same bucket (`reports`). Two credentials
in one bucket give one entry (`not_all_reported`). -/

namespace VantaCore.Extractors.Cisco.Credentials

open VantaCore.Core.DumpHandle VantaCore.Lib.Search VantaCore.Lib.PyText VantaCore.Lib.FirstBy
open VantaCore.Lib.Chunks (chunkAt getElem?_chunkAt)
open VantaCore.Extractors.Cisco.TextScan VantaCore.Extractors.Cisco.ChunkEnds
open VantaCore.Extractors.Cisco.Text
open VantaCore.Extractors.Cisco.Common.SnmpConfig (snmpPrefix)
open VantaCore.Extractors.Cisco.Asa.VpnSessions (pskPrefix)

/-- The prefix occurs with a printable character that is no space behind it. -/
def Holds (pfx : List UInt8) (dump : Dump) (idx : ℕ) : Prop :=
  OccursAt pfx dump idx ∧ ∃ b, dump[idx + pfx.length]? = some b ∧ Visible b

/-- Every token behind the prefix is reported at its offset, and no offset twice. -/
structure Complete (pfx : List UInt8) (dump : Dump) (offsets : List ℕ) : Prop where
  reported : ∀ idx, Holds pfx dump idx → idx + pfx.length ∈ offsets
  nodup : offsets.Nodup

/-- What is reported of the tokens behind the prefix: something in the bucket of every token, the
token itself if no earlier one lies in its bucket, and nothing twice in a bucket. -/
structure Reports (pfx : List UInt8) (dump : Dump) (offsets : List ℕ) : Prop where
  bucket : ∀ idx, Holds pfx dump idx → (idx + pfx.length) / 64 ∈ offsets.map (· / 64)
  own : ∀ idx, Holds pfx dump idx → (idx + pfx.length ∈ offsets ↔
    ∀ j < idx, Holds pfx dump j → (j + pfx.length) / 64 ≠ (idx + pfx.length) / 64)
  nodup : offsets.Nodup
  once : (offsets.map (· / 64)).Nodup

/-- `physical_offset` of the entries of `snmp_community_strings`. -/
def snmpOffsets (includeSecrets : Bool) (dump : Dump) : List ℕ :=
  (Common.SnmpConfig.run includeSecrets chunkSize dump).map (·.physicalOffset)

/-- `physical_offset` of the entries of `vpn_psks`. -/
def pskOffsets (includeSecrets : Bool) (dump : Dump) : List ℕ :=
  (Asa.VpnSessions.run includeSecrets chunkSize dump).vpnPsks.map (·.physicalOffset)

/-! ### First hits -/

/-- **The first hit of each bucket**, where the first pass finds the tokens behind the prefix. -/
theorem reports_of_firsts {ρ : Type*} {pfx : List UInt8} {dump : Dump} {l : List (Hit ρ)}
    {off : Hit ρ → ℕ} (hsorted : l.Pairwise BeforeWhole)
    (htoken : ∀ idx, Holds pfx dump idx → ∃ h ∈ l, h.pass = 0 ∧ h.pos = idx)
    (hfirst : ∀ h ∈ l, h.pass = 0 → Holds pfx dump h.pos ∧ off h = h.pos + pfx.length) :
    Reports pfx dump ((firsts (fun h => off h / 64) [] l).map off) := by
  have hbuckets : (((firsts (fun h => off h / 64) [] l).map off).map (· / 64)).Nodup := by
    rw [List.map_map]
    exact List.pairwise_map.mpr (pairwise_firsts [] l)
  -- the bucket of a token has a first hit, which is not behind the token
  have hfound : ∀ idx, Holds pfx dump idx → ∃ g ∈ firsts (fun h => off h / 64) [] l,
      off g / 64 = (idx + pfx.length) / 64 ∧ g.pass = 0 ∧ g.pos ≤ idx := by
    intro idx hidx
    obtain ⟨h, hh, hpass, rfl⟩ := htoken idx hidx
    have hoff := (hfirst h hh hpass).2
    obtain ⟨g, hg, hkey⟩ : ∃ g ∈ firsts (fun h => off h / 64) [] l, off g / 64 = off h / 64 :=
      exists_mem_firsts hh List.not_mem_nil
    have hlt := not_lt_of_mem_firsts hsorted BeforeWhole.asymm hg hh hkey.symm
    unfold BeforeWhole at hlt
    rw [hoff] at hkey
    exact ⟨g, hg, hkey, by omega, by omega⟩
  refine ⟨fun idx hidx => ?_, fun idx hidx => ⟨?_, fun hnone => ?_⟩, hbuckets.of_map _, hbuckets⟩
  · obtain ⟨g, hg, hkey, -, -⟩ := hfound idx hidx
    exact List.mem_map.mpr ⟨off g, List.mem_map_of_mem hg, hkey⟩
  · intro hmem j hj hholds hkey
    obtain ⟨h, hh, hoff⟩ := List.mem_map.mp hmem
    obtain ⟨g, hg, hgkey, hpass, hpos⟩ := hfound j hholds
    have hgl := (mem_of_mem_firsts hg).1
    obtain rfl : g = h := eq_of_key_eq hg hh (by rw [hgkey, hkey, hoff])
    have := (hfirst g hgl hpass).2
    omega
  · obtain ⟨g, hg, hgkey, hpass, hpos⟩ := hfound idx hidx
    obtain ⟨hholds, hoff⟩ := hfirst g (mem_of_mem_firsts hg).1 hpass
    rcases Nat.eq_or_lt_of_le hpos with heq | hlt
    · rw [← heq, ← hoff]
      exact List.mem_map_of_mem hg
    · rw [hoff] at hgkey
      exact absurd hgkey (hnone g.pos hlt hholds)

/-- **The first pass finds the tokens behind its prefix**, where it reads them with `extractToken`. -/
theorem wholeHitAt_isSome_iff {ρ : Type*} (p : Pass ρ) {dump : Dump} {f : PyStr → ρ} {idx : ℕ}
    (hborder : Borderless p.pattern) (hwindow : p.window = p.pattern.length + 64)
    (hparse : p.parse = fun w => (extractToken w p.pattern.length).map f) :
    (wholeHitAt p dump idx).isSome ↔ Holds p.pattern dump idx := by
  have hbyte : (chunkAt p.window dump idx)[p.pattern.length]? = dump[idx + p.pattern.length]? :=
    getElem?_chunkAt (by omega)
  have htoken : (p.parse (chunkAt p.window dump idx)).isSome ↔
      ∃ b, dump[idx + p.pattern.length]? = some b ∧ Visible b := by
    rw [hparse, Option.isSome_map, extractToken_isSome_iff, hbyte]
  have hmem : idx ∈ findAll p.pattern dump ↔ OccursAt p.pattern dump idx :=
    mem_findAll_iff p.pattern_ne_nil hborder
  unfold wholeHitAt Holds
  by_cases hocc : OccursAt p.pattern dump idx
  · rw [if_pos (hmem.mpr hocc), htoken, and_iff_right hocc]
  · rw [if_neg (mt hmem.mp hocc)]
    exact iff_of_false Bool.false_ne_true fun h => hocc h.1

/-! ### The two extractors -/

variable {dump : Dump}

theorem wholeHits_of_le {ρ : Type*} {passes : List (Pass ρ)} (hlen : dump.length ≤ chunkSize) :
    hits chunkSize passes (scanned chunkSize dump) = wholeHits passes dump := by
  rw [scanned, List.take_of_length_le (hlen.trans (by decide)), hits_eq_wholeHits hlen]

theorem reports_snmp (includeSecrets : Bool) (hlen : dump.length ≤ chunkSize) :
    Reports snmpPrefix dump (snmpOffsets includeSecrets dump) := by
  have hoffsets : snmpOffsets includeSecrets dump =
      (firsts Common.SnmpConfig.bucket [] (wholeHits Common.SnmpConfig.passes dump)).map
        Common.SnmpConfig.physOff := by
    unfold snmpOffsets
    rw [Common.SnmpConfig.run_eq_reported (by decide), List.map_map, Common.SnmpConfig.reported,
      wholeHits_of_le hlen]
    rfl
  have hborder : Borderless snmpPrefix := by decide
  have htoken : ∀ idx, Holds snmpPrefix dump idx ↔
      (wholeHitAt (Common.SnmpConfig.passes.head (by decide)) dump idx).isSome := fun idx =>
    (wholeHitAt_isSome_iff (Common.SnmpConfig.passes.head _) hborder rfl rfl).symm
  rw [hoffsets]
  refine reports_of_firsts sorted_wholeHits (fun idx hidx => ?_) fun h hh hpass => ?_
  · obtain ⟨c, hc⟩ := Option.isSome_iff_exists.mp ((htoken idx).mp hidx)
    exact ⟨⟨0, idx, c⟩, mem_wholeHits_iff.mpr ⟨_, rfl, hc⟩, rfl, rfl⟩
  · obtain ⟨p, hp, hread⟩ := mem_wholeHits_iff.mp hh
    rw [hpass] at hp
    obtain rfl := (Option.some.inj hp).symm
    refine ⟨(htoken _).mpr (Option.isSome_iff_exists.mpr ⟨_, hread⟩), ?_⟩
    obtain ⟨p, rest, hp, -, hparse⟩ := exists_parse_of_mem_wholeHits hh
    rw [hpass] at hp
    obtain rfl := (Option.some.inj hp).symm
    obtain ⟨token, -, hvalue⟩ := Option.map_eq_some_iff.mp hparse
    unfold Common.SnmpConfig.physOff
    rw [← hvalue]

theorem reports_psk (includeSecrets : Bool) (hlen : dump.length ≤ chunkSize) :
    Reports pskPrefix dump (pskOffsets includeSecrets dump) := by
  have hoffsets : pskOffsets includeSecrets dump = (firsts Asa.VpnSessions.bucket []
      ((wholeHits Asa.VpnSessions.passes dump).filterMap Asa.VpnSessions.pskHit)).map
        Asa.VpnSessions.physOff := by
    unfold pskOffsets
    rw [Asa.VpnSessions.vpnPsks_eq (by decide), List.map_map, Asa.VpnSessions.reported,
      wholeHits_of_le hlen]
    rfl
  have hborder : Borderless pskPrefix := by decide
  have htoken : ∀ idx, Holds pskPrefix dump idx ↔
      (wholeHitAt (Asa.VpnSessions.passes.head (by decide)) dump idx).isSome := fun idx =>
    (wholeHitAt_isSome_iff (Asa.VpnSessions.passes.head _) hborder rfl rfl).symm
  have hplace : ∀ {h : Hit Asa.VpnSessions.Reading} {b}, Asa.VpnSessions.pskHit h = some b →
      b.pass = h.pass ∧ b.pos = h.pos := by
    rintro ⟨k, pos, value⟩ b hsel
    rcases value with token | ⟨sessionType, peerIp⟩
    · cases hsel
      exact ⟨rfl, rfl⟩
    · cases hsel
  rw [hoffsets]
  refine reports_of_firsts ?_ (fun idx hidx => ?_) fun h hh hpass => ⟨?_, rfl⟩
  · refine List.pairwise_filterMap.mpr (sorted_wholeHits.imp fun {x y} hlt a ha b hb => ?_)
    obtain ⟨hpass, hpos⟩ := hplace ha
    obtain ⟨hpass', hpos'⟩ := hplace hb
    unfold BeforeWhole at *
    rwa [hpass, hpos, hpass', hpos']
  · obtain ⟨r, hr⟩ := Option.isSome_iff_exists.mp ((htoken idx).mp hidx)
    have hmem : (⟨0, idx, r⟩ : Hit Asa.VpnSessions.Reading) ∈
        wholeHits Asa.VpnSessions.passes dump := mem_wholeHits_iff.mpr ⟨_, rfl, hr⟩
    obtain ⟨p, rest, hp, -, hparse⟩ := exists_parse_of_mem_wholeHits hmem
    obtain rfl := (Option.some.inj hp).symm
    obtain ⟨token, -, rfl⟩ := Option.map_eq_some_iff.mp hparse
    exact ⟨⟨0, idx, token⟩, List.mem_filterMap.mpr ⟨_, hmem, rfl⟩, rfl, rfl⟩
  · obtain ⟨g, hg, hsel⟩ := List.mem_filterMap.mp hh
    obtain ⟨hgpass, hgpos⟩ := hplace hsel
    obtain ⟨p, hp, hread⟩ := mem_wholeHits_iff.mp hg
    rw [← hgpass, hpass] at hp
    obtain rfl := (Option.some.inj hp).symm
    rw [hgpos]
    exact (htoken _).mpr (Option.isSome_iff_exists.mpr ⟨_, hread⟩)

/-- **What is reported of an image of one chunk.** -/
theorem reports (includeSecrets : Bool) (dump : Dump) (hlen : dump.length ≤ 65536) :
    Reports snmpPrefix dump (snmpOffsets includeSecrets dump) ∧
      Reports pskPrefix dump (pskOffsets includeSecrets dump) :=
  ⟨reports_snmp includeSecrets hlen, reports_psk includeSecrets hlen⟩

/-- Two lines of a configuration, with both tokens in the first 64 bytes. -/
def twoCommunities : Dump := ascii "snmp-server community ro\nsnmp-server community rw\n"

theorem reports_twoCommunities :
    Reports snmpPrefix twoCommunities (snmpOffsets true twoCommunities) ∧
      Reports pskPrefix twoCommunities (pskOffsets true twoCommunities) :=
  reports true twoCommunities (by decide)

/-- The second of them is dropped. -/
theorem not_all_reported : ¬ ∀ (includeSecrets : Bool) (dump : Dump), dump.length ≤ 65536 →
    Complete snmpPrefix dump (snmpOffsets includeSecrets dump) ∧
      Complete pskPrefix dump (pskOffsets includeSecrets dump) := by
  intro h
  have hcomplete := (h true twoCommunities (by decide)).1
  have hholds : Holds snmpPrefix twoCommunities 25 := by
    refine ⟨by decide, 0x72, by decide, by decide⟩
  have hoffsets : snmpOffsets true twoCommunities = [22] := by decide +kernel
  have hmem := hcomplete.reported 25 hholds
  rw [hoffsets] at hmem
  exact absurd hmem (by decide)

end VantaCore.Extractors.Cisco.Credentials
