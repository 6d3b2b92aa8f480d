import VantaCore.Extractors.Cisco.Asa.VpnSessions
import VantaCore.Extractors.Cisco.Common.SnmpConfig
import VantaCore.Extractors.Cisco.Occurrences

/-! # Where strings, keys and sessions are reported

Without `include_secrets` a community string and a key are reported by where they start, a session by
its type, its peer and its position. What two dumps report is told by the bytes: the first strings of
the buckets and their order (`Snmp.run_eq_iff`), the first keys of the buckets (`Vpn.vpnPsks_eq_iff`)
and the first sessions of each type and peer (`Vpn.vpnSessions_eq_iff`). -/

namespace VantaCore.Extractors.Cisco.SecretPlaces

open VantaCore.Core.DumpHandle VantaCore.Lib.Chunks VantaCore.Lib.Search VantaCore.Lib.PyText
open VantaCore.Lib.FirstBy VantaCore.Extractors.Cisco.TextScan VantaCore.Extractors.Cisco.Text
open VantaCore.Extractors.Cisco.TwoDumps VantaCore.Extractors.Cisco.Occurrences

variable {n k s t pos : ℕ} {d d' : Dump} {p : List UInt8}

/-- A token starts behind the pattern: in the chunk of the pattern a visible byte stands there. -/
def TokenAt (n : ℕ) (p : List UInt8) (d : Dump) (s : ℕ) : Prop :=
  ∃ pos, s = pos + p.length ∧ Found n p d pos ∧
    ∃ b, (chunkOf n d pos)[pos % n + p.length]? = some b ∧ Visible b

theorem extractToken_window_isSome_iff {w : ℕ} (hw : p.length < w) :
    (extractToken (chunkAt w (chunkOf n d pos) (pos % n)) p.length).isSome ↔
      ∃ b, (chunkOf n d pos)[pos % n + p.length]? = some b ∧ Visible b := by
  rw [extractToken_isSome_iff, getElem?_chunkAt hw]

/-- What is reported of redacted tokens is where they start. -/
theorem map_credential_eq_iff {α : Type*} {token : α → PyStr} {physOff : α → ℕ} {l l' : List α} :
    l.map (fun a => credential false (token a) (physOff a)) =
        l'.map (fun a => credential false (token a) (physOff a)) ↔
      l.map physOff = l'.map physOff := by
  have hinj : Function.Injective (credential false []) := fun _ _ h =>
    congrArg Credential.physicalOffset h
  have hmap : ∀ l : List α, l.map (fun a => credential false (token a) (physOff a)) =
      (l.map physOff).map (credential false []) := fun l => by
    rw [List.map_map]
    rfl
  rw [hmap, hmap, (List.map_injective_iff.mpr hinj).eq_iff]

/-- Of two hits of a scan one comes first. -/
theorem total_hits {ρ : Type*} {passes : List (Pass ρ)} {a b : Hit ρ} (ha : a ∈ hits n passes d)
    (hb : b ∈ hits n passes d) : a = b ∨ Before n a b ∨ Before n b a := by
  by_cases hplace : a.pass = b.pass ∧ a.pos = b.pos
  · exact Or.inl (eq_of_mem_hits ha hb hplace.1 hplace.2)
  · have hdiv : a.pos = b.pos → a.pos / n = b.pos / n := congrArg (· / n)
    unfold Before
    omega

/-! ### Community strings -/

namespace Snmp

open VantaCore.Extractors.Cisco.Common.SnmpConfig

/-- A community string starts at `s`, found by the search `k`: a token behind the prefix, or one of the
two strings that stand alone. -/
def StringAt (n : ℕ) (d : Dump) (k s : ℕ) : Prop :=
  k = 0 ∧ TokenAt n snmpPrefix d s ∨ k = 1 ∧ Found n (ascii "public\x00") d s ∨
    k = 2 ∧ Found n (ascii "private\x00") d s

/-- The first string of its bucket, in the order of the searches and the offsets. -/
def FirstString (n : ℕ) (d : Dump) (k s : ℕ) : Prop :=
  StringAt n d k s ∧ ∀ l t, StringAt n d l t → t / 64 = s / 64 → k < l ∨ k = l ∧ s ≤ t

/-- Strings that are the first of their buckets start at `s` and `t`, and the first of them does not come
after the second in the order of chunks, searches and offsets. -/
def Precedes (n : ℕ) (d : Dump) (s t : ℕ) : Prop :=
  ∃ k l, FirstString n d k s ∧ FirstString n d l t ∧
    (s / n < t / n ∨ s / n = t / n ∧ (k < l ∨ k = l ∧ s ≤ t))

/-- Where the strings start that are reported. -/
def offsets (n : ℕ) (d : Dump) : List ℕ := (reported n d).map physOff

theorem start_of_mem {h : Hit Community} (hh : h ∈ hits n passes (scanned n d)) :
    h.value.start = if h.pass = 0 then snmpPrefix.length else 0 := by
  obtain ⟨p, hp, -, hparse⟩ := parse_of_mem_hits hh
  obtain ⟨k, pos, value⟩ := h
  match k with
  | 0 =>
    obtain rfl := Option.some.inj hp
    obtain ⟨token, -, rfl⟩ := Option.map_eq_some_iff.mp hparse
    rfl
  | 1 =>
    obtain rfl := Option.some.inj hp
    obtain rfl := Option.some.inj hparse
    rfl
  | 2 =>
    obtain rfl := Option.some.inj hp
    obtain rfl := Option.some.inj hparse
    rfl
  | k + 3 => cases hp

/-- **The strings that are found** are the hits of the scan. -/
theorem stringAt_iff (hn : 0 < n) : StringAt n d k s ↔
    ∃ h ∈ hits n passes (scanned n d), h.pass = k ∧ physOff h = s := by
  have hwindow : snmpPrefix.length < snmpPrefix.length + 64 := by omega
  constructor
  · rintro (⟨rfl, pos, rfl, hfound, hbyte⟩ | ⟨rfl, hfound⟩ | ⟨rfl, hfound⟩)
    · obtain ⟨token, htoken⟩ := Option.isSome_iff_exists.mp
        ((extractToken_window_isSome_iff hwindow).mpr hbyte)
      refine ⟨⟨0, pos, ⟨token, snmpPrefix.length⟩⟩, (mem_hits_iff_found hn).mpr ⟨_, rfl, hfound, ?_⟩,
        rfl, rfl⟩
      show parsePrefixed _ = _
      unfold parsePrefixed
      rw [htoken]
      rfl
    · exact ⟨⟨1, s, ⟨"public", 0⟩⟩, (mem_hits_iff_found hn).mpr ⟨_, rfl, hfound, rfl⟩, rfl, rfl⟩
    · exact ⟨⟨2, s, ⟨"private", 0⟩⟩, (mem_hits_iff_found hn).mpr ⟨_, rfl, hfound, rfl⟩, rfl, rfl⟩
  · rintro ⟨h, hh, rfl, rfl⟩
    have hstart := start_of_mem hh
    obtain ⟨p, hp, hfound, hparse⟩ := (mem_hits_iff_found hn).mp hh
    obtain ⟨k, pos, value⟩ := h
    unfold physOff
    match k with
    | 0 =>
      obtain rfl := Option.some.inj hp
      obtain ⟨token, htoken, rfl⟩ := Option.map_eq_some_iff.mp hparse
      exact Or.inl ⟨rfl, pos, rfl, hfound, (extractToken_window_isSome_iff hwindow).mp
        (Option.isSome_iff_exists.mpr ⟨token, htoken⟩)⟩
    | 1 =>
      obtain rfl := Option.some.inj hp
      exact Or.inr (Or.inl ⟨rfl, by rw [hstart]; exact hfound⟩)
    | 2 =>
      obtain rfl := Option.some.inj hp
      exact Or.inr (Or.inr ⟨rfl, by rw [hstart]; exact hfound⟩)
    | k + 3 => cases hp

/-- In one search the offsets come in the order of the positions. -/
theorem physOff_eq {h h' : Hit Community} (hh : h ∈ hits n passes (scanned n d))
    (hh' : h' ∈ hits n passes (scanned n d)) (hpass : h.pass = h'.pass) :
    physOff h + h'.pos = physOff h' + h.pos := by
  have hstart := start_of_mem hh
  rw [hpass, ← start_of_mem hh'] at hstart
  unfold physOff
  omega

theorem sorted_reported (hn : 0 < n) : (reported n d).Pairwise (Before n) :=
  (sorted_hits hn).sublist (firsts_sublist _ _)

variable (hn : 0 < n) (hdvd : 64 ∣ n)

include hn hdvd

/-- **What is reported** is the first string of each bucket. -/
theorem firstString_iff : FirstString n d k s ↔
    ∃ h ∈ reported n d, h.pass = k ∧ physOff h = s := by
  have hfirsts : ∀ h, h ∈ reported n d ↔ h ∈ hits n passes (scanned n d) ∧
      ∀ b ∈ hits n passes (scanned n d), bucket b = bucket h → ¬ Before n b h := fun h =>
    mem_firsts_iff (sorted_hits hn) Before.asymm fun a ha b hb _ => total_hits ha hb
  unfold FirstString
  constructor
  · rintro ⟨hstring, hfirst⟩
    obtain ⟨h, hh, rfl, rfl⟩ := (stringAt_iff hn).mp hstring
    refine ⟨h, (hfirsts h).mpr ⟨hh, fun b hb hbucket hbefore => ?_⟩, rfl, rfl⟩
    have hle := hfirst b.pass (physOff b) ((stringAt_iff hn).mpr ⟨b, hb, rfl, rfl⟩) hbucket
    have hchunk := chunk_of_bucket hdvd hb hh hbucket
    have hoff := physOff_eq (d := d) hh hb
    unfold Before at hbefore
    omega
  · rintro ⟨h, hh, rfl, rfl⟩
    obtain ⟨hmem, hfirst⟩ := (hfirsts h).mp hh
    refine ⟨(stringAt_iff hn).mpr ⟨h, hmem, rfl, rfl⟩, fun l t hstring hbucket => ?_⟩
    obtain ⟨b, hb, rfl, rfl⟩ := (stringAt_iff hn).mp hstring
    have hnot := hfirst b hb hbucket
    have hchunk := chunk_of_bucket hdvd hb hmem hbucket
    have hoff := physOff_eq (d := d) hmem hb
    unfold Before at hnot
    omega

theorem listed_iff : Listed (offsets n d) s t ↔ Precedes n d s t := by
  have hmem : ∀ {h}, h ∈ reported n d → h ∈ hits n passes (scanned n d) := fun hh =>
    (mem_of_mem_firsts hh).1
  unfold offsets Precedes
  rw [listed_map_iff (sorted_reported hn) Before.asymm]
  simp only [firstString_iff hn hdvd]
  constructor
  · rintro ⟨a, ha, b, hb, hab, rfl, rfl⟩
    refine ⟨a.pass, b.pass, ⟨a, ha, rfl, rfl⟩, ⟨b, hb, rfl, rfl⟩, ?_⟩
    rw [div_of_mem (hmem ha), div_of_mem (hmem hb)]
    rcases hab with rfl | hab
    · exact Or.inr ⟨rfl, Or.inr ⟨rfl, le_rfl⟩⟩
    · have hoff := physOff_eq (hmem ha) (hmem hb)
      unfold Before at hab
      omega
  · rintro ⟨k, l, ⟨a, ha, rfl, rfl⟩, ⟨b, hb, rfl, rfl⟩, horder⟩
    refine ⟨a, ha, b, hb, ?_, rfl, rfl⟩
    rw [div_of_mem (hmem ha), div_of_mem (hmem hb)] at horder
    rcases total_hits (hmem ha) (hmem hb) with heq | hab | hba
    · exact Or.inl heq
    · exact Or.inr hab
    · have hoff := physOff_eq (hmem ha) (hmem hb)
      unfold Before at hba
      omega

/-- **The redacted reports are equal** exactly if the first strings of the buckets start at the same
offsets and come in the same order. -/
theorem run_eq_iff : run false n d = run false n d' ↔ ∀ s t, Precedes n d s t ↔ Precedes n d' s t := by
  have hnodup : ∀ e, (offsets n e).Nodup := fun e => by
    refine List.pairwise_map.mpr ((pairwise_firsts [] _).imp fun {a b} hne heq => hne ?_)
    unfold bucket
    rw [heq]
  have hoffsets : run false n d = run false n d' ↔ offsets n d = offsets n d' := by
    rw [run_eq_reported hn, run_eq_reported hn]
    exact map_credential_eq_iff
  rw [hoffsets]
  constructor
  · intro heq s t
    rw [← listed_iff hn hdvd, ← listed_iff hn hdvd, heq]
  · intro hall
    refine eq_of_listed (hnodup d) (hnodup d') fun s t => ?_
    rw [listed_iff hn hdvd, listed_iff hn hdvd, hall s t]

end Snmp

/-! ### Sessions and pre-shared keys -/

namespace Vpn

open VantaCore.Extractors.Cisco.Asa.VpnSessions

/-- The first key of its bucket starts at `s`. -/
def FirstKey (n : ℕ) (d : Dump) (s : ℕ) : Prop :=
  TokenAt n pskPrefix d s ∧ ∀ t < s, t / 64 = s / 64 → ¬ TokenAt n pskPrefix d t

/-- `_SESSION_PATTERNS` -/
def sessionPatterns : List (List UInt8) := (passes.drop 1).map Pass.pattern

/-- The pattern is found, and the first address of the 128 bytes there, up to the end of the chunk, is
the peer. -/
def SessionAt (n : ℕ) (d : Dump) (pat : List UInt8) (pos : ℕ) (peer : PyStr) : Prop :=
  Found n pat d pos ∧ peerIp (chunkAt 128 (chunkOf n d pos) (pos % n)) = peer

/-- The first session of its pattern and peer. -/
def FirstSession (n : ℕ) (d : Dump) (pat : List UInt8) (pos : ℕ) (peer : PyStr) : Prop :=
  SessionAt n d pat pos peer ∧ ∀ j < pos, ¬ SessionAt n d pat j peer

/-- Where the keys start that are reported. -/
def offsets (n : ℕ) (d : Dump) : List ℕ := (reported n d).map physOff

theorem mem_keyHits_iff {h : Hit PyStr} (hn : 0 < n) :
    h ∈ (hits n passes (scanned n d)).filterMap pskHit ↔ h.pass = 0 ∧ Found n pskPrefix d h.pos ∧
      extractToken (chunkAt (pskPrefix.length + 64) (chunkOf n d h.pos) (h.pos % n))
        pskPrefix.length = some h.value := by
  rw [List.mem_filterMap]
  constructor
  · rintro ⟨g, hg, hsel⟩
    obtain ⟨p, hp, hfound, hparse⟩ := (mem_hits_iff_found hn).mp hg
    obtain ⟨k, pos, value⟩ := g
    cases value with
    | session sessionType peer => cases hsel
    | psk token =>
      cases hsel
      match k with
      | 0 =>
        obtain rfl := Option.some.inj hp
        obtain ⟨token', htoken, heq⟩ := Option.map_eq_some_iff.mp hparse
        cases heq
        exact ⟨rfl, hfound, htoken⟩
      | k + 1 =>
        have hsession : ∀ q ∈ passes.drop 1, ∃ pat, q.parse = parseSession pat := by
          intro q hq
          simp only [passes, List.drop_succ_cons, List.drop_zero, List.mem_cons, List.not_mem_nil,
            or_false] at hq
          rcases hq with rfl | rfl | rfl | rfl <;> exact ⟨_, rfl⟩
        obtain ⟨pat, hpat⟩ := hsession p (List.mem_of_getElem? (i := k) (by
          rw [List.getElem?_drop, Nat.add_comm]
          exact hp))
        rw [hpat] at hparse
        cases hparse
  · rintro ⟨hpass, hfound, htoken⟩
    obtain ⟨k, pos, value⟩ := h
    obtain rfl : k = 0 := hpass
    refine ⟨⟨0, pos, .psk value⟩, (mem_hits_iff_found hn).mpr ⟨_, rfl, hfound, ?_⟩, rfl⟩
    show parsePsk _ = _
    unfold parsePsk
    rw [htoken]
    rfl

theorem sorted_keyHits (hn : 0 < n) : ((hits n passes (scanned n d)).filterMap pskHit).Pairwise
    fun a b => a.pos < b.pos := by
  have hplace : ∀ {h : Hit Reading} {b}, pskHit h = some b → b.pass = h.pass ∧ b.pos = h.pos := by
    rintro ⟨k, pos, value⟩ b hsel
    cases value with
    | psk token =>
      cases hsel
      exact ⟨rfl, rfl⟩
    | session sessionType peer => cases hsel
  refine List.pairwise_filterMap.mpr ((sorted_hits hn).imp_of_mem fun {x y} hx hy hlt a ha b hb => ?_)
  have ha' := ((mem_keyHits_iff hn).mp (List.mem_filterMap.mpr ⟨x, hx, ha⟩)).1
  have hb' := ((mem_keyHits_iff hn).mp (List.mem_filterMap.mpr ⟨y, hy, hb⟩)).1
  obtain ⟨hpass, hpos⟩ := hplace ha
  obtain ⟨hpass', hpos'⟩ := hplace hb
  rw [before_iff_of_pass_eq (by omega)] at hlt
  omega

theorem tokenAt_iff (hn : 0 < n) : TokenAt n pskPrefix d s ↔
    ∃ h ∈ (hits n passes (scanned n d)).filterMap pskHit, physOff h = s := by
  have hwindow : pskPrefix.length < pskPrefix.length + 64 := by omega
  constructor
  · rintro ⟨pos, rfl, hfound, hbyte⟩
    obtain ⟨token, htoken⟩ := Option.isSome_iff_exists.mp
      ((extractToken_window_isSome_iff hwindow).mpr hbyte)
    exact ⟨⟨0, pos, token⟩, (mem_keyHits_iff hn).mpr ⟨rfl, hfound, htoken⟩, rfl⟩
  · rintro ⟨h, hh, rfl⟩
    obtain ⟨-, hfound, htoken⟩ := (mem_keyHits_iff hn).mp hh
    exact ⟨h.pos, rfl, hfound, (extractToken_window_isSome_iff hwindow).mp
      (Option.isSome_iff_exists.mpr ⟨h.value, htoken⟩)⟩

/-- **What is reported** is the first key of each bucket. -/
theorem mem_offsets_iff (hn : 0 < n) : s ∈ offsets n d ↔ FirstKey n d s := by
  have hasymm : ∀ x y : Hit PyStr, x.pos < y.pos → ¬ y.pos < x.pos := fun _ _ h => not_lt.mpr h.le
  have htotal : ∀ a ∈ (hits n passes (scanned n d)).filterMap pskHit,
      ∀ b ∈ (hits n passes (scanned n d)).filterMap pskHit, bucket a = bucket b →
        a = b ∨ a.pos < b.pos ∨ b.pos < a.pos := by
    intro a ha b hb _
    obtain ⟨hpass, -, htoken⟩ := (mem_keyHits_iff hn).mp ha
    obtain ⟨hpass', -, htoken'⟩ := (mem_keyHits_iff hn).mp hb
    rcases Nat.lt_trichotomy a.pos b.pos with hlt | heq | hlt
    · exact Or.inr (Or.inl hlt)
    · rw [← heq, htoken] at htoken'
      exact Or.inl (Hit.ext (hpass.trans hpass'.symm) heq (Option.some.inj htoken'))
    · exact Or.inr (Or.inr hlt)
  have hlt_iff : ∀ {a b : Hit PyStr}, a.pos < b.pos ↔ physOff a < physOff b := fun {a b} => by
    unfold physOff
    omega
  unfold offsets FirstKey reported
  simp only [List.mem_map, mem_firsts_iff (sorted_keyHits hn) hasymm htotal, tokenAt_iff hn]
  constructor
  · rintro ⟨h, ⟨hh, hfirst⟩, rfl⟩
    refine ⟨⟨h, hh, rfl⟩, ?_⟩
    rintro _ ht hbucket ⟨b, hb, rfl⟩
    exact hfirst b hb hbucket (hlt_iff.mpr ht)
  · rintro ⟨⟨h, hh, rfl⟩, hfirst⟩
    exact ⟨h, ⟨hh, fun b hb hbucket hlt => hfirst (physOff b) (hlt_iff.mp hlt) hbucket ⟨b, hb, rfl⟩⟩,
      rfl⟩

theorem sorted_offsets (hn : 0 < n) : (offsets n d).Pairwise (· < ·) :=
  List.pairwise_map.mpr (((sorted_keyHits hn).sublist (firsts_sublist _ _)).imp
    fun {_ _} hlt => Nat.add_lt_add_right hlt _)

/-- **The redacted keys are equal** exactly if the first keys of the buckets start at the same
offsets. -/
theorem vpnPsks_eq_iff (hn : 0 < n) :
    (run false n d).vpnPsks = (run false n d').vpnPsks ↔ ∀ s, FirstKey n d s ↔ FirstKey n d' s := by
  have hoffsets : (run false n d).vpnPsks = (run false n d').vpnPsks ↔ offsets n d = offsets n d' := by
    rw [vpnPsks_eq hn, vpnPsks_eq hn]
    exact map_credential_eq_iff
  simp only [hoffsets, ← mem_offsets_iff hn]
  exact ⟨fun heq s => by rw [heq], (sorted_offsets hn).eq_of_mem_iff (sorted_offsets hn)⟩

/-! The sessions. -/

theorem mem_sessionHits_iff {h : Hit (PyStr × PyStr)} (hn : 0 < n) : h ∈ sessionHits n d ↔
    ∃ pat, sessionPatterns[h.pass - 1]? = some pat ∧ 0 < h.pass ∧ SessionAt n d pat h.pos h.value.2 ∧
      h.value.1 = sessionType pat := by
  have hpass : ∀ {k : ℕ} {p : Pass Reading}, passes[k + 1]? = some p ↔ (passes.drop 1)[k]? = some p :=
    fun {k p} => by rw [List.getElem?_drop, Nat.add_comm 1 k]
  have hparse : ∀ p ∈ passes.drop 1, p.window = 128 ∧ p.parse = parseSession p.pattern := by
    intro p hp
    simp only [passes, List.drop_succ_cons, List.drop_zero, List.mem_cons, List.not_mem_nil,
      or_false] at hp
    rcases hp with rfl | rfl | rfl | rfl <;> exact ⟨rfl, rfl⟩
  unfold sessionHits sessionPatterns
  simp only [List.mem_filterMap, List.getElem?_map, Option.map_eq_some_iff]
  constructor
  · rintro ⟨g, hg, hsel⟩
    obtain ⟨p, hp, hfound, hread⟩ := (mem_hits_iff_found hn).mp hg
    obtain ⟨k, pos, value⟩ := g
    cases k with
    | zero =>
      obtain rfl := Option.some.inj hp
      obtain ⟨token, -, rfl⟩ := Option.map_eq_some_iff.mp hread
      cases hsel
    | succ k =>
      obtain ⟨hwindow, hp'⟩ := hparse p (List.mem_of_getElem? (hpass.mp hp))
      rw [hwindow, hp'] at hread
      have hvalue := Option.some.inj hread
      dsimp only at hvalue
      subst hvalue
      cases hsel
      exact ⟨p.pattern, ⟨p, hpass.mp hp, rfl⟩, Nat.succ_pos k, ⟨hfound, rfl⟩, rfl⟩
  · rintro ⟨_, ⟨p, hp, rfl⟩, hpos, ⟨hfound, hpeer⟩, htype⟩
    obtain ⟨k, pos, type, peer⟩ := h
    obtain ⟨hwindow, hp'⟩ := hparse p (List.mem_of_getElem? hp)
    obtain ⟨k, rfl⟩ := Nat.exists_eq_succ_of_ne_zero hpos.ne'
    refine ⟨⟨k + 1, pos, .session type peer⟩, (mem_hits_iff_found hn).mpr
      ⟨p, hpass.mpr hp, hfound, ?_⟩, rfl⟩
    rw [hwindow, hp']
    show some (Reading.session (sessionType p.pattern) (peerIp _)) = _
    rw [hpeer, ← htype]

/-- The hits of one type are those of one pass. -/
theorem pass_of_type {e : Dump} {a b : Hit (PyStr × PyStr)} (ha : a ∈ sessionHits n d)
    (hb : b ∈ sessionHits n e) (h : a.value.1 = b.value.1) : a.pass = b.pass := by
  have hlt : a.pass < types.length := (List.getElem?_eq_some_iff.mp (type_of_mem ha)).1
  have hnodup : types.Nodup := by decide
  exact (List.getElem?_inj hlt hnodup).mp (by rw [type_of_mem ha, type_of_mem hb, h])

/-- **What is reported** is the first session of each type and peer. -/
theorem mem_firsts_sessions_iff {h : Hit (PyStr × PyStr)} (hn : 0 < n) :
    h ∈ firsts Hit.value [] (sessionHits n d) ↔
      ∃ pat, sessionPatterns[h.pass - 1]? = some pat ∧ 0 < h.pass ∧
        FirstSession n d pat h.pos h.value.2 ∧ h.value.1 = sessionType pat := by
  have htotal : ∀ a ∈ sessionHits n d, ∀ b ∈ sessionHits n d, a.value = b.value →
      a = b ∨ Before n a b ∨ Before n b a := by
    intro a ha b hb hvalue
    have hpass := pass_of_type ha hb (congrArg Prod.fst hvalue)
    rw [before_iff_of_pass_eq hpass, before_iff_of_pass_eq hpass.symm]
    rcases Nat.lt_trichotomy a.pos b.pos with hlt | heq | hlt
    exacts [Or.inr (Or.inl hlt), Or.inl (Hit.ext hpass heq hvalue), Or.inr (Or.inr hlt)]
  rw [mem_firsts_iff (sorted_sessionHits hn) Before.asymm htotal]
  constructor
  · rintro ⟨hmem, hfirst⟩
    obtain ⟨pat, hpat, hpos, hsession, htype⟩ := (mem_sessionHits_iff hn).mp hmem
    refine ⟨pat, hpat, hpos, ⟨hsession, fun j hj hsession' => ?_⟩, htype⟩
    let b : Hit (PyStr × PyStr) := ⟨h.pass, j, h.value⟩
    have hb : b ∈ sessionHits n d := (mem_sessionHits_iff hn).mpr ⟨pat, hpat, hpos, hsession', htype⟩
    exact hfirst b hb rfl ((before_iff_of_pass_eq (show b.pass = h.pass from rfl)).mpr hj)
  · rintro ⟨pat, hpat, hpos, ⟨hsession, hfirst⟩, htype⟩
    have hmem : h ∈ sessionHits n d := (mem_sessionHits_iff hn).mpr ⟨pat, hpat, hpos, hsession, htype⟩
    refine ⟨hmem, fun b hb hvalue hlt => ?_⟩
    have hpass := pass_of_type hb hmem (congrArg Prod.fst hvalue)
    obtain ⟨pat', hpat', -, hsession', -⟩ := (mem_sessionHits_iff hn).mp hb
    rw [hpass, hpat, Option.some_inj] at hpat'
    rw [before_iff_of_pass_eq hpass] at hlt
    rw [hvalue, ← hpat'] at hsession'
    exact hfirst b.pos hlt hsession'

/-- **The sessions are the same** exactly if the first ones of each type and peer are. -/
theorem vpnSessions_eq_iff (hn : 0 < n) :
    (run false n d).vpnSessions = (run false n d').vpnSessions ↔
      ∀ pat ∈ sessionPatterns, ∀ pos peer,
        FirstSession n d pat pos peer ↔ FirstSession n d' pat pos peer := by
  have hsorted : ∀ e, (firsts Hit.value [] (sessionHits n e)).Pairwise (Before n) := fun _ =>
    (sorted_sessionHits hn).sublist (firsts_sublist _ _)
  have hsession : ∀ {e e' : Dump}, (firsts Hit.value [] (sessionHits n e)).map sessionOf =
      (firsts Hit.value [] (sessionHits n e')).map sessionOf →
      ∀ h ∈ firsts Hit.value [] (sessionHits n e), h ∈ firsts Hit.value [] (sessionHits n e') := by
    intro e e' heq h hh
    have hmem := List.mem_map_of_mem (f := sessionOf) hh
    rw [heq] at hmem
    obtain ⟨b, hb, hbh⟩ := List.mem_map.mp hmem
    rwa [← eq_of_sessionOf_eq (mem_of_mem_firsts hb).1 (mem_of_mem_firsts hh).1 hbh]
  rw [vpnSessions_eq hn, vpnSessions_eq hn]
  constructor
  · intro heq pat hpat pos peer
    obtain ⟨k, hk⟩ := List.mem_iff_getElem?.mp hpat
    have hfirst : ∀ e, FirstSession n e pat pos peer ↔ (⟨k + 1, pos, sessionType pat, peer⟩ :
        Hit (PyStr × PyStr)) ∈ firsts Hit.value [] (sessionHits n e) := by
      intro e
      rw [mem_firsts_sessions_iff hn]
      refine ⟨fun h => ⟨pat, hk, Nat.succ_pos k, h, rfl⟩, ?_⟩
      rintro ⟨pat', hpat', -, h, -⟩
      obtain rfl : pat = pat' := Option.some.inj (hk.symm.trans hpat')
      exact h
    rw [hfirst, hfirst]
    exact ⟨hsession heq _, hsession heq.symm _⟩
  · intro hall
    have hfirsts : firsts Hit.value [] (sessionHits n d) = firsts Hit.value [] (sessionHits n d') := by
      refine (hsorted d).eq_of_mem_iff (hsorted d') fun h => ?_
      rw [mem_firsts_sessions_iff hn, mem_firsts_sessions_iff hn]
      refine exists_congr fun pat => and_congr_right fun hpat => and_congr_right fun _ => ?_
      rw [hall pat (List.mem_of_getElem? hpat)]
    rw [hfirsts]

end Vpn

end VantaCore.Extractors.Cisco.SecretPlaces
