import VantaCore.Extractors.Cisco.Text

/-! # VPN sessions and pre-shared keys

`ASAVPNSessionsExtractor.run`. One loop finds keys and sessions; the sessions it reports are the first
of each type and peer (`vpnSessions_eq`). -/

namespace VantaCore.Extractors.Cisco.Asa.VpnSessions

open VantaCore.Core.DumpHandle VantaCore.Lib.Chunks VantaCore.Lib.PyText VantaCore.Lib.FirstBy
open VantaCore.Extractors.Cisco.TextScan VantaCore.Extractors.Cisco.Text

def pskPrefix : List UInt8 := ascii "pre-shared-key "

/-- `_is_valid_ip` -/
def isValidIp (s : PyStr) : Bool :=
  let clean := stripChars ":,;()" s
  if clean = ofString "0.0.0.0" ∨ clean = ofString "255.255.255.255" then false else fourOctets clean

/-- What is read at an occurrence. -/
inductive Reading where
  | psk (token : PyStr)
  | session (sessionType peerIp : PyStr)
deriving DecidableEq

/-- The token behind the prefix. -/
def parsePsk (snippet : List UInt8) : Option Reading :=
  (extractToken snippet pskPrefix.length).map .psk

/-- The first field that is an address, without the punctuation around it. -/
def peerIp (snippet : List UInt8) : PyStr :=
  match (split (ofBytes snippet)).find? isValidIp with
  | none => ""
  | some tok => stripChars ":,;()" tok

/-- `pat.decode("ascii", errors="ignore").strip(":")` -/
def sessionType (pat : List UInt8) : PyStr := stripChars ":" (decodeAscii pat)

def parseSession (pat snippet : List UInt8) : Option Reading :=
  some (.session (sessionType pat) (peerIp snippet))

/-- The search for the keys and the searches for `_SESSION_PATTERNS`. -/
def passes : List (Pass Reading) :=
  [⟨pskPrefix, pskPrefix.length + 64, parsePsk, by decide, by decide⟩,
    ⟨ascii "IKEv", 128, parseSession (ascii "IKEv"), by decide, by decide⟩,
    ⟨ascii "AnyConnect", 128, parseSession (ascii "AnyConnect"), by decide, by decide⟩,
    ⟨ascii "Crypto map tag:", 128, parseSession (ascii "Crypto map tag:"), by decide, by decide⟩,
    ⟨ascii "peer address:", 128, parseSession (ascii "peer address:"), by decide, by decide⟩]

/-- An entry of `vpn_sessions`. -/
structure Session where
  sessionType : PyStr
  peerIp : PyStr
  physicalOffset : ℕ
deriving DecidableEq

/-- What the loop changes. -/
structure VpnState where
  sessions : List Session
  psks : List Credential
  seenPskOffsets : List ℕ
  seenSessionKeys : List (PyStr × PyStr)

/-- A key is recorded unless its bucket was seen, a session unless its type and peer were. -/
def record (includeSecrets : Bool) (pos : ℕ) (r : Reading) (s : VpnState) : VpnState :=
  match r with
  | .psk token =>
    let physOff := pos + pskPrefix.length
    if physOff / 64 ∈ s.seenPskOffsets then s
    else
      { s with
        psks := s.psks ++ [credential includeSecrets token physOff]
        seenPskOffsets := physOff / 64 :: s.seenPskOffsets }
  | .session sessionType peerIp =>
    if (sessionType, peerIp) ∈ s.seenSessionKeys then s
    else
      { s with
        sessions := s.sessions ++ [⟨sessionType, peerIp, pos⟩]
        seenSessionKeys := (sessionType, peerIp) :: s.seenSessionKeys }

/-- The loop over the dump with chunks of `n` bytes. -/
def scanVpn (includeSecrets : Bool) (n : ℕ) (dump : Dump) : VpnState :=
  scanText (record includeSecrets) n passes dump ⟨[], [], [], []⟩

/-- What the extractor returns. -/
structure Result where
  vpnSessions : List Session
  vpnPsks : List Credential
deriving DecidableEq

/-- `ASAVPNSessionsExtractor.run` with chunks of `n` bytes. -/
def run (includeSecrets : Bool) (n : ℕ) (dump : Dump) : Result :=
  let s := scanVpn includeSecrets n dump
  ⟨s.sessions, s.psks⟩

/-! ### The sessions that are reported -/

variable {n : ℕ} {dump : Dump}

/-- The type and the peer of a hit that is a session. -/
def sessionHit (h : Hit Reading) : Option (Hit (PyStr × PyStr)) :=
  match h.value with
  | .psk _ => none
  | .session sessionType peerIp => some ⟨h.pass, h.pos, (sessionType, peerIp)⟩

/-- The entry of a session. -/
def sessionOf (h : Hit (PyStr × PyStr)) : Session := ⟨h.value.1, h.value.2, h.pos⟩

/-- The sessions of a scan, in the order the loop comes to them. -/
def sessionHits (n : ℕ) (dump : Dump) : List (Hit (PyStr × PyStr)) :=
  (hits n passes (scanned n dump)).filterMap sessionHit

theorem records_sessions (includeSecrets : Bool) :
    Records sessionHit Hit.value (fun h => [sessionOf h])
      (fun s h => record includeSecrets h.pos h.value s)
      VpnState.seenSessionKeys VpnState.sessions where
  skip s h hsel := by
    obtain ⟨k, pos, value⟩ := h
    cases value with
    | psk token =>
      unfold record
      dsimp only
      split_ifs <;> exact ⟨rfl, rfl⟩
    | session sessionType peerIp => cases hsel
  old s h b hsel hseen := by
    obtain ⟨k, pos, value⟩ := h
    cases value with
    | psk token => cases hsel
    | session sessionType peerIp =>
      cases hsel
      rw [show record includeSecrets pos (.session sessionType peerIp) s = s from if_pos hseen]
      exact ⟨rfl, rfl⟩
  new s h b hsel hseen := by
    obtain ⟨k, pos, value⟩ := h
    cases value with
    | psk token => cases hsel
    | session sessionType peerIp =>
      cases hsel
      have hnew : (sessionType, peerIp) ∉ s.seenSessionKeys := hseen
      unfold record
      dsimp only
      rw [if_neg hnew]
      exact ⟨rfl, rfl⟩

/-- **The sessions are the first of each type and peer.** -/
theorem vpnSessions_eq {includeSecrets : Bool} (hn : 0 < n) :
    (run includeSecrets n dump).vpnSessions =
      (firsts Hit.value [] (sessionHits n dump)).map sessionOf := by
  show (scanVpn includeSecrets n dump).sessions = _
  unfold scanVpn
  rw [scanText_eq_foldl_scanned hn, (records_sessions includeSecrets).found_foldl,
    List.map_eq_flatMap]
  rfl

/-! ### The keys -/

/-- A hit that is a key. -/
def pskHit (h : Hit Reading) : Option (Hit PyStr) :=
  match h.value with
  | .psk token => some ⟨h.pass, h.pos, token⟩
  | .session _ _ => none

/-- Where the key of a hit starts. -/
def physOff (h : Hit PyStr) : ℕ := h.pos + pskPrefix.length

/-- The bucket a key is recorded under. -/
def bucket (h : Hit PyStr) : ℕ := physOff h / 64

/-- What is recorded of a key. -/
def pskOf (includeSecrets : Bool) (h : Hit PyStr) : Credential :=
  credential includeSecrets h.value (physOff h)

theorem records_psks (includeSecrets : Bool) :
    Records pskHit bucket (fun h => [pskOf includeSecrets h])
      (fun s h => record includeSecrets h.pos h.value s) VpnState.seenPskOffsets VpnState.psks where
  skip s h hsel := by
    obtain ⟨k, pos, value⟩ := h
    cases value with
    | psk token => cases hsel
    | session sessionType peerIp =>
      unfold record
      dsimp only
      split_ifs <;> exact ⟨rfl, rfl⟩
  old s h b hsel hseen := by
    obtain ⟨k, pos, value⟩ := h
    cases value with
    | psk token =>
      cases hsel
      rw [show record includeSecrets pos (.psk token) s = s from if_pos hseen]
      exact ⟨rfl, rfl⟩
    | session sessionType peerIp => cases hsel
  new s h b hsel hseen := by
    obtain ⟨k, pos, value⟩ := h
    cases value with
    | psk token =>
      cases hsel
      have hnew : (pos + pskPrefix.length) / 64 ∉ s.seenPskOffsets := hseen
      unfold record
      dsimp only
      rw [if_neg hnew]
      exact ⟨rfl, rfl⟩
    | session sessionType peerIp => cases hsel

/-- The keys that are reported. -/
def reported (n : ℕ) (dump : Dump) : List (Hit PyStr) :=
  firsts bucket [] ((hits n passes (scanned n dump)).filterMap pskHit)

/-- **The keys are the first of each bucket.** -/
theorem vpnPsks_eq {includeSecrets : Bool} (hn : 0 < n) :
    (run includeSecrets n dump).vpnPsks = (reported n dump).map (pskOf includeSecrets) := by
  show (scanVpn includeSecrets n dump).psks = _
  unfold scanVpn
  rw [scanText_eq_foldl_scanned hn, (records_psks includeSecrets).found_foldl, List.map_eq_flatMap]
  rfl

/-! ### The sessions of a dump -/

theorem exists_of_mem_sessionHits {h : Hit (PyStr × PyStr)} (hh : h ∈ sessionHits n dump) :
    ⟨h.pass, h.pos, .session h.value.1 h.value.2⟩ ∈ hits n passes (scanned n dump) := by
  obtain ⟨⟨k, pos, value⟩, hmem, hsel⟩ := List.mem_filterMap.mp hh
  cases value with
  | psk token => cases hsel
  | session sessionType peerIp =>
    cases hsel
    exact hmem

theorem sorted_sessionHits (hn : 0 < n) : (sessionHits n dump).Pairwise (Before n) := by
  have hplace : ∀ {h : Hit Reading} {b}, sessionHit h = some b → b.pass = h.pass ∧ b.pos = h.pos := by
    rintro ⟨k, pos, value⟩ b hsel
    cases value with
    | psk token => cases hsel
    | session sessionType peerIp =>
      cases hsel
      exact ⟨rfl, rfl⟩
  refine List.pairwise_filterMap.mpr ((sorted_hits hn).imp fun {x y} hlt a ha b hb => ?_)
  obtain ⟨hpass, hpos⟩ := hplace ha
  obtain ⟨hpass', hpos'⟩ := hplace hb
  unfold Before at *
  rwa [hpass, hpos, hpass', hpos']

/-- The types of the passes. -/
def types : List PyStr := ["", "IKEv", "AnyConnect", "Crypto map tag", "peer address"]

theorem type_of_parseSession {pat snippet : List UInt8} {sessionType' peer : PyStr}
    (h : parseSession pat snippet = some (.session sessionType' peer)) :
    sessionType pat = sessionType' :=
  (Reading.session.inj (Option.some.inj h)).1

theorem parse_of_getElem? {k : ℕ} {p : Pass Reading} (hp : passes[k]? = some p) :
    p.parse = parsePsk ∨ ∃ pat, p.parse = parseSession pat ∧ types[k]? = some (sessionType pat) := by
  unfold passes at hp
  match k with
  | 0 =>
    rw [List.getElem?_cons_zero, Option.some_inj] at hp
    exact Or.inl (hp ▸ rfl)
  | k + 1 =>
    rw [List.getElem?_cons_succ] at hp
    refine Or.inr ?_
    match k, hp with
    | 0, hp => cases hp; exact ⟨_, rfl, by decide⟩
    | 1, hp => cases hp; exact ⟨_, rfl, by decide⟩
    | 2, hp => cases hp; exact ⟨_, rfl, by decide⟩
    | 3, hp => cases hp; exact ⟨_, rfl, by decide⟩
    | k + 4, hp => cases hp

theorem type_of_parse {p : Pass Reading} {snippet : List UInt8} {sessionType' peer : PyStr} {k : ℕ}
    (hp : passes[k]? = some p) (h : p.parse snippet = some (.session sessionType' peer)) :
    types[k]? = some sessionType' := by
  rcases parse_of_getElem? hp with hpsk | ⟨pat, hpat, htype⟩
  · rw [hpsk] at h
    obtain ⟨token, -, htoken⟩ := Option.map_eq_some_iff.mp h
    cases htoken
  · rw [hpat] at h
    rw [htype, type_of_parseSession h]

/-- **The type of a session is the type of its pass.** -/
theorem type_of_mem {h : Hit (PyStr × PyStr)} (hh : h ∈ sessionHits n dump) :
    types[h.pass]? = some h.value.1 := by
  obtain ⟨p, hp, -, hparse⟩ := parse_of_mem_hits (exists_of_mem_sessionHits hh)
  exact type_of_parse hp hparse

/-- What is recorded tells the hit, also in another dump. -/
theorem eq_of_sessionOf_eq {dump' : Dump} {a b : Hit (PyStr × PyStr)} (ha : a ∈ sessionHits n dump)
    (hb : b ∈ sessionHits n dump') (h : sessionOf a = sessionOf b) : a = b := by
  have htype : a.value.1 = b.value.1 := congrArg Session.sessionType h
  have hpeer : a.value.2 = b.value.2 := congrArg Session.peerIp h
  have hpos : a.pos = b.pos := congrArg Session.physicalOffset h
  have hlt : a.pass < types.length := (List.getElem?_eq_some_iff.mp (type_of_mem ha)).1
  have hnodup : types.Nodup := by decide
  have hpass : a.pass = b.pass := (List.getElem?_inj hlt hnodup).mp (by
    rw [type_of_mem ha, type_of_mem hb, htype])
  exact Hit.ext hpass hpos (Prod.ext htype hpeer)

end VantaCore.Extractors.Cisco.Asa.VpnSessions
