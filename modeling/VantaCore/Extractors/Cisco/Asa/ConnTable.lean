import VantaCore.Extractors.Cisco.ChunkEnds
import VantaCore.Extractors.Cisco.Text

/-! # The connection table

`ASAConnTableExtractor.run`. The protocol of a connection is the protocol of the pass that found it
(`protocol_of_mem`), so the entry tells where its connection was read. -/

namespace VantaCore.Extractors.Cisco.Asa.ConnTable

open VantaCore.Core.DumpHandle VantaCore.Lib.Chunks VantaCore.Lib.Search VantaCore.Lib.PyText
open VantaCore.Lib.FirstBy VantaCore.Extractors.Cisco.TextScan VantaCore.Extractors.Cisco.ChunkEnds
open VantaCore.Extractors.Cisco.Text

/-- `_is_valid_ip` -/
def isValidIp (s : PyStr) : Bool :=
  if s = ofString "0.0.0.0" ∨ s = ofString "255.255.255.255" then false else fourOctets s

/-- `_parse_ip_port` -/
def parseIpPort (token : PyStr) : Option (PyStr × ℤ) :=
  let clean := rstripChars ",;)" token
  if char ':' ∉ clean then none
  else
    let (ipPart, portPart) := splitLast ':' clean
    if isValidIp ipPart then
      match int portPart with
      | none => none
      | some port => if 1 ≤ port ∧ port ≤ 65535 then some (ipPart, port) else none
    else none

example : parseIpPort "10.0.0.1:443," = some (ofString "10.0.0.1", 443) := by decide

/-- What is read at an occurrence. -/
structure Conn where
  protocol : PyStr
  src : PyStr × ℤ
  dst : PyStr × ℤ
  flags : List PyStr
  bytesIn : ℤ
deriving DecidableEq

/-- The flags of a line with these fields. -/
def parseFlags (tokens : List PyStr) : List PyStr :=
  match fieldAfter "flags" tokens with
  | none => []
  | some field =>
    let rawFlag := stripChars "," ((split (before '\x00' field)).headD [])
    if rawFlag = [] then [] else [rawFlag]

/-- The byte count of a line with these fields. -/
def parseBytes (tokens : List PyStr) : ℤ :=
  match fieldAfter "bytes" tokens with
  | none => 0
  | some field => (int (stripChars "," field)).getD 0

/-- The fields of a line as a connection. -/
def parseConn (snippet : List UInt8) : Option Conn :=
  let tokens := split (strip (before '\n' (ofBytes snippet)))
  match tokens with
  | protocol :: srcToken :: dstToken :: _ =>
    match parseIpPort srcToken, parseIpPort dstToken with
    | some src, some dst => some ⟨upper protocol, src, dst, parseFlags tokens, parseBytes tokens⟩
    | _, _ => none
  | _ => none

/-- The three searches. -/
def passes : List (Pass Conn) :=
  [⟨ascii "   TCP ", 128, parseConn, by decide, by decide⟩,
    ⟨ascii "   UDP ", 128, parseConn, by decide, by decide⟩,
    ⟨ascii "   ICMP ", 128, parseConn, by decide, by decide⟩]

/-- `(protocol, src_ip, src_port, dst_ip, dst_port)` -/
abbrev Key := PyStr × (PyStr × ℤ) × (PyStr × ℤ)

def Conn.key (c : Conn) : Key := (c.protocol, c.src, c.dst)

/-- An entry of `connections`; `virtualAddress` is printed in hex. -/
structure ConnEntry where
  connId : ℕ
  conn : Conn
  bytesOut : ℕ
  lastUsedUnix : ℕ
  lastUsedIso : PyStr
  ingressInterface : PyStr
  egressInterface : PyStr
  virtualAddress : ℕ
  extractionMethod : PyStr
  firmwareVersion : PyStr
  structLayoutVersion : PyStr
deriving DecidableEq

def entry (fwVersion : PyStr) (connId physOff : ℕ) (c : Conn) : ConnEntry :=
  ⟨connId, c, 0, 0, "", "", "", physOff, "text_pattern", fwVersion, "N/A"⟩

/-- What the loop changes. -/
structure ConnState where
  connections : List ConnEntry
  connIdCounter : ℕ
  seenTuples : List Key

/-- A connection is recorded unless its key was seen. -/
def record (fwVersion : PyStr) (physOff : ℕ) (c : Conn) (s : ConnState) : ConnState :=
  if c.key ∈ s.seenTuples then s
  else
    { connections := s.connections ++ [entry fwVersion s.connIdCounter physOff c]
      connIdCounter := s.connIdCounter + 1
      seenTuples := c.key :: s.seenTuples }

/-- `ASAConnTableExtractor.run` with chunks of `n` bytes. -/
def run (n : ℕ) (dump : Dump) : List ConnEntry :=
  (scanText (record (extractFirmwareVersion (firstChunk dump))) n passes dump ⟨[], 1, []⟩).connections

/-! ### What is recorded -/

variable {n : ℕ} {dump : Dump} {h : Hit Conn}

/-- The entry without its number. -/
def ConnEntry.withoutId (e : ConnEntry) : ConnEntry := { e with connId := 0 }

/-- The key a hit is recorded under. -/
def hitKey (h : Hit Conn) : Key := h.value.key

/-- What is recorded of a hit, without its number. -/
def hitEntry (fwVersion : PyStr) (h : Hit Conn) : ConnEntry := entry fwVersion 0 h.pos h.value

theorem record_new {fwVersion : PyStr} {s : ConnState} (hseen : hitKey h ∉ s.seenTuples) :
    record fwVersion h.pos h.value s =
      { connections := s.connections ++ [entry fwVersion s.connIdCounter h.pos h.value]
        connIdCounter := s.connIdCounter + 1
        seenTuples := hitKey h :: s.seenTuples } := if_neg hseen

/-- The entries recorded so far, without their numbers. -/
def ConnState.entries (s : ConnState) : List ConnEntry := s.connections.map ConnEntry.withoutId

theorem entries_record {fwVersion : PyStr} (s : ConnState) (h : Hit Conn)
    (hseen : hitKey h ∉ s.seenTuples) :
    (record fwVersion h.pos h.value s).entries = s.entries ++ [hitEntry fwVersion h] := by
  unfold ConnState.entries
  rw [record_new hseen, List.map_append]
  rfl

/-- **The entries are the first connections of each key.** -/
theorem run_eq (hlen : dump.length ≤ maxHops * n) :
    (run n dump).map ConnEntry.withoutId =
      findings hitKey (hitEntry (extractFirmwareVersion (firstChunk dump))) (hits n passes dump) := by
  unfold run
  rw [scanText_eq_foldl hlen]
  show ConnState.entries _ = _
  exact found_foldl_of_nil (fun _ _ hseen => if_pos hseen)
    (fun _ _ hseen => congrArg ConnState.seenTuples (record_new hseen)) entries_record _ rfl rfl

/-! ### The protocol -/

/-- The first field of a line that begins with a word is the word. -/
theorem protocol_of_parseConn {pat rest : List UInt8} {word : PyStr} {c : Conn}
    (hword : split (ofBytes pat) = [word]) (hline : char '\n' ∉ ofBytes pat)
    (hc : parseConn (pat ++ 32 :: rest) = some c) : c.protocol = upper word := by
  have htext : ofBytes (pat ++ 32 :: rest) = ofBytes pat ++ char ' ' :: ofBytes rest := by
    simp [ofBytes, char]
  have htokens : split (strip (before '\n' (ofBytes (pat ++ 32 :: rest)))) =
      word :: split (before '\n' (ofBytes rest)) := by
    have hbefore : before '\n' (char ' ' :: ofBytes rest) = char ' ' :: before '\n' (ofBytes rest) :=
      before_append (s := [char ' ']) (by decide)
    rw [split_strip, htext, before_append hline, hbefore, split_append_cons (by decide), hword]
    rfl
  unfold parseConn at hc
  dsimp only at hc
  rw [htokens] at hc
  split at hc
  · next protocol _ _ _ heq =>
    have hprotocol : protocol = word := (List.cons.inj heq).1.symm
    split at hc
    · cases hc
      rw [hprotocol]
    · cases hc
  · cases hc

/-- The protocols of the passes. -/
def protocols : List PyStr := ["TCP", "UDP", "ICMP"]

/-- **A pass searches for its protocol** with spaces around it. -/
theorem pass_spec {p : Pass Conn} {k : ℕ} (hp : passes[k]? = some p) :
    p.window = 128 ∧ p.parse = parseConn ∧ ∃ pat word, p.pattern = pat ++ [32] ∧
      split (ofBytes pat) = [word] ∧ char '\n' ∉ ofBytes pat ∧
      protocols[k]? = some (upper word) := by
  rcases k with _ | _ | _ | k
  · cases hp
    exact ⟨rfl, rfl, ascii "   TCP", "TCP", by decide, by decide, by decide, by decide⟩
  · cases hp
    exact ⟨rfl, rfl, ascii "   UDP", "UDP", by decide, by decide, by decide, by decide⟩
  · cases hp
    exact ⟨rfl, rfl, ascii "   ICMP", "ICMP", by decide, by decide, by decide, by decide⟩
  · cases hp

theorem parse_of_mem_passes {p : Pass Conn} (hp : p ∈ passes) :
    p.window = 128 ∧ p.parse = parseConn := by
  obtain ⟨k, hk⟩ := List.mem_iff_getElem?.mp hp
  obtain ⟨hwindow, hparse, -⟩ := pass_spec hk
  exact ⟨hwindow, hparse⟩

/-- **The protocol of a connection is the protocol of its pass.** -/
theorem protocol_of_mem (hh : h ∈ hits n passes dump) :
    protocols[h.pass]? = some h.value.protocol := by
  obtain ⟨p, rest, hp, -, hread⟩ := exists_parse_of_mem_hits hh
  obtain ⟨-, hparse, pat, word, hpat, hword, hline, hprotocol⟩ := pass_spec hp
  rw [hparse, hpat, List.append_assoc, List.singleton_append] at hread
  rw [hprotocol, protocol_of_parseConn hword hline hread]

theorem pass_eq_of_protocol {a b : Hit Conn} (ha : protocols[a.pass]? = some a.value.protocol)
    (hb : protocols[b.pass]? = some b.value.protocol) (h : a.value.protocol = b.value.protocol) :
    a.pass = b.pass := by
  have hlt : a.pass < protocols.length := (List.getElem?_eq_some_iff.mp ha).1
  have hnodup : protocols.Nodup := by decide
  exact (List.getElem?_inj hlt hnodup).mp (by rw [ha, hb, h])

/-! ### Chunks -/

/-- **The chunks change nothing** exactly if the exposed records that are the first of their key are read
alike. -/
theorem sameConnections_iff {m : ℕ} (hn : 0 < n) (hlen : dump.length ≤ maxHops * n)
    (hm : dump.length ≤ m) :
    (∀ e, e ∈ (run n dump).map ConnEntry.withoutId ↔ e ∈ (run m dump).map ConnEntry.withoutId) ↔
      ReadAlike hitKey n passes dump := by
  have hlen' : dump.length ≤ maxHops * m := hm.trans (Nat.le_mul_of_pos_left m (by decide))
  have hwhole : ∀ h ∈ wholeHits passes dump, protocols[h.pass]? = some h.value.protocol := by
    rw [← hits_eq_wholeHits (Nat.le_succ dump.length)]
    exact fun h hh => protocol_of_mem hh
  have hval : ∀ a b : Hit Conn,
      hitEntry (extractFirmwareVersion (firstChunk dump)) a =
        hitEntry (extractFirmwareVersion (firstChunk dump)) b → a.pos = b.pos ∧ a.value = b.value :=
    fun a b h => ⟨congrArg ConnEntry.virtualAddress h, congrArg ConnEntry.conn h⟩
  rw [run_eq hlen, run_eq hlen', hits_eq_wholeHits hm, findings_mem_iff hn]
  · refine and_iff_left (inOrder_of_order fun a ha b hb hkey => order_of_pass ha hb ?_)
    exact pass_eq_of_protocol (protocol_of_mem ha) (protocol_of_mem hb)
      (congrArg Prod.fst hkey)
  · exact fun a b h => congrArg Conn.key (hval a b h).2
  · intro a ha b hb h
    obtain ⟨hpos, hvalue⟩ := hval a b h
    have hpass : a.pass = b.pass := pass_eq_of_protocol (protocol_of_mem ha) (hwhole b hb)
      (congrArg Conn.protocol hvalue)
    exact Hit.ext hpass hpos hvalue

end VantaCore.Extractors.Cisco.Asa.ConnTable
