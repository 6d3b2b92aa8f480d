import VantaCore.Extractors.Cisco.ChunkEnds
import VantaCore.Extractors.Cisco.Text

/-! # The routing table

`IOSRoutingTableExtractor.run`. A static route is found by two searches, for the code of a route and for
the configuration line, and the second one comes last in every chunk (`protocol_of_mem`). -/

namespace VantaCore.Extractors.Cisco.Ios.RoutingTable

open VantaCore.Core.DumpHandle VantaCore.Lib.Chunks VantaCore.Lib.Search VantaCore.Lib.PyText
open VantaCore.Lib.FirstBy VantaCore.Extractors.Cisco.TextScan VantaCore.Extractors.Cisco.ChunkEnds
open VantaCore.Extractors.Cisco.Text

/-! ### Addresses -/

/-- `_is_valid_ip` -/
def isValidIp (s : PyStr) : Bool := fourOctets (stripChars "[],;()" s)

/-- `_is_valid_ipv4_prefix` -/
def isValidIpv4Prefix (s : PyStr) : Bool :=
  let clean := stripChars "[],;()" s
  if char '/' ∉ clean then false
  else
    let (ipPart, maskPart) := splitFirst '/' clean
    isValidIp ipPart &&
      match int maskPart with
      | none => false
      | some mask => 0 ≤ mask && mask ≤ 32

/-- `f"{o:08b}"`, of an octet. -/
def binary (o : ℤ) : List Bool := (List.range 8).reverse.map o.toNat.testBit

/-- `_mask_to_prefix_len` -/
def maskToPrefixLen (maskStr : PyStr) : Option ℕ :=
  if isValidIp maskStr then
    match (splitChar '.' maskStr).mapM int with
    | none => none
    | some octets =>
      let binaryStr := octets.flatMap binary
      if [false, true] <:+: binaryStr then none else some (binaryStr.count true)
  else none

example : maskToPrefixLen "255.255.240.0" = some 20 := by decide

/-! ### Routes -/

/-- What is read at an occurrence. -/
structure Route where
  protocol : PyStr
  network : PyStr
  nextHop : PyStr
deriving DecidableEq

/-- The line behind a protocol code. -/
def parseCode (protoName : PyStr) (snippet : List UInt8) : Option Route :=
  let tokens := split (lineOf snippet)
  match tokens.find? isValidIpv4Prefix with
  | none => none
  | some tok =>
    some
      { protocol := protoName
        network := stripChars "[],;()" tok
        nextHop :=
          match (fieldAfter "via" tokens).filter fun hop => isValidIp hop with
          | none => "directly connected"
          | some hop => stripChars "[],;()" hop }

/-- `f"{net}/{prefix_len}"`, or the mask where it has no length. -/
def networkOf (net mask : PyStr) : PyStr :=
  match maskToPrefixLen mask with
  | none => net ++ ofString " " ++ mask
  | some prefixLen => net ++ ofString "/" ++ ofString (toString prefixLen)

/-- The line of a static route. -/
def parseIpRoute (snippet : List UInt8) : Option Route :=
  match split (lineOf snippet) with
  | first :: second :: net :: mask :: hop :: _ =>
    if first = ofString "ip" ∧ second = ofString "route" ∧ isValidIp net ∧ isValidIp mask then
      some ⟨"STATIC", networkOf net mask, if isValidIp hop then hop else "directly connected"⟩
    else none
  | _ => none

/-- The searches for the codes of `_PROTOCOL_MAP` and the one for static routes. -/
def passes : List (Pass Route) :=
  [⟨ascii "O ", 128, parseCode "OSPF", by decide, by decide⟩,
    ⟨ascii "C ", 128, parseCode "CONNECTED", by decide, by decide⟩,
    ⟨ascii "S ", 128, parseCode "STATIC", by decide, by decide⟩,
    ⟨ascii "B ", 128, parseCode "BGP", by decide, by decide⟩,
    ⟨ascii "D ", 128, parseCode "EIGRP", by decide, by decide⟩,
    ⟨ascii "R ", 128, parseCode "RIP", by decide, by decide⟩,
    ⟨ascii "ip route ", 128, parseIpRoute, ipRoute_ne_nil, by decide⟩]

/-! ### The loop -/

/-- An entry of `routing_table`. -/
structure RouteEntry where
  route : Route
  physicalOffset : ℕ
deriving DecidableEq

/-- `(proto_name, prefix)` -/
def Route.key (r : Route) : PyStr × PyStr := (r.protocol, r.network)

/-- What the loop changes. -/
structure RouteState where
  routes : List RouteEntry
  seenPrefixes : List (PyStr × PyStr)

/-- A route is recorded unless its key was seen. -/
def record (physOff : ℕ) (r : Route) (s : RouteState) : RouteState :=
  if r.key ∈ s.seenPrefixes then s
  else { routes := s.routes ++ [⟨r, physOff⟩], seenPrefixes := r.key :: s.seenPrefixes }

/-- `IOSRoutingTableExtractor.run` with chunks of `n` bytes. -/
def run (n : ℕ) (dump : Dump) : List RouteEntry := (scanText record n passes dump ⟨[], []⟩).routes

/-! ### What is recorded -/

variable {n : ℕ} {dump : Dump} {h : Hit Route}

/-- The key a hit is recorded under. -/
def hitKey (h : Hit Route) : PyStr × PyStr := h.value.key

/-- What is recorded of a hit. -/
def hitEntry (h : Hit Route) : RouteEntry := ⟨h.value, h.pos⟩

theorem record_new {s : RouteState} (hseen : hitKey h ∉ s.seenPrefixes) :
    record h.pos h.value s =
      { routes := s.routes ++ [hitEntry h], seenPrefixes := hitKey h :: s.seenPrefixes } :=
  if_neg hseen

/-- **The entries are the first routes of each key.** -/
theorem run_eq (hlen : dump.length ≤ maxHops * n) :
    run n dump = findings hitKey hitEntry (hits n passes dump) := by
  unfold run
  rw [scanText_eq_foldl hlen]
  exact found_foldl_of_nil (fun _ _ hseen => if_pos hseen)
    (fun _ _ hseen => congrArg RouteState.seenPrefixes (record_new hseen))
    (fun _ _ hseen => congrArg RouteState.routes (record_new hseen)) _ rfl rfl

/-! ### The protocol -/

theorem protocol_of_parseCode {protoName : PyStr} {snippet : List UInt8} {r : Route}
    (h : parseCode protoName snippet = some r) : r.protocol = protoName := by
  unfold parseCode at h
  dsimp only at h
  split at h
  · cases h
  · cases h
    rfl

theorem protocol_of_parseIpRoute {snippet : List UInt8} {r : Route}
    (h : parseIpRoute snippet = some r) : r.protocol = ofString "STATIC" := by
  unfold parseIpRoute at h
  split at h
  · split at h
    · exact (congrArg Route.protocol (Option.some.inj h)).symm
    · cases h
  · cases h

/-- The protocols of the passes. -/
def protocols : List PyStr := ["OSPF", "CONNECTED", "STATIC", "BGP", "EIGRP", "RIP", "STATIC"]

theorem protocol_of_parse {p : Pass Route} {snippet : List UInt8} {r : Route} {k : ℕ}
    (hp : passes[k]? = some p) (h : p.parse snippet = some r) :
    protocols[k]? = some r.protocol := by
  rcases k with _ | _ | _ | _ | _ | _ | _ | k <;> cases hp
  -- six passes search for a code, the last one for configuration lines
  iterate 6
    · rw [protocol_of_parseCode h]
      rfl
  · rw [protocol_of_parseIpRoute h]
    rfl

/-- **The protocol of a route is the protocol of its pass.** -/
theorem protocol_of_mem (hh : h ∈ hits n passes dump) :
    protocols[h.pass]? = some h.value.protocol := by
  obtain ⟨p, hp, -, hparse⟩ := parse_of_mem_hits hh
  exact protocol_of_parse hp hparse

/-- Two passes have one protocol if they are one pass, or the two that find static routes. -/
theorem pass_eq_of_protocol {a b : Hit Route} (ha : protocols[a.pass]? = some a.value.protocol)
    (hb : protocols[b.pass]? = some b.value.protocol) (h : a.value.protocol = b.value.protocol) :
    a.pass = b.pass ∨ a.pass = 2 ∧ b.pass = 6 ∨ a.pass = 6 ∧ b.pass = 2 := by
  have hpasses : ∀ i < 7, ∀ j < 7, protocols[i]? = protocols[j]? →
      i = j ∨ i = 2 ∧ j = 6 ∨ i = 6 ∧ j = 2 := by decide
  have hlt : ∀ {k x}, protocols[k]? = some x → k < 7 := fun hk =>
    (List.getElem?_eq_some_iff.mp hk).1
  exact hpasses _ (hlt ha) _ (hlt hb) (by rw [ha, hb, h])

/-! ### Chunks -/

/-- No configuration line that is the first of its network in the scan in chunks stands in an earlier
chunk than a static route with a code that is the first in the scan of the dump as one chunk. -/
def StaticInOrder (n : ℕ) (dump : Dump) : Prop :=
  ∀ a ∈ firsts hitKey [] (hits n passes dump), ∀ b ∈ firsts hitKey [] (wholeHits passes dump),
    hitKey a = hitKey b → a.pass = 6 → b.pass = 2 → ¬ a.pos / n < b.pos / n

theorem inOrder_iff (hn : 0 < n) (halike : ReadAlike hitKey n passes dump) :
    InOrder hitKey n passes dump ↔ StaticInOrder n dump := by
  constructor
  · intro horder a ha b hb hkey hpassa hpassb _
    have heq : a = b := horder a ha (halike.mem_wholeHits ha) b hb (halike.mem_hits hn hb) hkey
    rw [heq, hpassb] at hpassa
    exact absurd hpassa (by decide)
  · intro hstatic a ha hal' b hb hbl hkey
    have hal := (mem_of_mem_firsts ha).1
    have hfirst : ¬ Before n b a :=
      not_lt_of_mem_firsts (sorted_hits hn) Before.asymm ha hbl hkey.symm
    have hfirst' : ¬ BeforeWhole a b :=
      not_lt_of_mem_firsts sorted_wholeHits BeforeWhole.asymm hb hal' hkey
    have hprotocol : a.value.protocol = b.value.protocol := congrArg Prod.fst hkey
    rcases pass_eq_of_protocol (protocol_of_mem hal) (protocol_of_mem hbl) hprotocol with
      hpass | ⟨hpassa, hpassb⟩ | ⟨hpassa, hpassb⟩
    · rcases order_of_pass hal hbl hpass with heq | hlt | hlt
      exacts [heq, absurd hlt hfirst, absurd hlt hfirst']
    · unfold BeforeWhole at hfirst'
      omega
    · have hchunk := hstatic a ha b hb hkey hpassa hpassb
      unfold Before at hfirst
      omega

/-- A configuration line and a code do not stand at one position. -/
theorem not_occursAt_both {pos : ℕ} (h : OccursAt (ascii "ip route ") dump pos) :
    ¬ OccursAt (ascii "S ") dump pos := fun h' => by
  have hfirst := h.getElem? (k := 0) (by decide)
  rw [h'.getElem? (k := 0) (by decide)] at hfirst
  exact absurd hfirst (by decide)

/-- What is recorded tells the hit. -/
theorem eq_of_hitEntry_eq {a b : Hit Route} (ha : a ∈ hits n passes dump)
    (hb : b ∈ wholeHits passes dump) (h : hitEntry a = hitEntry b) : a = b := by
  rw [← hits_eq_wholeHits (Nat.le_succ dump.length)] at hb
  have hpos : a.pos = b.pos := congrArg RouteEntry.physicalOffset h
  have hvalue : a.value = b.value := congrArg RouteEntry.route h
  obtain ⟨p, rest, hp, hocc, -⟩ := exists_parse_of_mem_hits ha
  obtain ⟨q, rest', hq, hocc', -⟩ := exists_parse_of_mem_hits hb
  rw [← hpos] at hocc'
  have hprotocol : a.value.protocol = b.value.protocol := congrArg Route.protocol hvalue
  rcases pass_eq_of_protocol (protocol_of_mem ha) (protocol_of_mem hb) hprotocol with
    hpass | ⟨hpassa, hpassb⟩ | ⟨hpassa, hpassb⟩
  · exact Hit.ext hpass hpos hvalue
  · rw [hpassa] at hp
    rw [hpassb] at hq
    cases hp
    cases hq
    exact absurd hocc (not_occursAt_both hocc')
  · rw [hpassa] at hp
    rw [hpassb] at hq
    cases hp
    cases hq
    exact absurd hocc' (not_occursAt_both hocc)

/-- **The chunks change nothing** exactly if the exposed records that are the first of their key are read
alike, and no static route is found in another order. -/
theorem sameRoutes_iff {m : ℕ} (hn : 0 < n) (hlen : dump.length ≤ maxHops * n)
    (hm : dump.length ≤ m) :
    (∀ e, e ∈ run n dump ↔ e ∈ run m dump) ↔
      ReadAlike hitKey n passes dump ∧ StaticInOrder n dump := by
  have hlen' : dump.length ≤ maxHops * m := hm.trans (Nat.le_mul_of_pos_left m (by decide))
  rw [run_eq hlen, run_eq hlen', hits_eq_wholeHits hm, findings_mem_iff hn]
  · exact and_congr_right (inOrder_iff hn)
  · exact fun a b h => congrArg Route.key (congrArg RouteEntry.route h)
  · exact fun a ha b hb h => eq_of_hitEntry_eq ha hb h

end VantaCore.Extractors.Cisco.Ios.RoutingTable
