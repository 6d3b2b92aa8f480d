import VantaCore.Extractors.Cisco.Asa.ConnTable
import VantaCore.Lib.PyFields

/-! # The addresses of the connection table

`_is_valid_ip` reads octets with `int` and refuses two texts. Other texts are read as the same two
addresses, and texts that are no dotted decimal are read as octets. The table is well formed exactly
if no record the parser accepts is written so (`wellFormed_iff`). -/

namespace VantaCore.Extractors.Cisco.Asa.ConnAddresses

open VantaCore.Core.DumpHandle VantaCore.Lib.Search VantaCore.Lib.PyText VantaCore.Lib.PyFields
open VantaCore.Lib.FirstBy VantaCore.Extractors.Cisco.TextScan VantaCore.Extractors.Cisco.Text
open VantaCore.Extractors.Cisco.Asa.ConnTable

/-! ### Dotted decimal -/

/-- Four decimal octets with dots between them. -/
structure Dotted (s : PyStr) : Prop where
  four : (splitChar '.' s).length = 4
  digits : ∀ p ∈ splitChar '.' s, p ≠ [] ∧ ∀ c ∈ p, IsDigit c
  octets : ∀ p ∈ splitChar '.' s, decimalOf p ≤ 255

/-- The value of four octets. -/
def addressValue (s : PyStr) : ℕ := (splitChar '.' s).foldl (fun v p => 256 * v + decimalOf p) 0

variable {s : PyStr} {dump : Dump} {n : ℕ}

/-- **Of the texts read as four octets** those of digits and dots are dotted decimal. -/
theorem dotted_iff (h : fourOctets s = true) :
    Dotted s ↔ ∀ c ∈ s, IsDigit c ∨ c = char '.' := by
  unfold fourOctets at h
  obtain ⟨hfour, hall⟩ := Bool.and_eq_true_iff.mp h
  constructor
  · intro hdot c hc
    by_cases hne : c = char '.'
    · exact Or.inr hne
    · obtain ⟨p, hp, hcp⟩ := mem_splitChar_iff.mpr ⟨hc, hne⟩
      exact Or.inl ((hdot.digits p hp).2 c hcp)
  · intro hchars
    have hpart : ∀ p ∈ splitChar '.' s, (p ≠ [] ∧ ∀ c ∈ p, IsDigit c) ∧ decimalOf p ≤ 255 := by
      intro p hp
      have hread := List.all_eq_true.mp hall p hp
      have hdigits : ∀ c ∈ p, IsDigit c := fun c hc => by
        obtain ⟨hmem, hne⟩ := mem_splitChar_iff.mp ⟨p, hp, hc⟩
        exact (hchars c hmem).resolve_right hne
      have hne : p ≠ [] := by
        rintro rfl
        rw [int_nil] at hread
        cases hread
      rw [int_of_digits hne hdigits] at hread
      have hle := (Bool.and_eq_true_iff.mp hread).2
      exact ⟨⟨hne, hdigits⟩, by have := of_decide_eq_true hle; omega⟩
    exact ⟨of_decide_eq_true hfour, fun p hp => (hpart p hp).1, fun p hp => (hpart p hp).2⟩

/-! ### What the parser accepts -/

theorem fourOctets_of_isValidIp (h : isValidIp s = true) : fourOctets s = true := by
  unfold isValidIp at h
  split_ifs at h
  exact h

/-- An endpoint that is read as four octets and a port. -/
def AcceptedEndpoint (e : PyStr × ℤ) : Prop := fourOctets e.1 = true ∧ 1 ≤ e.2 ∧ e.2 ≤ 65535

theorem accepted_of_parseIpPort {token : PyStr} {e : PyStr × ℤ} (h : parseIpPort token = some e) :
    AcceptedEndpoint e := by
  unfold parseIpPort at h
  dsimp only at h
  split_ifs at h with hcolon hip
  split at h
  · cases h
  · next port hport =>
    split_ifs at h with hrange
    cases h
    exact ⟨fourOctets_of_isValidIp hip, hrange⟩

theorem accepted_of_parseConn {snippet : List UInt8} {c : Conn} (h : parseConn snippet = some c) :
    AcceptedEndpoint c.src ∧ AcceptedEndpoint c.dst := by
  unfold parseConn at h
  dsimp only at h
  split at h
  · split at h
    · next src dst hsrc hdst =>
      cases h
      exact ⟨accepted_of_parseIpPort hsrc, accepted_of_parseIpPort hdst⟩
    · cases h
  · cases h

/-- The records of an image that the parser accepts. -/
def acceptedRecords (dump : Dump) : List (Hit Conn) := hits chunkSize passes (scanned chunkSize dump)

theorem accepted_of_mem {h : Hit Conn} (hh : h ∈ acceptedRecords dump) :
    AcceptedEndpoint h.value.src ∧ AcceptedEndpoint h.value.dst := by
  obtain ⟨p, rest, hp, -, hparse⟩ := exists_parse_of_mem_hits hh
  rw [(pass_spec hp).2.1] at hparse
  exact accepted_of_parseConn hparse

/-! ### The table -/

/-- The address is dotted decimal, and neither all zeros nor all ones. -/
def HostAddress (s : PyStr) : Prop :=
  Dotted s ∧ addressValue s ≠ 0 ∧ addressValue s ≠ 2 ^ 32 - 1

/-- The connection a record denotes: the protocol, and the addresses as numbers. -/
def tuple (c : Conn) : PyStr × (ℕ × ℤ) × (ℕ × ℤ) :=
  (c.protocol, (addressValue c.src.1, c.src.2), (addressValue c.dst.1, c.dst.2))

/-- A table of numbered connections between hosts, none of them twice. -/
structure WellFormed (entries : List ConnEntry) : Prop where
  addresses : ∀ e ∈ entries, HostAddress e.conn.src.1 ∧ HostAddress e.conn.dst.1
  ports : ∀ e ∈ entries, (1 ≤ e.conn.src.2 ∧ e.conn.src.2 ≤ 65535) ∧
    1 ≤ e.conn.dst.2 ∧ e.conn.dst.2 ≤ 65535
  ids : entries.map ConnEntry.connId = List.range' 1 entries.length
  distinct : entries.Pairwise fun e e' => tuple e.conn ≠ tuple e'.conn

/-- The address is written with digits and dots, and is neither all zeros nor all ones. -/
def PlainAddress (s : PyStr) : Prop :=
  (∀ c ∈ s, IsDigit c ∨ c = char '.') ∧ addressValue s ≠ 0 ∧ addressValue s ≠ 2 ^ 32 - 1

/-- The addresses of the accepted records are plain, and one connection is written in one way. -/
structure PlainRecords (dump : Dump) : Prop where
  addresses : ∀ h ∈ acceptedRecords dump, PlainAddress h.value.src.1 ∧ PlainAddress h.value.dst.1
  spelling : ∀ a ∈ acceptedRecords dump, ∀ b ∈ acceptedRecords dump,
    tuple a.value = tuple b.value → a.value.key = b.value.key

theorem hostAddress_iff (h : fourOctets s = true) : HostAddress s ↔ PlainAddress s := by
  unfold HostAddress PlainAddress
  rw [dotted_iff h]

/-! The numbers. -/

/-- The connections recorded so far have the numbers from one on. -/
structure Numbered (s : ConnState) : Prop where
  ids : s.connections.map ConnEntry.connId = List.range' 1 s.connections.length
  next : s.connIdCounter = s.connections.length + 1

theorem numbered_record {fwVersion : PyStr} {pos : ℕ} {c : Conn} {s : ConnState} (h : Numbered s) :
    Numbered (record fwVersion pos c s) := by
  unfold record
  split_ifs
  · exact h
  · refine ⟨?_, ?_⟩
    · show (s.connections ++ [_]).map ConnEntry.connId = List.range' 1 (s.connections ++ [_]).length
      rw [List.map_append, h.ids, List.length_append, List.length_singleton, List.range'_concat,
        List.map_singleton, one_mul]
      show _ ++ [s.connIdCounter] = _
      rw [h.next, Nat.add_comm]
    · show s.connIdCounter + 1 = (s.connections ++ [_]).length + 1
      rw [h.next, List.length_append, List.length_singleton]

theorem ids_run (hn : 0 < n) :
    (run n dump).map ConnEntry.connId = List.range' 1 (run n dump).length := by
  unfold run
  rw [scanText_eq_foldl_scanned hn]
  have hinit : Numbered ⟨[], 1, []⟩ := ⟨rfl, rfl⟩
  exact (List.foldlRecOn _ _ hinit fun _ hs _ _ => numbered_record hs).ids

/-! The connections. -/

/-- The connections recorded so far. -/
def conns (s : ConnState) : List Conn := s.connections.map ConnEntry.conn

theorem conns_record {fwVersion : PyStr} (s : ConnState) (h : Hit Conn)
    (hseen : hitKey h ∉ s.seenTuples) :
    conns (record fwVersion h.pos h.value s) = conns s ++ [h.value] := by
  unfold conns
  rw [record_new hseen, List.map_append]
  rfl

/-- **The connections of the table** are those of the first accepted record of each key. -/
theorem conns_run : (run chunkSize dump).map ConnEntry.conn =
    (firsts hitKey [] (acceptedRecords dump)).map Hit.value := by
  unfold run
  rw [scanText_eq_foldl_scanned (by decide)]
  show conns _ = _
  exact found_foldl_of_nil (fun _ _ hseen => if_pos hseen)
    (fun _ _ hseen => congrArg ConnState.seenTuples (record_new hseen)) conns_record _ rfl rfl

theorem forall_conns_iff {P : Conn → Prop} :
    (∀ e ∈ run chunkSize dump, P e.conn) ↔
      ∀ h ∈ firsts hitKey [] (acceptedRecords dump), P h.value := by
  rw [← List.forall_mem_map, conns_run, List.forall_mem_map]

/-- Every accepted record is in the table, up to what the key does not hold. -/
theorem exists_first {h : Hit Conn} (hh : h ∈ acceptedRecords dump) :
    ∃ h' ∈ firsts hitKey [] (acceptedRecords dump), h'.value.key = h.value.key :=
  exists_mem_firsts hh List.not_mem_nil

theorem endpoints_of_key {c c' : Conn} (h : c.key = c'.key) : c.src = c'.src ∧ c.dst = c'.dst :=
  Prod.mk.inj (Prod.mk.inj h).2

theorem tuple_of_key {c c' : Conn} (h : c.key = c'.key) : tuple c = tuple c' := by
  obtain ⟨hsrc, hdst⟩ := endpoints_of_key h
  have hprotocol : c.protocol = c'.protocol := (Prod.mk.inj h).1
  unfold tuple
  rw [hprotocol, hsrc, hdst]

theorem addresses_iff :
    (∀ e ∈ run chunkSize dump, HostAddress e.conn.src.1 ∧ HostAddress e.conn.dst.1) ↔
      ∀ h ∈ acceptedRecords dump, PlainAddress h.value.src.1 ∧ PlainAddress h.value.dst.1 := by
  rw [forall_conns_iff (P := fun c => HostAddress c.src.1 ∧ HostAddress c.dst.1)]
  have hboth : ∀ h ∈ acceptedRecords dump, (HostAddress h.value.src.1 ∧ HostAddress h.value.dst.1 ↔
      PlainAddress h.value.src.1 ∧ PlainAddress h.value.dst.1) := fun h hh => by
    obtain ⟨hsrc, hdst⟩ := accepted_of_mem hh
    rw [hostAddress_iff hsrc.1, hostAddress_iff hdst.1]
  constructor
  · intro hall h hh
    obtain ⟨h', hmem, hkey⟩ := exists_first hh
    obtain ⟨hsrc, hdst⟩ := endpoints_of_key hkey
    have hhost := hall h' hmem
    rw [hsrc, hdst] at hhost
    exact (hboth h hh).mp hhost
  · intro hall h hh
    have hmem := (mem_of_mem_firsts hh).1
    exact (hboth h hmem).mpr (hall h hmem)

theorem ports_run : ∀ e ∈ run chunkSize dump, (1 ≤ e.conn.src.2 ∧ e.conn.src.2 ≤ 65535) ∧
    1 ≤ e.conn.dst.2 ∧ e.conn.dst.2 ≤ 65535 := by
  refine (forall_conns_iff (P := fun c => (1 ≤ c.src.2 ∧ c.src.2 ≤ 65535) ∧
    1 ≤ c.dst.2 ∧ c.dst.2 ≤ 65535)).mpr fun h hh => ?_
  obtain ⟨hsrc, hdst⟩ := accepted_of_mem (mem_of_mem_firsts hh).1
  exact ⟨hsrc.2, hdst.2⟩

/-- **No connection is in the table twice** exactly if none is written in two ways. -/
theorem distinct_iff : (run chunkSize dump).Pairwise (fun e e' => tuple e.conn ≠ tuple e'.conn) ↔
    ∀ a ∈ acceptedRecords dump, ∀ b ∈ acceptedRecords dump,
      tuple a.value = tuple b.value → a.value.key = b.value.key := by
  rw [← List.pairwise_map (f := ConnEntry.conn) (R := fun c c' => tuple c ≠ tuple c'), conns_run,
    List.pairwise_map]
  constructor
  · intro hpair a ha b hb htuple
    obtain ⟨a', ha', hkey⟩ := exists_first ha
    obtain ⟨b', hb', hkey'⟩ := exists_first hb
    have hsymm : Std.Symm fun x y : Hit Conn => tuple x.value ≠ tuple y.value :=
      ⟨fun _ _ h => h.symm⟩
    have heq : a' = b' := by
      by_contra hne
      refine hpair.forall ha' hb' hne ?_
      rw [tuple_of_key hkey, htuple, tuple_of_key hkey']
    rw [← hkey, heq, hkey']
  · intro hall
    refine (pairwise_firsts [] _).imp_of_mem fun {a b} ha hb hne htuple => hne ?_
    exact hall a (mem_of_mem_firsts ha).1 b (mem_of_mem_firsts hb).1 htuple

/-- **The table is well formed exactly if the records are plain.** -/
theorem wellFormed_iff : WellFormed (run chunkSize dump) ↔ PlainRecords dump := by
  constructor
  · intro h
    exact ⟨addresses_iff.mp h.addresses, distinct_iff.mp h.distinct⟩
  · intro h
    exact ⟨addresses_iff.mpr h.addresses, ports_run, ids_run (by decide), distinct_iff.mpr h.spelling⟩

/-- An image with one connection, from an address that is all zeros. -/
def zeroImage : Dump := ascii "   TCP 00.0.0.0:1 1.2.3.4:80\n"

/-- **All zeros are accepted** where they are not written as `0.0.0.0`. -/
theorem not_wellFormed : ¬ ∀ dump : Dump, WellFormed (run chunkSize dump) := by
  intro hall
  have hzero : ∃ e ∈ run chunkSize zeroImage, addressValue e.conn.src.1 = 0 := by decide +kernel
  obtain ⟨e, he, hvalue⟩ := hzero
  exact ((hall zeroImage).addresses e he).1.2.1 hvalue

end VantaCore.Extractors.Cisco.Asa.ConnAddresses
