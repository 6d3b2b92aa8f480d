import VantaCore.Extractors.Cisco.Addresses
import VantaCore.Extractors.Cisco.Lines
import VantaCore.Extractors.Cisco.Asa.ConnRecord

/-! # Printed connection tables

Lines `   TCP 10.0.0.1:1234 10.0.1.2:443, idle 0:00:01, bytes 1024, flags UIO`, each with a NUL or a
newline behind it. What follows a NUL is not read, as the flags come last. So a connection table that is
shown in an image is read back: of the connections between two endpoints the first one, with its flags
and its byte count (`run_connections`). -/

namespace VantaCore.Extractors.Cisco.Asa.ConnImages

open VantaCore.Core.DumpHandle VantaCore.Lib.Chunks VantaCore.Lib.Search VantaCore.Lib.PyText
open VantaCore.Lib.PyFields VantaCore.Lib.PyPrinting VantaCore.Lib.FirstBy
open VantaCore.Extractors.Cisco.TextScan VantaCore.Extractors.Cisco.ChunkEnds
open VantaCore.Extractors.Cisco.Text VantaCore.Extractors.Cisco.Addresses
open VantaCore.Extractors.Cisco.Lines VantaCore.Extractors.Cisco.Asa.ConnTable
open VantaCore.Extractors.Cisco.Asa.ConnRecord

/-! ### Endpoints -/

/-- The address and the port of an endpoint. -/
@[ext]
structure Endpoint where
  address : Address
  port : ℕ
  not_zero : address.octets ≠ [0, 0, 0, 0]
  not_broadcast : address.octets ≠ [255, 255, 255, 255]
  one_le_port : 1 ≤ port
  port_le : port ≤ 65535
deriving DecidableEq

variable (e : Endpoint)

def Endpoint.printed : List UInt8 := e.address.printed ++ 58 :: digitBytes e.port

/-- What is read of an endpoint. -/
def Endpoint.read : PyStr × ℤ := (e.address.text, e.port)

variable {e}

theorem ofBytes_printed_endpoint :
    ofBytes e.printed = e.address.text ++ char ':' :: ofString (toString e.port) := by
  have happ : ofBytes e.printed = ofBytes e.address.printed ++ char ':' :: ofBytes (digitBytes e.port) :=
    List.map_append
  rw [happ, ofBytes_printed, ofBytes_digitBytes]

theorem byte_of_mem_endpoint {b : UInt8} (h : b ∈ e.printed) : 46 ≤ b.toNat ∧ b.toNat ≤ 58 := by
  rcases List.mem_append.mp h with h | h
  · have := byte_of_mem_printed h
    omega
  · rcases List.mem_cons.mp h with rfl | h
    · decide
    · have := digit_of_mem_digitBytes h
      omega

theorem isValidIp_of_endpoint : isValidIp e.address.text = true := by
  have hzero : e.address.text ≠ ofString "0.0.0.0" := fun h => by
    have htext : ofString "0.0.0.0" = (⟨[0, 0, 0, 0], rfl⟩ : Address).text := by decide +kernel
    rw [htext] at h
    exact e.not_zero (congrArg Address.octets (text_injective h))
  have hbroadcast : e.address.text ≠ ofString "255.255.255.255" := fun h => by
    have htext : ofString "255.255.255.255" = (⟨[255, 255, 255, 255], rfl⟩ : Address).text := by
      decide +kernel
    rw [htext] at h
    exact e.not_broadcast (congrArg Address.octets (text_injective h))
  unfold isValidIp
  rw [if_neg (not_or.mpr ⟨hzero, hbroadcast⟩), fourOctets_text]

/-- **An endpoint is read back**, also with a comma behind it. -/
theorem parseIpPort_endpoint {tail : PyStr} (htail : ∀ c ∈ tail, c = char ',') :
    parseIpPort (ofBytes e.printed ++ tail) = some e.read := by
  have hchars : ∀ c ∈ ofBytes e.printed, c ∉ ofString ",;)" := by
    intro c hc hmem
    obtain ⟨b, hb, rfl⟩ := List.mem_map.mp hc
    have hrange := byte_of_mem_endpoint hb
    have hvals : (ofString ",;)").map (·.val) = [44, 59, 41] := by decide
    have hval : (Fin.ofNat 0x110000 b.toNat).val ∈ (ofString ",;)").map (·.val) :=
      List.mem_map_of_mem hmem
    simp only [hvals, val_ofByte, List.mem_cons, List.not_mem_nil, or_false] at hval
    omega
  have hcomma : ∀ c ∈ tail, c ∈ ofString ",;)" := by
    intro c hc
    rw [htail c hc]
    decide
  have hcolon : char ':' ∉ ofString (toString e.port) := by
    rw [← ofBytes_digitBytes]
    intro hmem
    have hdigit := digit_of_mem_digitBytes (mem_ofBytes_iff (b := 58).mp hmem)
    exact absurd hdigit.2 (by decide)
  have hport : (1 : ℤ) ≤ e.port ∧ (e.port : ℤ) ≤ 65535 := by
    have hlow := e.one_le_port
    have hhigh := e.port_le
    omega
  unfold parseIpPort
  dsimp only
  rw [rstripChars_append hchars hcomma, ofBytes_printed_endpoint,
    if_neg (not_not.mpr (List.mem_append_right _ List.mem_cons_self)), splitLast_append hcolon,
    if_pos isValidIp_of_endpoint, int_toString]
  exact if_pos hport

/-! ### Connections -/

inductive Protocol
  | tcp
  | udp
  | icmp
deriving DecidableEq

def Protocol.word : Protocol → List UInt8
  | .tcp => ascii "TCP"
  | .udp => ascii "UDP"
  | .icmp => ascii "ICMP"

/-- The pass that searches for the protocol. -/
def Protocol.kind : Protocol → ℕ
  | .tcp => 0
  | .udp => 1
  | .icmp => 2

/-- A word of printable characters. -/
structure Word where
  bytes : List UInt8
  ne_nil : bytes ≠ []
  visible : ∀ b ∈ bytes, Visible b

/-- A connection as it is shown; there is no comma in its flags. -/
structure Connection where
  protocol : Protocol
  src : Endpoint
  dst : Endpoint
  idle : Word
  bytes : ℕ
  flags : Word
  no_comma : 44 ∉ flags.bytes

variable (c : Connection)

/-- The fields of the line before the flags. -/
def Connection.fields : List (List UInt8) :=
  [c.protocol.word, c.src.printed, c.dst.printed ++ [44], ascii "idle", c.idle.bytes ++ [44],
    ascii "bytes", digitBytes c.bytes ++ [44], ascii "flags"]

/-- `   TCP SRC DST, idle T, bytes N, flags F` -/
def Connection.printed : List UInt8 :=
  ascii "   " ++ [32].intercalate (c.fields ++ [c.flags.bytes])

/-- What is read of the connection. -/
def Connection.conn : Conn :=
  ⟨ofBytes c.protocol.word, c.src.read, c.dst.read, [ofBytes c.flags.bytes], c.bytes⟩

variable {c}

theorem visible_of_endpoint : ∀ b ∈ e.printed, Visible b := by
  intro b hb
  have hrange := byte_of_mem_endpoint hb
  have hlow : (32 : UInt8).toNat = 32 := rfl
  have hhigh : (126 : UInt8).toNat = 126 := rfl
  exact ⟨UInt8.lt_iff_toNat_lt.mpr (by omega), UInt8.le_iff_toNat_le.mpr (by omega)⟩

theorem visible_of_digits {k : ℕ} : ∀ b ∈ digitBytes k, Visible b := by
  intro b hb
  have hrange := digit_of_mem_digitBytes hb
  have hlow : (32 : UInt8).toNat = 32 := rfl
  have hhigh : (126 : UInt8).toNat = 126 := rfl
  exact ⟨UInt8.lt_iff_toNat_lt.mpr (by omega), UInt8.le_iff_toNat_le.mpr (by omega)⟩

/-- The fields are words. -/
theorem visible_of_mem_fields : ∀ f ∈ c.fields ++ [c.flags.bytes], f ≠ [] ∧ ∀ b ∈ f, Visible b := by
  have hcomma : ∀ {f : List UInt8}, (∀ b ∈ f, Visible b) →
      f ++ [44] ≠ [] ∧ ∀ b ∈ f ++ [44], Visible b := by
    intro f hf
    refine ⟨List.append_ne_nil_of_right_ne_nil f (by decide), fun b hb => ?_⟩
    rcases List.mem_append.mp hb with hb | hb
    · exact hf b hb
    · rw [List.mem_singleton.mp hb]
      decide
  have hprotocol : c.protocol.word ≠ [] ∧ ∀ b ∈ c.protocol.word, Visible b := by
    cases c.protocol <;> decide +kernel
  have hsrc : c.src.printed ≠ [] := List.append_ne_nil_of_right_ne_nil _ (List.cons_ne_nil _ _)
  intro f hf
  simp only [Connection.fields, List.cons_append, List.nil_append, List.mem_cons, List.not_mem_nil,
    or_false] at hf
  rcases hf with rfl | rfl | rfl | rfl | rfl | rfl | rfl | rfl | rfl
  exacts [hprotocol, ⟨hsrc, visible_of_endpoint⟩, hcomma visible_of_endpoint,
    by decide +kernel, hcomma c.idle.visible, by decide +kernel, hcomma visible_of_digits,
    by decide +kernel,
    ⟨c.flags.ne_nil, c.flags.visible⟩]

theorem isField_of_word (w : Word) : IsField (ofBytes w.bytes) := by
  refine ⟨fun h => w.ne_nil (List.map_eq_nil_iff.mp h), fun x hx => ?_⟩
  obtain ⟨b, hb, rfl⟩ := List.mem_map.mp hx
  exact solid_of_visible b (w.visible b hb)

/-- The fields before a word that is none of the others. -/
theorem word_not_mem_fields {word : String} (hcomma : char ',' ∉ ofString word)
    (hcolon : char ':' ∉ ofString word) (hidle : ofString word ≠ ofBytes (ascii "idle"))
    (hprotocol : ∀ p : Protocol, ofString word ≠ ofBytes p.word) :
    ofString word ∉ (c.fields.take 5).map ofBytes ∧
      ofString word ≠ ofBytes (digitBytes c.bytes ++ [44]) := by
  have hne : ∀ f : List UInt8, ofString word ≠ ofBytes (f ++ [44]) := fun f heq => by
    have hmem : char ',' ∈ ofBytes (f ++ [44]) :=
      mem_ofBytes_iff.mpr (List.mem_append_right f List.mem_cons_self)
    exact hcomma (heq ▸ hmem)
  have hsrc : ofString word ≠ ofBytes c.src.printed := fun heq => by
    have hmem : char ':' ∈ ofBytes c.src.printed :=
      mem_ofBytes_iff.mpr (List.mem_append_right _ List.mem_cons_self)
    exact hcolon (heq ▸ hmem)
  refine ⟨?_, hne _⟩
  simp only [Connection.fields, List.take_succ_cons, List.take_zero, List.map_cons, List.map_nil,
    List.mem_cons, List.not_mem_nil, or_false, not_or]
  exact ⟨hprotocol _, hsrc, hne _, hidle, hne _⟩

/-- **The fields of a line are read as its connection**, whatever follows the flags behind a NUL. -/
theorem connOf_fields {x : PyStr} {more : List PyStr} (hx : before '\x00' x = ofBytes c.flags.bytes) :
    connOf (c.fields.map ofBytes ++ x :: more) = some c.conn := by
  have hbytesWord : ofBytes (ascii "bytes") = ofString "bytes" := by decide
  have hflagsWord : ofBytes (ascii "flags") = ofString "flags" := by decide
  have hsrc : parseIpPort (ofBytes c.src.printed) = some c.src.read := by
    have := @parseIpPort_endpoint c.src [] (by simp)
    rwa [List.append_nil] at this
  have hdst : parseIpPort (ofBytes (c.dst.printed ++ [44])) = some c.dst.read := by
    have happ : ofBytes (c.dst.printed ++ [44]) = ofBytes c.dst.printed ++ [char ','] := List.map_append
    rw [happ]
    exact parseIpPort_endpoint (by simp)
  have hsplit : c.fields.map ofBytes = (c.fields.take 5).map ofBytes ++
      [ofString "bytes", ofBytes (digitBytes c.bytes ++ [44]), ofString "flags"] := by
    rw [← hbytesWord, ← hflagsWord]
    rfl
  have hbytes : fieldAfter "bytes" (c.fields.map ofBytes ++ x :: more) =
      some (ofBytes (digitBytes c.bytes ++ [44])) := by
    obtain ⟨hnot, -⟩ := @word_not_mem_fields c "bytes" (by decide) (by decide) (by decide)
      (by intro p; cases p <;> decide)
    rw [hsplit, List.append_assoc, fieldAfter_append_of_not_mem hnot]
    exact fieldAfter_cons_self
  have hflags : fieldAfter "flags" (c.fields.map ofBytes ++ x :: more) = some x := by
    obtain ⟨hnot, hne⟩ := @word_not_mem_fields c "flags" (by decide) (by decide) (by decide)
      (by intro p; cases p <;> decide)
    rw [hsplit, List.append_assoc, fieldAfter_append_of_not_mem hnot]
    simp only [List.cons_append, List.nil_append]
    rw [fieldAfter_cons_of_ne (by decide), fieldAfter_cons_of_ne hne.symm, fieldAfter_cons_self]
    rfl
  have hends : endpoints (c.fields.map ofBytes ++ x :: more) =
      some (ofBytes c.protocol.word, c.src.read, c.dst.read) := by
    unfold endpoints
    simp only [Connection.fields, List.map_cons, List.cons_append, hsrc, hdst]
  have hparsed : parseFlags (c.fields.map ofBytes ++ x :: more) = [ofBytes c.flags.bytes] := by
    have hfield : IsField (ofBytes c.flags.bytes) := isField_of_word c.flags
    have hcomma : ∀ y ∈ ofBytes c.flags.bytes, y ∉ ofString "," := by
      intro y hy hmem
      have hy' : y = char ',' := by simpa [ofString, char] using hmem
      rw [hy'] at hy
      exact c.no_comma (mem_ofBytes_iff (b := 44).mp hy)
    have hstrip := stripChars_append (t := []) hcomma (by simp)
    rw [List.append_nil] at hstrip
    unfold parseFlags
    rw [hflags]
    dsimp only
    rw [hx, split_field hfield, List.headD_cons, hstrip, if_neg hfield.1]
  have hcount : parseBytes (c.fields.map ofBytes ++ x :: more) = c.bytes := by
    have hdigits : ∀ y ∈ ofString (toString c.bytes), y ∉ ofString "," := by
      intro y hy hmem
      have hy' : y = char ',' := by simpa [ofString, char] using hmem
      rw [hy', ← ofBytes_digitBytes] at hy
      exact absurd (digit_of_mem_digitBytes (mem_ofBytes_iff (b := 44).mp hy)).1 (by decide)
    have hcomma : ∀ y ∈ [char ','], y ∈ ofString "," := by
      intro y hy
      rw [List.mem_singleton.mp hy]
      decide
    have happ : ofBytes (digitBytes c.bytes ++ [44]) = ofString (toString c.bytes) ++ [char ','] := by
      rw [← ofBytes_digitBytes]
      exact List.map_append
    unfold parseBytes
    rw [hbytes]
    dsimp only
    rw [happ, stripChars_append hdigits hcomma, int_toString]
    rfl
  have hupper : upper (ofBytes c.protocol.word) = ofBytes c.protocol.word := by
    cases c.protocol <;> decide
  unfold connOf
  rw [hends, Option.map_some, hparsed, hcount, hupper]
  rfl

/-! ### Lines -/

/-- The line before the flags. -/
def Connection.front : List UInt8 := ascii "   " ++ [32].intercalate c.fields

theorem ofBytes_printed_conn :
    ofBytes c.printed = ofBytes c.front ++ char ' ' :: ofBytes c.flags.bytes := by
  have hprinted : c.printed = c.front ++ 32 :: c.flags.bytes := by
    unfold Connection.printed Connection.front
    simp [Connection.fields, List.intercalate]
  rw [hprinted]
  exact List.map_append

theorem split_front : split (ofBytes c.front) = c.fields.map ofBytes := by
  have hfields : ∀ f ∈ c.fields.map ofBytes, IsField f := by
    intro f hf
    obtain ⟨bytes, hbytes, rfl⟩ := List.mem_map.mp hf
    obtain ⟨hne, hvisible⟩ := visible_of_mem_fields bytes (List.mem_append_left _ hbytes)
    refine ⟨fun hnil => hne (List.map_eq_nil_iff.mp hnil), fun x hx => ?_⟩
    obtain ⟨b, hb, rfl⟩ := List.mem_map.mp hx
    exact solid_of_visible b (hvisible b hb)
  have hfront : ofBytes c.front = ofString "   " ++ join " " (c.fields.map ofBytes) := by
    have hspaces : ofBytes (ascii "   ") = ofString "   " := by decide
    rw [← ofBytes_intercalate, ← hspaces]
    exact List.map_append
  have hspaces : ofString "   " = [char ' ', char ' ', char ' '] := by decide
  have hcons : ∀ s, split (char ' ' :: s) = split s := fun s => split_append_cons (s := []) (by decide)
  rw [hfront, hspaces]
  exact (hcons _).trans ((hcons _).trans ((hcons _).trans (split_join hfields)))

theorem byte_of_mem_conn {b : UInt8} (h : b ∈ c.printed) : b = 32 ∨ Visible b := by
  rcases List.mem_append.mp h with h | h
  · have hspaces : ∀ b ∈ ascii "   ", b = 32 := by decide +kernel
    exact Or.inl (hspaces b h)
  · rcases mem_intercalate h with hspace | ⟨f, hf, hmem⟩
    · exact Or.inl (List.mem_singleton.mp hspace)
    · exact Or.inr ((visible_of_mem_fields f hf).2 b hmem)

/-- A connection is one line of text. -/
theorem not_mem_printed : nul ∉ ofBytes c.printed ∧ char '\n' ∉ ofBytes c.printed := by
  refine ⟨fun h => ?_, fun h => ?_⟩
  · exact absurd (byte_of_mem_conn (mem_ofBytes_iff (b := 0).mp h)) (by decide)
  · exact absurd (byte_of_mem_conn (mem_ofBytes_iff (b := 10).mp h)) (by decide)

theorem parseConn_printed : parseConn c.printed = some c.conn := by
  have hflags := isField_of_word c.flags
  have hnul : nul ∉ ofBytes c.flags.bytes := fun h =>
    not_mem_printed.1 (ofBytes_printed_conn ▸ List.mem_append_right _ (List.mem_cons_of_mem _ h))
  rw [parseConn_eq, before_of_not_mem not_mem_printed.2, ofBytes_printed_conn,
    split_append_cons (by decide), split_front, split_field hflags]
  exact connOf_fields (before_of_not_mem hnul)

/-- **Nothing behind a connection is read.** -/
theorem parseConn_append {b : UInt8} {rest : List UInt8} (hb : IsStop b) :
    parseConn (c.printed ++ b :: rest) = some c.conn := by
  have hbytes : ofBytes (c.printed ++ b :: rest) =
      ofBytes c.printed ++ Fin.ofNat 0x110000 b.toNat :: ofBytes rest := List.map_append
  rw [parseConn_eq, hbytes]
  rcases hb with rfl | rfl
  · -- the flags end at the NUL, and the fields behind it come too late
    have hflags := isField_of_word c.flags
    have hline : before '\n' (ofBytes c.printed ++ Fin.ofNat 0x110000 (0 : UInt8).toNat :: ofBytes rest) =
        ofBytes c.printed ++ nul :: before '\n' (ofBytes rest) := by
      rw [before_append not_mem_printed.2]
      exact congrArg _ (List.takeWhile_cons_of_pos (by decide))
    have hsolid : ∀ x ∈ ofBytes c.flags.bytes, (!isWhitespace x) = true := fun x hx => by
      rw [show isWhitespace x = false from hflags.2 x hx]
      rfl
    have hfront : fieldsBefore (ofBytes c.printed) = c.fields.map ofBytes := by
      have hnone : fieldsBefore (ofBytes c.flags.bytes) = [] := by
        unfold fieldsBefore
        rw [List.rdropWhile_eq_nil_iff.mpr hsolid, split_nil]
      rw [ofBytes_printed_conn, fieldsBefore_append_cons (by decide), split_front, hnone,
        List.append_nil]
    have htake : (ofBytes c.printed).rtakeWhile (!isWhitespace ·) = ofBytes c.flags.bytes := by
      rw [ofBytes_printed_conn]
      unfold List.rtakeWhile
      rw [List.reverse_append, List.reverse_cons, List.append_assoc, List.singleton_append,
        List.takeWhile_append_of_pos fun x hx => hsolid x (List.mem_reverse.mp hx),
        List.takeWhile_cons_of_neg (by decide), List.append_nil, List.reverse_reverse]
    rw [hline, split_append_solid solid_nul, hfront]
    refine connOf_fields ?_
    rw [before_fieldAround _ _ not_mem_printed.1, htake]
  · have hnew : before '\n' (ofBytes c.printed ++ Fin.ofNat 0x110000 (10 : UInt8).toNat :: ofBytes rest) =
        before '\n' (ofBytes c.printed) := before_append_cons
    rw [hnew, ← parseConn_eq, parseConn_printed]

/-! ### Images -/

/-- A connection whose line is whole in a window. -/
structure ShownConnection where
  conn : Connection
  length_le : conn.printed.length ≤ 128

def ShownConnection.printed (r : ShownConnection) : List UInt8 := r.conn.printed

def ShownConnection.kind (r : ShownConnection) : ℕ := r.conn.protocol.kind

def ShownConnection.value (r : ShownConnection) : Conn := r.conn.conn

/-- The search for a protocol. -/
def Protocol.pass (p : Protocol) : Pass Conn where
  pattern := ascii "   " ++ (p.word ++ [32])
  window := 128
  parse := parseConn
  pattern_ne_nil := List.cons_ne_nil _ _
  length_le_window := by cases p <;> decide

theorem passes_kind (p : Protocol) : passes[p.kind]? = some p.pass := by
  cases p <;> rfl

theorem exists_protocol {k : ℕ} {p : Pass Conn} (hp : passes[k]? = some p) :
    ∃ q : Protocol, k = q.kind ∧ p = q.pass := by
  rcases k with _ | _ | _ | k
  · exact ⟨.tcp, rfl, (Option.some.inj hp).symm⟩
  · exact ⟨.udp, rfl, (Option.some.inj hp).symm⟩
  · exact ⟨.icmp, rfl, (Option.some.inj hp).symm⟩
  · cases hp

/-- Three spaces stand at the start of a line only. -/
theorem eq_zero_of_spaces {i : ℕ} (h : ∀ k < 3, c.printed[i + k]? = some 32) : i = 0 := by
  have hwords : ∀ part ∈ c.fields ++ [c.flags.bytes], part ≠ [] ∧ 32 ∉ part := fun part hpart =>
    ⟨(visible_of_mem_fields part hpart).1, fun hmem =>
      absurd ((visible_of_mem_fields part hpart).2 32 hmem) (by decide)⟩
  have hjoin : ∀ j, c.printed[j + 3]? =
      ([32].intercalate (c.fields ++ [c.flags.bytes]))[j]? := fun j => by
    unfold Connection.printed
    rw [List.getElem?_append_right (Nat.le_add_left 3 j)]
    rfl
  rcases i with _ | _ | i
  · rfl
  · have hthird := h 2 (by decide)
    rw [hjoin 0] at hthird
    exact absurd (isolated_of_intercalate hwords hthird).1 (Nat.lt_irrefl 0)
  · have hsecond := h 1 (by decide)
    have hthird := h 2 (by decide)
    rw [hjoin i] at hsecond
    rw [show i + 1 + 1 + 2 = i + 1 + 3 by omega, hjoin (i + 1)] at hthird
    exact absurd hthird (isolated_of_intercalate hwords hsecond).2

theorem exists_printed_eq : ∃ rest, c.printed = c.protocol.pass.pattern ++ rest := by
  refine ⟨[32].intercalate (c.fields.tail ++ [c.flags.bytes]), ?_⟩
  simp [Connection.printed, Connection.fields, Protocol.pass, List.intercalate]

/-- The search for a protocol finds its connections, at their start. -/
theorem occursAt_pass {q : Protocol} {i : ℕ} (hocc : OccursAt q.pass.pattern c.printed i) :
    q = c.protocol ∧ i = 0 := by
  have hspaces : ∀ q : Protocol, ∀ k < 3, q.pass.pattern[k]? = some 32 := by
    intro q
    cases q <;> decide
  have hlen : ∀ q : Protocol, 3 < q.pass.pattern.length := by
    intro q
    cases q <;> decide
  obtain rfl := eq_zero_of_spaces fun k hk => by
    rw [hocc.getElem? (hk.trans (hlen q)), hspaces q k hk]
  refine ⟨?_, rfl⟩
  have hfirst := hocc.getElem? (k := 3) (hlen q)
  obtain ⟨rest, hprinted⟩ := @exists_printed_eq c
  rw [hprinted, List.getElem?_append_left (hlen _)] at hfirst
  revert hfirst
  cases q <;> cases c.protocol <;> decide

/-- **The passes read connections back.** -/
theorem readsBack : ReadsBack passes ShownConnection.printed IsStop ShownConnection.kind
    ShownConnection.value where
  separator p hp b hb := by
    have hpatterns : ∀ p ∈ passes, 0 ∉ p.pattern ∧ 10 ∉ p.pattern := by decide
    rcases hb with rfl | rfl
    exacts [(hpatterns p hp).1, (hpatterns p hp).2]
  found r := by
    obtain ⟨rest, hprinted⟩ := @exists_printed_eq r.conn
    have hparse : r.conn.protocol.pass.parse = parseConn := rfl
    refine ⟨r.conn.protocol.pass, passes_kind _, ?_, r.length_le, ?_, fun b hb rest => ?_⟩
    · unfold ShownConnection.printed
      rw [hprinted]
      exact List.take_left
    · rw [hparse]
      exact parseConn_printed
    · rw [hparse, ShownConnection.printed, parseConn_append hb, parseConn_printed]
  start r k p hp i hocc := by
    obtain ⟨q, rfl, rfl⟩ := exists_protocol hp
    obtain ⟨rfl, hzero⟩ := occursAt_pass hocc
    exact ⟨rfl, hzero⟩

/-- What tells two connections apart. -/
def ShownConnection.tuple (r : ShownConnection) : Protocol × Endpoint × Endpoint :=
  (r.conn.protocol, r.conn.src, r.conn.dst)

/-- What is reported of a connection at a position, without its number. -/
def entryAt (fwVersion : PyStr) (a : ℕ × ShownConnection) : ConnEntry := entry fwVersion 0 a.1 a.2.value

/-- What is read of a connection at a position. -/
def hitAtRecord (a : ℕ × ShownConnection) : Hit Conn :=
  hitOf ShownConnection.kind ShownConnection.value a

theorem read_injective : Function.Injective Endpoint.read := by
  intro e e' h
  obtain ⟨haddress, hport⟩ := Prod.mk.inj h
  exact Endpoint.ext (text_injective haddress) (Int.ofNat_inj.mp hport)

theorem word_injective : Function.Injective fun q : Protocol => ofBytes q.word := by
  intro q q' h
  have hword : q.word = q'.word := ofBytes_inj.mp h
  revert hword
  cases q <;> cases q' <;> decide

theorem hitKey_eq_iff (a b : ℕ × ShownConnection) :
    hitKey (hitAtRecord a) = hitKey (hitAtRecord b) ↔ a.2.tuple = b.2.tuple := by
  have hkey : ∀ a : ℕ × ShownConnection, hitKey (hitAtRecord a) =
      Prod.map (fun q : Protocol => ofBytes q.word) (Prod.map Endpoint.read Endpoint.read) a.2.tuple :=
    fun _ => rfl
  rw [hkey, hkey]
  exact (word_injective.prodMap (read_injective.prodMap read_injective)).eq_iff

/-- The connections of a protocol are those its pass finds. -/
theorem protocol_iff {n : ℕ} {dump : Dump} {h : Hit Conn} (hh : h ∈ hits n passes dump)
    (q : Protocol) : h.value.protocol = ofBytes q.word ↔ h.pass = q.kind := by
  have hread := protocol_of_mem hh
  have hq : protocols[q.kind]? = some (ofBytes q.word) := by
    cases q <;> decide
  constructor
  · intro heq
    have hlt := (List.getElem?_eq_some_iff.mp hread).1
    have hnodup : protocols.Nodup := by decide
    exact (List.getElem?_inj hlt hnodup).mp (by rw [hread, hq, heq])
  · intro heq
    rw [heq, hq] at hread
    exact (Option.some.inj hread).symm

/-- Every connection is one of a protocol. -/
theorem exists_word {n : ℕ} {dump : Dump} (hlen : dump.length ≤ maxHops * n) {e : ConnEntry}
    (he : e ∈ run n dump) : ∃ q : Protocol, e.conn.protocol = ofBytes q.word := by
  have hmem : e.withoutId ∈ (run n dump).map ConnEntry.withoutId := List.mem_map_of_mem he
  rw [run_eq hlen] at hmem
  obtain ⟨h, hh, heq⟩ := List.mem_map.mp hmem
  have hhit := (mem_of_mem_firsts hh).1
  obtain ⟨p, -, hp, -⟩ := exists_parse_of_mem_hits hhit
  obtain ⟨q, hkind, -⟩ := exists_protocol hp
  have hconn : h.value = e.conn := congrArg ConnEntry.conn heq
  exact ⟨q, hconn ▸ (protocol_iff hhit q).mpr hkind⟩

/-- **A printed connection table is read back**: of the connections of a protocol between two endpoints
the first one, in order, and no others. -/
theorem run_connections {n : ℕ} {items : List (Item ShownConnection × UInt8)} (hn : 0 < n)
    (hlen : (image ShownConnection.printed items).length ≤ maxHops * n)
    (hf : Fits n passes ShownConnection.printed IsStop items) :
    let dump := image ShownConnection.printed items
    (∀ e ∈ run n dump, ∃ q : Protocol, e.conn.protocol = ofBytes q.word) ∧
      ∀ q : Protocol,
        ((run n dump).filter (·.conn.protocol = ofBytes q.word)).map ConnEntry.withoutId =
          (firsts (·.2.tuple) [] ((recordsAt ShownConnection.printed 0 items).filter
            (·.2.conn.protocol = q))).map (entryAt (extractFirmwareVersion (firstChunk dump))) := by
  intro dump
  refine ⟨fun e he => exists_word hlen he, fun q => ?_⟩
  generalize hfw : extractFirmwareVersion (firstChunk dump) = fw
  have hsplit := readsBack.filter_hits hf hn (passes_kind q)
  have hpass : (hits n passes dump).filter (·.value.protocol = ofBytes q.word) =
      (hits n passes dump).filter (·.pass = q.kind) :=
    List.filter_congr fun h hh => decide_eq_decide.mpr (protocol_iff hh q)
  have hkey : ∀ a b : Hit Conn, hitKey a = hitKey b →
      decide (a.value.protocol = ofBytes q.word) = decide (b.value.protocol = ofBytes q.word) :=
    fun a b h => congrArg (fun k : Key => decide (k.1 = ofBytes q.word)) h
  have hkind : ∀ a : ℕ × ShownConnection, a.2.kind = q.kind ↔ a.2.conn.protocol = q := by
    intro a
    unfold ShownConnection.kind
    cases a.2.conn.protocol <;> cases q <;> decide
  calc ((run n dump).filter (·.conn.protocol = ofBytes q.word)).map ConnEntry.withoutId
      = ((run n dump).map ConnEntry.withoutId).filter (·.conn.protocol = ofBytes q.word) := by
        rw [List.filter_map]
        rfl
    _ = ((firsts hitKey [] (hits n passes dump)).map (hitEntry fw)).filter
          (·.conn.protocol = ofBytes q.word) := by rw [run_eq hlen, findings, hfw]
    _ = ((firsts hitKey [] (hits n passes dump)).filter
          (·.value.protocol = ofBytes q.word)).map (hitEntry fw) := by
        rw [List.filter_map]
        rfl
    _ = (firsts hitKey [] ((hits n passes dump).filter (·.pass = q.kind))).map (hitEntry fw) := by
        rw [filter_firsts hkey, hpass]
    _ = (firsts (fun a => hitKey (hitAtRecord a)) [] ((recordsAt ShownConnection.printed 0 items).filter
          (·.2.kind = q.kind))).map fun a => hitEntry fw (hitAtRecord a) := by
        rw [hsplit, firsts_map, List.map_map]
        rfl
    _ = (firsts (·.2.tuple) [] ((recordsAt ShownConnection.printed 0 items).filter
          (·.2.conn.protocol = q))).map (entryAt fw) := by
        simp only [hkind]
        exact congrArg (List.map (entryAt fw)) (firsts_congr hitKey_eq_iff [] _)

/-- A connection from `10.0.0.1:1234` to `10.0.1.2:443` with these flags. -/
def sampleConnection (q : Protocol) (flags : Word) (h : 44 ∉ flags.bytes) : Connection where
  protocol := q
  src := ⟨⟨[10, 0, 0, 1], rfl⟩, 1234, by decide, by decide, by decide, by decide⟩
  dst := ⟨⟨[10, 0, 1, 2], rfl⟩, 443, by decide, by decide, by decide, by decide⟩
  idle := ⟨ascii "0:00:01", by decide, by decide +kernel⟩
  bytes := 1024
  flags := flags
  no_comma := h

/-- A table that shows a connection twice, with other flags, and one of another protocol between. -/
def sampleItems : List (Item ShownConnection × UInt8) :=
  let flags : Word := ⟨ascii "UIO", by decide, by decide +kernel⟩
  let later : Word := ⟨ascii "UIOB", by decide, by decide +kernel⟩
  [(.other (ascii "show conn"), 10),
    (.record ⟨sampleConnection .tcp flags (by decide), by decide +kernel⟩, 0),
    (.record ⟨sampleConnection .udp flags (by decide), by decide +kernel⟩, 10),
    (.record ⟨sampleConnection .tcp later (by decide), by decide +kernel⟩, 10)]

theorem run_connections_sample :
    ((run chunkSize (image ShownConnection.printed sampleItems)).filter
      (·.conn.protocol = ofBytes (ascii "TCP"))).map ConnEntry.withoutId =
        [entry "unknown" 0 10 ⟨"TCP", ("10.0.0.1", 1234), ("10.0.1.2", 443), ["UIO"], 1024⟩] := by
  have hf : Fits chunkSize passes ShownConnection.printed IsStop sampleItems :=
    ⟨by decide, by decide +kernel, by decide +kernel⟩
  have hread := (run_connections (by decide) (by decide +kernel) hf).2 .tcp
  refine hread.trans ?_
  decide +kernel

end VantaCore.Extractors.Cisco.Asa.ConnImages
