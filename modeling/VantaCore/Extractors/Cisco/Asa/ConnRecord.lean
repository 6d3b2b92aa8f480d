import VantaCore.Extractors.Cisco.Asa.ConnTable
import VantaCore.Extractors.Cisco.TwoDumps
import VantaCore.Lib.PyFields

/-! # What a connection is read from

A line of the connection table ends at a newline, but a NUL does not end it. The endpoints are always
read from the bytes before the NUL: the field around it is no endpoint. The flags and the byte count are
looked for behind it too, unless the words stand before it. So a record is read from its own bytes
exactly if what follows gives nothing, or nothing else (`sameEntry_iff`). -/

namespace VantaCore.Extractors.Cisco.Asa.ConnRecord

open VantaCore.Core.DumpHandle VantaCore.Lib.Chunks VantaCore.Lib.Search VantaCore.Lib.PyText
open VantaCore.Lib.PyFields VantaCore.Lib.FirstBy VantaCore.Extractors.Cisco.TextScan
open VantaCore.Extractors.Cisco.ChunkEnds VantaCore.Extractors.Cisco.Text
open VantaCore.Extractors.Cisco.TwoDumps (chunkAt_congr)
open VantaCore.Extractors.Cisco.Asa.ConnTable

variable {s field : PyStr} {fields rest rest' : List PyStr} {d d' : Dump} {idx k : ℕ} {c : Conn}

/-! ### The field around a NUL -/

/-- `"\x00"` -/
def nul : CodePoint := char '\x00'

theorem solid_nul : Solid nul := by
  unfold Solid
  decide

theorem int_of_nul (h : nul ∈ s) : int s = none := by
  by_contra hsome
  obtain ⟨v, hv⟩ := Option.ne_none_iff_exists'.mp hsome
  have hchar : IntChar 0 := intChar_of_int hv nul h
  unfold IntChar at hchar
  simp [isSpace] at hchar

theorem isValidIp_of_nul (h : nul ∈ s) : isValidIp s = false := by
  obtain ⟨p, hp, hmem⟩ : ∃ p ∈ splitChar '.' s, nul ∈ p := mem_splitChar_iff.mpr ⟨h, by decide⟩
  have hall : fourOctets s = false := by
    unfold fourOctets
    refine Bool.and_eq_false_iff.mpr (Or.inr (List.all_eq_false.mpr ⟨p, hp, ?_⟩))
    rw [int_of_nul hmem]
    decide
  unfold isValidIp
  rw [hall, ite_self]

/-- **The field around a NUL is no endpoint.** -/
theorem parseIpPort_of_nul (h : nul ∈ s) : parseIpPort s = none := by
  have hclean : nul ∈ rstripChars ",;)" s := mem_rdropWhile_of_neg h (by decide)
  unfold parseIpPort
  generalize rstripChars ",;)" s = clean at hclean
  dsimp only
  split_ifs with hcolon hip
  · -- the address holds no NUL, so the port does
    have hside : nul = char ':' ∨ nul ∈ (splitLast ':' clean).1 ∨ nul ∈ (splitLast ':' clean).2 :=
      mem_splitLast hclean
    have hport : nul ∈ (splitLast ':' clean).2 := by
      rcases hside with heq | hmem | hmem
      · exact absurd heq (by decide)
      · exact absurd hip (by rw [isValidIp_of_nul hmem]; decide)
      · exact hmem
    rw [int_of_nul hport]
  · rfl
  · rfl

/-! ### The fields of a line -/

/-- The protocol and the endpoints of a line with these fields. -/
def endpoints (fields : List PyStr) : Option (PyStr × (PyStr × ℤ) × (PyStr × ℤ)) :=
  match fields with
  | protocol :: srcToken :: dstToken :: _ =>
    match parseIpPort srcToken, parseIpPort dstToken with
    | some src, some dst => some (protocol, src, dst)
    | _, _ => none
  | _ => none

/-- The connection of a line with these fields. -/
def connOf (fields : List PyStr) : Option Conn :=
  (endpoints fields).map fun e =>
    ⟨upper e.1, e.2.1, e.2.2, parseFlags fields, parseBytes fields⟩

theorem parseConn_eq (w : List UInt8) : parseConn w = connOf (split (before '\n' (ofBytes w))) := by
  unfold parseConn
  dsimp only
  rw [split_strip]
  generalize split (before '\n' (ofBytes w)) = tokens
  unfold connOf endpoints
  rcases tokens with _ | ⟨protocol, _ | ⟨srcToken, _ | ⟨dstToken, tokens⟩⟩⟩
  · rfl
  · rfl
  · rfl
  · dsimp only
    cases parseIpPort srcToken <;> cases parseIpPort dstToken <;> rfl

/-- **The endpoints are read from the fields before a NUL.** -/
theorem endpoints_append (hne : fields ≠ []) (h : nul ∈ field) :
    endpoints (fields ++ field :: rest) = endpoints fields := by
  have hfield := parseIpPort_of_nul h
  rcases fields with _ | ⟨protocol, _ | ⟨srcToken, _ | ⟨dstToken, fields⟩⟩⟩
  · exact absurd rfl hne
  · cases rest with
    | nil => rfl
    | cons g rest =>
      show (match parseIpPort field, parseIpPort g with
        | some src, some dst => some (protocol, src, dst)
        | _, _ => none) = none
      rw [hfield]
  · show (match parseIpPort srcToken, parseIpPort field with
      | some src, some dst => some (protocol, src, dst)
      | _, _ => none) = none
    rw [hfield]
    cases parseIpPort srcToken <;> rfl
  · rfl

/-- The flags in the field around a NUL end at the NUL. -/
theorem before_fieldAround (s t : PyStr) (h : nul ∉ s) : before '\x00' (fieldAround s nul t) =
    s.rtakeWhile (!isWhitespace ·) := by
  unfold fieldAround
  have hnot : nul ∉ s.rtakeWhile (!isWhitespace ·) := fun hmem =>
    h ((List.rtakeWhile_suffix _ s).subset hmem)
  rw [before_append hnot]
  simp [before, nul]

/-- A word that does not stand before a NUL is looked for behind the field around it. -/
theorem fieldAfter_behind {word : String} {s t : PyStr} (hword : nul ∉ ofString word)
    (hmem : ofString word ∉ fields) :
    fieldAfter word (fields ++ fieldAround s nul t :: rest) = fieldAfter word rest := by
  have hne : fieldAround s nul t ≠ ofString word := fun heq => hword (heq ▸ mem_fieldAround)
  rw [fieldAfter_append_of_not_mem hmem, fieldAfter_cons_of_ne hne]

/-- **The flags are those before a NUL** if the word is, and otherwise those behind it. -/
theorem parseFlags_eq_iff {s t t' : PyStr} (h : nul ∉ s) :
    parseFlags (fields ++ fieldAround s nul t :: rest) =
        parseFlags (fields ++ fieldAround s nul t' :: rest') ↔
      ofString "flags" ∈ fields ∨ parseFlags rest = parseFlags rest' := by
  by_cases hmem : ofString "flags" ∈ fields
  · refine iff_of_true ?_ (Or.inl hmem)
    unfold parseFlags
    rcases fieldAfter_append_of_mem hmem with ⟨f, -, hnext⟩ | hnext
    · rw [hnext, hnext]
    · rw [hnext, hnext]
      dsimp only
      rw [before_fieldAround s t h, before_fieldAround s t' h]
  · rw [or_iff_right hmem]
    unfold parseFlags
    rw [fieldAfter_behind (by decide) hmem, fieldAfter_behind (by decide) hmem]

/-- **The byte count is read before a NUL** if the word is, and otherwise behind it. -/
theorem parseBytes_eq_iff {s t t' : PyStr} :
    parseBytes (fields ++ fieldAround s nul t :: rest) =
        parseBytes (fields ++ fieldAround s nul t' :: rest') ↔
      ofString "bytes" ∈ fields ∨ parseBytes rest = parseBytes rest' := by
  -- the field around the NUL is no number
  have hzero : ∀ t : PyStr, int (stripChars "," (fieldAround s nul t)) = none := fun t => by
    unfold stripChars
    exact int_of_nul (mem_rdropWhile_of_neg (mem_dropWhile_of_neg mem_fieldAround (by decide))
      (by decide))
  by_cases hmem : ofString "bytes" ∈ fields
  · refine iff_of_true ?_ (Or.inl hmem)
    unfold parseBytes
    rcases fieldAfter_append_of_mem hmem with ⟨f, -, hnext⟩ | hnext
    · rw [hnext, hnext]
    · rw [hnext, hnext]
      dsimp only
      rw [hzero, hzero]
  · rw [or_iff_right hmem]
    unfold parseBytes
    rw [fieldAfter_behind (by decide) hmem, fieldAfter_behind (by decide) hmem]

/-- **Two lines that agree up to a NUL** give the same connection exactly if they give none, or the
flags and the byte count are those before the NUL or the same behind it. -/
theorem connOf_eq_iff {s t t' : PyStr} (hne : fields ≠ []) (h : nul ∉ s) :
    connOf (fields ++ fieldAround s nul t :: rest) =
        connOf (fields ++ fieldAround s nul t' :: rest') ↔
      endpoints fields = none ∨
        (ofString "flags" ∈ fields ∨ parseFlags rest = parseFlags rest') ∧
        (ofString "bytes" ∈ fields ∨ parseBytes rest = parseBytes rest') := by
  have hflags := @parseFlags_eq_iff fields rest rest' s t t' h
  have hbytes := @parseBytes_eq_iff fields rest rest' s t t'
  unfold connOf
  rw [endpoints_append hne mem_fieldAround, endpoints_append hne mem_fieldAround, ← hflags, ← hbytes]
  cases endpoints fields with
  | none => simp
  | some e => simp

/-! ### Records -/

/-- A byte that ends a record. -/
def Ends (b : UInt8) : Prop := b = 0 ∨ b = 10

instance (b : UInt8) : Decidable (Ends b) := inferInstanceAs (Decidable (_ ∨ _))

/-- Two images of one chunk hold the same record, up to the NUL or newline that ends it; the record is
the first in both. -/
structure SameRecord (d d' : Dump) (idx k : ℕ) : Prop where
  single : d.length ≤ chunkSize
  single' : d'.length ≤ chunkSize
  occurs : ∃ p ∈ passes, OccursAt p.pattern d idx
  lt : k < 128
  terminator : ∃ b, d[idx + k]? = some b ∧ Ends b
  first : ∀ j < k, ∀ b, d[idx + j]? = some b → ¬ Ends b
  agree : ∀ j ≤ k, d[idx + j]? = d'[idx + j]?
  only : ∀ p ∈ passes, ∀ j < idx, ¬ OccursAt p.pattern d j
  only' : ∀ p ∈ passes, ∀ j < idx, ¬ OccursAt p.pattern d' j

theorem SameRecord.chunkAt_eq {m : ℕ} (h : SameRecord d d' idx k) (hm : m ≤ k) :
    chunkAt m d idx = chunkAt m d' idx := by
  refine chunkAt_congr fun i hlow hhigh => ?_
  have hbyte := h.agree (i - idx) (by omega)
  rwa [Nat.add_sub_cancel' hlow] at hbyte

/-- An entry at the address is in both tables or in neither, and reports the same connection. -/
structure SameEntry (d d' : Dump) (idx : ℕ) : Prop where
  both : (∃ e ∈ run chunkSize d, e.virtualAddress = idx) ↔
    ∃ e ∈ run chunkSize d', e.virtualAddress = idx
  same : ∀ e ∈ run chunkSize d, ∀ e' ∈ run chunkSize d', e.virtualAddress = idx →
    e'.virtualAddress = idx → e.conn = e'.conn

/-- The fields of the record, without the one its end cuts. -/
def ownFields (d : Dump) (idx k : ℕ) : List PyStr := fieldsBefore (ofBytes (chunkAt k d idx))

/-- The text of the line behind the end of the record. -/
def laterText (d : Dump) (idx k : ℕ) : PyStr :=
  before '\n' (ofBytes (chunkAt (127 - k) d (idx + k + 1)))

/-- The fields of the line behind the one that the end of the record cuts. -/
def laterFields (d : Dump) (idx k : ℕ) : List PyStr := fieldsBehind (laterText d idx k)

/-- What follows the record is not read, or read alike: the record ends with a newline, or is no
connection, or the words `flags` and `bytes` stand in it or are followed by the same behind it. -/
def ReadsOwnBytes (d d' : Dump) (idx k : ℕ) : Prop :=
  d[idx + k]? = some 10 ∨ endpoints (ownFields d idx k) = none ∨
    (ofString "flags" ∈ ownFields d idx k ∨
        parseFlags (laterFields d idx k) = parseFlags (laterFields d' idx k)) ∧
      (ofString "bytes" ∈ ownFields d idx k ∨
        parseBytes (laterFields d idx k) = parseBytes (laterFields d' idx k))

/-! The line of a record. -/

variable {b : UInt8}

theorem not_ends_of_mem (hfirst : ∀ j < k, ∀ b, d[idx + j]? = some b → ¬ Ends b)
    (hb : b ∈ chunkAt k d idx) : ¬ Ends b := by
  obtain ⟨j, hj, hget⟩ := exists_of_mem_chunkAt hb
  exact hfirst j hj b hget

/-- Neither a NUL nor a newline stands in the record. -/
theorem not_mem_record (hfirst : ∀ j < k, ∀ b, d[idx + j]? = some b → ¬ Ends b) :
    nul ∉ ofBytes (chunkAt k d idx) ∧ char '\n' ∉ ofBytes (chunkAt k d idx) := by
  refine ⟨fun hmem => ?_, fun hmem => ?_⟩
  · have hzero : (0 : UInt8) ∈ chunkAt k d idx := mem_ofBytes_iff.mp hmem
    exact not_ends_of_mem hfirst hzero (Or.inl rfl)
  · have hnewline : (10 : UInt8) ∈ chunkAt k d idx := mem_ofBytes_iff.mp hmem
    exact not_ends_of_mem hfirst hnewline (Or.inr rfl)

theorem ofBytes_window (hlt : k < 128) (hb : d[idx + k]? = some b) :
    ofBytes (chunkAt 128 d idx) = ofBytes (chunkAt k d idx) ++
      Fin.ofNat 0x110000 b.toNat :: ofBytes (chunkAt (127 - k) d (idx + k + 1)) := by
  have hrest : 128 - (k + 1) = 127 - k := by omega
  rw [chunkAt_eq_append_cons hlt hb, hrest]
  exact List.map_append

/-- A newline ends the line. -/
theorem line_of_newline (hlt : k < 128) (hb : d[idx + k]? = some 10)
    (hfirst : ∀ j < k, ∀ b, d[idx + j]? = some b → ¬ Ends b) :
    before '\n' (ofBytes (chunkAt 128 d idx)) = ofBytes (chunkAt k d idx) := by
  have hnewline : before '\n' (Fin.ofNat 0x110000 (10 : UInt8).toNat ::
      ofBytes (chunkAt (127 - k) d (idx + k + 1))) = [] := rfl
  rw [ofBytes_window hlt hb, before_append (not_mem_record hfirst).2, hnewline, List.append_nil]

/-- **The line goes on behind a NUL.** -/
theorem line_of_nul (hlt : k < 128) (hb : d[idx + k]? = some 0)
    (hfirst : ∀ j < k, ∀ b, d[idx + j]? = some b → ¬ Ends b) :
    before '\n' (ofBytes (chunkAt 128 d idx)) =
      ofBytes (chunkAt k d idx) ++ nul :: laterText d idx k := by
  have hnul : before '\n' (Fin.ofNat 0x110000 (0 : UInt8).toNat ::
      ofBytes (chunkAt (127 - k) d (idx + k + 1))) = nul :: laterText d idx k :=
    before_append (s := [nul]) (by decide)
  rw [ofBytes_window hlt hb, before_append (not_mem_record hfirst).2, hnul]

theorem parseConn_of_nul (hlt : k < 128) (hb : d[idx + k]? = some 0)
    (hfirst : ∀ j < k, ∀ b, d[idx + j]? = some b → ¬ Ends b) :
    parseConn (chunkAt 128 d idx) = connOf (ownFields d idx k ++
      fieldAround (ofBytes (chunkAt k d idx)) nul (laterText d idx k) :: laterFields d idx k) := by
  rw [parseConn_eq, line_of_nul hlt hb hfirst, split_append_solid solid_nul]
  rfl

theorem not_ends_of_mem_pattern {p : Pass Conn} (hp : p ∈ passes) : ∀ b ∈ p.pattern, ¬ Ends b := by
  simp only [passes, List.mem_cons, List.not_mem_nil, or_false] at hp
  rcases hp with rfl | rfl | rfl <;> decide +kernel

/-- The end of a record lies behind its pattern. -/
theorem pattern_le {p : Pass Conn} (hp : p ∈ passes) (hocc : OccursAt p.pattern d idx)
    (hb : d[idx + k]? = some b) (hends : Ends b) : p.pattern.length ≤ k := by
  by_contra hlt
  rw [hocc.getElem? (not_le.mp hlt)] at hb
  exact not_ends_of_mem_pattern hp b (List.mem_of_getElem? hb) hends

theorem ownFields_ne_nil {p : Pass Conn} (hp : p ∈ passes) (hocc : OccursAt p.pattern d idx)
    (hle : p.pattern.length ≤ k) : ownFields d idx k ≠ [] := by
  obtain ⟨rest, hrest⟩ := hocc.exists_chunkAt_eq hle
  obtain ⟨i, hi⟩ := List.mem_iff_getElem?.mp hp
  obtain ⟨-, -, word, protocol, hword, hsplit, -, -⟩ := pass_spec hi
  have htext : ofBytes (word ++ [32] ++ rest) = ofBytes word ++ char ' ' :: ofBytes rest := by
    simp [ofBytes, char]
  unfold ownFields
  rw [hrest, hword, htext, fieldsBefore_append_cons (by decide)]
  exact List.append_ne_nil_of_left_ne_nil (by rw [hsplit]; exact List.cons_ne_nil _ _) _

/-- **The windows are parsed alike** exactly if what follows the record is not read, or read alike. -/
theorem parseConn_eq_iff (h : SameRecord d d' idx k) :
    parseConn (chunkAt 128 d idx) = parseConn (chunkAt 128 d' idx) ↔ ReadsOwnBytes d d' idx k := by
  obtain ⟨p, hp, hocc⟩ := h.occurs
  obtain ⟨b, hb, hends⟩ := h.terminator
  have hb' : d'[idx + k]? = some b := (h.agree k le_rfl).symm.trans hb
  have hfirst' : ∀ j < k, ∀ b, d'[idx + j]? = some b → ¬ Ends b := fun j hj b hget =>
    h.first j hj b ((h.agree j hj.le).trans hget)
  have hrecord : chunkAt k d idx = chunkAt k d' idx := h.chunkAt_eq le_rfl
  have hown : ownFields d' idx k = ownFields d idx k := by
    unfold ownFields
    rw [hrecord]
  unfold ReadsOwnBytes
  rcases hends with rfl | rfl
  · have hzero : ¬ d[idx + k]? = some 10 := by
      rw [hb]
      decide
    rw [or_iff_right hzero, parseConn_of_nul h.lt hb h.first, parseConn_of_nul h.lt hb' hfirst', hown,
      ← hrecord]
    exact connOf_eq_iff (ownFields_ne_nil hp hocc (pattern_le hp hocc hb (Or.inl rfl)))
      (not_mem_record h.first).1
  · refine iff_of_true ?_ (Or.inl hb)
    rw [parseConn_eq, parseConn_eq, line_of_newline h.lt hb h.first, line_of_newline h.lt hb' hfirst',
      hrecord]

/-! ### Entries -/

theorem protocol_of_mem_whole {h : Hit Conn} (hh : h ∈ wholeHits passes d) :
    protocols[h.pass]? = some h.value.protocol := by
  rw [← hits_eq_wholeHits (Nat.le_succ d.length)] at hh
  exact protocol_of_mem hh

theorem parse_of_mem_whole {h : Hit Conn} (hh : h ∈ wholeHits passes d) :
    ∃ p ∈ passes, passes[h.pass]? = some p ∧ OccursAt p.pattern d h.pos ∧
      parseConn (chunkAt 128 d h.pos) = some h.value := by
  obtain ⟨p, hpass, hread⟩ := mem_wholeHits_iff.mp hh
  have hp := List.mem_of_getElem? hpass
  obtain ⟨hwindow, hparse⟩ := parse_of_mem_passes hp
  unfold wholeHitAt at hread
  split_ifs at hread with hmem
  rw [hwindow, hparse] at hread
  exact ⟨p, hp, hpass, occursAt_of_mem_findAll p.pattern_ne_nil hmem, hread⟩

/-- **What is reported of the first occurrence** is what its window is parsed as. -/
theorem exists_first_iff (hocc : ∃ p ∈ passes, OccursAt p.pattern d idx)
    (honly : ∀ p ∈ passes, ∀ j < idx, ¬ OccursAt p.pattern d j) :
    (∃ h ∈ firsts hitKey [] (wholeHits passes d), h.pos = idx ∧ h.value = c) ↔
      parseConn (chunkAt 128 d idx) = some c := by
  constructor
  · rintro ⟨h, hh, rfl, rfl⟩
    obtain ⟨-, -, -, -, hparse⟩ := parse_of_mem_whole (mem_of_mem_firsts hh).1
    exact hparse
  · intro hparse
    obtain ⟨p, hp, hocc⟩ := hocc
    obtain ⟨i, hi⟩ := List.mem_iff_getElem?.mp hp
    obtain ⟨hwindow, hread⟩ := parse_of_mem_passes hp
    have hmem : idx ∈ findAll p.pattern d :=
      mem_findAll_of_not_overlapped p.pattern_ne_nil hocc fun j hj _ => honly p hp j hj
    have hhit : (⟨i, idx, c⟩ : Hit Conn) ∈ wholeHits passes d := by
      refine mem_wholeHits_iff.mpr ⟨p, hi, ?_⟩
      unfold wholeHitAt
      rw [if_pos hmem, hwindow, hread]
      exact hparse
    obtain ⟨h', hh', hkey⟩ : ∃ h' ∈ firsts hitKey [] (wholeHits passes d),
        hitKey h' = hitKey ⟨i, idx, c⟩ := exists_mem_firsts hhit List.not_mem_nil
    have hwhole := (mem_of_mem_firsts hh').1
    -- the first hit of the key is in the same pass, and not behind this one
    have hpass : h'.pass = i := pass_eq_of_protocol (protocol_of_mem_whole hwhole)
      (protocol_of_mem_whole hhit) (congrArg Prod.fst hkey)
    have hnot := not_lt_of_mem_firsts sorted_wholeHits BeforeWhole.asymm hh' hhit hkey.symm
    unfold BeforeWhole at hnot
    obtain ⟨q, hq, -, hocc', hparse'⟩ := parse_of_mem_whole hwhole
    have hpos : h'.pos = idx := by
      have hge : ¬ h'.pos < idx := fun hlt => honly q hq h'.pos hlt hocc'
      dsimp only at hnot
      omega
    rw [hpos, hparse, Option.some_inj] at hparse'
    exact ⟨h', hh', hpos, hparse'.symm⟩

theorem exists_entry_iff (hlen : d.length ≤ chunkSize) :
    (∃ e ∈ run chunkSize d, e.virtualAddress = idx ∧ e.conn = c) ↔
      ∃ h ∈ firsts hitKey [] (wholeHits passes d), h.pos = idx ∧ h.value = c := by
  have hcap : d.length ≤ maxHops * chunkSize := hlen.trans (by decide)
  have hrun := run_eq hcap
  rw [hits_eq_wholeHits hlen] at hrun
  have hwithout : (∃ e ∈ run chunkSize d, e.virtualAddress = idx ∧ e.conn = c) ↔
      ∃ e ∈ (run chunkSize d).map ConnEntry.withoutId, e.virtualAddress = idx ∧ e.conn = c := by
    simp only [List.mem_map, exists_exists_and_eq_and]
    rfl
  rw [hwithout, hrun]
  unfold findings
  simp only [List.mem_map, exists_exists_and_eq_and]
  rfl

/-- **The entry of the first occurrence**, of an image of one chunk. -/
theorem entry_iff (hlen : d.length ≤ chunkSize) (hocc : ∃ p ∈ passes, OccursAt p.pattern d idx)
    (honly : ∀ p ∈ passes, ∀ j < idx, ¬ OccursAt p.pattern d j) :
    (∃ e ∈ run chunkSize d, e.virtualAddress = idx ∧ e.conn = c) ↔
      parseConn (chunkAt 128 d idx) = some c :=
  (exists_entry_iff hlen).trans (exists_first_iff hocc honly)

theorem SameRecord.occurs' (h : SameRecord d d' idx k) :
    ∃ p ∈ passes, OccursAt p.pattern d' idx := by
  obtain ⟨p, hp, hocc⟩ := h.occurs
  obtain ⟨b, hb, hends⟩ := h.terminator
  have hle := pattern_le hp hocc hb hends
  refine ⟨p, hp, ?_⟩
  unfold OccursAt at hocc ⊢
  exact (h.chunkAt_eq hle).symm.trans hocc

/-- **The record gives the same entry in both images** exactly if what follows it is not read, or read
alike. -/
theorem sameEntry_iff (h : SameRecord d d' idx k) :
    SameEntry d d' idx ↔ ReadsOwnBytes d d' idx k := by
  have hentry : ∀ c, (∃ e ∈ run chunkSize d, e.virtualAddress = idx ∧ e.conn = c) ↔
      parseConn (chunkAt 128 d idx) = some c := fun c => entry_iff h.single h.occurs h.only
  have hentry' : ∀ c, (∃ e ∈ run chunkSize d', e.virtualAddress = idx ∧ e.conn = c) ↔
      parseConn (chunkAt 128 d' idx) = some c := fun c => entry_iff h.single' h.occurs' h.only'
  rw [← parseConn_eq_iff h]
  constructor
  · intro hsame
    refine Option.ext fun c => ?_
    rw [← hentry, ← hentry']
    constructor
    · rintro ⟨e, he, haddr, rfl⟩
      obtain ⟨e', he', haddr'⟩ := hsame.both.mp ⟨e, he, haddr⟩
      exact ⟨e', he', haddr', (hsame.same e he e' he' haddr haddr').symm⟩
    · rintro ⟨e', he', haddr', rfl⟩
      obtain ⟨e, he, haddr⟩ := hsame.both.mpr ⟨e', he', haddr'⟩
      exact ⟨e, he, haddr, hsame.same e he e' he' haddr haddr'⟩
  · intro hparse
    refine ⟨⟨?_, ?_⟩, fun e he e' he' haddr haddr' => ?_⟩
    · rintro ⟨e, he, haddr⟩
      have := (hentry _).mp ⟨e, he, haddr, rfl⟩
      rw [hparse] at this
      obtain ⟨e', he', haddr', -⟩ := (hentry' _).mpr this
      exact ⟨e', he', haddr'⟩
    · rintro ⟨e', he', haddr'⟩
      have := (hentry' _).mp ⟨e', he', haddr', rfl⟩
      rw [← hparse] at this
      obtain ⟨e, he, haddr, -⟩ := (hentry _).mpr this
      exact ⟨e, he, haddr⟩
    · have hread := (hentry _).mp ⟨e, he, haddr, rfl⟩
      have hread' := (hentry' _).mp ⟨e', he', haddr', rfl⟩
      rw [hparse, hread', Option.some_inj] at hread
      exact hread.symm

/-! ### Two neighbours of a record -/

/-- A record at the start of two images. -/
theorem sameRecord_append {record rest rest' : List UInt8} (hends : Ends b)
    (hrecord : ∀ x ∈ record, ¬ Ends x) (hlt : record.length < 128)
    (hocc : ∃ p ∈ passes, OccursAt p.pattern (record ++ b :: rest) 0)
    (hlen : (record ++ b :: rest).length ≤ chunkSize)
    (hlen' : (record ++ b :: rest').length ≤ chunkSize) :
    SameRecord (record ++ b :: rest) (record ++ b :: rest') 0 record.length where
  single := hlen
  single' := hlen'
  occurs := hocc
  lt := hlt
  terminator := ⟨b, by simp, hends⟩
  first := fun j hj x hget => by
    rw [Nat.zero_add, List.getElem?_append_left hj] at hget
    exact hrecord x (List.mem_of_getElem? hget)
  agree := fun j hj => by
    rw [Nat.zero_add]
    rcases Nat.eq_or_lt_of_le hj with rfl | hj
    · simp
    · rw [List.getElem?_append_left hj, List.getElem?_append_left hj]
  only := fun _ _ _ hj => absurd hj (Nat.not_lt_zero _)
  only' := fun _ _ _ hj => absurd hj (Nat.not_lt_zero _)

/-- A record without flags. -/
def plainRecord : List UInt8 := ascii "   TCP 1.2.3.4:80 5.6.7.8:90, idle 0:00:01"

/-- A record with flags. -/
def flagged : List UInt8 := ascii "   TCP 5.6.7.8:90 1.2.3.4:80, flags UIO\x00"

theorem sameRecord_plainRecord :
    SameRecord (plainRecord ++ 0 :: flagged) (plainRecord ++ 0 :: []) 0 plainRecord.length :=
  sameRecord_append (Or.inl rfl) (by decide +kernel) (by decide)
    ⟨_, List.mem_cons_self, by decide +kernel⟩ (by decide) (by decide)

theorem sameEntry_iff_plainRecord :
    SameEntry (plainRecord ++ 0 :: flagged) (plainRecord ++ 0 :: []) 0 ↔
      ReadsOwnBytes (plainRecord ++ 0 :: flagged) (plainRecord ++ 0 :: []) 0 plainRecord.length :=
  sameEntry_iff sameRecord_plainRecord

/-- **A record takes the flags of its neighbour.** -/
theorem not_sameEntry : ¬ ∀ (d d' : Dump) (idx k : ℕ), SameRecord d d' idx k →
    SameEntry d d' idx := by
  intro hall
  have hsame := hall _ _ _ _ sameRecord_plainRecord
  have htaken : ∃ e ∈ run chunkSize (plainRecord ++ 0 :: flagged),
      e.virtualAddress = 0 ∧ e.conn.flags ≠ [] := by decide +kernel
  have hnone : ∀ e ∈ run chunkSize (plainRecord ++ 0 :: []), e.conn.flags = [] := by
    decide +kernel
  obtain ⟨e, he, haddr, hflags⟩ := htaken
  obtain ⟨e', he', haddr'⟩ := hsame.both.mp ⟨e, he, haddr⟩
  exact hflags (by rw [hsame.same e he e' he' haddr haddr', hnone e' he'])

end VantaCore.Extractors.Cisco.Asa.ConnRecord
