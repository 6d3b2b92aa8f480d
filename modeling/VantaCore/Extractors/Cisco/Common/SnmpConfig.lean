import VantaCore.Extractors.Cisco.ChunkEnds
import VantaCore.Extractors.Cisco.Text

/-! # SNMP community strings

`SNMPConfigExtractor.run`. Of the strings in one bucket of 64 bytes the first one is reported, and a
bucket lies in one chunk (`div_of_mem`). -/

namespace VantaCore.Extractors.Cisco.Common.SnmpConfig

open VantaCore.Core.DumpHandle VantaCore.Lib.Chunks VantaCore.Lib.PyText VantaCore.Lib.FirstBy
open VantaCore.Extractors.Cisco.TextScan VantaCore.Extractors.Cisco.ChunkEnds
open VantaCore.Extractors.Cisco.Text

def snmpPrefix : List UInt8 := ascii "snmp-server community "

/-- A community string and how far behind the position it starts. -/
structure Community where
  token : PyStr
  start : ℕ
deriving DecidableEq

/-- The token behind the prefix. -/
def parsePrefixed (snippet : List UInt8) : Option Community :=
  (extractToken snippet snmpPrefix.length).map fun token => ⟨token, snmpPrefix.length⟩

/-- The search for the prefix and the two for a string that stands alone. -/
def passes : List (Pass Community) :=
  [⟨snmpPrefix, snmpPrefix.length + 64, parsePrefixed, by decide, by decide⟩,
    ⟨ascii "public\x00", 7, fun _ => some ⟨"public", 0⟩, by decide, by decide⟩,
    ⟨ascii "private\x00", 8, fun _ => some ⟨"private", 0⟩, by decide, by decide⟩]

/-- What the loop changes. -/
structure SnmpState where
  findings : List Credential
  seenBuckets : List ℕ

/-- A string is recorded unless its bucket was seen. -/
def record (includeSecrets : Bool) (pos : ℕ) (c : Community) (s : SnmpState) : SnmpState :=
  let physOff := pos + c.start
  if physOff / 64 ∈ s.seenBuckets then s
  else
    { findings := s.findings ++ [credential includeSecrets c.token physOff]
      seenBuckets := physOff / 64 :: s.seenBuckets }

/-- `SNMPConfigExtractor.run` with chunks of `n` bytes. -/
def run (includeSecrets : Bool) (n : ℕ) (dump : Dump) : List Credential :=
  (scanText (record includeSecrets) n passes dump ⟨[], []⟩).findings

/-! ### What is recorded -/

variable {n : ℕ} {dump : Dump} {h : Hit Community} {includeSecrets : Bool}

/-- Where the string of a hit starts. -/
def physOff (h : Hit Community) : ℕ := h.pos + h.value.start

/-- The bucket a hit is recorded under. -/
def bucket (h : Hit Community) : ℕ := physOff h / 64

/-- What is recorded of a hit. -/
def hitCredential (includeSecrets : Bool) (h : Hit Community) : Credential :=
  credential includeSecrets h.value.token (physOff h)

theorem record_new {s : SnmpState} (hseen : bucket h ∉ s.seenBuckets) :
    record includeSecrets h.pos h.value s =
      { findings := s.findings ++ [hitCredential includeSecrets h]
        seenBuckets := bucket h :: s.seenBuckets } := if_neg hseen

theorem findings_foldl (l : List (Hit Community)) :
    (l.foldl (fun s h => record includeSecrets h.pos h.value s) ⟨[], []⟩).findings =
      findings bucket (hitCredential includeSecrets) l :=
  found_foldl_of_nil (fun _ _ hseen => if_pos hseen)
    (fun _ _ hseen => congrArg SnmpState.seenBuckets (record_new hseen))
    (fun _ _ hseen => congrArg SnmpState.findings (record_new hseen)) _ rfl rfl

/-- **The first string of each bucket is reported.** -/
theorem run_eq (hlen : dump.length ≤ maxHops * n) :
    run includeSecrets n dump =
      findings bucket (hitCredential includeSecrets) (hits n passes dump) := by
  unfold run
  rw [scanText_eq_foldl hlen, findings_foldl]

/-- The strings that are reported. -/
def reported (n : ℕ) (dump : Dump) : List (Hit Community) :=
  firsts bucket [] (hits n passes (scanned n dump))

theorem run_eq_reported (hn : 0 < n) :
    run includeSecrets n dump = (reported n dump).map (hitCredential includeSecrets) := by
  unfold run
  rw [scanText_eq_foldl_scanned hn, findings_foldl]
  rfl

/-! ### Chunks -/

/-- **A string starts in the chunk of its hit.** -/
theorem div_of_mem (hh : h ∈ hits n passes dump) : physOff h / n = h.pos / n := by
  have hn := pos_of_mem_hits hh
  obtain ⟨p, hp, -, hparse⟩ := parse_of_mem_hits hh
  have hlt : h.pos % n + h.value.start < n := by
    have hmod := Nat.mod_lt h.pos hn
    have hmem : p ∈ passes := List.mem_of_getElem? hp
    simp only [passes, List.mem_cons, List.not_mem_nil, or_false] at hmem
    rcases hmem with rfl | rfl | rfl
    · obtain ⟨token, htoken, hvalue⟩ := Option.map_eq_some_iff.mp hparse
      have hwindow := length_of_extractToken htoken
      rw [length_chunkAt, length_chunkAt] at hwindow
      rw [← hvalue]
      show h.pos % n + snmpPrefix.length < n
      omega
    · rw [← Option.some_inj.mp hparse]
      exact hmod
    · rw [← Option.some_inj.mp hparse]
      exact hmod
  have hdiv := (div_mul_of_add (Nat.dvd_mul_left n (h.pos / n)) hlt).1
  rw [← Nat.add_assoc, Nat.div_add_mod'] at hdiv
  exact Nat.eq_of_mul_eq_mul_right hn hdiv

/-- A bucket lies in one chunk. -/
theorem chunk_of_bucket {a b : Hit Community} (hdvd : 64 ∣ n) (ha : a ∈ hits n passes dump)
    (hb : b ∈ hits n passes dump) (h : bucket a = bucket b) : a.pos / n = b.pos / n := by
  obtain ⟨k, rfl⟩ := hdvd
  rw [← div_of_mem ha, ← div_of_mem hb, ← Nat.div_div_eq_div_mul, ← Nat.div_div_eq_div_mul]
  exact congrArg (· / k) h

/-- The hits report one string at one offset. -/
def SameString (h h' : Hit Community) : Prop :=
  h.value.token = h'.value.token ∧ physOff h = physOff h'

/-- The exposed hits that are the first of their bucket in one scan are hits of the other, or the other
reports the string by another hit. -/
structure SameStrings (n : ℕ) (dump : Dump) : Prop where
  chunked : ∀ h ∈ firsts bucket [] (hits n passes dump), ExposedHit n passes dump h →
    h ∈ wholeHits passes dump ∨ ∃ h' ∈ firsts bucket [] (wholeHits passes dump), SameString h' h
  whole : ∀ h ∈ firsts bucket [] (wholeHits passes dump), ExposedHit n passes dump h →
    h ∈ hits n passes dump ∨ ∃ h' ∈ firsts bucket [] (hits n passes dump), SameString h' h

theorem hitCredential_eq_iff {h h' : Hit Community} :
    hitCredential true h = hitCredential true h' ↔ SameString h h' := by
  unfold hitCredential credential SameString
  simp

/-- **The chunks change nothing** exactly if the exposed strings that are the first of their bucket are
read alike, or reported all the same. -/
theorem sameStrings_iff {m : ℕ} (hn : 0 < n) (hdvd : 64 ∣ n) (hlen : dump.length ≤ maxHops * n)
    (hm : dump.length ≤ m) :
    (∀ f, f ∈ run true n dump ↔ f ∈ run true m dump) ↔ SameStrings n dump := by
  have hlen' : dump.length ≤ maxHops * m := hm.trans (Nat.le_mul_of_pos_left m (by decide))
  have horder : InOrder bucket n passes dump := inOrder_of_order fun a ha b hb hkey =>
    order_of_chunk ha hb (chunk_of_bucket hdvd ha hb hkey)
  have hval : ∀ a b : Hit Community, hitCredential true a = hitCredential true b →
      bucket a = bucket b := fun a b h => congrArg (· / 64) (hitCredential_eq_iff.mp h).2
  rw [run_eq hlen, run_eq hlen', hits_eq_wholeHits hm, sameFindings_iff_of_inOrder hn hval horder]
  simp only [findings, List.mem_map, hitCredential_eq_iff]
  exact ⟨fun h => ⟨h.1, h.2⟩, fun h => ⟨h.chunked, h.whole⟩⟩

end VantaCore.Extractors.Cisco.Common.SnmpConfig
