import VantaCore.Extractors.Cisco.ChunkEnds
import VantaCore.Extractors.Cisco.Text

/-! # The access lists

`ASAACLRulesExtractor.run`. The loop skips a line it has seen, and a line gives one rule, so every rule
that is read is reported (`mem_run_iff`). -/

namespace VantaCore.Extractors.Cisco.Asa.AclRules

open VantaCore.Core.DumpHandle VantaCore.Lib.Chunks VantaCore.Lib.PyText VantaCore.Lib.FirstBy
open VantaCore.Extractors.Cisco.TextScan VantaCore.Extractors.Cisco.ChunkEnds
open VantaCore.Extractors.Cisco.Text

/-! ### Rules -/

/-- What is read of a line. -/
structure Rule where
  aclName : PyStr
  action : PyStr
  protocol : PyStr
  source : PyStr
  destination : PyStr
deriving DecidableEq

/-- The fields behind the protocol as source and destination. -/
def splitEndpoints (rest : List PyStr) : PyStr × PyStr :=
  match rest with
  | [] => ("any", "any")
  | [source] => (source, "any")
  | [source, destination] => (source, destination)
  | first :: second :: others =>
    if first = ofString "any" then ("any", join " " (second :: others))
    else if first = ofString "host" then (ofString "host " ++ second, join " " others)
    else
      let half := rest.length / 2
      (join " " (rest.take half), join " " (rest.drop half))

/-- The field says what the rule does. -/
def isAction (tok : PyStr) : Bool := lower tok = ofString "permit" || lower tok = ofString "deny"

/-- The fields of a line as a rule. -/
def parseRule (tokens : List PyStr) : Option Rule :=
  match tokens with
  | first :: second :: _ :: _ :: _ =>
    match tokens.findIdx? isAction with
    | none => none
    | some actIdx =>
      let (source, destination) := splitEndpoints (tokens.drop (actIdx + 2))
      some
        { aclName := if first = ofString "access-list" then second else first
          action := lower (tokens.getD actIdx [])
          protocol := tokens.getD (actIdx + 1) "ip"
          source := source
          destination := destination }
  | _ => none

/-! ### The loop -/

/-- A line and its rule. -/
structure AclLine where
  line : PyStr
  rule : Rule
deriving DecidableEq

def parseLine (snippet : List UInt8) : Option AclLine :=
  let line := lineOf snippet
  (parseRule (split line)).map (AclLine.mk line)

def passes : List (Pass AclLine) :=
  [⟨ascii "access-list ", 256, parseLine, by decide, by decide⟩]

/-- An entry of `acl_rules`. -/
structure AclEntry where
  rule : Rule
  extractionMethod : PyStr
  firmwareVersion : PyStr
  structLayoutVersion : PyStr
deriving DecidableEq

def entry (fwVersion : PyStr) (r : Rule) : AclEntry := ⟨r, "text_pattern", fwVersion, "N/A"⟩

/-- What the loop changes. -/
structure AclState where
  aclRules : List AclEntry
  seenRules : List PyStr

/-- A rule is recorded unless its line was seen; only lines that give a rule are seen. -/
def record (fwVersion : PyStr) (_physOff : ℕ) (l : AclLine) (s : AclState) : AclState :=
  if l.line ∈ s.seenRules then s
  else
    { aclRules := s.aclRules ++ [entry fwVersion l.rule]
      seenRules := l.line :: s.seenRules }

/-- `ASAACLRulesExtractor.run` with chunks of `n` bytes. -/
def run (n : ℕ) (dump : Dump) : List AclEntry :=
  (scanText (record (extractFirmwareVersion (firstChunk dump))) n passes dump ⟨[], []⟩).aclRules

/-! ### What is recorded -/

variable {n : ℕ} {dump : Dump} {h : Hit AclLine}

/-- What is recorded of a hit. -/
def hitEntry (fwVersion : PyStr) (h : Hit AclLine) : AclEntry := entry fwVersion h.value.rule

theorem record_new {fwVersion : PyStr} {s : AclState} (hseen : h.value.line ∉ s.seenRules) :
    record fwVersion h.pos h.value s =
      { aclRules := s.aclRules ++ [hitEntry fwVersion h]
        seenRules := h.value.line :: s.seenRules } := if_neg hseen

/-- A line gives one rule. -/
theorem rule_of_mem (hh : h ∈ hits n passes dump) :
    parseRule (split h.value.line) = some h.value.rule := by
  obtain ⟨p, rest, hp, -, hparse⟩ := exists_parse_of_mem_hits hh
  have hmem : p ∈ passes := List.mem_of_getElem? hp
  rw [passes, List.mem_singleton] at hmem
  rw [hmem] at hparse
  obtain ⟨rule, hrule, hline⟩ := Option.map_eq_some_iff.mp hparse
  rw [← hline]
  exact hrule

theorem aclRules_foldl (fwVersion : PyStr) (l : List (Hit AclLine)) :
    (l.foldl (fun s h => record fwVersion h.pos h.value s) ⟨[], []⟩).aclRules =
      (firsts (fun h : Hit AclLine => h.value.line) [] l).map (hitEntry fwVersion) :=
  found_foldl_of_nil (fun _ _ hseen => if_pos hseen)
    (fun _ _ hseen => congrArg AclState.seenRules (record_new hseen))
    (fun _ _ hseen => congrArg AclState.aclRules (record_new hseen)) _ rfl rfl

/-- **The rules are those of the first lines.** -/
theorem run_eq (hlen : dump.length ≤ maxHops * n) :
    run n dump = (firsts (fun h => h.value.line) [] (hits n passes dump)).map
      (hitEntry (extractFirmwareVersion (firstChunk dump))) := by
  unfold run
  rw [scanText_eq_foldl hlen, aclRules_foldl]

theorem mem_foldl_iff {fwVersion : PyStr} {l : List (Hit AclLine)} {e : AclEntry}
    (hl : ∀ h ∈ l, parseRule (split h.value.line) = some h.value.rule) :
    e ∈ (l.foldl (fun s h => record fwVersion h.pos h.value s) ⟨[], []⟩).aclRules ↔
      ∃ h ∈ l, hitEntry fwVersion h = e := by
  rw [aclRules_foldl, List.mem_map]
  constructor
  · rintro ⟨h, hh, rfl⟩
    exact ⟨h, (mem_of_mem_firsts hh).1, rfl⟩
  · rintro ⟨h, hh, rfl⟩
    obtain ⟨h', hh', hline⟩ : ∃ h' ∈ firsts (fun h : Hit AclLine => h.value.line) [] l,
        h'.value.line = h.value.line := exists_mem_firsts hh List.not_mem_nil
    have hrule := hl h' (mem_of_mem_firsts hh').1
    rw [hline, hl h hh, Option.some_inj] at hrule
    refine ⟨h', hh', ?_⟩
    unfold hitEntry
    rw [hrule]

/-- **Every rule that is read is reported.** -/
theorem mem_run_iff (hlen : dump.length ≤ maxHops * n) {e : AclEntry} :
    e ∈ run n dump ↔ ∃ h ∈ hits n passes dump,
      hitEntry (extractFirmwareVersion (firstChunk dump)) h = e := by
  unfold run
  rw [scanText_eq_foldl hlen]
  exact mem_foldl_iff fun _ hh => rule_of_mem hh

/-- So is every rule that is read before the hop cap. -/
theorem mem_run_iff_scanned (hn : 0 < n) {e : AclEntry} :
    e ∈ run n dump ↔ ∃ h ∈ hits n passes (scanned n dump),
      hitEntry (extractFirmwareVersion (firstChunk dump)) h = e := by
  unfold run
  rw [scanText_eq_foldl_scanned hn]
  exact mem_foldl_iff fun _ hh => rule_of_mem hh

/-! ### Chunks -/

/-- Among the hits is one with the rule. -/
def Gives (r : Rule) (l : List (Hit AclLine)) : Prop := ∃ h ∈ l, h.value.rule = r

/-- The rules of the exposed hits of one scan are given by the other. -/
structure SameRules (n : ℕ) (dump : Dump) : Prop where
  chunked : ∀ h ∈ hits n passes dump, ExposedHit n passes dump h → h ∉ wholeHits passes dump →
    Gives h.value.rule (wholeHits passes dump)
  whole : ∀ h ∈ wholeHits passes dump, ExposedHit n passes dump h → h ∉ hits n passes dump →
    Gives h.value.rule (hits n passes dump)

/-- **The chunks change nothing** exactly if every rule of an exposed line that is read otherwise is also
read elsewhere. -/
theorem sameRules_iff {m : ℕ} (hn : 0 < n) (hlen : dump.length ≤ maxHops * n)
    (hm : dump.length ≤ m) :
    (∀ e, e ∈ run n dump ↔ e ∈ run m dump) ↔ SameRules n dump := by
  have hlen' : dump.length ≤ maxHops * m := hm.trans (Nat.le_mul_of_pos_left m (by decide))
  have hmem : ∀ e, e ∈ run m dump ↔ ∃ h ∈ wholeHits passes dump,
      hitEntry (extractFirmwareVersion (firstChunk dump)) h = e := fun e => by
    rw [mem_run_iff hlen', hits_eq_wholeHits hm]
  have hentry : ∀ {h h' : Hit AclLine}, h'.value.rule = h.value.rule ↔
      hitEntry (extractFirmwareVersion (firstChunk dump)) h' =
        hitEntry (extractFirmwareVersion (firstChunk dump)) h := fun {h h'} =>
    ⟨congrArg (entry _), congrArg AclEntry.rule⟩
  simp only [mem_run_iff hlen, hmem]
  constructor
  · intro hsame
    refine ⟨fun h hh _ _ => ?_, fun h hh _ _ => ?_⟩
    · obtain ⟨h', hh', heq⟩ := (hsame _).mp ⟨h, hh, rfl⟩
      exact ⟨h', hh', hentry.mpr heq⟩
    · obtain ⟨h', hh', heq⟩ := (hsame _).mpr ⟨h, hh, rfl⟩
      exact ⟨h', hh', hentry.mpr heq⟩
  · rintro ⟨hchunked, hwhole⟩ e
    constructor
    · rintro ⟨h, hh, rfl⟩
      by_cases hin : h ∈ wholeHits passes dump
      · exact ⟨h, hin, rfl⟩
      have hexp : ExposedHit n passes dump h :=
        by_contra fun hexp => hin (mem_wholeHits_of_not_exposed hh hexp)
      obtain ⟨h', hh', heq⟩ := hchunked h hh hexp hin
      exact ⟨h', hh', hentry.mp heq⟩
    · rintro ⟨h, hh, rfl⟩
      by_cases hin : h ∈ hits n passes dump
      · exact ⟨h, hin, rfl⟩
      have hexp : ExposedHit n passes dump h :=
        by_contra fun hexp => hin (mem_hits_of_not_exposed hn hh hexp)
      obtain ⟨h', hh', heq⟩ := hwhole h hh hexp hin
      exact ⟨h', hh', hentry.mp heq⟩

end VantaCore.Extractors.Cisco.Asa.AclRules
