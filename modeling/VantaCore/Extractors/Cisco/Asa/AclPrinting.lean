import VantaCore.Extractors.Cisco.Asa.AclRules
import VantaCore.Extractors.Cisco.TwoDumps
import VantaCore.Lib.PyFields

/-! # Printed access lists

A rule is printed as its fields with single spaces between them. The parser reads the fields behind
the protocol as source and destination without knowing where one ends: behind `any` and `host A` it
splits them right, and otherwise in the middle (`splitEndpoints_eq`). A printed rule is reported exactly
if it is read before the hop cap and splits right, or another line of the image gives it
(`reported_iff`). -/

namespace VantaCore.Extractors.Cisco.Asa.AclPrinting

open VantaCore.Core.DumpHandle VantaCore.Lib.Chunks VantaCore.Lib.Search VantaCore.Lib.PyText
open VantaCore.Lib.PyFields VantaCore.Extractors.Cisco.TextScan VantaCore.Extractors.Cisco.Text
open VantaCore.Extractors.Cisco.TwoDumps (chunkOf getElem?_window)
open VantaCore.Extractors.Cisco.Asa.AclRules

/-! ### Rules -/

/-- The byte is part of a token: neither NUL nor whitespace. -/
def TokenByte (b : UInt8) : Prop := b ≠ 0 ∧ isWhitespace (Fin.ofNat 0x110000 b.toNat) = false

instance (b : UInt8) : Decidable (TokenByte b) := inferInstanceAs (Decidable (_ ∧ _))

/-- A field of a printed rule. -/
structure Token where
  bytes : List UInt8
  ne_nil : bytes ≠ []
  solid : ∀ b ∈ bytes, TokenByte b

/-- What is read of a token. -/
def Token.text (t : Token) : PyStr := ofBytes t.bytes

/-- What a rule does. -/
inductive Action
  | permit
  | deny

/-- `any`, `host A` or `NET MASK` -/
inductive Endpoint
  | any
  | host (address : Token)
  | net (network mask : Token)

/-- `access-list NAME extended ACTION PROTO SRC DST [TAIL]` -/
structure PrintedRule where
  name : Token
  action : Action
  protocol : Token
  source : Endpoint
  destination : Endpoint
  tail : List Token

/-- The token of these characters. -/
def word (s : String) (h : ascii s ≠ [] ∧ ∀ b ∈ ascii s, TokenByte b) : Token := ⟨ascii s, h.1, h.2⟩

def accessListWord : Token := word "access-list" (by decide +kernel)
def extendedWord : Token := word "extended" (by decide +kernel)
def permitWord : Token := word "permit" (by decide +kernel)
def denyWord : Token := word "deny" (by decide +kernel)
def anyWord : Token := word "any" (by decide +kernel)
def hostWord : Token := word "host" (by decide +kernel)

def Action.word : Action → Token
  | .permit => permitWord
  | .deny => denyWord

def Endpoint.fields : Endpoint → List Token
  | .any => [anyWord]
  | .host address => [hostWord, address]
  | .net network mask => [network, mask]

variable (r : PrintedRule)

/-- The fields behind the source. -/
def PrintedRule.rest : List Token := r.destination.fields ++ r.tail

def PrintedRule.fields : List Token :=
  accessListWord :: r.name :: extendedWord :: r.action.word :: r.protocol ::
    (r.source.fields ++ r.rest)

/-- The fields with single spaces between them. -/
def PrintedRule.printed : List UInt8 := [32].intercalate (r.fields.map Token.bytes)

/-- The texts of fields. -/
def texts (l : List Token) : List PyStr := l.map Token.text

/-- The rule that is meant. -/
def PrintedRule.rule : Rule where
  aclName := r.name.text
  action := r.action.word.text
  protocol := r.protocol.text
  source := join " " (texts r.source.fields)
  destination := join " " (texts r.rest)

/-- The rule is printed at the position, with a NUL behind it, within a window and a chunk. -/
structure Placed (dump : Dump) (pos : ℕ) : Prop where
  occurs : OccursAt (r.printed ++ [0]) dump pos
  length_le : r.printed.length ≤ 256
  inside : pos % chunkSize + r.printed.length ≤ chunkSize

/-- The rule is reported. -/
def Reported (dump : Dump) : Prop := ∃ e ∈ run chunkSize dump, e.rule = r.rule

instance (dump : Dump) : Decidable (Reported r dump) := inferInstanceAs (Decidable (∃ e ∈ _, _))

/-! ### The split -/

/-- How many of the fields behind the protocol are read as the source. -/
def sourceLength (rest : List PyStr) : ℕ :=
  if rest.length = 2 then 1
  else if rest.head? = some (ofString "any") then 1
  else if rest.head? = some (ofString "host") then 2
  else rest.length / 2

/-- **Source and destination are the fields before and behind a split.** -/
theorem splitEndpoints_eq : ∀ {rest : List PyStr}, 2 ≤ rest.length →
    splitEndpoints rest =
      (join " " (rest.take (sourceLength rest)), join " " (rest.drop (sourceLength rest)))
  | [a, b], _ => by simp [splitEndpoints, sourceLength, join]
  | a :: b :: c :: rest, _ => by
    have hlen : ¬ (a :: b :: c :: rest).length = 2 := by simp
    unfold splitEndpoints sourceLength
    rw [if_neg hlen]
    simp only [List.head?_cons, Option.some_inj]
    by_cases hany : a = ofString "any"
    · rw [if_pos hany, if_pos hany]
      simp [join, hany]
    rw [if_neg hany, if_neg hany]
    by_cases hhost : a = ofString "host"
    · have hsep : ofString "host " = ofString "host" ++ ofString " " := by decide
      rw [if_pos hhost, if_pos hhost, hsep]
      simp [join, hhost]
    · rw [if_neg hhost, if_neg hhost]

theorem isField_text (t : Token) : IsField t.text := by
  refine ⟨fun h => t.ne_nil (List.map_eq_nil_iff.mp h), fun c hc => ?_⟩
  obtain ⟨b, hb, rfl⟩ := List.mem_map.mp hc
  exact (t.solid b hb).2

theorem isField_of_mem_texts {l : List Token} : ∀ f ∈ texts l, IsField f := by
  intro f hf
  obtain ⟨t, -, rfl⟩ := List.mem_map.mp hf
  exact isField_text t

/-- **The fields are split right** exactly if the split is where the source ends. -/
theorem splitEndpoints_eq_iff {src rest : List PyStr} {all : List PyStr}
    (hall : ∀ f ∈ all, IsField f) (hsrc : ∀ f ∈ src, IsField f) (hrest : ∀ f ∈ rest, IsField f)
    (hlen : 2 ≤ all.length) :
    splitEndpoints all = (join " " src, join " " rest) ↔
      all.take (sourceLength all) = src ∧ all.drop (sourceLength all) = rest := by
  rw [splitEndpoints_eq hlen, Prod.mk.injEq]
  constructor
  · rintro ⟨hleft, hright⟩
    exact ⟨join_injective (fun f hf => hall f (List.mem_of_mem_take hf)) hsrc hleft,
      join_injective (fun f hf => hall f (List.mem_of_mem_drop hf)) hrest hright⟩
  · rintro ⟨hleft, hright⟩
    rw [hleft, hright]
    exact ⟨rfl, rfl⟩

theorem take_drop_append_iff {src rest : List PyStr} {k : ℕ} (hrest : rest ≠ []) :
    (src ++ rest).take k = src ∧ (src ++ rest).drop k = rest ↔ k = src.length := by
  constructor
  · rintro ⟨-, hdrop⟩
    have hlen := congrArg List.length hdrop
    rw [List.length_drop, List.length_append] at hlen
    have := List.length_pos_of_ne_nil hrest
    omega
  · rintro rfl
    exact ⟨List.take_left, List.drop_left⟩

/-! ### What the parser reads -/

/-- The source is not `NET MASK`, or the middle of the fields lies behind the mask. -/
def PrintedRule.SourceEnds : Prop :=
  match r.source with
  | .any => True
  | .host _ => True
  | .net network _ => network.text ≠ ofString "any" ∧
      (network.text = ofString "host" ∨ r.rest.length = 2 ∨ r.rest.length = 3)

/-- The parser tells the fields of the rule apart: the name is not read as the action, and the split
is where the source ends. -/
def PrintedRule.SplitsRight : Prop := isAction r.name.text = false ∧ r.SourceEnds

variable {r}

theorem texts_append (l l' : List Token) : texts (l ++ l') = texts l ++ texts l' := List.map_append

theorem length_texts (l : List Token) : (texts l).length = l.length := List.length_map _

theorem one_le_length_rest : 1 ≤ r.rest.length := by
  unfold PrintedRule.rest
  rw [List.length_append]
  cases r.destination <;> simp only [Endpoint.fields, List.length_cons] <;> omega

/-- **The source is read right** exactly if it is not `NET MASK`, or the fields behind are two or three. -/
theorem sourceLength_eq_iff : sourceLength (texts (r.source.fields ++ r.rest)) =
    (texts r.source.fields).length ↔ r.SourceEnds := by
  have hrest := @one_le_length_rest r
  have hany : anyWord.text = ofString "any" := by decide
  have hhost : hostWord.text = ofString "host" := by decide
  have hne : ofString "host" ≠ ofString "any" := by decide
  unfold sourceLength PrintedRule.SourceEnds
  rw [length_texts, length_texts, List.length_append]
  rcases r.source with _ | address | ⟨network, mask⟩
  · simp [Endpoint.fields, texts, hany]
  · have hsome : r.rest ≠ [] := List.ne_nil_of_length_pos hrest
    simp [Endpoint.fields, texts, hhost, hne, hsome]
  · have hlen : ¬ 1 + 1 + r.rest.length = 2 := by omega
    simp only [Endpoint.fields, texts, List.length_cons, List.length_nil, Nat.zero_add, if_neg hlen,
      List.cons_append, List.map_cons, List.head?_cons, Option.some_inj]
    by_cases hn : network.text = ofString "any"
    · rw [if_pos hn]
      exact iff_of_false (by decide) fun h => h.1 hn
    rw [if_neg hn]
    by_cases hh : network.text = ofString "host"
    · rw [if_pos hh]
      exact iff_of_true rfl ⟨hn, Or.inl hh⟩
    · rw [if_neg hh, and_iff_right hn, or_iff_right hh]
      omega

/-- A rule with these endpoints. -/
def ruleOf (aclName action protocol : PyStr) (endpoints : PyStr × PyStr) : Rule :=
  ⟨aclName, action, protocol, endpoints.1, endpoints.2⟩

theorem lower_action (a : Action) : lower a.word.text = a.word.text := by
  cases a <;> decide

theorem isAction_word (a : Action) : isAction a.word.text = true := by
  cases a <;> decide

/-- The action is found behind `extended`. -/
theorem parseRule_fields (hname : isAction r.name.text = false) : parseRule (texts r.fields) =
    some (ruleOf r.name.text r.action.word.text r.protocol.text
      (splitEndpoints (texts (r.source.fields ++ r.rest)))) := by
  have hlist : isAction (ofString "access-list") = false := by decide
  have hext : isAction extendedWord.text = false := by decide
  have hfirst : accessListWord.text = ofString "access-list" := by decide
  unfold parseRule PrintedRule.fields texts
  simp [List.findIdx?_cons, hlist, hname, hext, isAction_word, lower_action, hfirst, ruleOf]

/-- A name that is read as the action hides it. -/
theorem parseRule_fields_of_isAction (hname : isAction r.name.text = true) :
    parseRule (texts r.fields) = some (ruleOf r.name.text (lower r.name.text) extendedWord.text
      (splitEndpoints (texts (r.action.word :: r.protocol :: (r.source.fields ++ r.rest))))) := by
  have hlist : isAction (ofString "access-list") = false := by decide
  have hfirst : accessListWord.text = ofString "access-list" := by decide
  unfold parseRule PrintedRule.fields texts
  simp [List.findIdx?_cons, hlist, hname, hfirst, ruleOf]

/-- **The fields are read as the rule that is meant** exactly if they are told apart. -/
theorem parseRule_eq_iff : parseRule (texts r.fields) = some r.rule ↔ r.SplitsRight := by
  have hrest := @one_le_length_rest r
  have hsrc : 1 ≤ r.source.fields.length := by
    cases r.source <;> simp [Endpoint.fields]
  unfold PrintedRule.SplitsRight
  cases hname : isAction r.name.text with
  | false =>
    have hlen : 2 ≤ (texts (r.source.fields ++ r.rest)).length := by
      rw [length_texts, List.length_append]
      omega
    have hne : texts r.rest ≠ [] := List.ne_nil_of_length_pos (by rw [length_texts]; omega)
    rw [parseRule_fields hname, Option.some_inj, and_iff_right rfl, ← sourceLength_eq_iff,
      ← take_drop_append_iff hne, ← texts_append,
      ← splitEndpoints_eq_iff isField_of_mem_texts isField_of_mem_texts isField_of_mem_texts hlen]
    unfold ruleOf PrintedRule.rule
    simp [Prod.ext_iff]
  | true =>
    refine iff_of_false (fun heq => ?_) fun h => Bool.noConfusion h.1
    rw [parseRule_fields_of_isAction hname, Option.some_inj] at heq
    have hpair : splitEndpoints (texts (r.action.word :: r.protocol :: (r.source.fields ++ r.rest))) =
        (join " " (texts r.source.fields), join " " (texts r.rest)) :=
      Prod.ext (congrArg Rule.source heq) (congrArg Rule.destination heq)
    have hlen : 2 ≤ (texts (r.action.word :: r.protocol :: (r.source.fields ++ r.rest))).length := by
      rw [length_texts, List.length_cons, List.length_cons]
      omega
    obtain ⟨htake, hdrop⟩ := (splitEndpoints_eq_iff isField_of_mem_texts isField_of_mem_texts
      isField_of_mem_texts hlen).mp hpair
    -- two fields too many
    have htotal := congrArg List.length (List.take_append_drop (sourceLength (texts
      (r.action.word :: r.protocol :: (r.source.fields ++ r.rest)))) (texts
      (r.action.word :: r.protocol :: (r.source.fields ++ r.rest))))
    rw [htake, hdrop, List.length_append] at htotal
    simp only [length_texts, List.length_cons, List.length_append] at htotal
    omega

/-! ### Where a rule is read -/

variable {dump : Dump} {pos : ℕ}

theorem ofBytes_printed : ofBytes r.printed = join " " (texts r.fields) := by
  unfold PrintedRule.printed
  rw [ofBytes_intercalate, List.map_map]
  rfl

/-- A rule is one line of text. -/
theorem not_mem_join (l : List Token) :
    char '\x00' ∉ join " " (texts l) ∧ char '\n' ∉ join " " (texts l) := by
  have hspace : char '\x00' ∉ ofString " " ∧ char '\n' ∉ ofString " " := by decide
  refine ⟨fun h => ?_, fun h => ?_⟩
  · obtain ⟨f, hf, hmem⟩ := (mem_join h).resolve_left hspace.1
    obtain ⟨t, -, rfl⟩ := List.mem_map.mp hf
    have hzero : (0 : UInt8) ∈ t.bytes := mem_ofBytes_iff.mp hmem
    exact (t.solid 0 hzero).1 rfl
  · obtain ⟨f, hf, hmem⟩ := (mem_join h).resolve_left hspace.2
    have hsolid : isWhitespace (char '\n') = false := (isField_of_mem_texts f hf).2 _ hmem
    exact absurd hsolid (by decide)

/-- **The fields are read back** where the text ends, or goes on with a NUL. -/
theorem split_lineOf {rest : List UInt8} (hrest : ∀ b ∈ rest.head?, b = 0) :
    split (lineOf (r.printed ++ rest)) = texts r.fields := by
  obtain ⟨hnul, hline⟩ := not_mem_join r.fields
  have hends : before '\x00' (ofBytes rest) = [] := by
    cases rest with
    | nil => rfl
    | cons b rest =>
      rw [hrest b rfl]
      rfl
  have htext : before '\x00' (ofBytes (r.printed ++ rest)) = join " " (texts r.fields) := by
    have happ : ofBytes (r.printed ++ rest) = ofBytes r.printed ++ ofBytes rest := List.map_append
    rw [happ, ofBytes_printed, before_append hnul, hends, List.append_nil]
  have hwhole : before '\n' (join " " (texts r.fields)) = join " " (texts r.fields) := by
    have := before_append (t := []) hline
    rwa [List.append_nil, show before '\n' [] = [] from rfl, List.append_nil] at this
  unfold lineOf
  rw [split_strip, htext, hwhole, split_join isField_of_mem_texts]

/-- **The window of a placed rule** is its text, behind which it ends, or goes on with a NUL. -/
theorem exists_window (h : Placed r dump pos) (hcap : pos / chunkSize < maxHops) :
    ∃ rest, chunkAt 256 (chunkOf chunkSize dump pos) (pos % chunkSize) = r.printed ++ rest ∧
      ∀ b ∈ rest.head?, b = 0 := by
  have hend : pos + (r.printed ++ [0]).length ≤ dump.length := h.occurs.le (by simp)
  have hscanned : (scanned chunkSize dump).length = min (maxHops * chunkSize) dump.length :=
    List.length_take
  have hchunk : (chunkOf chunkSize dump pos).length =
      min chunkSize ((scanned chunkSize dump).length - pos / chunkSize * chunkSize) := length_chunkAt
  have hwindow : (chunkAt 256 (chunkOf chunkSize dump pos) (pos % chunkSize)).length =
      min 256 ((chunkOf chunkSize dump pos).length - pos % chunkSize) := length_chunkAt
  have hfits : r.printed.length ≤
      (chunkAt 256 (chunkOf chunkSize dump pos) (pos % chunkSize)).length := by
    have hinside := h.inside
    have hle := h.length_le
    simp only [List.length_append, List.length_singleton, chunkSize, maxHops] at *
    omega
  have hbyte : ∀ j ≤ r.printed.length, dump[pos + j]? = (r.printed ++ [0])[j]? := fun j hj =>
    h.occurs.getElem? (by rw [List.length_append, List.length_singleton]; omega)
  generalize hw : chunkAt 256 (chunkOf chunkSize dump pos) (pos % chunkSize) = w at hfits
  have hread : ∀ j < w.length, w[j]? = dump[pos + j]? := fun j hj => by
    rw [← hw] at hj ⊢
    exact getElem?_window hj
  refine ⟨w.drop r.printed.length, ?_, fun b hb => ?_⟩
  · have htake : w.take r.printed.length = r.printed := by
      refine List.ext_getElem? fun j => ?_
      by_cases hj : j < r.printed.length
      · rw [List.getElem?_take_of_lt hj, hread j (by omega), hbyte j hj.le,
          List.getElem?_append_left hj]
      · rw [List.getElem?_eq_none (by rw [List.length_take]; omega),
          List.getElem?_eq_none (not_lt.mp hj)]
    conv_lhs => rw [← List.take_append_drop r.printed.length w, htake]
  · have hnext : w[r.printed.length]? = some b := by rw [← List.head?_drop]; exact hb
    have hlt := (List.getElem?_eq_some_iff.mp hnext).1
    rw [hread _ hlt, hbyte _ le_rfl, List.getElem?_concat_length] at hnext
    exact (Option.some.inj hnext).symm

/-- The search for rules. -/
def aclPass : Pass AclLine := passes.head (by decide)

theorem exists_printed_eq : ∃ rest, r.printed = aclPass.pattern ++ rest := by
  have hpat : aclPass.pattern = accessListWord.bytes ++ [32] := by decide
  refine ⟨[32].intercalate ((r.name :: extendedWord :: r.action.word :: r.protocol ::
    (r.source.fields ++ r.rest)).map Token.bytes), ?_⟩
  rw [hpat]
  unfold PrintedRule.printed PrintedRule.fields
  simp [List.intercalate]

/-- **What the scan reads at a placed rule** are its fields. -/
theorem exists_hitAt (h : Placed r dump pos) (hcap : pos / chunkSize < maxHops) :
    ∃ line, hitAt chunkSize aclPass (scanned chunkSize dump) pos =
      (parseRule (texts r.fields)).map (AclLine.mk line) := by
  obtain ⟨rest, hwindow, hrest⟩ := exists_window h hcap
  obtain ⟨more, hprinted⟩ := @exists_printed_eq r
  have hocc : OccursAt aclPass.pattern (chunkOf chunkSize dump pos) (pos % chunkSize) := by
    have htake := congrArg (List.take aclPass.pattern.length) hwindow
    rw [hprinted, List.append_assoc, List.take_left] at htake
    have hmin : min aclPass.pattern.length 256 = aclPass.pattern.length := by decide
    unfold chunkAt at htake
    rw [List.take_take, hmin] at htake
    exact htake
  have hmem : pos % chunkSize ∈ findAll aclPass.pattern (chunkOf chunkSize dump pos) :=
    (mem_findAll_iff aclPass.pattern_ne_nil (by decide)).mpr hocc
  refine ⟨lineOf (r.printed ++ rest), ?_⟩
  refine Eq.trans (if_pos hmem) ?_
  show parseLine (chunkAt 256 (chunkOf chunkSize dump pos) (pos % chunkSize)) = _
  rw [hwindow]
  unfold parseLine
  dsimp only
  rw [split_lineOf hrest]

/-! ### What is reported -/

/-- Another line of the image, before the hop cap, gives the rule. -/
def ReadElsewhere (r : PrintedRule) (dump : Dump) (pos : ℕ) : Prop :=
  ∃ h ∈ hits chunkSize passes (scanned chunkSize dump), h.pos ≠ pos ∧ h.value.rule = r.rule

theorem reported_iff_exists_hit : Reported r dump ↔
    ∃ h ∈ hits chunkSize passes (scanned chunkSize dump), h.value.rule = r.rule := by
  unfold Reported
  constructor
  · rintro ⟨e, he, hrule⟩
    obtain ⟨h, hh, rfl⟩ := (mem_run_iff_scanned (by decide)).mp he
    exact ⟨h, hh, hrule⟩
  · rintro ⟨h, hh, hrule⟩
    exact ⟨_, (mem_run_iff_scanned (by decide)).mpr ⟨h, hh, rfl⟩, hrule⟩

theorem mem_hits_iff_acl {h : Hit AclLine} : h ∈ hits chunkSize passes (scanned chunkSize dump) ↔
    h.pass = 0 ∧ hitAt chunkSize aclPass (scanned chunkSize dump) h.pos = some h.value := by
  rw [mem_hits_iff (by decide)]
  constructor
  · rintro ⟨p, hp, hread⟩
    have hlt := (List.getElem?_eq_some_iff.mp hp).1
    have hpass : h.pass = 0 := Nat.lt_one_iff.mp hlt
    rw [hpass] at hp
    obtain rfl := Option.some.inj hp
    exact ⟨hpass, hread⟩
  · rintro ⟨hpass, hread⟩
    exact ⟨aclPass, by rw [hpass]; rfl, hread⟩

/-- The place of a rule that is read lies before the hop cap. -/
theorem div_lt_of_mem_hits {h : Hit AclLine}
    (hh : h ∈ hits chunkSize passes (scanned chunkSize dump)) : h.pos / chunkSize < maxHops := by
  have hlt := pos_lt_of_mem_hits hh
  have hle : (scanned chunkSize dump).length ≤ maxHops * chunkSize := List.length_take_le _ _
  exact (Nat.div_lt_iff_lt_mul (by decide)).mpr (hlt.trans_le hle)

/-- **A printed rule is reported** exactly if it lies before the hop cap and its fields are told apart,
or another line gives it. -/
theorem reported_iff (h : Placed r dump pos) : Reported r dump ↔
    pos / chunkSize < maxHops ∧ r.SplitsRight ∨ ReadElsewhere r dump pos := by
  rw [reported_iff_exists_hit]
  constructor
  · rintro ⟨g, hg, hrule⟩
    by_cases hpos : g.pos = pos
    · have hcap := div_lt_of_mem_hits hg
      have hread := (mem_hits_iff_acl.mp hg).2
      rw [hpos] at hcap hread
      obtain ⟨line, hline⟩ := exists_hitAt h hcap
      rw [hline] at hread
      obtain ⟨rule, hparse, hvalue⟩ := Option.map_eq_some_iff.mp hread
      rw [← hvalue] at hrule
      exact Or.inl ⟨hcap, parseRule_eq_iff.mp (hparse.trans (congrArg some hrule))⟩
    · exact Or.inr ⟨g, hg, hpos, hrule⟩
  · rintro (⟨hcap, hright⟩ | ⟨g, hg, -, hrule⟩)
    · obtain ⟨line, hline⟩ := exists_hitAt h hcap
      rw [parseRule_eq_iff.mpr hright, Option.map_some] at hline
      exact ⟨⟨0, pos, ⟨line, r.rule⟩⟩, mem_hits_iff_acl.mpr ⟨rfl, hline⟩, rfl⟩
    · exact ⟨g, hg, hrule⟩

/-- `access-list OUT extended permit ip any any` -/
def anyRule : PrintedRule where
  name := word "OUT" (by decide +kernel)
  action := .permit
  protocol := word "ip" (by decide +kernel)
  source := .any
  destination := .any
  tail := []

theorem reported_iff_anyRule : Reported anyRule (anyRule.printed ++ [0]) ↔
    0 / chunkSize < maxHops ∧ anyRule.SplitsRight ∨
      ReadElsewhere anyRule (anyRule.printed ++ [0]) 0 :=
  reported_iff ⟨by decide +kernel, by decide +kernel, by decide +kernel⟩

/-- `access-list OUT extended permit tcp 10.0.0.0 255.0.0.0 10.1.0.0 255.255.0.0 eq 443` -/
def networkRule : PrintedRule where
  name := word "OUT" (by decide +kernel)
  action := .permit
  protocol := word "tcp" (by decide +kernel)
  source := .net (word "10.0.0.0" (by decide +kernel)) (word "255.0.0.0" (by decide +kernel))
  destination := .net (word "10.1.0.0" (by decide +kernel)) (word "255.255.0.0" (by decide +kernel))
  tail := [word "eq" (by decide +kernel), word "443" (by decide +kernel)]

/-- **The destination's network is read as part of the source.** -/
theorem not_reported : ¬ ∀ (r : PrintedRule) (dump : Dump) (pos : ℕ), Placed r dump pos →
    Reported r dump := by
  intro hall
  have hplaced : Placed networkRule (networkRule.printed ++ [0]) 0 :=
    ⟨by decide +kernel, by decide +kernel, by decide +kernel⟩
  have hmissing : ¬ Reported networkRule (networkRule.printed ++ [0]) := by decide +kernel
  exact hmissing (hall _ _ _ hplaced)

end VantaCore.Extractors.Cisco.Asa.AclPrinting
