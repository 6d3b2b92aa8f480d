import VantaCore.Extractors.Cisco.Lines
import VantaCore.Extractors.Cisco.Asa.AclPrinting

/-! # Printed access lists in an image

An image that shows an access list between other lines. If the fields of its rules are told apart, the
rules are read back: each one once, in the order of the list (`run_rules`). -/

namespace VantaCore.Extractors.Cisco.Asa.AclImages

open VantaCore.Core.DumpHandle VantaCore.Lib.Chunks VantaCore.Lib.Search VantaCore.Lib.PyText
open VantaCore.Lib.FirstBy VantaCore.Extractors.Cisco.TextScan VantaCore.Extractors.Cisco.Text
open VantaCore.Extractors.Cisco.Lines VantaCore.Extractors.Cisco.Asa.AclRules
open VantaCore.Extractors.Cisco.Asa.AclPrinting

/-- A printed rule whose fields are told apart, that is whole in a window, and in which the keyword
stands at the start only. -/
structure ReadableRule where
  rule : PrintedRule
  splitsRight : rule.SplitsRight
  length_le : rule.printed.length ≤ 256
  start : ∀ i < rule.printed.length, OccursAt (ascii "access-list ") rule.printed i → i = 0

variable (r : ReadableRule)

def ReadableRule.printed : List UInt8 := r.rule.printed

/-- What is read of the line. -/
def ReadableRule.line : AclLine := ⟨lineOf r.printed, r.rule.rule⟩

variable {r}

theorem split_lineOf_printed : split (lineOf r.printed) = texts r.rule.fields := by
  have h := @AclPrinting.split_lineOf r.rule [] (by simp)
  rwa [List.append_nil] at h

/-- The line tells the rule that was printed. -/
theorem lineOf_printed_inj {r r' : ReadableRule} :
    lineOf r.printed = lineOf r'.printed ↔ r.printed = r'.printed := by
  refine ⟨fun h => ?_, congrArg lineOf⟩
  have htexts := congrArg split h
  rw [split_lineOf_printed, split_lineOf_printed] at htexts
  have hbytes : r.rule.fields.map Token.bytes = r'.rule.fields.map Token.bytes := by
    have hinj : Function.Injective ofBytes := fun bs bs' => ofBytes_inj.mp
    refine List.map_injective_iff.mpr hinj ?_
    rw [List.map_map, List.map_map]
    exact htexts
  exact congrArg [32].intercalate hbytes

/-- **The search for rules reads them back.** -/
theorem readsBack : ReadsBack passes ReadableRule.printed IsStop (fun _ => 0) ReadableRule.line where
  separator p hp b hb := by
    have hpatterns : ∀ p ∈ passes, 0 ∉ p.pattern ∧ 10 ∉ p.pattern := by decide
    rcases hb with rfl | rfl
    exacts [(hpatterns p hp).1, (hpatterns p hp).2]
  found r := by
    obtain ⟨rest, hprinted⟩ := exists_printed_eq (r := r.rule)
    have hparse : aclPass.parse = parseLine := rfl
    refine ⟨aclPass, rfl, ?_, r.length_le, ?_, fun b hb rest => ?_⟩
    · unfold ReadableRule.printed
      rw [hprinted]
      exact List.take_left
    · rw [hparse, parseLine, split_lineOf_printed, parseRule_eq_iff.mpr r.splitsRight]
      rfl
    · rw [hparse, parseLine, parseLine, lineOf_append hb]
  start r k p hp i hocc := by
    rcases k with _ | k <;> cases hp
    have hle := hocc.le (by decide)
    have hpos : 0 < (ascii "access-list ").length := by decide
    exact ⟨rfl, r.start i (Nat.lt_of_lt_of_le (Nat.lt_add_of_pos_right hpos) hle) hocc⟩

/-- **A printed access list is read back**: each of its rules once, in order. -/
theorem run_rules {n : ℕ} {items : List (Item ReadableRule × UInt8)} (hn : 0 < n)
    (hlen : (image ReadableRule.printed items).length ≤ maxHops * n)
    (hf : Fits n passes ReadableRule.printed IsStop items) :
    let dump := image ReadableRule.printed items
    run n dump = (firsts ReadableRule.printed [] ((recordsAt ReadableRule.printed 0 items).map
      Prod.snd)).map fun r => entry (extractFirmwareVersion (firstChunk dump)) r.rule.rule := by
  dsimp only
  rw [run_eq hlen, readsBack.hits_eq hf hn rfl, firsts_map, firsts_map, List.map_map, List.map_map]
  exact congrArg (List.map _) (firsts_congr (fun a b => lineOf_printed_inj) [] _)

/-- `access-list IN extended deny udp host 10.0.0.5 any` -/
def hostRule : PrintedRule where
  name := word "IN" (by decide +kernel)
  action := .deny
  protocol := word "udp" (by decide +kernel)
  source := .host (word "10.0.0.5" (by decide +kernel))
  destination := .any
  tail := []

/-- An access list of two rules, the first of which is shown again behind another line. -/
def sampleItems : List (Item ReadableRule × UInt8) :=
  let first : ReadableRule := ⟨anyRule, ⟨by decide +kernel, trivial⟩, by decide +kernel,
    by decide +kernel⟩
  let second : ReadableRule := ⟨hostRule, ⟨by decide +kernel, trivial⟩, by decide +kernel,
    by decide +kernel⟩
  [(.record first, 10), (.record second, 10), (.other (ascii "!"), 10), (.record first, 0)]

theorem run_rules_sample :
    run chunkSize (image ReadableRule.printed sampleItems) =
      [entry "unknown" ⟨"OUT", "permit", "ip", "any", "any"⟩,
        entry "unknown" ⟨"IN", "deny", "udp", "host 10.0.0.5", "any"⟩] := by
  have hf : Fits chunkSize passes ReadableRule.printed IsStop sampleItems :=
    ⟨by decide, by decide +kernel, by decide +kernel⟩
  rw [run_rules (by decide) (by decide +kernel) hf]
  decide +kernel

end VantaCore.Extractors.Cisco.Asa.AclImages
