import VantaCore.Core.Audit.Trail

/-! # A line of the audit file

What the check sees of a line: the HMAC that was recorded, and in place of the text it was computed
over the text of the payload as it comes back, without its `hmac` (`recheck`, `checkRecord_line`).
The two texts are the same exactly if no field is called `hmac` and the payload comes back as it was
(`recheck_eq_text_iff`). -/

namespace VantaCore.Core.Audit.Line

open VantaCore.Lib VantaCore.Lib.PyText VantaCore.Lib.Json.Strings VantaCore.Lib.Json.Text
open VantaCore.Lib.Json.Values VantaCore.Lib.Json.RoundTrip VantaCore.Lib.Json.Canonical
open VantaCore.Lib.Json.Lines VantaCore.Core.Audit.Trail

variable {F : Type} [FloatText F]

/-- Every value is one `json.dumps` writes. -/
def Writable (p : Dict PyStr (PyVal F)) : Prop := ∀ e ∈ p.entries, (toTree e.2).isSome

instance (p : Dict PyStr (PyVal F)) : Decidable (Writable p) :=
  inferInstanceAs (Decidable (∀ _ ∈ _, _))

/-- The text of a payload. -/
def text (p : Dict PyStr (PyVal F)) : Text := print (toObject (p.mapValues tree))

/-- The line of a payload and its HMAC. -/
def line (p : Dict PyStr (PyVal F)) (mac : Text) : Text := text (p.set "hmac" (.str (ofChars mac)))

/-- The text the check computes the HMAC over. -/
def recheck (p : Dict PyStr (PyVal F)) : Text :=
  print (canon (toObject ((p.erase "hmac").mapValues tree)))

theorem dumps_ofDict_iff {p : Dict PyStr (PyVal F)} {cs : Text} :
    dumps (ofDict p) = some cs ↔ Writable p ∧ cs = text p := by
  rw [dumps, Option.map_eq_some_iff]
  constructor
  · rintro ⟨t, ht, rfl⟩
    obtain ⟨hp, rfl⟩ := toTree_ofDict_iff.mp ht
    exact ⟨hp, rfl⟩
  · rintro ⟨hp, rfl⟩
    exact ⟨_, toTree_ofDict_of_isSome hp, rfl⟩

theorem writable_set {p : Dict PyStr (PyVal F)} (h : Writable p) (k s : PyStr) :
    Writable (p.set k (.str s)) := by
  intro e he
  have hget := Dict.get?_eq_some_iff.mpr he
  rw [Dict.get?_set] at hget
  split_ifs at hget
  · rw [← Option.some.inj hget]; rfl
  · exact h e (Dict.get?_eq_some_iff.mp hget)

theorem dumps_line {p : Dict PyStr (PyVal F)} (h : Writable p) (mac : Text) :
    dumps (ofDict (p.set "hmac" (.str (ofChars mac)))) = some (line p mac) :=
  dumps_ofDict_iff.mpr ⟨writable_set h _ _, rfl⟩

theorem newline_not_mem_line (p : Dict PyStr (PyVal F)) (mac : Text) : '\n' ∉ line p mac :=
  newline_not_mem_print _

theorem text_brace (p : Dict PyStr (PyVal F)) : ∃ l, text p = l ++ ['}'] := print_obj _

theorem recheck_brace (p : Dict PyStr (PyVal F)) : ∃ l, recheck p = l ++ ['}'] := by
  rw [recheck, toObject, canon_obj]
  exact print_obj _

/-! ### What a line shows -/

theorem hmac_low : Low ("hmac" : PyStr) := by decide

section Shown

variable {p q : Dict PyStr (PyVal F)} {mac mac' : Text}

theorem text_erase_eq (h : text p = text q) : text (p.erase "hmac") = text (q.erase "hmac") := by
  rw [text, text, Dict.mapValues_erase, Dict.mapValues_erase,
    toObject_erase_eq (print_injective h) hmac_low]

/-- **Two lines that are the same** are so with every HMAC. -/
theorem line_congr (h : line p mac = line q mac') (mac'' : Text) : line p mac'' = line q mac'' := by
  have htree := print_injective h
  rw [Dict.mapValues_set, Dict.mapValues_set] at htree
  rw [line, line, text, text, Dict.mapValues_set, Dict.mapValues_set,
    toObject_set_eq htree hmac_low]

/-- And without one. -/
theorem text_erase_of_line_eq (h : line p mac = line q mac') :
    text (p.erase "hmac") = text (q.erase "hmac") := by
  have herase := text_erase_eq h
  rwa [Dict.erase_set, Dict.erase_set] at herase

/-- A line does not show a field called `hmac`. -/
theorem line_erase (p : Dict PyStr (PyVal F)) (mac : Text) : line (p.erase "hmac") mac = line p mac := by
  rw [line, line, text, text]
  refine congrArg print (toObject_congr fun k => ?_)
  rw [Dict.get?_mapValues, Dict.get?_mapValues, Dict.get?_set, Dict.get?_set, Dict.get?_erase]
  split_ifs <;> rfl

end Shown

/-! ### What the check sees -/

/-- The record that is read of a line. -/
def readRecord (p : Dict PyStr (PyVal F)) (mac : Text) : Dict PyStr (PyVal F) :=
  (readBack ((p.set "hmac" (.str (ofChars mac))).mapValues tree)).mapValues ofTree

theorem loadsObject_line (p : Dict PyStr (PyVal F)) (mac : Text) :
    loadsObject (line p mac) = some (readRecord p mac) := loadsObject_print _

/-- A field of the record that is read. -/
theorem get?_readRecord (p : Dict PyStr (PyVal F)) (mac : Text) {k : PyStr} (hk : Low k) :
    (readRecord p mac).get? k =
      ((p.set "hmac" (.str (ofChars mac))).get? k).map fun v => ofTree (tree v) := by
  rw [readRecord, Dict.get?_mapValues, get?_readBack _ hk, Dict.get?_mapValues, Option.map_map]
  rfl

theorem get?_hmac_readRecord (p : Dict PyStr (PyVal F)) (mac : Text) :
    (readRecord p mac).get? "hmac" = some (.str (ofChars mac)) := by
  rw [get?_readRecord p mac hmac_low, Dict.get?_set, if_pos rfl, Option.map_some]
  exact congrArg (fun s => some (PyVal.str s)) (normal_of_encodable (encodable_ofChars mac))

theorem dumps_erase_readRecord (p : Dict PyStr (PyVal F)) (mac : Text) :
    dumps (ofDict ((readRecord p mac).erase "hmac")) = some (recheck p) := by
  rw [readRecord, ← Dict.mapValues_erase, erase_readBack _ hmac_low, ← Dict.mapValues_erase,
    Dict.erase_set, dumps, toTree_readBack]
  rfl

/-- **What the check makes of a line.** -/
theorem checkRecord_line (hash : Text → Text) (prev mac : Text) (p : Dict PyStr (PyVal F)) :
    checkRecord hash prev (readRecord p mac) =
      if mac = hash (recheck p ++ prev) then some (recheck p, mac) else none := by
  have hiff : ofChars mac = ofChars (hash (recheck p ++ prev)) ↔ mac = hash (recheck p ++ prev) :=
    ⟨ofChars_injective, congrArg ofChars⟩
  rw [checkRecord, get?_hmac_readRecord, dumps_erase_readRecord]
  simp only [hiff]
  split_ifs with h
  · rw [← h]
  · rfl

/-! ### Payloads that come back -/

/-- **When the two texts are the same.** -/
theorem recheck_eq_text_iff {p : Dict PyStr (PyVal F)} (h : Writable p) :
    recheck p = text p ↔ ("hmac" : PyStr) ∉ p.keys ∧ Stable (ofDict p) := by
  have hstable := stable_iff (toTree_ofDict_of_isSome h)
  have hkey : recheck p = text p → ("hmac" : PyStr) ∉ p.keys := by
    intro heq hmem
    have htree := print_injective heq
    rw [toObject, canon_obj] at htree
    have hmem' := mem_keys_of_toObject_eq htree.symm hmac_low (by rwa [Dict.keys_mapValues])
    rw [Dict.keys_mapValues, Dict.mem_keys_iff] at hmem'
    obtain ⟨x, hx⟩ := hmem'
    have hnone := get?_readBack ((p.erase "hmac").mapValues tree) hmac_low
    rw [Dict.get?_mapValues, Dict.get?_erase, if_pos rfl] at hnone
    exact absurd (hx.symm.trans hnone) (by simp)
  constructor
  · intro heq
    have hnot := hkey heq
    rw [recheck, Dict.erase_of_not_mem hnot] at heq
    exact ⟨hnot, hstable.mpr (canon_eq_iff.mp (print_injective heq))⟩
  · rintro ⟨hnot, hs⟩
    rw [recheck, Dict.erase_of_not_mem hnot, canon_of_increasing _ (hstable.mp hs)]
    rfl

end VantaCore.Core.Audit.Line
