import VantaCore.Core.Audit.Chain

/-! # Forging an audit file

Every payload holds the integrity hash the key is derived from, unless a field of its own is called
`dump_hash`. Whoever has the file can read the hash there, derive the key, change a record and
compute the chain anew (`forge`, `forged_forge`). -/

namespace VantaCore.Core.Audit.Forge

open VantaCore.Lib VantaCore.Lib.MacChain VantaCore.Lib.PyText VantaCore.Lib.Json.Strings
open VantaCore.Lib.Json.Text VantaCore.Lib.Json.Values VantaCore.Lib.Json.Canonical
open VantaCore.Lib.Json.RoundTrip VantaCore.Lib.Json.Lines
open VantaCore.Core.Audit.Trail VantaCore.Core.Audit.Line VantaCore.Core.Audit.Runs
open VantaCore.Core.Audit.Chain

variable {F : Type} [FloatText F]

/-- The text of a field. -/
def fieldJson (r : Dict PyStr (PyVal F)) (k : PyStr) : Option Text := (r.get? k).bind dumps

/-- **A forged file**: it passes the check, has as many records as the log, and a field of a record
other than `dump_hash` is changed. -/
def Forged (F : Type) [FloatText F] (mac : Text → Text) (log forged : Text) : Prop :=
  ∃ records records' : List (Dict PyStr (PyVal F)), loadsLines log = some records ∧
    loadsLines forged = some records' ∧ records'.length = records.length ∧
    (checkFile F mac forged).isSome ∧
    ∃ (i : ℕ) (k : PyStr), k ≠ "dump_hash" ∧ k ≠ "hmac" ∧
      (records[i]?).bind (fieldJson · k) ≠ (records'[i]?).bind (fieldJson · k)

/-! ### The forger -/

/-- Another event. -/
def altered (r : Dict PyStr (PyVal F)) : JsonTree F :=
  if fieldJson r "event" = some (print (.null : JsonTree F)) then .bool true else .null

/-- The payloads of the records, the first with another event. -/
def alter : List (Dict PyStr (PyVal F)) → List (Dict PyStr (PyVal F))
  | [] => []
  | r :: rs => (r.erase "hmac").set "event" (ofTree (altered r)) :: rs.map (·.erase "hmac")

/-- The altered payloads of a log, written under a key. -/
def rechain (F : Type) [FloatText F] (mac : Text → Text) (log : Text) : Text :=
  match loadsLines (F := F) log with
  | none => []
  | some records => unlines (writtenLines (written mac [] (alter records)))

/-- **The forger**: it takes the hash of the dump from a record, and writes the altered payloads
under the key of that hash. -/
def forge (F : Type) [FloatText F] (i : ℕ) (H : Hashes) (log : Text) : Text :=
  match loadsLines (F := F) log with
  | none => []
  | some records =>
    match (records[i]?).bind (·.get? "dump_hash") with
    | some (.str dumpHash) => rechain F (H.hmac (H.sha256 dumpHash)) log
    | _ => []

theorem loaded_readRecord (p : Dict PyStr (PyVal F)) (mac : Text) : Loaded (readRecord p mac) :=
  loaded_of_loadsObject (loadsObject_line p mac)

theorem loaded_alter {records : List (Dict PyStr (PyVal F))} (h : ∀ r ∈ records, Loaded r) :
    ∀ p ∈ alter records, Loaded p := by
  rcases records with _ | ⟨r, rs⟩
  · exact fun _ hp => absurd hp List.not_mem_nil
  · rw [List.forall_mem_cons] at h
    rw [alter, List.forall_mem_cons, List.forall_mem_map]
    exact ⟨(h.1.erase _).set (normal_of_encodable (by decide)) _, fun r hr => (h.2 r hr).erase _⟩

theorem hmac_not_mem_alter (records : List (Dict PyStr (PyVal F))) :
    ∀ p ∈ alter records, ("hmac" : PyStr) ∉ p.keys := by
  have herase : ∀ r : Dict PyStr (PyVal F), (r.erase "hmac").get? "hmac" = none := fun r => by
    rw [Dict.get?_erase, if_pos rfl]
  rcases records with _ | ⟨r, rs⟩
  · exact fun _ hp => absurd hp List.not_mem_nil
  · rw [alter, List.forall_mem_cons, List.forall_mem_map]
    refine ⟨?_, fun r _ => Dict.get?_eq_none_iff.mp (herase r)⟩
    rw [← Dict.get?_eq_none_iff, Dict.get?_set, if_neg (by decide), herase]

theorem length_alter (records : List (Dict PyStr (PyVal F))) :
    (alter records).length = records.length := by
  rcases records with _ | ⟨r, rs⟩
  · rfl
  · rw [alter, List.length_cons, List.length_cons, List.length_map]

/-- What is written of the altered payloads passes. -/
theorem check_alter {mac : Text → Text} {records : List (Dict PyStr (PyVal F))}
    (h : ∀ r ∈ records, Loaded r) :
    (checkFile F mac (unlines (writtenLines (written mac [] (alter records))))).isSome := by
  set es := written mac [] (alter records) with hes
  have hfst : es.map Prod.fst = alter records := fst_written mac [] _
  have hmem : ∀ e ∈ es, e.1 ∈ alter records := fun e he => hfst ▸ List.mem_map_of_mem he
  have hrechecked : rechecked es = recorded es :=
    (rechecked_eq_recorded_iff fun e he => (loaded_alter h _ (hmem e he)).isSome).mpr fun e he =>
      ⟨hmac_not_mem_alter _ _ (hmem e he), (loaded_alter h _ (hmem e he)).stable⟩
  have hlinked := linked_recorded mac [] (alter records)
  rw [← hes, ← hrechecked] at hlinked
  exact Option.isSome_iff_exists.mpr ⟨_, checkFile_unlines.mpr ⟨rfl, hlinked⟩⟩

/-- The first record has another event. -/
theorem fieldJson_altered (r : Dict PyStr (PyVal F)) (mac : Text) :
    fieldJson (readRecord ((r.erase "hmac").set "event" (ofTree (altered r))) mac) "event" ≠
      fieldJson r "event" := by
  have hget := get?_readRecord ((r.erase "hmac").set "event" (ofTree (altered r))) mac
    (k := "event") (by decide)
  rw [Dict.get?_set, if_neg (by decide), Dict.get?_set, if_pos rfl, Option.map_some] at hget
  rw [fieldJson, hget, altered]
  split_ifs with h
  · rw [h]
    simp [ofTree, tree, toTree, dumps, print, printBool]
  · exact fun heq => h heq.symm

/-- **What is written under the key is forged**: any file with a line. -/
theorem forged_rechain (mac : Text → Text) {es : List (Dict PyStr (PyVal F) × Text)} (hne : es ≠ []) :
    Forged F mac (unlines (writtenLines es)) (rechain F mac (unlines (writtenLines es))) := by
  set records := es.map fun e => readRecord e.1 e.2 with hrecords
  have hloads : loadsLines (unlines (writtenLines es)) = some records := loadsLines_writtenLines es
  have hrechain : rechain F mac (unlines (writtenLines es)) =
      unlines (writtenLines (written mac [] (alter records))) := by
    unfold rechain
    simp only [hloads]
  have hloaded : ∀ r ∈ records, Loaded r :=
    List.forall_mem_map.mpr fun e _ => loaded_readRecord e.1 e.2
  rw [hrechain]
  refine ⟨records, _, hloads, loadsLines_writtenLines _, ?_, check_alter hloaded, 0, "event",
    by decide, by decide, ?_⟩
  · rw [List.length_map, ← List.length_map (f := Prod.fst), fst_written, length_alter]
  · rcases hcons : records with _ | ⟨r, rs⟩
    · exact absurd (List.map_eq_nil_iff.mp hcons) hne
    · exact Ne.symm (fieldJson_altered r _)

/-- **The forger forges**: any file of lines of which one holds the hash of the dump. -/
theorem forged_forge {H : Hashes} {dumpHash : PyStr} (hd : Utf8Encodable dumpHash)
    {es : List (Dict PyStr (PyVal F) × Text)} {i : ℕ} {e : Dict PyStr (PyVal F) × Text}
    (hi : es[i]? = some e) (he : e.1.get? "dump_hash" = some (.str dumpHash)) :
    Forged F (H.hmac (H.sha256 dumpHash)) (unlines (writtenLines es))
      (forge F i H (unlines (writtenLines es))) := by
  have hhash : ((es.map fun e => readRecord e.1 e.2)[i]?).bind (·.get? "dump_hash") =
      some (.str dumpHash) := by
    rw [List.getElem?_map, hi, Option.map_some, Option.bind_some,
      get?_readRecord e.1 e.2 (by decide), Dict.get?_set, if_neg (by decide), he, Option.map_some]
    exact congrArg (fun s => some (PyVal.str s)) (normal_of_encodable hd)
  have hforge : forge F i H (unlines (writtenLines es)) =
      rechain F (H.hmac (H.sha256 dumpHash)) (unlines (writtenLines es)) := by
    unfold forge
    simp only [loadsLines_writtenLines, hhash]
  rw [hforge]
  exact forged_rechain _ (List.ne_nil_of_mem (List.mem_of_getElem? hi))

end VantaCore.Core.Audit.Forge
