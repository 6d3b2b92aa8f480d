import VantaCore.Core.Audit.Chain

/-! # What the last HMAC commits to

The texts of the records end with a brace and an HMAC has none, so what an HMAC is computed over
splits in one way. Two lists of records that pass the check under one key and end with the same HMAC
are therefore the same, text by text, if their messages do not collide (`last_hmac_commits`). -/

namespace VantaCore.Core.Audit.Commit

open VantaCore.Lib VantaCore.Lib.MacChain VantaCore.Lib.PyText VantaCore.Lib.Json.Text
open VantaCore.Lib.Json.Values VantaCore.Core.Audit.Trail VantaCore.Core.Audit.Line
open VantaCore.Core.Audit.Runs VantaCore.Core.Audit.Chain

variable {F : Type} [FloatText F] {mac : Text → Text} {records : List (Dict PyStr (PyVal F))}
  {rs : List (Record Char)}

/-- The last HMAC of records that pass. -/
theorem getLast_hmac (h : checkRecords mac [] records = some rs) (hne : records ≠ []) :
    (records.getLast hne).get? "hmac" = some (.str (ofChars (last [] rs))) := by
  obtain ⟨-, -, hhmacs⟩ := checkRecords_eq_some h
  have hrs : rs ≠ [] := by
    rintro rfl
    exact hne (List.map_eq_nil_iff.mp hhmacs)
  have hlast := congrArg List.getLast? hhmacs
  rw [List.getLast?_map, List.getLast?_map, List.getLast?_eq_some_getLast hne,
    List.getLast?_eq_some_getLast hrs, Option.map_some, Option.map_some] at hlast
  rw [Option.some.inj hlast, last_eq_getLast hrs]

/-- **The last HMAC commits to the records**: two lists of records that pass the check under one
key, whose HMACs are hexadecimal digests without a collision between their messages, and that end
with the same HMAC have the same texts. -/
theorem last_hmac_commits {records' : List (Dict PyStr (PyVal F))} {rs' : List (Record Char)}
    (hcheck : checkRecords mac [] records = some rs)
    (hcheck' : checkRecords mac [] records' = some rs') (hhex : ∀ m, HexDigest (mac m))
    (hfree : CollisionFree mac (messages [] rs) (messages [] rs')) (hne : records ≠ [])
    (hne' : records' ≠ [])
    (hlast : (records.getLast hne).get? "hmac" = (records'.getLast hne').get? "hmac") :
    records.length = records'.length ∧ records.map payloadJson = records'.map payloadJson := by
  rw [getLast_hmac hcheck, getLast_hmac hcheck', Option.some.injEq, PyVal.str.injEq] at hlast
  obtain ⟨hlinked, htexts, -⟩ := checkRecords_eq_some hcheck
  obtain ⟨hlinked', htexts', -⟩ := checkRecords_eq_some hcheck'
  have hmac : ∀ m, BraceFree (mac m) := fun m => (hhex m).braceFree
  have heq : rs = rs' := eq_of_last_eq hlinked hlinked' (framed_of_checkRecords hcheck hmac)
    (framed_of_checkRecords hcheck' hmac) (ofChars_injective hlast) hfree
  have hmaps : records.map payloadJson = records'.map payloadJson := by rw [htexts, htexts', heq]
  have hlength := congrArg List.length hmaps
  rw [List.length_map, List.length_map] at hlength
  exact ⟨hlength, hmaps⟩

/-- Two records, by the entries of the first. -/
def sampleRecords (first : List (PyStr × PyVal Empty)) : List (Dict PyStr (PyVal Empty)) :=
  [Dict.ofList (("hmac", .str (ofChars (List.replicate 64 '1'))) :: first),
    Dict.ofList [("c", .int 3), ("hmac", .str (ofChars (List.replicate 64 'c')))]]

/-- The entries of the first in either order. -/
theorem last_hmac_commits_sample :
    (sampleRecords [("a", .int 1), ("b", .int 2)]).map payloadJson =
      (sampleRecords [("b", .int 2), ("a", .int 1)]).map payloadJson := by
  have hcheck : (checkRecords (lengthHashes.hmac []) []
      (sampleRecords [("a", .int 1), ("b", .int 2)])).isSome := by decide +kernel
  have hcheck' : checkRecords (lengthHashes.hmac []) []
      (sampleRecords [("b", .int 2), ("a", .int 1)]) = checkRecords (lengthHashes.hmac []) []
      (sampleRecords [("a", .int 1), ("b", .int 2)]) := by decide +kernel
  have hfree : ∀ rs ∈ checkRecords (lengthHashes.hmac []) []
      (sampleRecords [("a", .int 1), ("b", .int 2)]), CollisionFree (lengthHashes.hmac [])
        (messages [] rs) (messages [] rs) := by decide +kernel
  obtain ⟨rs, hrs⟩ := Option.isSome_iff_exists.mp hcheck
  exact (last_hmac_commits hrs (hcheck'.trans hrs) (hexDigest_lengthHashes []) (hfree rs hrs)
    (by simp [sampleRecords]) (by simp [sampleRecords]) rfl).2

end VantaCore.Core.Audit.Commit
