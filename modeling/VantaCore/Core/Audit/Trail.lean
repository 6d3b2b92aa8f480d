import VantaCore.Lib.Json.Values
import VantaCore.Lib.Json.Lines

/-! # The forensic audit trail

`ForensicAuditTrail` writes a line for every event: the event as JSON with sorted keys, and with it
the HMAC of that JSON text followed by the HMAC of the line before. The key is the SHA-256 of the
integrity hash of the dump. The file is opened for appending and outlives the object; sessions on
one path write behind each other (`runSessions`). `checkFile` is the check of the chain as the
tests make it: parse a line, take its `hmac` out, serialise the rest again with sorted keys.
SHA-256 and HMAC-SHA256 are functions of their inputs and nothing more. -/

namespace VantaCore.Core.Audit.Trail

open VantaCore.Lib VantaCore.Lib.PyText VantaCore.Lib.Json.Strings VantaCore.Lib.Json.Text
open VantaCore.Lib.Json.Values VantaCore.Lib.Json.Lines

abbrev Text := List Char

/-- A SHA-256 digest. -/
abbrev Digest := List UInt8

/-- The digest of a string in UTF-8, and the hexadecimal HMAC of a text under a key. -/
structure Hashes where
  sha256 : PyStr → Digest
  hmac : Digest → Text → Text

/-- What is raised. -/
inductive AuditError where
  | unicodeEncodeError
  | typeError
  | valueError
  | osError
deriving DecidableEq, Repr

structure ForensicAuditTrail where
  dumpHash : PyStr
  hmacKey : Digest
  prevHmac : Text
  closed : Bool

/-- A call of `record`, the time it is made at, and whether the write of its line raises. -/
structure Call (F : Type) where
  ts : PyStr
  eventName : PyStr
  fields : Dict PyStr (PyVal F)
  writeRaises : Bool

variable {F : Type} [FloatText F] (H : Hashes)

/-! ### The trail -/

/-- `__init__`. -/
def init (dumpIntegrityHash : PyStr) : Except AuditError ForensicAuditTrail :=
  if Utf8Encodable dumpIntegrityHash then
    .ok
      { dumpHash := dumpIntegrityHash
        hmacKey := H.sha256 dumpIntegrityHash
        prevHmac := []
        closed := false }
  else .error .unicodeEncodeError

omit [FloatText F] in
/-- What `record` puts into every payload. -/
def named (dumpHash : PyStr) (c : Call F) : Dict PyStr (PyVal F) :=
  Dict.ofList [("ts", .str c.ts), ("event", .str c.eventName), ("dump_hash", .str dumpHash)]

omit [FloatText F] in
/-- `payload`; the fields win over these. -/
def payload (dumpHash : PyStr) (c : Call F) : Dict PyStr (PyVal F) :=
  (named dumpHash c).update c.fields

/-- `record`, with the text of the file. Fields cannot have the names of the parameters, and a
closed file is not written to; a write that raises writes nothing. The HMAC is kept before the line
is written. -/
def record (t : ForensicAuditTrail) (file : Text) (c : Call F) :
    Except AuditError Unit × ForensicAuditTrail × Text :=
  if ("self" : PyStr) ∈ c.fields.keys ∨ ("event_name" : PyStr) ∈ c.fields.keys then
    (.error .typeError, t, file)
  else
    let payload := payload t.dumpHash c
    match dumps (ofDict payload) with
    | none => (.error .typeError, t, file)
    | some payloadJson =>
      let mac := H.hmac t.hmacKey (payloadJson ++ t.prevHmac)
      let t := { t with prevHmac := mac }
      let finalRecord := payload.set "hmac" (.str (ofChars mac))
      match dumps (ofDict finalRecord) with
      | none => (.error .typeError, t, file)
      | some line =>
        if t.closed then (.error .valueError, t, file)
        else if c.writeRaises then (.error .osError, t, file)
        else (.ok (), t, file ++ (line ++ ['\n']))

/-- `close`. -/
def close (t : ForensicAuditTrail) : ForensicAuditTrail := { t with closed := true }

/-- Calls of `record` that all return. -/
def recordAll : ForensicAuditTrail → Text → List (Call F) → Option (ForensicAuditTrail × Text)
  | t, file, [] => some (t, file)
  | t, file, c :: cs =>
    match record H t file c with
    | (.ok (), t, file) => recordAll t file cs
    | (.error _, _, _) => none

/-- A session on a file: a trail is constructed, records and is closed. -/
def runSession (dumpHash : PyStr) (file : Text) (calls : List (Call F)) :
    Option (ForensicAuditTrail × Text) :=
  match init H dumpHash with
  | .error _ => none
  | .ok t => (recordAll H t file calls).map fun p => (close p.1, p.2)

/-- Sessions behind each other. -/
def runSessions (dumpHash : PyStr) : Text → List (List (Call F)) → Option Text
  | file, [] => some file
  | file, calls :: sessions =>
    match runSession H dumpHash file calls with
    | none => none
    | some (_, file) => runSessions dumpHash file sessions

/-! ### The check -/

/-- One record: the text its HMAC is computed over, and the HMAC. -/
def checkRecord (mac : Text → Text) (prev : Text) (r : Dict PyStr (PyVal F)) :
    Option (Text × Text) :=
  match r.get? "hmac", dumps (ofDict (r.erase "hmac")) with
  | some (.str recordedHmac), some payloadJson =>
    let expectedHmac := mac (payloadJson ++ prev)
    if recordedHmac = ofChars expectedHmac then some (payloadJson, expectedHmac) else none
  | _, _ => none

/-- The records in order. -/
def checkRecords (mac : Text → Text) : Text → List (Dict PyStr (PyVal F)) →
    Option (List (Text × Text))
  | _, [] => some []
  | prev, r :: rs =>
    match checkRecord mac prev r with
    | none => none
    | some (payloadJson, recordedHmac) =>
      (checkRecords mac recordedHmac rs).map ((payloadJson, recordedHmac) :: ·)

/-- The file. -/
def checkFile (F : Type) [FloatText F] (mac : Text → Text) (file : Text) :
    Option (List (Text × Text)) :=
  match loadsLines (F := F) file with
  | none => none
  | some records => checkRecords mac [] records

end VantaCore.Core.Audit.Trail
