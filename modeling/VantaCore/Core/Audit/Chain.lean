import VantaCore.Core.Audit.Runs

/-! # The chain check on what was written

One session on a fresh file passes the check if every call is one whose payload comes back
(`Verifiable`), and without collisions only then (`check_session`). Of several sessions on one file
moreover at most one may have recorded anything: a trail constructed on a file that is there starts
with no HMAC, and the check goes on with the last one (`check_sessions`). -/

namespace VantaCore.Core.Audit.Chain

open VantaCore.Lib VantaCore.Lib.MacChain VantaCore.Lib.PyText VantaCore.Lib.Json.Strings
open VantaCore.Lib.Json.Text VantaCore.Lib.Json.Values VantaCore.Lib.Json.Canonical
open VantaCore.Lib.Json.Lines VantaCore.Core.Audit.Trail VantaCore.Core.Audit.Line
open VantaCore.Core.Audit.Runs

variable {F : Type} [FloatText F] {H : Hashes} {dumpHash : PyStr} {file : Text}

/-- **A call whose line the check understands**: no field is called `hmac`, and in every dictionary
of the payload the strings the keys are written as increase in the order they are written in. -/
def Verifiable (dumpHash : PyStr) (c : Call F) : Prop :=
  ("hmac" : PyStr) ∉ c.fields.keys ∧ Stable (ofDict (payload dumpHash c))

instance (c : Call F) : Decidable (Verifiable dumpHash c) := inferInstanceAs (Decidable (_ ∧ _))

/-- The messages a session computes HMACs of. -/
def hashed (H : Hashes) (dumpHash : PyStr) (calls : List (Call F)) : List Text :=
  messages [] (recorded (sessionEntries H dumpHash calls))

/-- The output of `hexdigest`. -/
def HexDigest (mac : Text) : Prop :=
  mac.length = 64 ∧ ∀ c ∈ mac, c.isDigit ∨ ('a' ≤ c ∧ c ≤ 'f')

theorem HexDigest.braceFree {mac : Text} (h : HexDigest mac) : BraceFree mac := by
  constructor
  · exact fun hmem => absurd (h.2 _ hmem) (by decide)
  · rintro rfl
    exact absurd h.1 (by decide)

/-! ### The texts that are rechecked -/

theorem rechecked_eq_recorded_iff {es : List (Dict PyStr (PyVal F) × Text)}
    (h : ∀ e ∈ es, Writable e.1) : rechecked es = recorded es ↔
      ∀ e ∈ es, ("hmac" : PyStr) ∉ e.1.keys ∧ Stable (ofDict e.1) := by
  rw [rechecked, recorded, List.map_inj_left]
  refine forall₂_congr fun e he => ?_
  rw [← recheck_eq_text_iff (h e he), Prod.mk.injEq]
  exact and_iff_left rfl

/-- Where every call is verifiable, the check computes the HMACs of what was recorded. -/
theorem rechecked_entries_iff {es : List (Dict PyStr (PyVal F) × Text)} {calls : List (Call F)}
    (hes : es.map Prod.fst = calls.map (payload dumpHash)) (h : ∀ c ∈ calls, Returns c) :
    rechecked es = recorded es ↔ ∀ c ∈ calls, Verifiable dumpHash c := by
  rw [rechecked_eq_recorded_iff (writable_entries hes h),
    forall_entries hes fun p => ("hmac" : PyStr) ∉ p.keys ∧ Stable (ofDict p)]
  refine forall₂_congr fun c _ => ?_
  rw [hmac_mem_payload, Verifiable]

theorem linked_session (calls : List (Call F)) :
    Linked (H.hmac (H.sha256 dumpHash)) [] (recorded (sessionEntries H dumpHash calls)) :=
  linked_recorded _ _ _

theorem snd_rechecked (es : List (Dict PyStr (PyVal F) × Text)) :
    (rechecked es).map Prod.snd = (recorded es).map Prod.snd := by
  rw [rechecked, recorded, List.map_map, List.map_map]
  rfl

/-! ### One session -/

/-- **A session on a fresh file** passes the check if every call is verifiable, whatever the hashes;
if it passes and no message that was hashed collides with one that is rechecked, every call is. -/
theorem check_session {calls : List (Call F)} {t : ForensicAuditTrail}
    (hrun : runSession H dumpHash [] calls = some (t, file)) :
    ((∀ c ∈ calls, Verifiable dumpHash c) →
      (checkFile F (H.hmac (H.sha256 dumpHash)) file).isSome) ∧
    ∀ rs, checkFile F (H.hmac (H.sha256 dumpHash)) file = some rs →
      CollisionFree (H.hmac (H.sha256 dumpHash)) (messages [] rs) (hashed H dumpHash calls) →
      ∀ c ∈ calls, Verifiable dumpHash c := by
  obtain ⟨-, hcalls, rfl⟩ := runSession_eq hrun
  have hlinked : Linked (H.hmac (H.sha256 dumpHash)) [] _ := linked_session calls
  rw [List.nil_append]
  constructor
  · intro h
    rw [← (rechecked_entries_iff (fst_sessionEntries H dumpHash calls) hcalls).mpr h] at hlinked
    exact Option.isSome_iff_exists.mpr ⟨_, checkFile_unlines.mpr ⟨rfl, hlinked⟩⟩
  · intro rs hrs hfree
    obtain ⟨rfl, hrechecked⟩ := checkFile_unlines.mp hrs
    exact (rechecked_entries_iff (fst_sessionEntries H dumpHash calls) hcalls).mp
      (eq_of_codes_eq hrechecked hlinked (snd_rechecked _) hfree)

/-- Hashes whose HMACs are the length of the message, modulo 15, as 64 hexadecimal digits. -/
def lengthHashes : Hashes where
  sha256 _ := []
  hmac _ m := List.replicate 64 (hexDigit (m.length % 15))

theorem hexDigest_lengthHashes (key : Digest) (m : Text) : HexDigest (lengthHashes.hmac key m) := by
  have hdigit : ∀ d < 15, (hexDigit d).isDigit ∨ ('a' ≤ hexDigit d ∧ hexDigit d ≤ 'f') := by decide
  refine ⟨List.length_replicate, fun c hc => ?_⟩
  rw [List.eq_of_mem_replicate hc]
  exact hdigit _ (Nat.mod_lt _ (by decide))

/-- A call with a dictionary and a list among its fields. -/
def sampleCall : Call Empty where
  ts := "2026-08-17T12:00:00+00:00"
  eventName := "scan_completed"
  fields := Dict.ofList [("nodes", .int 10),
    ("edges", .dict [(.str "owns", .int 2), (.str "maps", .list [.int 3, .none])])]
  writeRaises := false

/-- A call with a field called `hmac`. -/
def hmacCall : Call Empty where
  ts := "2026-08-17T12:00:00+00:00"
  eventName := "scan_completed"
  fields := Dict.ofList [("hmac", .str "0")]
  writeRaises := false

/-- The session of two such calls passes, and no message collides. -/
theorem check_session_sample :
    ∃ t file rs, runSession lengthHashes "d" [] [sampleCall, sampleCall] = some (t, file) ∧
      checkFile Empty (lengthHashes.hmac (lengthHashes.sha256 "d")) file = some rs ∧
      CollisionFree (lengthHashes.hmac (lengthHashes.sha256 "d")) (messages [] rs)
        (hashed lengthHashes "d" [sampleCall, sampleCall]) ∧
      ∀ c ∈ [sampleCall, sampleCall], Verifiable "d" c := by
  have hsome : (runSession lengthHashes "d" [] [sampleCall, sampleCall]).isSome :=
    runSession_isSome [] (by decide) (by decide)
  obtain ⟨⟨t, file⟩, hrun⟩ := Option.isSome_iff_exists.mp hsome
  have hcheck := check_session hrun
  obtain ⟨rs, hrs⟩ := Option.isSome_iff_exists.mp (hcheck.1 (by decide))
  have hfree : CollisionFree (lengthHashes.hmac (lengthHashes.sha256 "d")) (messages [] rs)
      (hashed lengthHashes "d" [sampleCall, sampleCall]) := by
    rw [(runSession_eq hrun).2.2, List.nil_append] at hrs
    rw [(checkFile_unlines.mp hrs).1]
    decide +kernel
  exact ⟨t, file, rs, hrun, hrs, hfree, hcheck.2 rs hrs hfree⟩

/-- A session with a field called `hmac` does not. -/
theorem not_check_session : ¬ ∀ (H : Hashes) (dumpHash : PyStr) (calls : List (Call Empty)) t file,
    runSession H dumpHash [] calls = some (t, file) →
      (checkFile Empty (H.hmac (H.sha256 dumpHash)) file).isSome := by
  intro h
  have hsome : (runSession lengthHashes "d" [] [hmacCall]).isSome :=
    runSession_isSome [] (by decide) (by decide)
  obtain ⟨⟨t, file⟩, hrun⟩ := Option.isSome_iff_exists.mp hsome
  have hcheck := h _ _ _ t file hrun
  obtain ⟨-, -, rfl⟩ := runSession_eq hrun
  exact absurd hcheck (by decide +kernel)

/-! ### Several sessions -/

/-- The chains the sessions write. -/
def sessionChains (H : Hashes) (dumpHash : PyStr) (sessions : List (List (Call F))) :
    List (List (Record Char)) :=
  sessions.map fun calls => recorded (sessionEntries H dumpHash calls)

theorem recorded_sessions (sessions : List (List (Call F))) :
    recorded (sessionsEntries H dumpHash sessions) =
      (sessionChains H dumpHash sessions).flatten := by
  rw [recorded, sessionsEntries, List.map_flatten, List.map_map]
  rfl

theorem linked_sessionChains (sessions : List (List (Call F))) :
    ∀ s ∈ sessionChains H dumpHash sessions, Linked (H.hmac (H.sha256 dumpHash)) [] s := by
  intro s hs
  obtain ⟨calls, -, rfl⟩ := List.mem_map.mp hs
  exact linked_session calls

theorem sessionChain_eq_nil_iff {calls : List (Call F)} :
    recorded (sessionEntries H dumpHash calls) = [] ↔ calls = [] := by
  rw [recorded, List.map_eq_nil_iff, ← List.map_eq_nil_iff (f := Prod.fst), fst_sessionEntries,
    List.map_eq_nil_iff]

theorem pairwise_sessionChains {sessions : List (List (Call F))} :
    ((sessionChains H dumpHash sessions).Pairwise fun s s' => s = [] ∨ s' = []) ↔
      sessions.Pairwise fun calls calls' => calls = [] ∨ calls' = [] := by
  rw [sessionChains, List.pairwise_map]
  simp only [sessionChain_eq_nil_iff]

/-- **Sessions on one file** pass the check if every call is verifiable and at most one session
recorded anything, whatever the hashes; if they pass, the HMACs are hexadecimal digests and no
message that was hashed collides with one that is rechecked, this is so. -/
theorem check_sessions {sessions : List (List (Call F))}
    (hrun : runSessions H dumpHash [] sessions = some file) :
    ((∀ calls ∈ sessions, ∀ c ∈ calls, Verifiable dumpHash c) →
      (sessions.Pairwise fun calls calls' => calls = [] ∨ calls' = []) →
      (checkFile F (H.hmac (H.sha256 dumpHash)) file).isSome) ∧
    ∀ rs, checkFile F (H.hmac (H.sha256 dumpHash)) file = some rs →
      (∀ m, HexDigest (H.hmac (H.sha256 dumpHash) m)) →
      (∀ calls ∈ sessions, CollisionFree (H.hmac (H.sha256 dumpHash)) (messages [] rs)
        (hashed H dumpHash calls)) →
      (∀ calls ∈ sessions, ∀ c ∈ calls, Verifiable dumpHash c) ∧
        sessions.Pairwise fun calls calls' => calls = [] ∨ calls' = [] := by
  obtain ⟨-, hcalls, rfl⟩ := runSessions_eq hrun
  have hiff := rechecked_entries_iff (fst_sessionsEntries H dumpHash sessions)
    (List.forall_mem_flatten.mpr hcalls)
  rw [List.forall_mem_flatten] at hiff
  rw [List.nil_append]
  constructor
  · intro hverifiable hpair
    have hlinked : Linked (H.hmac (H.sha256 dumpHash)) [] _ :=
      linked_flatten (linked_sessionChains sessions) (pairwise_sessionChains.mpr hpair)
    rw [← recorded_sessions, ← hiff.mpr hverifiable] at hlinked
    exact Option.isSome_iff_exists.mpr ⟨_, checkFile_unlines.mpr ⟨rfl, hlinked⟩⟩
  · intro rs hrs hhex hfree
    obtain ⟨rfl, hrechecked⟩ := checkFile_unlines.mp hrs
    have hdigest : ∀ e ∈ sessionsEntries H dumpHash sessions, BraceFree e.2 := by
      rw [sessionsEntries, List.forall_mem_flatten, List.forall_mem_map]
      exact fun calls _ => code_written (fun m => (hhex m).braceFree) [] _
    have hfree' : ∀ s ∈ sessionChains H dumpHash sessions, CollisionFree _ _ (messages [] s) :=
      List.forall_mem_map.mpr hfree
    have hframed := framed_recorded hdigest
    have hcodes := snd_rechecked (sessionsEntries H dumpHash sessions)
    rw [recorded_sessions] at hframed hcodes
    obtain ⟨hflat, -, hpair⟩ := flatten_of_codes_eq List.not_mem_nil hrechecked
      (linked_sessionChains sessions) (framed_rechecked hdigest) hframed hcodes hfree'
    rw [← recorded_sessions] at hflat
    exact ⟨hiff.mp hflat, pairwise_sessionChains.mp hpair⟩

/-- One session that records and one that does not pass, and no message collides. -/
theorem check_sessions_sample :
    ∃ file rs, runSessions lengthHashes "d" [] [[], [sampleCall, sampleCall]] = some file ∧
      checkFile Empty (lengthHashes.hmac (lengthHashes.sha256 "d")) file = some rs ∧
      (∀ calls ∈ [[], [sampleCall, sampleCall]], ∀ c ∈ calls, Verifiable "d" c) ∧
      [[], [sampleCall, sampleCall]].Pairwise fun calls calls' => calls = [] ∨ calls' = [] := by
  have hsome : (runSessions lengthHashes "d" [] [[], [sampleCall, sampleCall]]).isSome :=
    runSessions_isSome (by decide) [] (by decide)
  obtain ⟨file, hrun⟩ := Option.isSome_iff_exists.mp hsome
  have hcheck := check_sessions hrun
  obtain ⟨rs, hrs⟩ := Option.isSome_iff_exists.mp (hcheck.1 (by decide) (by decide))
  have hfree : ∀ calls ∈ [[], [sampleCall, sampleCall]], CollisionFree
      (lengthHashes.hmac (lengthHashes.sha256 "d")) (messages [] rs)
      (hashed lengthHashes "d" calls) := by
    rw [(runSessions_eq hrun).2.2, List.nil_append] at hrs
    rw [(checkFile_unlines.mp hrs).1]
    decide +kernel
  exact ⟨file, rs, hrun, hrs, hcheck.2 rs hrs (hexDigest_lengthHashes _) hfree⟩

/-- Two sessions that record do not. -/
theorem not_check_sessions : ¬ ∀ (H : Hashes) (dumpHash : PyStr)
    (sessions : List (List (Call Empty))) file,
    runSessions H dumpHash [] sessions = some file →
      (checkFile Empty (H.hmac (H.sha256 dumpHash)) file).isSome := by
  intro h
  have hsome : (runSessions lengthHashes "d" [] [[sampleCall], [sampleCall]]).isSome :=
    runSessions_isSome (by decide) [] (by decide)
  obtain ⟨file, hrun⟩ := Option.isSome_iff_exists.mp hsome
  have hcheck := h _ _ _ file hrun
  obtain ⟨-, -, rfl⟩ := runSessions_eq hrun
  exact absurd hcheck (by decide +kernel)

end VantaCore.Core.Audit.Chain
