import VantaCore.Core.Audit.Line
import VantaCore.Lib.MacChain

/-! # Runs of the audit trail

What a call of `record` does when it returns (`record_eq_ok_iff`), and with it what calls that all
return write: the lines of a chain that goes on from the HMAC before (`recordAll_eq`). A trail
starts with no HMAC, so every session writes a chain of its own (`runSessions_eq`). The check of
lines as the trail writes them is whether the texts it rechecks are linked by the HMACs that were
recorded (`checkFile_unlines`). -/

namespace VantaCore.Core.Audit.Runs

open VantaCore.Lib VantaCore.Lib.MacChain VantaCore.Lib.PyText VantaCore.Lib.Json.Strings
open VantaCore.Lib.Json.Text VantaCore.Lib.Json.Values VantaCore.Lib.Json.Lines
open VantaCore.Core.Audit.Trail VantaCore.Core.Audit.Line

variable {F : Type} [FloatText F] {H : Hashes}

/-! ### One call -/

/-- A call that returns on an open trail. -/
def Returns (c : Call F) : Prop :=
  ("self" : PyStr) ∉ c.fields.keys ∧ ("event_name" : PyStr) ∉ c.fields.keys ∧
    Writable c.fields ∧ c.writeRaises = false

instance (c : Call F) : Decidable (Returns c) := inferInstanceAs (Decidable (_ ∧ _ ∧ _ ∧ _))

omit [FloatText F] in
/-- What is in a payload. -/
theorem get?_payload (dumpHash : PyStr) (c : Call F) (k : PyStr) :
    (payload dumpHash c).get? k = (c.fields.get? k).or ((named dumpHash c).get? k) :=
  Dict.get?_update _ _ k

theorem writable_payload_iff (dumpHash : PyStr) (c : Call F) :
    Writable (payload dumpHash c) ↔ Writable c.fields := by
  constructor
  · intro h e he
    refine h e (Dict.get?_eq_some_iff.mp ?_)
    rw [get?_payload, Dict.get?_eq_some_iff.mpr he, Option.some_or]
  · intro h e he
    have hget := Dict.get?_eq_some_iff.mpr he
    rw [get?_payload] at hget
    cases hf : c.fields.get? e.1 with
    | some v =>
      rw [hf, Option.some_or] at hget
      exact h e (Dict.get?_eq_some_iff.mp (hf.trans hget))
    | none =>
      rw [hf, Option.none_or, Dict.get?_eq_some_iff] at hget
      have hmem := Dict.mem_of_mem_ofList hget
      simp only [List.mem_cons, List.not_mem_nil, or_false] at hmem
      rcases hmem with h | h | h <;> rw [(Prod.mk.inj h).2] <;> rfl

omit [FloatText F] in
theorem hmac_mem_payload (dumpHash : PyStr) (c : Call F) :
    ("hmac" : PyStr) ∈ (payload dumpHash c).keys ↔ ("hmac" : PyStr) ∈ c.fields.keys := by
  rw [payload, Dict.mem_keys_update, named, Dict.mem_keys_ofList]
  exact or_iff_right (by simp [ofString])

/-- **A call that returns**: it writes the line of the payload and keeps its HMAC. -/
theorem record_eq_ok_iff {t t' : ForensicAuditTrail} {file file' : Text} {c : Call F} :
    record H t file c = (.ok (), t', file') ↔ Returns c ∧ t.closed = false ∧
      let p := payload t.dumpHash c
      let mac := H.hmac t.hmacKey (text p ++ t.prevHmac)
      t' = { t with prevHmac := mac } ∧ file' = file ++ (line p mac ++ ['\n']) := by
  unfold record
  by_cases hnames : ("self" : PyStr) ∈ c.fields.keys ∨ ("event_name" : PyStr) ∈ c.fields.keys
  · rw [if_pos hnames]
    refine ⟨fun h => absurd (Prod.mk.inj h).1 (by simp), fun h => ?_⟩
    rcases hnames with hself | hevent
    · exact absurd hself h.1.1
    · exact absurd hevent h.1.2.1
  rw [if_neg hnames]
  rw [not_or] at hnames
  by_cases hp : Writable (payload t.dumpHash c)
  · have hreturns : Returns c ↔ c.writeRaises = false :=
      ⟨fun h => h.2.2.2, fun h => ⟨hnames.1, hnames.2, (writable_payload_iff _ c).mp hp, h⟩⟩
    simp only [dumps_ofDict_iff.mpr ⟨hp, rfl⟩, dumps_line hp, hreturns]
    cases t.closed with
    | true => simp
    | false => cases c.writeRaises <;> simp [eq_comm]
  · have hnone : dumps (ofDict (payload t.dumpHash c)) = none :=
      Option.eq_none_iff_forall_ne_some.mpr fun cs hcs => hp (dumps_ofDict_iff.mp hcs).1
    simp only [hnone]
    exact ⟨fun h => absurd (Prod.mk.inj h).1 (by simp),
      fun h => absurd ((writable_payload_iff _ c).mpr h.1.2.2.1) hp⟩

/-! ### Many calls -/

/-- The payloads written under a key, each with its HMAC. -/
def written (mac : Text → Text) : Text → List (Dict PyStr (PyVal F)) →
    List (Dict PyStr (PyVal F) × Text)
  | _, [] => []
  | prev, p :: ps => (p, mac (text p ++ prev)) :: written mac (mac (text p ++ prev)) ps

/-- Their lines. -/
def writtenLines (es : List (Dict PyStr (PyVal F) × Text)) : List Text :=
  es.map fun e => line e.1 e.2

/-- The chain of their texts. -/
def recorded (es : List (Dict PyStr (PyVal F) × Text)) : List (Record Char) :=
  es.map fun e => (text e.1, e.2)

/-- The chain of the texts the check makes of them. -/
def rechecked (es : List (Dict PyStr (PyVal F) × Text)) : List (Record Char) :=
  es.map fun e => (recheck e.1, e.2)

theorem linked_recorded (mac : Text → Text) : ∀ (prev : Text) (ps : List (Dict PyStr (PyVal F))),
    Linked mac prev (recorded (written mac prev ps))
  | _, [] => trivial
  | _, _ :: ps => ⟨rfl, linked_recorded mac _ ps⟩

theorem fst_written (mac : Text → Text) : ∀ (prev : Text) (ps : List (Dict PyStr (PyVal F))),
    (written mac prev ps).map Prod.fst = ps
  | _, [] => rfl
  | _, p :: ps => congrArg (p :: ·) (fst_written mac _ ps)

/-- **Calls that all return**: what they write, and the HMAC they leave. -/
theorem recordAll_eq : ∀ {t t' : ForensicAuditTrail} {file file' : Text} {calls : List (Call F)},
    recordAll H t file calls = some (t', file') →
      let es := written (H.hmac t.hmacKey) t.prevHmac (calls.map (payload t.dumpHash))
      (∀ c ∈ calls, Returns c) ∧ t' = { t with prevHmac := last t.prevHmac (recorded es) } ∧
        file' = file ++ unlines (writtenLines es)
  | t, t', file, file', [], h => by
    obtain ⟨rfl, rfl⟩ := Prod.mk.inj (Option.some.inj h)
    exact ⟨fun _ hc => absurd hc List.not_mem_nil, rfl, (List.append_nil file).symm⟩
  | t, t', file, file', c :: calls, h => by
    rw [recordAll] at h
    rcases hrecord : record H t file c with ⟨_ | ⟨⟩, t₁, file₁⟩
    · simp [hrecord] at h
    · rw [hrecord] at h
      obtain ⟨hc, -, rfl, rfl⟩ := record_eq_ok_iff.mp hrecord
      obtain ⟨hcalls, rfl, rfl⟩ := recordAll_eq h
      refine ⟨List.forall_mem_cons.mpr ⟨hc, hcalls⟩, rfl, ?_⟩
      rw [List.append_assoc]
      rfl

/-- Calls return on an open trail. -/
theorem recordAll_isSome : ∀ {t : ForensicAuditTrail} {calls : List (Call F)} (file : Text),
    t.closed = false → (∀ c ∈ calls, Returns c) → (recordAll H t file calls).isSome
  | _, [], _, _, _ => rfl
  | t, c :: calls, file, hopen, h => by
    rw [List.forall_mem_cons] at h
    rw [recordAll, record_eq_ok_iff.mpr ⟨h.1, hopen, rfl, rfl⟩]
    exact recordAll_isSome _ hopen h.2

/-- What a session on a dump writes. -/
def sessionEntries (H : Hashes) (dumpHash : PyStr) (calls : List (Call F)) :
    List (Dict PyStr (PyVal F) × Text) :=
  written (H.hmac (H.sha256 dumpHash)) [] (calls.map (payload dumpHash))

/-- **A session** writes a chain of its own behind the file. -/
theorem runSession_eq {dumpHash : PyStr} {file file' : Text} {calls : List (Call F)}
    {t : ForensicAuditTrail} (h : runSession H dumpHash file calls = some (t, file')) :
    Utf8Encodable dumpHash ∧ (∀ c ∈ calls, Returns c) ∧
      file' = file ++ unlines (writtenLines (sessionEntries H dumpHash calls)) := by
  unfold runSession init at h
  split_ifs at h with hd
  · obtain ⟨⟨t', file''⟩, hall, heq⟩ := Option.map_eq_some_iff.mp h
    obtain ⟨-, rfl⟩ := Prod.mk.inj heq
    obtain ⟨hcalls, -, hfile⟩ := recordAll_eq hall
    exact ⟨hd, hcalls, hfile⟩

theorem runSession_isSome {dumpHash : PyStr} {calls : List (Call F)} (file : Text)
    (hd : Utf8Encodable dumpHash) (h : ∀ c ∈ calls, Returns c) :
    (runSession H dumpHash file calls).isSome := by
  rw [runSession, init, if_pos hd, Option.isSome_map]
  exact recordAll_isSome file rfl h

/-- The payloads of sessions and their HMACs. -/
def sessionsEntries (H : Hashes) (dumpHash : PyStr) (sessions : List (List (Call F))) :
    List (Dict PyStr (PyVal F) × Text) :=
  (sessions.map (sessionEntries H dumpHash)).flatten

omit [FloatText F] in
/-- The payloads in a list of entries. -/
theorem forall_entries {es : List (Dict PyStr (PyVal F) × Text)} {dumpHash : PyStr}
    {calls : List (Call F)} (hes : es.map Prod.fst = calls.map (payload dumpHash))
    (P : Dict PyStr (PyVal F) → Prop) :
    (∀ e ∈ es, P e.1) ↔ ∀ c ∈ calls, P (payload dumpHash c) := by
  rw [← List.forall_mem_map (f := Prod.fst), hes, List.forall_mem_map]

theorem writable_entries {es : List (Dict PyStr (PyVal F) × Text)} {dumpHash : PyStr}
    {calls : List (Call F)} (hes : es.map Prod.fst = calls.map (payload dumpHash))
    (h : ∀ c ∈ calls, Returns c) : ∀ e ∈ es, Writable e.1 :=
  (forall_entries hes Writable).mpr fun c hc => (writable_payload_iff _ c).mpr (h c hc).2.2.1

theorem fst_sessionEntries (H : Hashes) (dumpHash : PyStr) (calls : List (Call F)) :
    (sessionEntries H dumpHash calls).map Prod.fst = calls.map (payload dumpHash) :=
  fst_written _ _ _

theorem fst_sessionsEntries (H : Hashes) (dumpHash : PyStr) (sessions : List (List (Call F))) :
    (sessionsEntries H dumpHash sessions).map Prod.fst =
      sessions.flatten.map (payload dumpHash) := by
  rw [sessionsEntries, List.map_flatten, List.map_flatten, List.map_map]
  exact congrArg List.flatten (List.map_congr_left fun calls _ => fst_sessionEntries H _ calls)

/-- **Sessions behind each other.** -/
theorem runSessions_eq {dumpHash : PyStr} : ∀ {file file' : Text} {sessions : List (List (Call F))},
    runSessions H dumpHash file sessions = some file' →
      (sessions ≠ [] → Utf8Encodable dumpHash) ∧ (∀ calls ∈ sessions, ∀ c ∈ calls, Returns c) ∧
        file' = file ++ unlines (writtenLines (sessionsEntries H dumpHash sessions))
  | file, file', [], h => by
    rw [← Option.some.inj h]
    exact ⟨fun hne => absurd rfl hne, fun _ hs => absurd hs List.not_mem_nil,
      (List.append_nil file).symm⟩
  | file, file', calls :: sessions, h => by
    rw [runSessions] at h
    cases hrun : runSession H dumpHash file calls with
    | none => simp [hrun] at h
    | some p =>
      rcases p with ⟨t, file₁⟩
      rw [hrun] at h
      obtain ⟨hd, hcalls, rfl⟩ := runSession_eq hrun
      obtain ⟨-, hsessions, rfl⟩ := runSessions_eq h
      refine ⟨fun _ => hd, List.forall_mem_cons.mpr ⟨hcalls, hsessions⟩, ?_⟩
      have hentries : sessionsEntries H dumpHash (calls :: sessions) =
          sessionEntries H dumpHash calls ++ sessionsEntries H dumpHash sessions := rfl
      rw [hentries, writtenLines, writtenLines, writtenLines, unlines, unlines, unlines,
        List.map_append, List.flatMap_append, List.append_assoc]

theorem runSessions_isSome {dumpHash : PyStr} (hd : Utf8Encodable dumpHash) :
    ∀ {sessions : List (List (Call F))} (file : Text),
      (∀ calls ∈ sessions, ∀ c ∈ calls, Returns c) →
      (runSessions H dumpHash file sessions).isSome
  | [], _, _ => rfl
  | calls :: sessions, file, h => by
    rw [List.forall_mem_cons] at h
    obtain ⟨p, hp⟩ := Option.isSome_iff_exists.mp (runSession_isSome (H := H) file hd h.1)
    rw [runSessions, hp]
    exact runSessions_isSome hd p.2 h.2

/-! ### The check -/

/-- The text of a record without its `hmac`. -/
def payloadJson (r : Dict PyStr (PyVal F)) : Option Text := dumps (ofDict (r.erase "hmac"))

theorem payloadJson_brace {r : Dict PyStr (PyVal F)} {p : Text} (h : payloadJson r = some p) :
    ∃ l, p = l ++ ['}'] := by
  obtain ⟨-, rfl⟩ := dumps_ofDict_iff.mp h
  exact text_brace _

theorem checkRecord_eq_some {mac : Text → Text} {prev : Text} {r : Dict PyStr (PyVal F)}
    {q : Record Char} (h : checkRecord mac prev r = some q) :
    payloadJson r = some q.1 ∧ r.get? "hmac" = some (.str (ofChars q.2)) ∧
      q.2 = mac (q.1 ++ prev) := by
  unfold checkRecord at h
  split at h
  · rename_i recordedHmac text hhmac htext
    simp only [Option.ite_none_right_eq_some, Option.some.injEq] at h
    obtain ⟨hmac, rfl⟩ := h
    exact ⟨htext, by rw [hhmac, hmac], rfl⟩
  · simp at h

/-- **Records that pass** are a chain of their texts and HMACs. -/
theorem checkRecords_eq_some {mac : Text → Text} : ∀ {prev : Text}
    {records : List (Dict PyStr (PyVal F))} {rs : List (Record Char)},
    checkRecords mac prev records = some rs → Linked mac prev rs ∧
      records.map payloadJson = rs.map (fun q => some q.1) ∧
      records.map (·.get? "hmac") = rs.map fun q => some (.str (ofChars q.2))
  | _, [], rs, h => by rw [← Option.some.inj h]; exact ⟨trivial, rfl, rfl⟩
  | prev, r :: records, rs, h => by
    rw [checkRecords] at h
    cases hr : checkRecord mac prev r with
    | none => simp [hr] at h
    | some q =>
      rw [hr] at h
      obtain ⟨rs', hrs', rfl⟩ := Option.map_eq_some_iff.mp h
      obtain ⟨htext, hhmac, hq⟩ := checkRecord_eq_some hr
      obtain ⟨hlinked, htexts, hhmacs⟩ := checkRecords_eq_some hrs'
      refine ⟨⟨hq, hlinked⟩, ?_, ?_⟩
      · rw [List.map_cons, List.map_cons, htext, htexts]
      · rw [List.map_cons, List.map_cons, hhmac, hhmacs]

/-- **The check of what was written** is whether the HMACs link what it rechecks. -/
theorem checkRecords_written {mac : Text → Text} : ∀ {prev : Text}
    {es : List (Dict PyStr (PyVal F) × Text)} {rs : List (Record Char)},
    checkRecords mac prev (es.map fun e => readRecord e.1 e.2) = some rs ↔
      rs = rechecked es ∧ Linked mac prev (rechecked es)
  | _, [], rs => ⟨fun h => ⟨(Option.some.inj h).symm, trivial⟩, fun h => congrArg some h.1.symm⟩
  | prev, e :: es, rs => by
    have ih := @checkRecords_written mac e.2 es
    rw [List.map_cons, checkRecords, checkRecord_line]
    by_cases he : e.2 = mac (recheck e.1 ++ prev)
    · rw [if_pos he]
      simp only [Option.map_eq_some_iff, ih]
      constructor
      · rintro ⟨rs', ⟨rfl, hlinked⟩, rfl⟩
        exact ⟨rfl, he, hlinked⟩
      · rintro ⟨rfl, -, hlinked⟩
        exact ⟨rechecked es, ⟨rfl, hlinked⟩, rfl⟩
    · rw [if_neg he]
      exact ⟨fun h => absurd h (by simp), fun h => absurd h.2.1 he⟩

theorem loadsLines_writtenLines (es : List (Dict PyStr (PyVal F) × Text)) :
    loadsLines (unlines (writtenLines es)) = some (es.map fun e => readRecord e.1 e.2) := by
  have hlines : lines (unlines (writtenLines es)) = writtenLines es := by
    refine lines_unlines fun l hl => ?_
    obtain ⟨e, -, rfl⟩ := List.mem_map.mp hl
    exact newline_not_mem_line e.1 e.2
  have hloads : ∀ es : List (Dict PyStr (PyVal F) × Text),
      (writtenLines es).mapM loadsObject = some (es.map fun e => readRecord e.1 e.2) := by
    intro es
    induction es with
    | nil => rfl
    | cons e es ih =>
      rw [writtenLines] at ih ⊢
      rw [List.map_cons, List.mapM_cons, loadsObject_line, ih]
      rfl
  rw [loadsLines, hlines, hloads]

/-- **The check of a file** of such lines. -/
theorem checkFile_unlines {mac : Text → Text} {es : List (Dict PyStr (PyVal F) × Text)}
    {rs : List (Record Char)} : checkFile F mac (unlines (writtenLines es)) = some rs ↔
      rs = rechecked es ∧ Linked mac [] (rechecked es) := by
  rw [checkFile, loadsLines_writtenLines]
  exact checkRecords_written

/-! ### Framed records -/

/-- An HMAC whose text ends the texts before it: no brace, and not empty. -/
def BraceFree (mac : Text) : Prop := '}' ∉ mac ∧ mac ≠ []

theorem framed_recorded {es : List (Dict PyStr (PyVal F) × Text)} (h : ∀ e ∈ es, BraceFree e.2) :
    Framed '}' (recorded es) := by
  refine ⟨fun r hr => ?_, fun r hr => ?_, fun r hr => ?_⟩ <;>
    obtain ⟨e, he, rfl⟩ := List.mem_map.mp hr
  · exact text_brace e.1
  · exact (h e he).1
  · exact (h e he).2

theorem framed_rechecked {es : List (Dict PyStr (PyVal F) × Text)} (h : ∀ e ∈ es, BraceFree e.2) :
    Framed '}' (rechecked es) := by
  refine ⟨fun r hr => ?_, fun r hr => ?_, fun r hr => ?_⟩ <;>
    obtain ⟨e, he, rfl⟩ := List.mem_map.mp hr
  · exact recheck_brace e.1
  · exact (h e he).1
  · exact (h e he).2

theorem code_written {mac : Text → Text} {P : Text → Prop} (h : ∀ m, P (mac m)) :
    ∀ (prev : Text) (ps : List (Dict PyStr (PyVal F))), ∀ e ∈ written mac prev ps, P e.2
  | _, [], _, he => absurd he List.not_mem_nil
  | _, p :: ps, e, he => by
    rcases List.mem_cons.mp he with rfl | he
    · exact h _
    · exact code_written h _ ps e he

/-- Records that pass are framed. -/
theorem framed_of_checkRecords {mac : Text → Text} {records : List (Dict PyStr (PyVal F))}
    {rs : List (Record Char)} (h : checkRecords mac [] records = some rs)
    (hmac : ∀ m, BraceFree (mac m)) : Framed '}' rs := by
  obtain ⟨hlinked, htexts, -⟩ := checkRecords_eq_some h
  have hcodes : ∀ q ∈ rs, BraceFree q.2 := by
    intro q hq
    obtain ⟨m, hm⟩ := code_of_linked hlinked q hq
    rw [hm]
    exact hmac m
  refine ⟨fun q hq => ?_, fun q hq => (hcodes q hq).1, fun q hq => (hcodes q hq).2⟩
  have hmem : some q.1 ∈ records.map payloadJson := htexts ▸ List.mem_map_of_mem hq
  obtain ⟨r, -, hr⟩ := List.mem_map.mp hmem
  exact payloadJson_brace hr

end VantaCore.Core.Audit.Runs
