import VantaCore.Core.Audit.Forge
import Mathlib.Logic.Equiv.List

/-! # When an audit file cannot be forged

What a program records may depend on the dump (`Program`). If on another dump it writes the same lines
but for their HMACs (`Hidden`), there are hashes under which the two files are the same and that tell
the two keys apart on other messages only. A changed file that passes under both keys then hashes
messages of the file only, so it is a chain within the chains of the file, as long as all of them: the
file itself (`recorded_of_check`). If there is no such dump, the file tells the dump, and whoever knows
which dump it is writes the chain anew. `unforgeable_iff` is both directions. -/

namespace VantaCore.Core.Audit.Unforgeable

open VantaCore.Lib VantaCore.Lib.MacChain VantaCore.Lib.PyText VantaCore.Lib.Json.Strings
open VantaCore.Lib.Json.Text VantaCore.Lib.Json.Values VantaCore.Lib.Json.Canonical
open VantaCore.Lib.Json.RoundTrip VantaCore.Lib.Json.Lines
open VantaCore.Core.Audit.Trail VantaCore.Core.Audit.Line VantaCore.Core.Audit.Runs
open VantaCore.Core.Audit.Chain VantaCore.Core.Audit.Forge

variable {F : Type} [FloatText F]

/-! ### Payloads without the hash of the dump -/

omit [FloatText F] in
/-- A payload whose `dump_hash` is a field does not depend on the dump. -/
theorem payload_eq_of_mem {c : Call F} (h : ("dump_hash" : PyStr) ∈ c.fields.keys)
    (dumpHash dumpHash' : PyStr) : payload dumpHash c = payload dumpHash' c := by
  let names : Dict PyStr (PyVal F) := Dict.ofList [("ts", .str c.ts), ("event", .str c.eventName)]
  exact Dict.setAll_set_of_mem (PyVal.str dumpHash) (PyVal.str dumpHash') names h

omit [FloatText F] in
theorem get?_dump_hash_payload {c : Call F} (h : ("dump_hash" : PyStr) ∉ c.fields.keys)
    (dumpHash : PyStr) : (payload dumpHash c).get? "dump_hash" = some (.str dumpHash) := by
  rw [get?_payload, Dict.get?_eq_none_iff.mpr h, Option.none_or, named]
  rfl

/-! ### Runs on several dumps -/

/-- **What a program records on a dump**: sessions of calls, and what is recorded may depend on the
integrity hash of the dump. -/
abbrev Program (F : Type) := List (List (PyStr → Call F))

/-- The calls on a dump. -/
def callsOn (program : Program F) (dumpHash : PyStr) : List (List (Call F)) :=
  program.map fun calls => calls.map fun c => c dumpHash

/-- All calls on the dump return. -/
def Completes (program : Program F) (dumpHash : PyStr) : Prop :=
  Utf8Encodable dumpHash ∧ ∀ calls ∈ callsOn program dumpHash, ∀ c ∈ calls, Returns c

/-- The payloads on a dump. -/
def payloadsOn (program : Program F) (dumpHash : PyStr) : List (List (Dict PyStr (PyVal F))) :=
  (callsOn program dumpHash).map fun calls => calls.map (payload dumpHash)

/-- **A file can be forged**: a function of the file makes a changed file that passes, whichever dump
the file was written on. -/
def Forgeable (program : Program F) (dumpHash : PyStr) : Prop :=
  ∃ forge : Hashes → Text → Text, ∀ H dumpHash' log,
    runSessions H dumpHash [] (callsOn program dumpHash) = some log →
    runSessions H dumpHash' [] (callsOn program dumpHash') = some log →
    Forged F (H.hmac (H.sha256 dumpHash')) log (forge H log)

/-- Two dumps on which a program writes the same lines, but for their HMACs. -/
def SameLines (program : Program F) (dumpHash dumpHash' : PyStr) : Prop :=
  ∀ calls ∈ program, ∀ c ∈ calls,
    line (payload dumpHash' (c dumpHash')) [] = line (payload dumpHash (c dumpHash)) []

/-- **The file hides the dump**: on another dump the program writes the same lines. -/
def Hidden (program : Program F) (dumpHash : PyStr) : Prop :=
  ∃ dumpHash', dumpHash' ≠ dumpHash ∧ Completes program dumpHash' ∧
    SameLines program dumpHash dumpHash'

/-- The payloads of the file are those of the calls on the dump. -/
theorem fst_entries_callsOn (H : Hashes) (program : Program F) (dumpHash : PyStr) :
    (sessionsEntries H dumpHash (callsOn program dumpHash)).map Prod.fst =
      program.flatten.map fun c => payload dumpHash (c dumpHash) := by
  rw [fst_sessionsEntries, callsOn, ← List.map_flatten, List.map_map]
  rfl

theorem sessionsEntries_callsOn (H : Hashes) (program : Program F) (dumpHash : PyStr) :
    sessionsEntries H dumpHash (callsOn program dumpHash) =
      ((payloadsOn program dumpHash).map (written (H.hmac (H.sha256 dumpHash)) [])).flatten := by
  rw [payloadsOn, List.map_map]
  rfl

theorem Completes.run_eq {program : Program F} {dumpHash : PyStr} (h : Completes program dumpHash)
    (H : Hashes) : runSessions H dumpHash [] (callsOn program dumpHash) = some (unlines
      (writtenLines (sessionsEntries H dumpHash (callsOn program dumpHash)))) := by
  obtain ⟨log, hrun⟩ := Option.isSome_iff_exists.mp (runSessions_isSome (H := H) h.1 [] h.2)
  rw [hrun, (runSessions_eq hrun).2.2, List.nil_append]

/-! ### A file that tells the dump -/

/-- **Two dumps with one file** have the same lines. -/
theorem sameLines_of_run_eq {H : Hashes} {program : Program F} {dumpHash dumpHash' : PyStr} {log : Text}
    (h : runSessions H dumpHash [] (callsOn program dumpHash) = some log)
    (h' : runSessions H dumpHash' [] (callsOn program dumpHash') = some log) :
    SameLines program dumpHash dumpHash' := by
  have hlines : ∀ {d : PyStr}, runSessions H d [] (callsOn program d) = some log →
      lines log = writtenLines (sessionsEntries H d (callsOn program d)) := by
    intro d hd
    rw [(runSessions_eq hd).2.2, List.nil_append]
    refine lines_unlines fun l hl => ?_
    obtain ⟨e, -, rfl⟩ := List.mem_map.mp hl
    exact newline_not_mem_line e.1 e.2
  have hblank : ∀ d : PyStr, (sessionsEntries H d (callsOn program d)).map (fun e => line e.1 []) =
      program.flatten.map fun c => line (payload d (c d)) [] := by
    intro d
    have hfst := congrArg (List.map fun p => line p []) (fst_entries_callsOn H program d)
    rwa [List.map_map, List.map_map] at hfst
  have heq := (hlines h').symm.trans (hlines h)
  have hsame : (sessionsEntries H dumpHash' (callsOn program dumpHash')).map (fun e => line e.1 []) =
      (sessionsEntries H dumpHash (callsOn program dumpHash)).map fun e => line e.1 [] := by
    unfold writtenLines at heq
    rw [← List.forall₂_eq_eq_eq, List.forall₂_map_left_iff, List.forall₂_map_right_iff] at heq ⊢
    exact heq.imp fun _ _ hline => line_congr hline []
  rw [hblank, hblank] at hsame
  intro calls hcalls c hc
  exact List.map_inj_left.mp hsame c (List.mem_flatten.mpr ⟨calls, hcalls, hc⟩)

/-- **Where no other dump has the lines** the file can be forged. -/
theorem forgeable_of_not_hidden {program : Program F} (hne : program.flatten ≠ []) {dumpHash : PyStr}
    (h : ¬ Hidden program dumpHash) : Forgeable program dumpHash := by
  refine ⟨fun H => rechain F (H.hmac (H.sha256 dumpHash)), fun H dumpHash' log hrun hrun' => ?_⟩
  have hprogram : callsOn program dumpHash' ≠ [] := by
    intro hnil
    obtain rfl := List.map_eq_nil_iff.mp hnil
    exact hne rfl
  obtain ⟨hd, hreturns, rfl⟩ := runSessions_eq hrun'
  obtain rfl : dumpHash' = dumpHash := by
    by_contra hother
    exact h ⟨dumpHash', hother, ⟨hd hprogram, hreturns⟩, sameLines_of_run_eq hrun hrun'⟩
  refine forged_rechain _ fun hnil => hne ?_
  have hfst := congrArg (List.map Prod.fst) hnil
  rw [fst_entries_callsOn, List.map_nil, List.map_eq_nil_iff] at hfst
  exact hfst

/-! ### Hashes that hide the key -/

/-- Every text has a code of letters `a`, at least one. -/
def LetterCode (code : Text → Text) : Prop := ∀ m, ∃ n, code m = List.replicate (n + 1) 'a'

/-- There is an injective one. -/
theorem exists_code : ∃ code : Text → Text, Function.Injective code ∧ LetterCode code := by
  have : Countable Char := Function.Injective.countable fun _ _ => Char.toNat_inj.mp
  obtain ⟨f, hf⟩ := Countable.exists_injective_nat Text
  refine ⟨fun m => List.replicate (f m + 1) 'a', fun m m' h => ?_, fun m => ⟨f m, rfl⟩⟩
  have hlength := congrArg List.length h
  rw [List.length_replicate, List.length_replicate] at hlength
  exact hf (by omega)

theorem braceFree_replicate (n : ℕ) : BraceFree (List.replicate (n + 1) 'a') :=
  ⟨fun hmem => absurd (List.eq_of_mem_replicate hmem) (by decide), by simp⟩

/-- The messages of payloads, with the codes of what the file shows of them. -/
def coded (code : Text → Text) : Text → List (Dict PyStr (PyVal F)) → List (Text × Text)
  | _, [] => []
  | prev, p :: ps => (text p ++ prev, code (text (p.erase "hmac") ++ prev)) ::
      coded code (code (text (p.erase "hmac") ++ prev)) ps

/-- A table of codes, and for other messages the code of no message. -/
def lookup (table : List (Text × Text)) (other m : Text) : Text :=
  ((table.find? (·.1 = m)).map Prod.snd).getD other

/-- Hashes of two keys: one for the dump, with one table, and one for the others, with another. -/
def hidingHashes (dumpHash : PyStr) (table table' : List (Text × Text)) : Hashes where
  sha256 d := if d = dumpHash then [] else [0]
  hmac key m := if key = [] then lookup table ['x'] m else lookup table' ['y'] m

theorem lookup_of_mem {table : List (Text × Text)} {other m c : Text}
    (h : ∀ e ∈ table, ∀ e' ∈ table, e.1 = e'.1 → e.2 = e'.2) (hmem : (m, c) ∈ table) :
    lookup table other m = c := by
  have hsome : (table.find? (·.1 = m)).isSome :=
    List.find?_isSome.mpr ⟨(m, c), hmem, by simp⟩
  obtain ⟨e, he⟩ := Option.isSome_iff_exists.mp hsome
  have hkey : e.1 = m := by simpa using List.find?_some he
  rw [lookup, he, Option.map_some, Option.getD_some]
  exact h e (List.mem_of_find?_eq_some he) (m, c) hmem hkey

theorem lookup_cases (table : List (Text × Text)) (other m : Text) :
    (∃ c, (m, c) ∈ table ∧ lookup table other m = c) ∨ lookup table other m = other := by
  unfold lookup
  cases he : table.find? (·.1 = m) with
  | none => exact Or.inr rfl
  | some e =>
    have hkey : e.1 = m := by simpa using List.find?_some he
    exact Or.inl ⟨e.2, hkey ▸ List.mem_of_find?_eq_some he, rfl⟩

section Coded

variable {code : Text → Text} (hcode : LetterCode code)

include hcode

theorem braceFree_code (m : Text) : BraceFree (code m) := by
  obtain ⟨n, hn⟩ := hcode m
  rw [hn]
  exact braceFree_replicate n

/-- **What is in a table**: the message of a payload, with the code of the payload as the file shows
it. -/
theorem exists_of_mem_coded : ∀ {prev : Text} {ps : List (Dict PyStr (PyVal F))} {e : Text × Text},
    '}' ∉ prev → e ∈ coded code prev ps → ∃ (p : Dict PyStr (PyVal F)) (prev' : Text), '}' ∉ prev' ∧
      e = (text p ++ prev', code (text (p.erase "hmac") ++ prev')) ∧
      text (p.erase "hmac") ++ prev' ∈
        messages prev (recorded (written code prev (ps.map (·.erase "hmac"))))
  | prev, p :: ps, e, hprev, he => by
    rcases List.mem_cons.mp he with rfl | he
    · exact ⟨p, prev, hprev, rfl, List.mem_cons_self⟩
    · obtain ⟨q, prev', hprev', hq, hmem⟩ := exists_of_mem_coded (braceFree_code hcode _).1 he
      exact ⟨q, prev', hprev', hq, List.mem_cons_of_mem _ hmem⟩

/-- One message has one code. -/
theorem snd_eq_of_mem_coded {pss : List (List (Dict PyStr (PyVal F)))} :
    ∀ e ∈ pss.flatMap (coded code []), ∀ e' ∈ pss.flatMap (coded code []), e.1 = e'.1 →
      e.2 = e'.2 := by
  intro e he e' he' heq
  obtain ⟨ps, -, he⟩ := List.mem_flatMap.mp he
  obtain ⟨ps', -, he'⟩ := List.mem_flatMap.mp he'
  obtain ⟨p, prev, hprev, rfl, -⟩ := exists_of_mem_coded hcode List.not_mem_nil he
  obtain ⟨q, prev', hprev', rfl, -⟩ := exists_of_mem_coded hcode List.not_mem_nil he'
  obtain ⟨htext, rfl⟩ := payload_eq (text_brace p) (text_brace q) hprev hprev' heq
  exact congrArg (fun t => code (t ++ prev)) (text_erase_eq htext)

omit hcode in
/-- **The lines under the codes** are those of the payloads as a file shows them. -/
theorem writtenLines_coded {mac : Text → Text} {prev : Text} {ps qs : List (Dict PyStr (PyVal F))}
    (h : List.Forall₂ (fun p q => line p [] = line q []) ps qs)
    (hmac : ∀ e ∈ coded code prev ps, mac e.1 = e.2) :
    writtenLines (written mac prev ps) =
      writtenLines (written code prev (qs.map (·.erase "hmac"))) := by
  induction h generalizing prev with
  | nil => rfl
  | @cons p q ps qs hpq hps ih =>
    have hhead : mac (text p ++ prev) = code (text (q.erase "hmac") ++ prev) := by
      rw [← text_erase_of_line_eq hpq]
      exact hmac _ List.mem_cons_self
    have hline : line p (mac (text p ++ prev)) =
        line (q.erase "hmac") (code (text (q.erase "hmac") ++ prev)) := by
      rw [hhead, line_erase]
      exact line_congr hpq _
    have htail : writtenLines (written mac (mac (text p ++ prev)) ps) =
        writtenLines (written code (mac (text p ++ prev)) (qs.map (·.erase "hmac"))) :=
      ih fun e he => hmac e (by
        rw [coded, text_erase_of_line_eq hpq, ← hhead]
        exact List.mem_cons_of_mem _ he)
    rw [List.map_cons, written, written, writtenLines, writtenLines, List.map_cons, List.map_cons,
      hline]
    refine congrArg (_ :: ·) ?_
    rw [← hhead]
    exact htail

end Coded

/-- The entries of sessions of payloads, as a file shows them, under a code. -/
def codeEntries (code : Text → Text) (pss : List (List (Dict PyStr (PyVal F)))) :
    List (List (Dict PyStr (PyVal F) × Text)) :=
  pss.map fun ps => written code [] (ps.map (·.erase "hmac"))

/-- Their messages. -/
def codeMessages (code : Text → Text) (pss : List (List (Dict PyStr (PyVal F)))) : List Text :=
  (codeEntries code pss).flatMap fun es => messages [] (recorded es)

theorem writtenLines_sessions {code mac : Text → Text} : ∀ {pss qss : List (List (Dict PyStr (PyVal F)))},
    List.Forall₂ (List.Forall₂ fun p q => line p [] = line q []) pss qss →
    (∀ e ∈ pss.flatMap (coded code []), mac e.1 = e.2) →
      writtenLines (pss.map (written mac [])).flatten = writtenLines (codeEntries code qss).flatten
  | [], [], .nil, _ => rfl
  | ps :: pss, qs :: qss, .cons hps hpss, hmac => by
    rw [List.flatMap_cons, List.forall_mem_append] at hmac
    have hhead := writtenLines_coded hps hmac.1
    have htail := writtenLines_sessions hpss hmac.2
    unfold writtenLines at hhead htail ⊢
    rw [codeEntries, List.map_cons, List.map_cons, List.flatten_cons, List.flatten_cons,
      List.map_append, List.map_append, hhead, htail, codeEntries]

omit [FloatText F] in
theorem payloadsOn_eq (program : Program F) (dumpHash : PyStr) : payloadsOn program dumpHash =
    program.map fun calls => calls.map fun c => payload dumpHash (c dumpHash) := by
  rw [payloadsOn, callsOn, List.map_map]
  exact List.map_congr_left fun calls _ => List.map_map

theorem SameLines.forall₂ {program : Program F} {dumpHash dumpHash' : PyStr}
    (h : SameLines program dumpHash dumpHash') :
    List.Forall₂ (List.Forall₂ fun p q => line p [] = line q []) (payloadsOn program dumpHash')
      (payloadsOn program dumpHash) := by
  rw [payloadsOn_eq, payloadsOn_eq, List.forall₂_map_left_iff, List.forall₂_map_right_iff,
    List.forall₂_same]
  intro calls hcalls
  rw [List.forall₂_map_left_iff, List.forall₂_map_right_iff, List.forall₂_same]
  exact h calls hcalls

theorem sameLines_refl (program : Program F) (dumpHash : PyStr) :
    SameLines program dumpHash dumpHash := fun _ _ _ _ => rfl

/-! ### A file that passes under two keys -/

/-- What the check returns of records does not depend on the key. -/
theorem checkRecords_unique {mac mac' : Text → Text} {records : List (Dict PyStr (PyVal F))}
    {rs rs' : List (Record Char)} (h : checkRecords mac [] records = some rs)
    (h' : checkRecords mac' [] records = some rs') : rs = rs' := by
  obtain ⟨-, htexts, hhmacs⟩ := checkRecords_eq_some h
  obtain ⟨-, htexts', hhmacs'⟩ := checkRecords_eq_some h'
  have hfst : rs.map Prod.fst = rs'.map Prod.fst := by
    have heq := htexts.symm.trans htexts'
    have hinj := List.map_injective_iff.mpr (Option.some_injective Text)
    exact hinj (by rw [List.map_map, List.map_map]; exact heq)
  have hsnd : rs.map Prod.snd = rs'.map Prod.snd := by
    have heq := hhmacs.symm.trans hhmacs'
    have hinj : Function.Injective fun mac => some (PyVal.str (F := F) (ofChars mac)) :=
      fun _ _ h => ofChars_injective (PyVal.str.inj (Option.some.inj h))
    exact List.map_injective_iff.mpr hinj (by rw [List.map_map, List.map_map]; exact heq)
  rw [← List.zip_unzip rs, ← List.zip_unzip rs', List.unzip_eq_map, List.unzip_eq_map, hfst, hsnd]

section Passes

variable {code : Text → Text} (hcode : LetterCode code)
  {pss : List (List (Dict PyStr (PyVal F)))}

include hcode

/-- **A message with one code under both keys** is in the table of the dump, and has the code of the
message as a file shows it. -/
theorem code_of_lookup_eq {table' : List (Text × Text)} {u prev : Text}
    {r : Dict PyStr (PyVal F)} (hu : payloadJson r = some u) (hprev : '}' ∉ prev)
    (htable' : ∀ e ∈ table', ∃ m, e.2 = code m)
    (h : lookup (pss.flatMap (coded code [])) ['x'] (u ++ prev) = lookup table' ['y'] (u ++ prev)) :
    lookup (pss.flatMap (coded code [])) ['x'] (u ++ prev) = code (u ++ prev) ∧
      u ++ prev ∈ codeMessages code pss := by
  have hne : ∀ (m : Text) (c : Char), c ≠ 'a' → code m ≠ [c] := by
    intro m c hc heq
    obtain ⟨n, hn⟩ := hcode m
    have hmem : c ∈ List.replicate (n + 1) 'a' := by
      rw [← hn, heq]
      exact List.mem_singleton_self c
    exact hc (List.eq_of_mem_replicate hmem)
  rcases lookup_cases (pss.flatMap (coded code [])) ['x'] (u ++ prev) with ⟨c, hmem, hc⟩ | hother
  · obtain ⟨ps, hps, hmem⟩ := List.mem_flatMap.mp hmem
    obtain ⟨p, prev', hprev', heq, hmessage⟩ := exists_of_mem_coded hcode List.not_mem_nil hmem
    obtain ⟨hmessages, rfl⟩ := Prod.mk.inj heq
    obtain ⟨htext, rfl⟩ := payload_eq (payloadJson_brace hu) (text_brace p) hprev hprev' hmessages
    -- the text of the record has no `hmac`, so it is what a file shows of the payload
    have hshown : text (p.erase "hmac") = u := by
      obtain ⟨-, hur⟩ := dumps_ofDict_iff.mp hu
      have herase : ("hmac" : PyStr) ∉ (r.erase "hmac").keys := by
        rw [← Dict.get?_eq_none_iff, Dict.get?_erase, if_pos rfl]
      rw [text_erase_eq (htext.symm.trans hur), Dict.erase_of_not_mem herase, hur]
    rw [hshown] at hc hmessage
    exact ⟨hc, List.mem_flatMap.mpr ⟨_, List.mem_map_of_mem hps, hmessage⟩⟩
  · rcases lookup_cases table' ['y'] (u ++ prev) with ⟨c, hmem, hc⟩ | hother'
    · obtain ⟨m, hm⟩ := htable' _ hmem
      rw [hother, hc] at h
      exact absurd (hm.symm.trans h.symm) (hne m 'x' (by decide))
    · rw [hother, hother'] at h
      exact absurd h (by decide)

/-- **A chain of messages of the log only** is the log. -/
theorem recorded_of_linked (hinj : Function.Injective code) {rs : List (Record Char)}
    (hlinked : Linked code [] rs) (hframed : Framed '}' rs)
    (hmem : ∀ m ∈ messages [] rs, m ∈ codeMessages code pss)
    (hlength : rs.length = (codeEntries code pss).flatten.length) :
    rs = recorded (codeEntries code pss).flatten := by
  set ss := (codeEntries code pss).map recorded with hss
  have hflatten : recorded (codeEntries code pss).flatten = ss.flatten := by
    rw [recorded, List.map_flatten]
    rfl
  have hlength' : rs.length = ss.flatten.length := by
    rw [hlength, ← hflatten, recorded, List.length_map]
  rw [hflatten]
  by_cases hne : rs = []
  · rw [hne] at hlength' ⊢
    exact (List.length_eq_zero_iff.mp hlength'.symm).symm
  · have hchains : ∀ s ∈ ss, Linked code [] s ∧ Framed '}' s := by
      intro s hs
      obtain ⟨es, hes, rfl⟩ := List.mem_map.mp hs
      obtain ⟨ps, -, rfl⟩ := List.mem_map.mp hes
      exact ⟨linked_recorded code [] _, framed_recorded (code_written (braceFree_code hcode) [] _)⟩
    have hsub : ∀ m ∈ messages [] rs, ∃ s ∈ ss, m ∈ messages [] s := by
      intro m hm
      obtain ⟨es, hes, hm⟩ := List.mem_flatMap.mp (hmem m hm)
      exact ⟨recorded es, List.mem_map_of_mem hes, hm⟩
    obtain ⟨s, hs, hbegin⟩ := prefix_of_messages hchains hlinked hframed hsub
      (fun _ _ m _ m' _ heq => hinj heq) hne
    exact eq_flatten_of_prefix hs hbegin hlength'

end Passes

/-! ### Fields -/

theorem fieldJson_of_loaded {r : Dict PyStr (PyVal F)} (h : Loaded r) (k : PyStr) :
    fieldJson r k = ((r.get? k).map tree).map print := by
  rw [fieldJson]
  cases hk : r.get? k with
  | none => rfl
  | some v =>
    obtain ⟨t, ht⟩ := Option.isSome_iff_exists.mp (h.isSome _ (Dict.get?_eq_some_iff.mp hk))
    rw [Option.bind_some, dumps, ht, Option.map_some, Option.map_some, Option.map_some,
      tree_of_toTree ht]

/-- A payload whose text is that of a record that was read comes back. -/
theorem recheck_eq_text_of_loaded {p r : Dict PyStr (PyVal F)} (hp : Writable p) (hr : Loaded r)
    (hnot : ("hmac" : PyStr) ∉ r.keys) (h : text p = text r) : recheck p = text p := by
  have htree := print_injective h
  refine (recheck_eq_text_iff hp).mpr ⟨fun hmem => hnot ?_, ?_⟩
  · have hmem' := mem_keys_of_toObject_eq htree hmac_low (by rwa [Dict.keys_mapValues])
    rwa [Dict.keys_mapValues] at hmem'
  · rw [stable_iff (toTree_ofDict_of_isSome hp), htree]
    exact (stable_iff (toTree_ofDict_of_isSome hr.isSome)).mp hr.stable

/-- **A record with the text of a payload** has the fields of the payload. -/
theorem fieldJson_eq {p r : Dict PyStr (PyVal F)} (hp : Writable p) (hr : Loaded r)
    (h : payloadJson r = some (text p)) (mac : Text) {k : PyStr} (hk : k ≠ "hmac") :
    fieldJson (readRecord p mac) k = fieldJson r k := by
  have hread := loaded_readRecord p mac
  have herase := hr.erase "hmac"
  have htext : text p = text (r.erase "hmac") := (dumps_ofDict_iff.mp h).2
  have hnot : ("hmac" : PyStr) ∉ (r.erase "hmac").keys := by
    rw [← Dict.get?_eq_none_iff, Dict.get?_erase, if_pos rfl]
  have hrecheck := recheck_eq_text_of_loaded hp herase hnot htext
  have hread' := (dumps_ofDict_iff.mp (dumps_erase_readRecord p mac)).2
  rw [hrecheck, htext] at hread'
  have hget := (hread.erase "hmac").get?_eq herase (print_injective hread'.symm) k
  rw [Dict.get?_erase, Dict.get?_erase, if_neg (Ne.symm hk), if_neg (Ne.symm hk)] at hget
  rw [fieldJson_of_loaded hread, fieldJson_of_loaded hr, hget]

/-- Records with the texts of payloads have their fields. -/
theorem fields_eq_of_texts {es : List (Dict PyStr (PyVal F) × Text)}
    {records : List (Dict PyStr (PyVal F))} (hes : ∀ e ∈ es, Writable e.1)
    (hrecords : ∀ r ∈ records, Loaded r)
    (htexts : records.map payloadJson = es.map fun e => some (text e.1)) (i : ℕ) {k : PyStr}
    (hk : k ≠ "hmac") : ((es.map fun e => readRecord e.1 e.2)[i]?).bind (fieldJson · k) =
      (records[i]?).bind (fieldJson · k) := by
  have hi := congrArg (·[i]?) htexts
  simp only [List.getElem?_map] at hi
  rw [List.getElem?_map]
  cases he : es[i]? with
  | none =>
    rw [he, Option.map_none, Option.map_eq_none_iff] at hi
    rw [hi]
    rfl
  | some e =>
    rw [he] at hi
    obtain ⟨r, hr, htext⟩ := Option.map_eq_some_iff.mp hi
    rw [hr]
    exact fieldJson_eq (hes e (List.mem_of_getElem? he)) (hrecords r (List.mem_of_getElem? hr))
      htext e.2 hk

/-! ### A file that hides the dump -/

theorem writable_codeEntries (code : Text → Text) {program : Program F} {dumpHash : PyStr}
    (h : Completes program dumpHash) :
    ∀ e ∈ (codeEntries code (payloadsOn program dumpHash)).flatten, Writable e.1 := by
  intro e he
  obtain ⟨es, hes, he⟩ := List.mem_flatten.mp he
  obtain ⟨ps, hps, rfl⟩ := List.mem_map.mp hes
  obtain ⟨calls, hcalls, rfl⟩ := List.mem_map.mp hps
  have hmem := List.mem_map_of_mem (f := Prod.fst) he
  rw [fst_written] at hmem
  obtain ⟨p, hp, hpe⟩ := List.mem_map.mp hmem
  obtain ⟨c, hc, rfl⟩ := List.mem_map.mp hp
  rw [← hpe]
  intro e' he'
  exact (writable_payload_iff dumpHash c).mpr (h.2 calls hcalls c hc).2.2.1 e'
    (List.mem_of_mem_filter he')

/-- Every code of a table is one of the code. -/
theorem exists_of_mem_table {code : Text → Text}
    (hcode : LetterCode code)
    {pss : List (List (Dict PyStr (PyVal F)))} :
    ∀ e ∈ pss.flatMap (coded code []), ∃ m, e.2 = code m := by
  intro e he
  obtain ⟨ps, -, he⟩ := List.mem_flatMap.mp he
  obtain ⟨p, prev, -, rfl, -⟩ := exists_of_mem_coded hcode List.not_mem_nil he
  exact ⟨_, rfl⟩

/-- **A file that passes under both keys** is made of the texts of the log. -/
theorem recorded_of_check {code : Text → Text} (hinj : Function.Injective code)
    (hcode : LetterCode code)
    {pss : List (List (Dict PyStr (PyVal F)))} {table' : List (Text × Text)}
    (htable' : ∀ e ∈ table', ∃ m, e.2 = code m)
    {records : List (Dict PyStr (PyVal F))} {rs rs' : List (Record Char)}
    (hcheck : checkRecords (lookup (pss.flatMap (coded code [])) ['x']) [] records = some rs)
    (hcheck' : checkRecords (lookup table' ['y']) [] records = some rs')
    (hlength : records.length = (codeEntries code pss).flatten.length) :
    rs = recorded (codeEntries code pss).flatten := by
  obtain rfl : rs = rs' := checkRecords_unique hcheck hcheck'
  obtain ⟨hlinked, htexts, -⟩ := checkRecords_eq_some hcheck
  have hframed : Framed '}' rs := framed_of_checkRecords hcheck fun m => by
    rcases lookup_cases (pss.flatMap (coded code [])) ['x'] m with ⟨c, hmem, hc⟩ | hother
    · obtain ⟨m', hm'⟩ := exists_of_mem_table hcode _ hmem
      rw [hc, show c = code m' from hm']
      exact braceFree_code hcode m'
    · rw [hother]
      exact ⟨by decide, by decide⟩
  have hmessages : ∀ m ∈ messages [] rs, lookup (pss.flatMap (coded code [])) ['x'] m = code m ∧
      m ∈ codeMessages code pss := by
    intro m hm
    have heq := mac_eq_of_linked hlinked (checkRecords_eq_some hcheck').1 m hm
    obtain ⟨pre, r, post, rfl, rfl⟩ := mem_messages hm
    have hmem : some r.1 ∈ records.map payloadJson :=
      htexts ▸ List.mem_map_of_mem (List.mem_append_right _ List.mem_cons_self)
    obtain ⟨record, -, hrecord⟩ := List.mem_map.mp hmem
    exact code_of_lookup_eq hcode hrecord (hframed.left.not_mem_last List.not_mem_nil) htable' heq
  have hlength' : rs.length = (codeEntries code pss).flatten.length := by
    have := congrArg List.length htexts
    rw [List.length_map, List.length_map] at this
    rw [← this, hlength]
  exact recorded_of_linked hcode hinj (hlinked.congr fun m hm => (hmessages m hm).1) hframed
    (fun m hm => (hmessages m hm).2) hlength'

/-- **What a program writes under a table of its messages.** -/
theorem run_of_table {code : Text → Text} (hcode : LetterCode code)
    {program : Program F} {dumpHash dumpHash' : PyStr} (h' : Completes program dumpHash')
    (hsame : SameLines program dumpHash dumpHash') {H : Hashes} {other : Text}
    (hmac : H.hmac (H.sha256 dumpHash') =
      lookup ((payloadsOn program dumpHash').flatMap (coded code [])) other) :
    runSessions H dumpHash' [] (callsOn program dumpHash') =
      some (unlines (writtenLines (codeEntries code (payloadsOn program dumpHash)).flatten)) := by
  rw [h'.run_eq, sessionsEntries_callsOn, hmac]
  exact congrArg (fun l => some (unlines l)) (writtenLines_sessions hsame.forall₂ fun e he =>
    lookup_of_mem (snd_eq_of_mem_coded hcode) he)

/-- **Where another dump has the lines** no function forges the file: under hashes that tell the two
keys apart on other messages only, what passes under both keys is the file. -/
theorem not_forgeable_of_hidden {program : Program F} {dumpHash : PyStr}
    (h : Completes program dumpHash) (hhidden : Hidden program dumpHash) :
    ¬ Forgeable program dumpHash := by
  rintro ⟨forge, hforge⟩
  obtain ⟨dumpHash', hne, h', hsame⟩ := hhidden
  obtain ⟨code, hinj, hcode⟩ := exists_code
  set table := (payloadsOn program dumpHash).flatMap (coded code [])
  set table' := (payloadsOn program dumpHash').flatMap (coded code [])
  set H := hidingHashes dumpHash table table'
  have hmac : H.hmac (H.sha256 dumpHash) = lookup table ['x'] := by
    funext m
    simp [H, hidingHashes]
  have hmac' : H.hmac (H.sha256 dumpHash') = lookup table' ['y'] := by
    funext m
    simp [H, hidingHashes, hne]
  -- one file for the two dumps, so what is made of it passes under both keys
  have hrun := run_of_table hcode h (sameLines_refl program dumpHash) hmac
  have hrun' := run_of_table hcode h' hsame hmac'
  obtain ⟨records, records', hloads, hloads', hlength, hcheck, i, k, -, hk, hchanged⟩ :=
    hforge H dumpHash _ hrun hrun
  obtain ⟨_, _, -, -, -, hcheck', -⟩ := hforge H dumpHash' _ hrun hrun'
  rw [loadsLines_writtenLines, Option.some.injEq] at hloads
  obtain ⟨rs, hrs⟩ := Option.isSome_iff_exists.mp hcheck
  obtain ⟨rs', hrs'⟩ := Option.isSome_iff_exists.mp hcheck'
  unfold checkFile at hrs hrs'
  simp only [hloads', hmac] at hrs
  simp only [hloads', hmac'] at hrs'
  -- so it has the texts of the payloads, and no field is changed
  have htexts := (checkRecords_eq_some hrs).2.1
  rw [recorded_of_check hinj hcode (exists_of_mem_table hcode) hrs hrs'
    (by rw [hlength, ← hloads, List.length_map]), recorded, List.map_map] at htexts
  rw [← hloads] at hchanged
  exact hchanged (fields_eq_of_texts (writable_codeEntries code h) (loaded_of_loadsLines hloads')
    htexts i hk)

/-- **One forger for all dumps** is a forger for each of them. -/
theorem forall_forgeable_iff {program : Program F} : (∀ dumpHash, Forgeable program dumpHash) ↔
    ∃ forge : Hashes → Text → Text, ∀ H dumpHash log,
      runSessions H dumpHash [] (callsOn program dumpHash) = some log →
        Forged F (H.hmac (H.sha256 dumpHash)) log (forge H log) := by
  classical
  constructor
  · intro h
    choose forge hforge using h
    -- any dump that writes the file will do
    refine ⟨fun H log => if hw : ∃ d, runSessions H d [] (callsOn program d) = some log
      then forge hw.choose H log else [], fun H dumpHash log hrun => ?_⟩
    have hw : ∃ d, runSessions H d [] (callsOn program d) = some log := ⟨dumpHash, hrun⟩
    simp only [dif_pos hw]
    exact hforge hw.choose H dumpHash log hw.choose_spec hrun
  · rintro ⟨forge, hforge⟩ dumpHash
    exact ⟨forge, fun H dumpHash' log _ hrun => hforge H dumpHash' log hrun⟩

/-- **The same lines hold the same hash**: a field of any name that holds it in one line tells it. -/
theorem SameLines.eq_of_field {program : Program F} {dumpHash dumpHash' : PyStr}
    (hsame : SameLines program dumpHash dumpHash') {c : PyStr → Call F} (hc : c ∈ program.flatten)
    {k : PyStr} (hk : Low k) (hne : k ≠ "hmac")
    (hfield : ∀ d, (payload d (c d)).get? k = some (.str d)) (hd : Utf8Encodable dumpHash)
    (hd' : Utf8Encodable dumpHash') : dumpHash' = dumpHash := by
  obtain ⟨calls, hcalls, hc⟩ := List.mem_flatten.mp hc
  have hread := congrArg (loadsObject (F := F)) (hsame calls hcalls c hc)
  rw [loadsObject_line, loadsObject_line, Option.some_inj] at hread
  have hget := congrArg (·.get? k) hread
  simp only [get?_readRecord _ _ hk, Dict.get?_set, if_neg (Ne.symm hne), hfield, Option.map_some,
    Option.some.injEq] at hget
  have hnormal : normal dumpHash' = normal dumpHash := PyVal.str.inj hget
  rwa [normal_of_encodable hd', normal_of_encodable hd] at hnormal

/-- **A field that holds the hash** on every dump tells the dump, whatever its name. -/
theorem forgeable_of_field {program : Program F} {c : PyStr → Call F} (hc : c ∈ program.flatten)
    {k : PyStr} (hk : Low k) (hne : k ≠ "hmac")
    (hfield : ∀ d, (payload d (c d)).get? k = some (.str d)) {dumpHash : PyStr}
    (hd : Utf8Encodable dumpHash) : Forgeable program dumpHash := by
  refine forgeable_of_not_hidden (List.ne_nil_of_mem hc) ?_
  rintro ⟨dumpHash', hother, h', hsame⟩
  exact hother (hsame.eq_of_field hc hk hne hfield hd h'.1)

/-- Calls that do not depend on the dump. -/
def constant (sessions : List (List (Call F))) : Program F :=
  sessions.map fun calls => calls.map fun c _ => c

/-- **Calls that do not depend on the dump** hide it exactly if each has a `dump_hash` of its own. -/
theorem hidden_constant_iff (sessions : List (List (Call F))) {dumpHash : PyStr}
    (h : Completes (constant sessions) dumpHash) :
    Hidden (constant sessions) dumpHash ↔
      ∀ c ∈ sessions.flatten, ("dump_hash" : PyStr) ∈ c.fields.keys := by
  constructor
  · rintro ⟨dumpHash', hother, h', hsame⟩ c hc
    by_contra hnot
    have hmem : (fun _ => c) ∈ (constant sessions).flatten := by
      rw [constant, ← List.map_flatten]
      exact List.mem_map_of_mem hc
    exact hother (hsame.eq_of_field hmem (by decide) (by decide) (get?_dump_hash_payload hnot) h.1 h'.1)
  · intro hall
    obtain ⟨dumpHash', hother, hd'⟩ : ∃ d : PyStr, d ≠ dumpHash ∧ Utf8Encodable d := by
      by_cases hd : dumpHash = "d"
      · exact ⟨"e", by rw [hd]; decide, by decide⟩
      · exact ⟨"d", Ne.symm hd, by decide⟩
    have hcalls : callsOn (constant sessions) dumpHash' = callsOn (constant sessions) dumpHash := by
      simp only [callsOn, constant, List.map_map, Function.comp_def]
    refine ⟨dumpHash', hother, ⟨hd', hcalls ▸ h.2⟩, fun calls' hcalls' c' hc' => ?_⟩
    obtain ⟨calls, hcalls, rfl⟩ := List.mem_map.mp hcalls'
    obtain ⟨c, hc, rfl⟩ := List.mem_map.mp hc'
    dsimp only
    rw [payload_eq_of_mem (hall c (List.mem_flatten.mpr ⟨calls, hcalls, hc⟩)) dumpHash' dumpHash]

/-- **Where the hash is read** in the field `dump_hash` of a record, the forger forges every file. -/
theorem forged_of_dump_hash {program : Program F} {c : PyStr → Call F} (hc : c ∈ program.flatten)
    (hshown : ∀ d, (payload d (c d)).get? "dump_hash" = some (.str d)) :
    ∃ i, ∀ H dumpHash log, runSessions H dumpHash [] (callsOn program dumpHash) = some log →
      Forged F (H.hmac (H.sha256 dumpHash)) log (forge F i H log) := by
  obtain ⟨i, hi⟩ := List.mem_iff_getElem?.mp hc
  refine ⟨i, fun H dumpHash log hrun => ?_⟩
  obtain ⟨hd, -, rfl⟩ := runSessions_eq hrun
  have hne : callsOn program dumpHash ≠ [] := by
    intro hnil
    rw [List.map_eq_nil_iff.mp hnil] at hc
    cases hc
  have hfst := congrArg (·[i]?) (fst_entries_callsOn H program dumpHash)
  simp only [List.getElem?_map, hi, Option.map_some] at hfst
  obtain ⟨e, he, hp⟩ := Option.map_eq_some_iff.mp hfst
  exact forged_forge (hd hne) he (by rw [hp]; exact hshown dumpHash)

/-- A call with a `dump_hash` that is withheld. -/
def hiddenCall : Call Empty where
  ts := "2026-08-17T12:00:00+00:00"
  eventName := "scan_completed"
  fields := Dict.ofList [("dump_hash", .str "withheld"), ("nodes", .int 10)]
  writeRaises := false

end VantaCore.Core.Audit.Unforgeable
