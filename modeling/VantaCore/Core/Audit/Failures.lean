import VantaCore.Core.Audit.Chain

/-! # Calls that raise

`record` keeps the HMAC of a payload before it writes the line. A call that raises earlier leaves the
trail as it was; one whose write raises leaves an HMAC without a line, and the next line is chained to
it (`recordEach_eq`). So what the returning calls wrote passes the check if none of them comes after such
a call, and without collisions only then (`check_returned`). -/

namespace VantaCore.Core.Audit.Failures

open VantaCore.Lib VantaCore.Lib.MacChain VantaCore.Lib.PyText VantaCore.Lib.Json.Strings
open VantaCore.Lib.Json.Text VantaCore.Lib.Json.Values VantaCore.Lib.Json.Lines
open VantaCore.Core.Audit.Trail VantaCore.Core.Audit.Line VantaCore.Core.Audit.Runs
open VantaCore.Core.Audit.Chain

variable {F : Type} [FloatText F] {H : Hashes} {t : ForensicAuditTrail} {file : Text}
  {dumpHash : PyStr} {c : Call F} {calls : List (Call F)}

/-- Calls of `record` on one trail, whether they return or raise. -/
def recordEach (H : Hashes) (t : ForensicAuditTrail) (file : Text) (calls : List (Call F)) :
    ForensicAuditTrail × Text :=
  calls.foldl (fun p c => (record H p.1 p.2 c).2) (t, file)

/-! ### One call -/

/-- The call gets as far as its HMAC. -/
def Hashed (c : Call F) : Prop :=
  ("self" : PyStr) ∉ c.fields.keys ∧ ("event_name" : PyStr) ∉ c.fields.keys ∧ Writable c.fields

instance (c : Call F) : Decidable (Hashed c) := inferInstanceAs (Decidable (_ ∧ _ ∧ _))

theorem returns_iff : Returns c ↔ Hashed c ∧ c.writeRaises = false := by
  unfold Returns Hashed
  rw [and_assoc, and_assoc]

/-- A call that raises before its HMAC leaves everything as it was. -/
theorem record_snd_of_not_hashed (h : ¬ Hashed c) : (record H t file c).2 = (t, file) := by
  unfold record
  by_cases hnames : ("self" : PyStr) ∈ c.fields.keys ∨ ("event_name" : PyStr) ∈ c.fields.keys
  · rw [if_pos hnames]
  · rw [if_neg hnames]
    rw [not_or] at hnames
    have hnot : ¬ Writable (payload t.dumpHash c) := fun hp =>
      h ⟨hnames.1, hnames.2, (writable_payload_iff _ c).mp hp⟩
    have hnone : dumps (ofDict (payload t.dumpHash c)) = none :=
      Option.eq_none_iff_forall_ne_some.mpr fun cs hcs => hnot (dumps_ofDict_iff.mp hcs).1
    simp only [hnone]

/-- **A call that gets as far as its HMAC keeps it**, also if the write raises. -/
theorem record_snd_of_hashed (hopen : t.closed = false) (h : Hashed c) :
    (record H t file c).2 =
      let p := payload t.dumpHash c
      let mac := H.hmac t.hmacKey (text p ++ t.prevHmac)
      ({ t with prevHmac := mac },
        if c.writeRaises then file else file ++ (line p mac ++ ['\n'])) := by
  have hnames : ¬ (("self" : PyStr) ∈ c.fields.keys ∨ ("event_name" : PyStr) ∈ c.fields.keys) :=
    not_or.mpr ⟨h.1, h.2.1⟩
  have hp : Writable (payload t.dumpHash c) := (writable_payload_iff _ c).mpr h.2.2
  unfold record
  rw [if_neg hnames]
  simp only [dumps_ofDict_iff.mpr ⟨hp, rfl⟩, dumps_line hp, hopen]
  cases c.writeRaises <;> rfl

/-! ### Many calls -/

/-- The calls and their HMACs, each computed with the one before. -/
def attempts (mac : Text → Text) (dumpHash : PyStr) : Text → List (Call F) → List (Call F × Text)
  | _, [] => []
  | prev, c :: cs =>
    let code := mac (text (payload dumpHash c) ++ prev)
    (c, code) :: attempts mac dumpHash code cs

omit [FloatText F] in
/-- The payload and the HMAC of an attempt. -/
def entry (dumpHash : PyStr) (a : Call F × Text) : Dict PyStr (PyVal F) × Text :=
  (payload dumpHash a.1, a.2)

/-- The line of an attempt is written. -/
def kept (a : Call F × Text) : Bool := !a.1.writeRaises

theorem map_entry_attempts (mac : Text → Text) : ∀ (prev : Text) (cs : List (Call F)),
    (attempts mac dumpHash prev cs).map (entry dumpHash) =
      written mac prev (cs.map (payload dumpHash))
  | _, [] => rfl
  | _, _ :: cs => congrArg (_ :: ·) (map_entry_attempts mac _ cs)

theorem map_fst_attempts (mac : Text → Text) : ∀ (prev : Text) (cs : List (Call F)),
    (attempts mac dumpHash prev cs).map Prod.fst = cs
  | _, [] => rfl
  | _, c :: cs => congrArg (c :: ·) (map_fst_attempts mac _ cs)

/-- The attempts of the calls that get as far as their HMAC. -/
def tried (H : Hashes) (dumpHash : PyStr) (calls : List (Call F)) : List (Call F × Text) :=
  attempts (H.hmac (H.sha256 dumpHash)) dumpHash [] (calls.filter fun c => Hashed c)

theorem map_fst_tried (H : Hashes) (dumpHash : PyStr) (calls : List (Call F)) :
    (tried H dumpHash calls).map Prod.fst = calls.filter fun c => Hashed c := map_fst_attempts _ _ _

/-- What the returning calls write. -/
def returned (H : Hashes) (dumpHash : PyStr) (calls : List (Call F)) :
    List (Dict PyStr (PyVal F) × Text) :=
  ((tried H dumpHash calls).filter kept).map (entry dumpHash)

/-- **The file holds the lines of the returning calls**, chained through the HMACs of the others. -/
theorem recordEach_eq (calls : List (Call F)) (hopen : t.closed = false) :
    (recordEach H t file calls).2 = file ++ unlines (writtenLines
      (((attempts (H.hmac t.hmacKey) t.dumpHash t.prevHmac (calls.filter fun c => Hashed c)).filter
        kept).map (entry t.dumpHash))) := by
  induction calls generalizing t file with
  | nil => exact (List.append_nil file).symm
  | cons c calls ih =>
    have hcons : recordEach H t file (c :: calls) =
        recordEach H (record H t file c).2.1 (record H t file c).2.2 calls := rfl
    rw [hcons]
    by_cases h : Hashed c
    · have hfilter : (c :: calls).filter (fun c => Hashed c) = c :: calls.filter fun c => Hashed c :=
        List.filter_cons_of_pos (decide_eq_true h)
      rw [hfilter, attempts, List.filter_cons, kept, record_snd_of_hashed hopen h]
      dsimp only
      rw [ih]
      · cases c.writeRaises with
        | true => rfl
        | false =>
          simp only [Bool.false_eq_true, if_false, Bool.not_false, if_true, writtenLines, unlines,
            List.map_cons, List.flatMap_cons, List.append_assoc, entry]
      · exact hopen
    · have hfilter : (c :: calls).filter (fun c => Hashed c) = calls.filter fun c => Hashed c :=
        List.filter_cons_of_neg fun hd => h (of_decide_eq_true hd)
      rw [hfilter, record_snd_of_not_hashed h]
      exact ih hopen

theorem recordEach_init (hinit : init H dumpHash = .ok t) (calls : List (Call F)) :
    (recordEach H t [] calls).2 = unlines (writtenLines (returned H dumpHash calls)) := by
  unfold init at hinit
  split_ifs at hinit
  obtain rfl := Except.ok.inj hinit
  exact (recordEach_eq calls rfl).trans (List.nil_append _)

/-! ### The check -/

/-- No call whose write raises comes before one that returns. -/
def Unbroken (calls : List (Call F)) : Prop :=
  calls.Pairwise fun c c' => Hashed c → c.writeRaises = true → ¬ Returns c'

instance (calls : List (Call F)) : Decidable (Unbroken calls) :=
  inferInstanceAs (Decidable (calls.Pairwise _))

/-- The messages the trail computes HMACs of. -/
def hashedMessages (H : Hashes) (dumpHash : PyStr) (calls : List (Call F)) : List Text :=
  messages [] (recorded ((tried H dumpHash calls).map (entry dumpHash)))

theorem linked_tried (H : Hashes) (dumpHash : PyStr) (calls : List (Call F)) :
    Linked (H.hmac (H.sha256 dumpHash)) []
      (recorded ((tried H dumpHash calls).map (entry dumpHash))) := by
  unfold tried
  rw [map_entry_attempts]
  exact linked_recorded _ _ _

/-- Nothing is kept behind a gap exactly if the calls are unbroken. -/
theorem pairwise_tried_iff : ((tried H dumpHash calls).Pairwise fun a b =>
    kept a = false → kept b = false) ↔ Unbroken calls := by
  have hmap : ((tried H dumpHash calls).Pairwise fun a b => kept a = false → kept b = false) ↔
      ((tried H dumpHash calls).map Prod.fst).Pairwise fun c c' =>
        (!c.writeRaises) = false → (!c'.writeRaises) = false := by
    rw [List.pairwise_map]
    rfl
  rw [hmap, map_fst_tried, List.pairwise_filter]
  unfold Unbroken
  refine iff_of_eq (congrArg (calls.Pairwise ·) (funext₂ fun c c' => propext ?_))
  rw [returns_iff]
  cases c.writeRaises <;> cases c'.writeRaises <;> simp

theorem mem_returned {e : Dict PyStr (PyVal F) × Text} (he : e ∈ returned H dumpHash calls) :
    ∃ c ∈ calls, Returns c ∧ e.1 = payload dumpHash c := by
  obtain ⟨a, ha, rfl⟩ := List.mem_map.mp he
  obtain ⟨ha, hkept⟩ := List.mem_filter.mp ha
  have hmem : a.1 ∈ calls.filter fun c => Hashed c := by
    rw [← map_fst_tried H dumpHash]
    exact List.mem_map_of_mem ha
  obtain ⟨hc, hhashed⟩ := List.mem_filter.mp hmem
  have hwrite : a.1.writeRaises = false := by
    unfold kept at hkept
    rwa [Bool.not_eq_true'] at hkept
  exact ⟨a.1, hc, returns_iff.mpr ⟨of_decide_eq_true hhashed, hwrite⟩, rfl⟩

theorem exists_mem_returned (hc : c ∈ calls) (h : Returns c) :
    ∃ e ∈ returned H dumpHash calls, e.1 = payload dumpHash c := by
  obtain ⟨hhashed, hwrite⟩ := returns_iff.mp h
  have hmem : c ∈ (tried H dumpHash calls).map Prod.fst := by
    rw [map_fst_tried]
    exact List.mem_filter.mpr ⟨hc, decide_eq_true hhashed⟩
  obtain ⟨a, ha, rfl⟩ := List.mem_map.mp hmem
  have hkept : kept a = true := by
    unfold kept
    rw [hwrite]
    rfl
  exact ⟨_, List.mem_map_of_mem (List.mem_filter.mpr ⟨ha, hkept⟩), rfl⟩

/-- The returning calls are rechecked as they were recorded exactly if they are verifiable. -/
theorem rechecked_returned_iff : rechecked (returned H dumpHash calls) =
    recorded (returned H dumpHash calls) ↔ ∀ c ∈ calls, Returns c → Verifiable dumpHash c := by
  have hwritable : ∀ e ∈ returned H dumpHash calls, Writable e.1 := by
    intro e he
    obtain ⟨c, -, hc, heq⟩ := mem_returned he
    rw [heq]
    exact (writable_payload_iff _ c).mpr hc.2.2.1
  rw [rechecked_eq_recorded_iff hwritable]
  constructor
  · intro h c hc hreturns
    obtain ⟨e, he, heq⟩ := @exists_mem_returned _ _ H dumpHash _ _ hc hreturns
    have hverifiable := h e he
    rw [heq, hmac_mem_payload] at hverifiable
    exact hverifiable
  · intro h e he
    obtain ⟨c, hc, hreturns, heq⟩ := mem_returned he
    rw [heq, hmac_mem_payload]
    exact h c hc hreturns

/-- **Calls of which some raise**: what the returning ones wrote passes the check if they are
verifiable and none comes behind a call whose write raises, whatever the hashes; if it passes, the
HMACs are hexadecimal digests and no message that was hashed collides with one that is rechecked, this
is so. -/
theorem check_returned (hinit : init H dumpHash = .ok t) :
    ((∀ c ∈ calls, Returns c → Verifiable dumpHash c) → Unbroken calls →
      (checkFile F (H.hmac (H.sha256 dumpHash)) (recordEach H t [] calls).2).isSome) ∧
    ∀ rs, checkFile F (H.hmac (H.sha256 dumpHash)) (recordEach H t [] calls).2 = some rs →
      (∀ m, HexDigest (H.hmac (H.sha256 dumpHash) m)) →
      CollisionFree (H.hmac (H.sha256 dumpHash)) (messages [] rs) (hashedMessages H dumpHash calls) →
      (∀ c ∈ calls, Returns c → Verifiable dumpHash c) ∧ Unbroken calls := by
  have hlinked := linked_tried H dumpHash calls
  have hreturned : recorded (returned H dumpHash calls) =
      ((tried H dumpHash calls).filter kept).map
        fun a => (text (payload dumpHash a.1), a.2) := by
    unfold recorded returned
    rw [List.map_map]
    rfl
  unfold recorded at hlinked
  rw [List.map_map] at hlinked
  rw [recordEach_init hinit]
  constructor
  · intro hverifiable hunbroken
    have hkept := linked_kept hlinked (pairwise_tried_iff.mpr hunbroken)
    refine Option.isSome_iff_exists.mpr ⟨_, checkFile_unlines.mpr ⟨rfl, ?_⟩⟩
    rw [rechecked_returned_iff.mpr hverifiable, hreturned]
    exact hkept
  · intro rs hrs hhex hfree
    obtain ⟨rfl, hrechecked⟩ := checkFile_unlines.mp hrs
    have hdigest : ∀ e ∈ (tried H dumpHash calls).map (entry dumpHash), BraceFree e.2 := by
      unfold tried
      rw [map_entry_attempts]
      exact code_written (fun m => (hhex m).braceFree) [] _
    have hsub : returned H dumpHash calls ⊆ (tried H dumpHash calls).map (entry dumpHash) :=
      List.map_subset _ (List.filter_subset_self _)
    have hframed := framed_recorded hdigest
    unfold recorded at hframed
    unfold hashedMessages recorded at hfree
    rw [List.map_map] at hframed hfree
    obtain ⟨heq, hpairwise⟩ := pairwise_of_kept hlinked hrechecked hframed
      (framed_rechecked fun e he => hdigest e (hsub he)) (by rw [snd_rechecked, hreturned]; rfl) hfree
    exact ⟨rechecked_returned_iff.mp (heq.trans hreturned.symm), pairwise_tried_iff.mp hpairwise⟩

/-- A call with a field that is not serialisable. -/
def unserialisableCall : Call Empty := { sampleCall with fields := Dict.ofList [("nodes", .other)] }

/-- A call whose write raises. -/
def failingCall : Call Empty := { sampleCall with writeRaises := true }

/-- The trail of a dump. -/
def sampleTrail : ForensicAuditTrail := ⟨"d", [], [], false⟩

/-- Calls that raise before their HMAC or behind the last line do no harm. -/
theorem check_returned_sample : ∃ rs,
    init lengthHashes "d" = .ok sampleTrail ∧
    checkFile Empty (lengthHashes.hmac (lengthHashes.sha256 "d")) (recordEach lengthHashes sampleTrail []
      [unserialisableCall, sampleCall, failingCall]).2 = some rs ∧
    (∀ c ∈ [unserialisableCall, sampleCall, failingCall], Returns c → Verifiable "d" c) ∧
    Unbroken [unserialisableCall, sampleCall, failingCall] := by
  have hinit : init lengthHashes "d" = .ok sampleTrail := rfl
  have hcheck := @check_returned Empty _ lengthHashes sampleTrail "d"
    [unserialisableCall, sampleCall, failingCall] hinit
  obtain ⟨rs, hrs⟩ := Option.isSome_iff_exists.mp (hcheck.1 (by decide) (by decide))
  have hfree : CollisionFree (lengthHashes.hmac (lengthHashes.sha256 "d")) (messages [] rs)
      (hashedMessages lengthHashes "d" [unserialisableCall, sampleCall, failingCall]) := by
    have hfile := hrs
    rw [recordEach_init hinit] at hfile
    rw [(checkFile_unlines.mp hfile).1]
    decide +kernel
  exact ⟨rs, hinit, hrs, hcheck.2 rs hrs (hexDigest_lengthHashes _) hfree⟩

/-- **A line that is not written breaks the chain.** -/
theorem not_check_returned : ¬ ∀ (H : Hashes) (dumpHash : PyStr) (t : ForensicAuditTrail)
    (calls : List (Call Empty)), init H dumpHash = .ok t →
      (checkFile Empty (H.hmac (H.sha256 dumpHash)) (recordEach H t [] calls).2).isSome := by
  intro h
  have hinit : init lengthHashes "d" = .ok sampleTrail := rfl
  have hcheck := h lengthHashes "d" sampleTrail [failingCall, sampleCall] hinit
  rw [recordEach_init hinit] at hcheck
  exact absurd hcheck (by decide +kernel)

end VantaCore.Core.Audit.Failures
