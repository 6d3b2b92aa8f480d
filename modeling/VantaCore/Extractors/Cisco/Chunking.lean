import VantaCore.Extractors.Cisco.Asa.ConnTable
import VantaCore.Extractors.Cisco.Asa.AclRules
import VantaCore.Extractors.Cisco.Common.SnmpConfig
import VantaCore.Extractors.Cisco.Ios.RoutingTable

/-! # Findings and chunks

The four text scanners search every chunk for itself. What they find is what they find in the dump as
one chunk exactly if nothing at the end of a chunk is read otherwise (`sameFindings_iff`). -/

namespace VantaCore.Extractors.Cisco.Chunking

open VantaCore.Core.DumpHandle VantaCore.Lib.Chunks VantaCore.Lib.Search VantaCore.Lib.PyText
open VantaCore.Lib.FirstBy VantaCore.Extractors.Cisco.TextScan VantaCore.Extractors.Cisco.ChunkEnds
open VantaCore.Extractors.Cisco

/-- The findings with chunks of `n` bytes are the findings with chunks of `m` bytes. -/
structure SameFindings (n m : ℕ) (dump : Dump) : Prop where
  connections : ∀ e, e ∈ (Asa.ConnTable.run n dump).map Asa.ConnTable.ConnEntry.withoutId ↔
    e ∈ (Asa.ConnTable.run m dump).map Asa.ConnTable.ConnEntry.withoutId
  rules : ∀ e, e ∈ Asa.AclRules.run n dump ↔ e ∈ Asa.AclRules.run m dump
  strings : ∀ f, f ∈ Common.SnmpConfig.run true n dump ↔ f ∈ Common.SnmpConfig.run true m dump
  routes : ∀ e, e ∈ Ios.RoutingTable.run n dump ↔ e ∈ Ios.RoutingTable.run m dump

/-- No finding depends on what is read otherwise at the end of a chunk. -/
structure Unaffected (n : ℕ) (dump : Dump) : Prop where
  connections : ReadAlike Asa.ConnTable.hitKey n Asa.ConnTable.passes dump
  rules : Asa.AclRules.SameRules n dump
  strings : Common.SnmpConfig.SameStrings n dump
  routes : ReadAlike Ios.RoutingTable.hitKey n Ios.RoutingTable.passes dump
  staticRoutes : Ios.RoutingTable.StaticInOrder n dump

/-- **The chunks change nothing exactly if nothing is affected.** -/
theorem sameFindings_iff {m : ℕ} {dump : Dump} (hlen : dump.length ≤ maxHops * chunkSize)
    (hm : dump.length ≤ m) : SameFindings chunkSize m dump ↔ Unaffected chunkSize dump := by
  have hn : 0 < chunkSize := by decide
  have hdvd : 64 ∣ chunkSize := by decide
  have hconn := Asa.ConnTable.sameConnections_iff hn hlen hm
  have hacl := Asa.AclRules.sameRules_iff hn hlen hm
  have hsnmp := Common.SnmpConfig.sameStrings_iff hn hdvd hlen hm
  have hroute := Ios.RoutingTable.sameRoutes_iff hn hlen hm
  constructor
  · intro h
    obtain ⟨halike, hstatic⟩ := hroute.mp h.routes
    exact ⟨hconn.mp h.connections, hacl.mp h.rules, hsnmp.mp h.strings, halike, hstatic⟩
  · intro h
    exact ⟨hconn.mpr h.connections, hacl.mpr h.rules, hsnmp.mpr h.strings,
      hroute.mpr ⟨h.routes, h.staticRoutes⟩⟩

/-! ### A string at the start of a chunk -/

/-- A configuration line without anything before or behind it. -/
def communityLine : List UInt8 := ascii "snmp-server community x"

/-- The line begins the second chunk. -/
def lineImage : Dump := List.replicate 65536 0 ++ communityLine

theorem length_lineImage : lineImage.length = 65559 := by
  unfold lineImage
  rw [List.length_append, List.length_replicate]
  rfl

/-- What the scanners search for. -/
def searchPatterns : List (List UInt8) :=
  Asa.ConnTable.passes.map Pass.pattern ++ Asa.AclRules.passes.map Pass.pattern ++
    Common.SnmpConfig.passes.map Pass.pattern ++ Ios.RoutingTable.passes.map Pass.pattern

/-- Of all patterns the prefix of the line occurs, and once. -/
theorem occursAt_lineImage {p : List UInt8} {pos : ℕ} (hp : p ∈ searchPatterns)
    (hocc : OccursAt p lineImage pos) : p = Common.SnmpConfig.snmpPrefix ∧ pos = 65536 := by
  have hall : ∀ p ∈ searchPatterns, p ≠ [] ∧ p.head? ≠ some 0 ∧
      ∀ j < 24, OccursAt p communityLine j → p = Common.SnmpConfig.snmpPrefix ∧ j = 0 := by
    decide +kernel
  obtain ⟨hne, hhead, hline⟩ := hall p hp
  obtain ⟨x, q, rfl⟩ := List.exists_cons_of_ne_nil hne
  have hzero : x ≠ 0 := fun heq => hhead (by rw [heq, List.head?_cons])
  have hx : x ∉ List.replicate 65536 (0 : UInt8) := fun hmem => hzero (List.eq_of_mem_replicate hmem)
  unfold lineImage at hocc
  rw [occursAt_append_iff hx, List.length_replicate] at hocc
  obtain ⟨j, rfl, hj⟩ := hocc
  have hle : j + (x :: q).length ≤ 23 := hj.le hne
  obtain ⟨heq, rfl⟩ := hline j (by omega) hj
  exact ⟨heq, rfl⟩

section LineImage

variable {ρ : Type*} {passes : List (Pass ρ)} {h : Hit ρ}
  (hpasses : ∀ p ∈ passes.map Pass.pattern, p ∈ searchPatterns)

include hpasses

/-- The line lies in the last chunk. -/
theorem not_exposed_lineImage : ¬ ExposedHit chunkSize passes lineImage h ∨
    h ∉ hits chunkSize passes lineImage ∧ h ∉ wholeHits passes lineImage := by
  by_cases hin : h ∈ hits chunkSize passes lineImage ∨ h ∈ wholeHits passes lineImage
  · obtain ⟨p, hp, hocc⟩ : ∃ p, passes[h.pass]? = some p ∧ OccursAt p.pattern lineImage h.pos := by
      rcases hin with hh | hh
      · obtain ⟨p, -, hp, hocc, -⟩ := exists_parse_of_mem_hits hh
        exact ⟨p, hp, hocc⟩
      · obtain ⟨p, -, hp, hocc, -⟩ := exists_parse_of_mem_wholeHits hh
        exact ⟨p, hp, hocc⟩
    have hmem := hpasses p.pattern (List.mem_map_of_mem (List.mem_of_getElem? hp))
    have hpos := (occursAt_lineImage hmem hocc).2
    refine Or.inl ?_
    rintro ⟨q, hq, hcross | ⟨j, hj, -, hocc'⟩⟩
    · have hend : (h.pos / chunkSize + 1) * chunkSize = 131072 := by
        rw [hpos]
        rfl
      unfold Crosses at hcross
      rw [hend, length_lineImage] at hcross
      omega
    · obtain rfl : p = q := Option.some.inj (hp.symm.trans hq)
      have := (occursAt_lineImage hmem hocc').2
      omega
  · exact Or.inr (not_or.mp hin)

theorem not_exposed_of_mem_hits (hh : h ∈ hits chunkSize passes lineImage) :
    ¬ ExposedHit chunkSize passes lineImage h :=
  (not_exposed_lineImage hpasses).resolve_right fun hnot => hnot.1 hh

theorem not_exposed_of_mem_wholeHits (hh : h ∈ wholeHits passes lineImage) :
    ¬ ExposedHit chunkSize passes lineImage h :=
  (not_exposed_lineImage hpasses).resolve_right fun hnot => hnot.2 hh

theorem readAlike_lineImage {κ : Type*} [DecidableEq κ] {key : Hit ρ → κ} :
    ReadAlike key chunkSize passes lineImage where
  chunked _ hh hexp := absurd hexp (not_exposed_of_mem_hits hpasses (mem_of_mem_firsts hh).1)
  whole _ hh hexp := absurd hexp (not_exposed_of_mem_wholeHits hpasses (mem_of_mem_firsts hh).1)

end LineImage

theorem unaffected_lineImage : Unaffected chunkSize lineImage where
  connections := readAlike_lineImage (by decide +kernel)
  rules :=
    { chunked := fun _ hh hexp _ => absurd hexp (not_exposed_of_mem_hits (by decide +kernel) hh)
      whole := fun _ hh hexp _ => absurd hexp (not_exposed_of_mem_wholeHits (by decide +kernel) hh) }
  strings :=
    { chunked := fun _ hh hexp => absurd hexp
        (not_exposed_of_mem_hits (by decide +kernel) (mem_of_mem_firsts hh).1)
      whole := fun _ hh hexp => absurd hexp
        (not_exposed_of_mem_wholeHits (by decide +kernel) (mem_of_mem_firsts hh).1) }
  routes := readAlike_lineImage (by decide +kernel)
  staticRoutes := fun a ha _ _ _ _ _ => by
    obtain ⟨p, -, hp, hocc, -⟩ := exists_parse_of_mem_hits (mem_of_mem_firsts ha).1
    have hroute : ∀ p ∈ Ios.RoutingTable.passes.map Pass.pattern, p ∈ searchPatterns ∧
        p ≠ Common.SnmpConfig.snmpPrefix := by decide +kernel
    obtain ⟨hmem, hne⟩ := hroute p.pattern (List.mem_map_of_mem (List.mem_of_getElem? hp))
    exact absurd (occursAt_lineImage hmem hocc).1 hne

/-- In an image of two chunks the line at the start of the second one is read as in one chunk. -/
theorem sameFindings_iff_communityLine : SameFindings chunkSize 65559 lineImage := by
  have hlen : lineImage.length ≤ maxHops * chunkSize := by
    rw [length_lineImage]
    decide
  exact (sameFindings_iff hlen length_lineImage.le).mpr unaffected_lineImage

/-! ### A string at the end of a chunk -/

/-- The first bytes of the line end a chunk. -/
def cutImage : Dump := List.replicate 65530 0 ++ communityLine

theorem length_cutImage : cutImage.length = 65553 := by
  unfold cutImage
  rw [List.length_append, List.length_replicate]
  rfl

theorem occursAt_cutImage_iff {x : UInt8} {q : List UInt8} {pos : ℕ} (hx : x ≠ 0) :
    OccursAt (x :: q) cutImage pos ↔ ∃ j, pos = 65530 + j ∧ OccursAt (x :: q) communityLine j := by
  unfold cutImage
  rw [occursAt_append_iff fun hmem => hx (List.eq_of_mem_replicate hmem), List.length_replicate]

/-- The prefix occurs once. -/
theorem occursAt_snmpPrefix_iff {pos : ℕ} :
    OccursAt Common.SnmpConfig.snmpPrefix cutImage pos ↔ pos = 65530 := by
  have hiff : OccursAt (115 :: ascii "nmp-server community ") cutImage pos ↔
      ∃ j, pos = 65530 + j ∧ OccursAt (115 :: ascii "nmp-server community ") communityLine j :=
    occursAt_cutImage_iff (by decide)
  refine hiff.trans ⟨?_, fun hpos => ⟨0, hpos, by decide⟩⟩
  rintro ⟨j, rfl, hocc⟩
  have hle : j + 22 ≤ 23 := hocc.le (by decide)
  have hone : ¬ OccursAt Common.SnmpConfig.snmpPrefix communityLine 1 := by decide
  have hne : j ≠ 1 := fun heq => hone (heq ▸ hocc)
  omega

/-- The strings that stand alone do not occur. -/
theorem not_occursAt_standalone {pos : ℕ} : ¬ OccursAt (ascii "public\x00") cutImage pos ∧
    ¬ OccursAt (ascii "private\x00") cutImage pos := by
  have hline : ∀ j < 23, ¬ OccursAt (ascii "public\x00") communityLine j ∧
      ¬ OccursAt (ascii "private\x00") communityLine j := by decide
  constructor
  · intro hocc
    obtain ⟨j, -, hj⟩ := (occursAt_cutImage_iff (x := 112) (q := ascii "ublic\x00") (by decide)).mp hocc
    have hle : j + 7 ≤ 23 := hj.le (by decide)
    exact (hline j (by omega)).1 hj
  · intro hocc
    obtain ⟨j, -, hj⟩ := (occursAt_cutImage_iff (x := 112) (q := ascii "rivate\x00") (by decide)).mp hocc
    have hle : j + 8 ≤ 23 := hj.le (by decide)
    exact (hline j (by omega)).2 hj

/-- In chunks nothing is found, since the prefix runs over the end of a chunk. -/
theorem hits_cutImage : hits chunkSize Common.SnmpConfig.passes cutImage = [] := by
  refine List.eq_nil_iff_forall_not_mem.mpr fun h hh => ?_
  obtain ⟨p, hp, hocc, -⟩ := parse_of_mem_hits hh
  have hle := hocc.le p.pattern_ne_nil
  have hdump := (occursAt_chunkAt hle).mp hocc
  rw [Nat.div_add_mod'] at hdump
  have hmem : p ∈ Common.SnmpConfig.passes := List.mem_of_getElem? hp
  simp only [Common.SnmpConfig.passes, List.mem_cons, List.not_mem_nil, or_false] at hmem
  rcases hmem with rfl | rfl | rfl
  · have hpos : h.pos = 65530 := occursAt_snmpPrefix_iff.mp hdump
    have hlen : (chunkAt chunkSize cutImage (h.pos / chunkSize * chunkSize)).length ≤ 65536 := by
      rw [length_chunkAt]
      exact min_le_left _ _
    have hmod : h.pos % chunkSize = 65530 := by
      rw [hpos]
      rfl
    have hend : h.pos % chunkSize + 22 ≤
        (chunkAt chunkSize cutImage (h.pos / chunkSize * chunkSize)).length := hle
    omega
  · exact not_occursAt_standalone.1 hdump
  · exact not_occursAt_standalone.2 hdump

/-- In one chunk the line is found. -/
theorem mem_wholeHits_cutImage :
    ⟨0, 65530, ⟨"x", 22⟩⟩ ∈ wholeHits Common.SnmpConfig.passes cutImage := by
  have hpat : Common.SnmpConfig.snmpPrefix ≠ [] := by decide
  have hmem : 65530 ∈ findAll Common.SnmpConfig.snmpPrefix cutImage :=
    mem_findAll_of_not_overlapped hpat (occursAt_snmpPrefix_iff.mpr rfl) fun j hj _ hocc =>
      hj.ne (occursAt_snmpPrefix_iff.mp hocc)
  have hwindow : chunkAt 86 cutImage 65530 = communityLine := by
    have hlen : (List.replicate 65530 (0 : UInt8)).length = 65530 := List.length_replicate
    have happ : chunkAt 86 cutImage ((List.replicate 65530 (0 : UInt8)).length + 0) =
        chunkAt 86 communityLine 0 := chunkAt_append
    rw [hlen] at happ
    exact happ
  refine mem_wholeHits_iff.mpr ⟨_, rfl, ?_⟩
  unfold wholeHitAt
  dsimp only
  rw [if_pos hmem]
  have hparse : Common.SnmpConfig.parsePrefixed communityLine = some ⟨"x", 22⟩ := by decide
  exact (congrArg Common.SnmpConfig.parsePrefixed hwindow).trans hparse

/-- **A string whose prefix runs over the end of a chunk is missed.** -/
theorem not_sameFindings : ¬ ∀ (dump : Dump) (m : ℕ), dump.length ≤ maxHops * chunkSize →
    dump.length ≤ m → SameFindings chunkSize m dump := by
  intro hall
  have hlen : cutImage.length ≤ maxHops * chunkSize := by
    rw [length_cutImage]
    decide
  have hlen' : cutImage.length ≤ maxHops * 65553 := by
    rw [length_cutImage]
    decide
  have hsame := (hall cutImage 65553 hlen length_cutImage.le).strings
  rw [Common.SnmpConfig.run_eq hlen, Common.SnmpConfig.run_eq hlen', hits_cutImage,
    hits_eq_wholeHits length_cutImage.le] at hsame
  obtain ⟨h, hh, -⟩ : ∃ h ∈ firsts Common.SnmpConfig.bucket []
      (wholeHits Common.SnmpConfig.passes cutImage), _ :=
    exists_mem_firsts mem_wholeHits_cutImage List.not_mem_nil
  exact List.not_mem_nil ((hsame _).mpr (List.mem_map_of_mem hh))

end VantaCore.Extractors.Cisco.Chunking
