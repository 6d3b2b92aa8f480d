import VantaCore.Extractors.Cisco.TwoDumps

/-! # Scans by the bytes of a dump

Where a scan in chunks finds a pattern, said by the bytes alone (`Found`), and the first place of each
bucket of 64 bytes (`Leads`). Where no byte of a pattern that is found in one of two dumps differs, it
is found in both (`found_iff_of_not_differ`, `leads_iff_of_not_differ`). -/

namespace VantaCore.Extractors.Cisco.Occurrences

open VantaCore.Core.DumpHandle VantaCore.Lib.Chunks VantaCore.Lib.Search VantaCore.Lib.FirstBy
open VantaCore.Lib.Alignment VantaCore.Lib.PyText VantaCore.Extractors.Cisco.TextScan
open VantaCore.Extractors.Cisco.TwoDumps

variable {ρ : Type*} {passes : List (Pass ρ)} {h : Hit ρ} {n m pos : ℕ} {d d' : Dump} {p : List UInt8}

/-- The search in chunks finds the pattern at the position: it stands there within one chunk, and
nothing that is found before overlaps it. -/
def Found (n : ℕ) (p : List UInt8) (d : Dump) (pos : ℕ) : Prop :=
  OccursAt p (chunkOf n d pos) (pos % n) ∧
    ∀ j < pos, pos < j + p.length → j / n = pos / n → ¬ Found n p d j
termination_by pos

/-- The first place of its bucket where the pattern is found. -/
def Leads (n : ℕ) (p : List UInt8) (d : Dump) (pos : ℕ) : Prop :=
  Found n p d pos ∧ ∀ j < pos, j / 64 = pos / 64 → ¬ Found n p d j

theorem chunkOf_congr {j : ℕ} (h : j / n = pos / n) : chunkOf n d j = chunkOf n d pos := by
  unfold chunkOf
  rw [h]

/-- **What the search finds** is what the loop over the occurrences in a chunk finds. -/
theorem found_iff (hn : 0 < n) (hp : p ≠ []) :
    Found n p d pos ↔ pos % n ∈ findAll p (chunkOf n d pos) := by
  induction pos using Nat.strong_induction_on with
  | _ pos ih =>
    have hpos : pos / n * n + pos % n = pos := Nat.div_add_mod' pos n
    have hlt : pos % n < n := Nat.mod_lt pos hn
    rw [Found, mem_findAll_iff_not_overlapped hp]
    refine and_congr_right fun _ => ⟨fun hnone k hk hkpos => ?_, fun hnone j hj hover hdiv hfound => ?_⟩
    · obtain ⟨hdiv, hmod⟩ := div_mul_of_add (Nat.dvd_mul_left n (pos / n)) (hkpos.trans hlt)
      have hchunk : (pos / n * n + k) / n = pos / n := Nat.eq_of_mul_eq_mul_right hn hdiv
      by_contra hover
      refine hnone (pos / n * n + k) (by omega) (by omega) hchunk ((ih _ (by omega)).mpr ?_)
      rwa [hmod, chunkOf_congr hchunk]
    · have hmem := (ih j hj).mp hfound
      have hjpos : j / n * n + j % n = j := Nat.div_add_mod' j n
      rw [chunkOf_congr hdiv] at hmem
      rw [hdiv] at hjpos
      have := hnone _ hmem (by omega)
      omega

/-- A pattern without a border is found wherever it stands within a chunk. -/
theorem found_iff_of_borderless (hn : 0 < n) (hp : p ≠ []) (h : Borderless p) :
    Found n p d pos ↔ OccursAt p (chunkOf n d pos) (pos % n) := by
  rw [found_iff hn hp, mem_findAll_iff hp h]

/-- **The hits of a scan** are what is parsed where the patterns are found. -/
theorem mem_hits_iff_found (hn : 0 < n) : h ∈ hits n passes (scanned n d) ↔
    ∃ p, passes[h.pass]? = some p ∧ Found n p.pattern d h.pos ∧
      p.parse (chunkAt p.window (chunkOf n d h.pos) (h.pos % n)) = some h.value := by
  rw [mem_hits_iff hn]
  refine exists_congr fun p => and_congr_right fun _ => ?_
  rw [found_iff hn p.pattern_ne_nil]
  unfold hitAt chunkOf
  dsimp only
  by_cases hmem : h.pos % n ∈ findAll p.pattern (chunkAt n (scanned n d) (h.pos / n * n))
  · rw [if_pos hmem, and_iff_right hmem]
  · simp [hmem]

/-! ### Two dumps -/

theorem length_chunkOf (hlen : d.length = d'.length) :
    (chunkOf n d pos).length = (chunkOf n d' pos).length := by
  unfold chunkOf scanned
  rw [length_chunkAt, length_chunkAt, List.length_take, List.length_take, hlen]

theorem occursAt_chunkOf_iff (hp : p ≠ []) : OccursAt p (chunkOf n d pos) (pos % n) ↔
    pos % n + p.length ≤ (chunkOf n d pos).length ∧ OccursAt p d pos := by
  have hpos : pos / n * n + pos % n = pos := Nat.div_add_mod' pos n
  have hdump : pos % n + p.length ≤ (chunkOf n d pos).length →
      (OccursAt p (chunkOf n d pos) (pos % n) ↔ OccursAt p d pos) := by
    intro hfit
    unfold chunkOf at hfit ⊢
    rw [occursAt_chunkAt hfit, hpos]
    rw [length_chunkAt, scanned, List.length_take] at hfit
    have hsame : chunkAt p.length (scanned n d) pos = chunkAt p.length d pos :=
      chunkAt_congr fun i _ hi => List.getElem?_take_of_lt (by omega)
    unfold OccursAt
    rw [hsame]
  constructor
  · intro hocc
    have hfit := hocc.le hp
    exact ⟨hfit, (hdump hfit).mp hocc⟩
  · rintro ⟨hfit, hocc⟩
    exact (hdump hfit).mpr hocc

theorem occursAt_chunkOf_congr (hlen : d.length = d'.length) (hp : p ≠ [])
    (hocc : OccursAt p d pos ↔ OccursAt p d' pos) :
    OccursAt p (chunkOf n d pos) (pos % n) ↔ OccursAt p (chunkOf n d' pos) (pos % n) := by
  rw [occursAt_chunkOf_iff hp, occursAt_chunkOf_iff hp, length_chunkOf hlen, hocc]

/-- **Where the pattern stands at the same places** it is found at the same places. -/
theorem found_congr (hlen : d.length = d'.length) (hp : p ≠ []) (hocc : SameOccurrences p d d') :
    Found n p d pos ↔ Found n p d' pos := by
  induction pos using Nat.strong_induction_on with
  | _ pos ih =>
    rw [Found, Found, occursAt_chunkOf_congr hlen hp (hocc pos)]
    refine and_congr_right fun _ => forall_congr' fun j => forall_congr' fun hj => ?_
    rw [ih j hj]

theorem leads_congr (hlen : d.length = d'.length) (hp : p ≠ []) (hocc : SameOccurrences p d d') :
    Leads n p d pos ↔ Leads n p d' pos := by
  unfold Leads
  simp only [found_congr hlen hp hocc]

/-- A byte that differs lies where the pattern would stand at the position. -/
def Meets (p : List UInt8) (d d' : Dump) (pos : ℕ) : Prop :=
  ∃ i, pos ≤ i ∧ i < pos + p.length ∧ Differ d d' i

theorem occursAt_iff_of_not_meets (h : ¬ Meets p d d' pos) : OccursAt p d pos ↔ OccursAt p d' pos := by
  unfold OccursAt
  rw [chunkAt_congr fun i hlow hhigh => not_not.mp fun hdiff => h ⟨i, hlow, hhigh, hdiff⟩]

/-- **Where no pattern that is found meets a byte that differs** it is found in both dumps. -/
theorem found_iff_of_not_differ (hlen : d.length = d'.length) (hp : p ≠ [])
    (h : ∀ pos, Found n p d pos → ¬ Meets p d d' pos)
    (h' : ∀ pos, Found n p d' pos → ¬ Meets p d d' pos) : Found n p d pos ↔ Found n p d' pos := by
  induction pos using Nat.strong_induction_on with
  | _ pos ih =>
    have hrest : (∀ j < pos, pos < j + p.length → j / n = pos / n → ¬ Found n p d j) ↔
        ∀ j < pos, pos < j + p.length → j / n = pos / n → ¬ Found n p d' j :=
      forall_congr' fun j => forall_congr' fun hj => by rw [ih j hj]
    constructor
    · intro hfound
      have hocc := occursAt_chunkOf_congr hlen hp (n := n) (occursAt_iff_of_not_meets (h pos hfound))
      rw [Found] at hfound ⊢
      exact ⟨hocc.mp hfound.1, hrest.mp hfound.2⟩
    · intro hfound
      have hocc := occursAt_chunkOf_congr hlen hp (n := n) (occursAt_iff_of_not_meets (h' pos hfound))
      rw [Found] at hfound ⊢
      exact ⟨hocc.mpr hfound.1, hrest.mpr hfound.2⟩

/-- Every place has a first one in its bucket. -/
theorem exists_leads {j : ℕ} (h : Found n p d j) : ∃ k ≤ j, k / 64 = j / 64 ∧ Leads n p d k := by
  classical
  have hex : ∃ k, k / 64 = j / 64 ∧ Found n p d k := ⟨j, rfl, h⟩
  obtain ⟨hbucket, hfound⟩ := Nat.find_spec hex
  refine ⟨Nat.find hex, Nat.find_min' hex ⟨rfl, h⟩, hbucket, hfound, fun i hi hib hifound => ?_⟩
  exact Nat.find_min hex hi ⟨hib.trans hbucket, hifound⟩

/-- **Where no first place meets a byte that differs** the first places are those of both dumps. -/
theorem leads_iff_of_not_differ (hn : 0 < n) (hlen : d.length = d'.length) (hp : p ≠ [])
    (hborder : Borderless p) (h : ∀ pos, Leads n p d pos → ¬ Meets p d d' pos)
    (h' : ∀ pos, Leads n p d' pos → ¬ Meets p d d' pos) : Leads n p d pos ↔ Leads n p d' pos := by
  have hfound : ∀ {k}, ¬ Meets p d d' k → (Found n p d k ↔ Found n p d' k) := fun hk => by
    rw [found_iff_of_borderless hn hp hborder, found_iff_of_borderless hn hp hborder]
    exact occursAt_chunkOf_congr hlen hp (occursAt_iff_of_not_meets hk)
  constructor
  · intro hleads
    refine ⟨(hfound (h pos hleads)).mp hleads.1, fun j hj hbucket hj' => ?_⟩
    -- the first place of the bucket in the other dump is one of this dump
    obtain ⟨k, hkj, hkbucket, hk⟩ := exists_leads hj'
    exact hleads.2 k (by omega) (by omega) ((hfound (h' k hk)).mpr hk.1)
  · intro hleads
    refine ⟨(hfound (h' pos hleads)).mpr hleads.1, fun j hj hbucket hj' => ?_⟩
    obtain ⟨k, hkj, hkbucket, hk⟩ := exists_leads hj'
    exact hleads.2 k (by omega) (by omega) ((hfound (h k hk)).mp hk.1)

/-- Text the pattern is made of begins what is copied behind it. -/
theorem length_le_textRun {f : UInt8 → Bool} (hf : ∀ b ∈ p, f b = true) (hm : p.length ≤ m)
    (h : Found n p d pos) : p.length ≤ (textRun m f n d pos).length := by
  rw [Found] at h
  obtain ⟨rest, hrest⟩ := h.1.exists_chunkAt_eq hm
  unfold textRun
  rw [hrest, List.takeWhile_append_of_pos hf, List.length_append]
  exact Nat.le_add_right _ _

end VantaCore.Extractors.Cisco.Occurrences
