import VantaCore.Extractors.Cisco.TextScan

/-! # Scanning in chunks and as a whole

What a scan in chunks reads at a position is what a scan of the dump as one chunk reads there, unless a
chunk ends within the window or an earlier occurrence of the pattern overlaps the position
(`hitAt_eq_wholeHitAt`). So two scans that keep the first record of each key find the same things as
far as the records at such positions are read alike (`findings_mem_iff`). -/

namespace VantaCore.Extractors.Cisco.ChunkEnds

open VantaCore.Core.DumpHandle VantaCore.Lib.Chunks VantaCore.Lib.Search VantaCore.Lib.FirstBy
open VantaCore.Extractors.Cisco.TextScan

variable {ρ : Type*} {passes : List (Pass ρ)} {dump : Dump} {n m pos : ℕ} {p : Pass ρ} {h : Hit ρ}

/-! ### One position -/

/-- A chunk ends within the window at the position. -/
def Crosses (n : ℕ) (p : Pass ρ) (dump : Dump) (pos : ℕ) : Prop :=
  (pos / n + 1) * n < min (pos + p.window) dump.length

/-- An earlier occurrence of the pattern overlaps the position. -/
def Overlapped (p : Pass ρ) (dump : Dump) (pos : ℕ) : Prop :=
  ∃ j < pos, pos < j + p.pattern.length ∧ OccursAt p.pattern dump j

/-- The position may be read otherwise in chunks. -/
def Exposed (n : ℕ) (p : Pass ρ) (dump : Dump) (pos : ℕ) : Prop :=
  Crosses n p dump pos ∨ Overlapped p dump pos

/-- What the scan of the dump as one chunk reads at a position. -/
def wholeHitAt (p : Pass ρ) (dump : Dump) (pos : ℕ) : Option ρ :=
  if pos ∈ findAll p.pattern dump then p.parse (chunkAt p.window dump pos) else none

/-- **A position that is not exposed is read alike.** -/
theorem hitAt_eq_wholeHitAt (hn : 0 < n) (h : ¬ Exposed n p dump pos) :
    hitAt n p dump pos = wholeHitAt p dump pos := by
  obtain ⟨hcross, hover⟩ := not_or.mp h
  have hmod : pos / n * n + pos % n = pos := Nat.div_add_mod' pos n
  have hlt : pos % n < n := Nat.mod_lt pos hn
  have hlen : (chunkAt n dump (pos / n * n)).length = min n (dump.length - pos / n * n) := length_chunkAt
  have hwin := p.length_le_window
  have hnext : (pos / n + 1) * n = pos / n * n + n := Nat.succ_mul _ _
  unfold Crosses at hcross
  rw [hnext, not_lt] at hcross
  unfold hitAt wholeHitAt
  by_cases hocc : OccursAt p.pattern dump pos
  · have hle := hocc.le p.pattern_ne_nil
    have hin : ∀ {a}, a ≤ pos % n → a + p.pattern.length ≤ (chunkAt n dump (pos / n * n)).length := by
      intro a ha
      omega
    have hocc' : OccursAt p.pattern (chunkAt n dump (pos / n * n)) (pos % n) := by
      rw [occursAt_chunkAt (hin le_rfl), hmod]
      exact hocc
    have hwhole : pos ∈ findAll p.pattern dump :=
      mem_findAll_of_not_overlapped p.pattern_ne_nil hocc fun j hj hlt' hocc'' =>
        hover ⟨j, hj, hlt', hocc''⟩
    have hchunk : pos % n ∈ findAll p.pattern (chunkAt n dump (pos / n * n)) := by
      refine mem_findAll_of_not_overlapped p.pattern_ne_nil hocc' fun j hj hlt' hocc'' => ?_
      rw [occursAt_chunkAt (hin hj.le)] at hocc''
      exact hover ⟨_, by omega, by omega, hocc''⟩
    dsimp only
    rw [if_pos hchunk, if_pos hwhole, chunkAt_chunkAt_of_le (by rw [hmod]; omega), hmod]
  · have hwhole : pos ∉ findAll p.pattern dump := fun hmem =>
      hocc (occursAt_of_mem_findAll p.pattern_ne_nil hmem)
    have hchunk : pos % n ∉ findAll p.pattern (chunkAt n dump (pos / n * n)) := fun hmem => by
      have hocc' := occursAt_of_mem_findAll p.pattern_ne_nil hmem
      rw [occursAt_chunkAt (hocc'.le p.pattern_ne_nil), hmod] at hocc'
      exact hocc hocc'
    dsimp only
    rw [if_neg hchunk, if_neg hwhole]

/-! ### One chunk -/

/-- The hits of the scan of the dump as one chunk. -/
def wholeHits (passes : List (Pass ρ)) (dump : Dump) : List (Hit ρ) := chunkHits passes 0 dump

theorem steps_of_le {stop step : ℕ} (hpos : 0 < stop) (hle : stop ≤ step) : steps stop step = [0] := by
  have hone : (stop + step - 1) / step = 1 := by
    rw [show stop + step - 1 = step + (stop - 1) by omega, Nat.add_div_left _ (by omega),
      Nat.div_eq_of_lt (by omega)]
  unfold steps
  rw [hone]
  simp

/-- **Every chunk size from the length of the dump on gives one scan.** -/
theorem hits_eq_wholeHits (hle : dump.length ≤ m) : hits m passes dump = wholeHits passes dump := by
  unfold hits wholeHits
  rcases Nat.eq_zero_or_pos dump.length with hzero | hpos
  · have hnil : dump = [] := List.length_eq_zero_iff.mp hzero
    subst hnil
    have hsteps : steps 0 m = [] := List.eq_nil_iff_forall_not_mem.mpr fun c hc => by
      obtain ⟨k, hk, -⟩ := List.mem_map.mp hc
      rw [List.mem_range] at hk
      rcases Nat.eq_zero_or_pos m with rfl | hm
      · exact absurd hk (Nat.not_lt_zero k)
      · exact absurd ((lt_div_iff hm).mp hk) (Nat.not_lt_zero _)
    show (steps 0 m).flatMap _ = _
    rw [hsteps]
    refine (List.flatMap_eq_nil_iff.mpr fun pk _ => ?_).symm
    rfl
  · rw [steps_of_le hpos hle, List.flatMap_singleton]
    have hchunk : chunkAt m dump 0 = dump := by
      unfold chunkAt
      rw [List.drop_zero, List.take_of_length_le hle]
    rw [hchunk]

theorem mem_wholeHits_iff : h ∈ wholeHits passes dump ↔
    ∃ p, passes[h.pass]? = some p ∧ wholeHitAt p dump h.pos = some h.value := by
  have hsize : dump.length ≤ dump.length + h.pos + 1 := by omega
  rw [← hits_eq_wholeHits hsize, mem_hits_iff (by omega)]
  have hdiv : h.pos / (dump.length + h.pos + 1) = 0 := Nat.div_eq_of_lt (by omega)
  have hmod : h.pos % (dump.length + h.pos + 1) = h.pos := Nat.mod_eq_of_lt (by omega)
  have hchunk : chunkAt (dump.length + h.pos + 1) dump 0 = dump := by
    unfold chunkAt
    rw [List.drop_zero, List.take_of_length_le hsize]
  simp only [hitAt, wholeHitAt, hdiv, hmod, Nat.zero_mul, hchunk]

theorem exists_parse_of_mem_wholeHits (hh : h ∈ wholeHits passes dump) :
    ∃ p rest, passes[h.pass]? = some p ∧ OccursAt p.pattern dump h.pos ∧
      p.parse (p.pattern ++ rest) = some h.value := by
  rw [← hits_eq_wholeHits (Nat.le_succ dump.length)] at hh
  exact exists_parse_of_mem_hits hh

/-- The order of the scan of the dump as one chunk. -/
def BeforeWhole (h h' : Hit ρ) : Prop := h.pass < h'.pass ∨ h.pass = h'.pass ∧ h.pos < h'.pos

theorem BeforeWhole.asymm (x y : Hit ρ) (h : BeforeWhole x y) : ¬ BeforeWhole y x := by
  unfold BeforeWhole at *
  omega

theorem sorted_wholeHits : (wholeHits passes dump).Pairwise BeforeWhole := by
  have hdvd : dump.length ∣ 0 := dvd_zero _
  refine (sorted_chunkHits hdvd le_rfl).imp_of_mem fun {x y} hx hy hlt => ?_
  have hx' := div_of_mem_chunkHits hdvd le_rfl hx
  have hy' := div_of_mem_chunkHits hdvd le_rfl hy
  rcases hlt with hlt | ⟨-, hlt⟩
  · have hmul := Nat.mul_le_mul_right dump.length (Nat.succ_le_of_lt hlt)
    rw [Nat.succ_mul] at hmul
    have hzero : dump.length = 0 := by omega
    rw [hzero, Nat.div_zero, Nat.div_zero] at hlt
    exact absurd hlt (Nat.lt_irrefl 0)
  · exact hlt

/-! ### Two scans -/

/-- The position of the hit may be read otherwise in chunks. -/
def ExposedHit (n : ℕ) (passes : List (Pass ρ)) (dump : Dump) (h : Hit ρ) : Prop :=
  ∃ p, passes[h.pass]? = some p ∧ Exposed n p dump h.pos

theorem mem_wholeHits_of_not_exposed (hh : h ∈ hits n passes dump)
    (hexp : ¬ ExposedHit n passes dump h) : h ∈ wholeHits passes dump := by
  have hn := pos_of_mem_hits hh
  obtain ⟨p, hp, hread⟩ := (mem_hits_iff hn).mp hh
  have halike := hitAt_eq_wholeHitAt hn fun he => hexp ⟨p, hp, he⟩
  exact mem_wholeHits_iff.mpr ⟨p, hp, halike ▸ hread⟩

theorem mem_hits_of_not_exposed (hn : 0 < n) (hh : h ∈ wholeHits passes dump)
    (hexp : ¬ ExposedHit n passes dump h) : h ∈ hits n passes dump := by
  obtain ⟨p, hp, hread⟩ := mem_wholeHits_iff.mp hh
  have halike := hitAt_eq_wholeHitAt hn fun he => hexp ⟨p, hp, he⟩
  exact (mem_hits_iff hn).mpr ⟨p, hp, halike.trans hread⟩

section Findings

variable {κ φ : Type*} [DecidableEq κ] {key : Hit ρ → κ} {val : Hit ρ → φ}

/-- What a scan that keeps the first hit of each key finds. -/
def findings (key : Hit ρ → κ) (val : Hit ρ → φ) (l : List (Hit ρ)) : List φ :=
  (firsts key [] l).map val

/-- The exposed hits that are the first of their key in one scan are hits of the other scan. -/
structure ReadAlike (key : Hit ρ → κ) (n : ℕ) (passes : List (Pass ρ)) (dump : Dump) : Prop where
  chunked : ∀ h ∈ firsts key [] (hits n passes dump), ExposedHit n passes dump h →
    h ∈ wholeHits passes dump
  whole : ∀ h ∈ firsts key [] (wholeHits passes dump), ExposedHit n passes dump h →
    h ∈ hits n passes dump

theorem ReadAlike.mem_wholeHits (halike : ReadAlike key n passes dump)
    (hh : h ∈ firsts key [] (hits n passes dump)) : h ∈ wholeHits passes dump := by
  by_cases hexp : ExposedHit n passes dump h
  · exact halike.chunked h hh hexp
  · exact mem_wholeHits_of_not_exposed (mem_of_mem_firsts hh).1 hexp

theorem ReadAlike.mem_hits (halike : ReadAlike key n passes dump) (hn : 0 < n)
    (hh : h ∈ firsts key [] (wholeHits passes dump)) : h ∈ hits n passes dump := by
  by_cases hexp : ExposedHit n passes dump h
  · exact halike.whole h hh hexp
  · exact mem_hits_of_not_exposed hn (mem_of_mem_firsts hh).1 hexp

/-- No two hits of one key change places: a hit that is the first of its key in one scan is the first
in the other, if both scans have the hits. -/
def InOrder (key : Hit ρ → κ) (n : ℕ) (passes : List (Pass ρ)) (dump : Dump) : Prop :=
  ∀ a ∈ firsts key [] (hits n passes dump), a ∈ wholeHits passes dump →
    ∀ b ∈ firsts key [] (wholeHits passes dump), b ∈ hits n passes dump → key a = key b → a = b

/-- Hits of one key stand in one order in both scans. -/
theorem inOrder_of_order
    (horder : ∀ a ∈ hits n passes dump, ∀ b ∈ hits n passes dump, key a = key b →
      a = b ∨ Before n b a ∨ BeforeWhole a b) : InOrder key n passes dump := by
  intro a ha hal' b hb hbl hkey
  have hal := (mem_of_mem_firsts ha).1
  have hn := pos_of_mem_hits hal
  rcases horder a hal b hbl hkey with heq | hlt | hlt
  · exact heq
  · exact absurd hlt (not_lt_of_mem_firsts (sorted_hits hn) Before.asymm ha hbl hkey.symm)
  · exact absurd hlt (not_lt_of_mem_firsts sorted_wholeHits BeforeWhole.asymm hb hal' hkey)

/-- Hits of one pass stand in one order in both scans. -/
theorem order_of_pass {a b : Hit ρ} (ha : a ∈ hits n passes dump)
    (hb : b ∈ hits n passes dump) (hpass : a.pass = b.pass) :
    a = b ∨ Before n b a ∨ BeforeWhole a b := by
  rcases lt_trichotomy a.pos b.pos with hlt | heq | hlt
  · exact Or.inr (Or.inr (Or.inr ⟨hpass, hlt⟩))
  · exact Or.inl (eq_of_mem_hits ha hb hpass heq)
  · have hdiv : b.pos / n ≤ a.pos / n := Nat.div_le_div_right hlt.le
    refine Or.inr (Or.inl ?_)
    unfold Before
    omega

/-- So do hits of one chunk. -/
theorem order_of_chunk {a b : Hit ρ} (ha : a ∈ hits n passes dump) (hb : b ∈ hits n passes dump)
    (hchunk : a.pos / n = b.pos / n) : a = b ∨ Before n b a ∨ BeforeWhole a b := by
  by_cases hpass : a.pass = b.pass
  · exact order_of_pass ha hb hpass
  · unfold Before BeforeWhole
    omega

/-- **Two scans find the same things** if an exposed hit that is the first of its key in one of them is
a hit of the other, or found there by another hit. -/
theorem sameFindings_iff_of_inOrder (hn : 0 < n) (hval : ∀ a b, val a = val b → key a = key b)
    (horder : InOrder key n passes dump) :
    (∀ v, v ∈ findings key val (hits n passes dump) ↔ v ∈ findings key val (wholeHits passes dump)) ↔
      (∀ h ∈ firsts key [] (hits n passes dump), ExposedHit n passes dump h →
        h ∈ wholeHits passes dump ∨ val h ∈ findings key val (wholeHits passes dump)) ∧
      ∀ h ∈ firsts key [] (wholeHits passes dump), ExposedHit n passes dump h →
        h ∈ hits n passes dump ∨ val h ∈ findings key val (hits n passes dump) := by
  refine (sameFound_iff hval).trans ⟨?_, ?_⟩
  · rintro ⟨hleft, hright, -⟩
    exact ⟨fun h hh _ => or_iff_not_imp_left.mpr (hleft h hh),
      fun h hh _ => or_iff_not_imp_left.mpr (hright h hh)⟩
  · rintro ⟨hleft, hright⟩
    refine ⟨fun h hh hnot => ?_, fun h hh hnot => ?_, fun a ha hal' b hb hbl hkey => ?_⟩
    · by_contra hval'
      refine (hleft h hh (by_contra fun hexp => hnot ?_)).elim hnot hval'
      exact mem_wholeHits_of_not_exposed (mem_of_mem_firsts hh).1 hexp
    · by_contra hval'
      refine (hright h hh (by_contra fun hexp => hnot ?_)).elim hnot hval'
      exact mem_hits_of_not_exposed hn (mem_of_mem_firsts hh).1 hexp
    · rw [horder a ha hal' b hb hbl hkey]

/-- **Two scans find the same things**, where what is found tells the hit, exactly if exposed hits are
read alike and hits of one key do not change places. -/
theorem findings_mem_iff (hn : 0 < n) (hval : ∀ a b, val a = val b → key a = key b)
    (hinj : ∀ a ∈ hits n passes dump, ∀ b ∈ wholeHits passes dump, val a = val b → a = b) :
    (∀ v, v ∈ findings key val (hits n passes dump) ↔ v ∈ findings key val (wholeHits passes dump)) ↔
      ReadAlike key n passes dump ∧ InOrder key n passes dump := by
  have hfirst : ∀ {a b}, a ∈ firsts key [] (hits n passes dump) →
      b ∈ firsts key [] (wholeHits passes dump) → val a = val b → a = b := fun ha hb =>
    hinj _ (mem_of_mem_firsts ha).1 _ (mem_of_mem_firsts hb).1
  constructor
  · intro hsame
    obtain ⟨-, -, hboth⟩ := (sameFound_iff hval).mp hsame
    have horder : InOrder key n passes dump := fun a ha hal' b hb hbl hkey =>
      hfirst ha hb (hboth a ha hal' b hb hbl hkey)
    obtain ⟨hleft, hright⟩ := (sameFindings_iff_of_inOrder hn hval horder).mp hsame
    refine ⟨⟨fun h hh hexp => (hleft h hh hexp).elim id fun hv => ?_,
      fun h hh hexp => (hright h hh hexp).elim id fun hv => ?_⟩, horder⟩
    · obtain ⟨b, hb, hval'⟩ := List.mem_map.mp hv
      rw [hfirst hh hb hval'.symm]
      exact (mem_of_mem_firsts hb).1
    · obtain ⟨a, ha, hval'⟩ := List.mem_map.mp hv
      rw [← hfirst ha hh hval']
      exact (mem_of_mem_firsts ha).1
  · rintro ⟨halike, horder⟩
    exact (sameFindings_iff_of_inOrder hn hval horder).mpr
      ⟨fun h hh hexp => Or.inl (halike.chunked h hh hexp),
        fun h hh hexp => Or.inl (halike.whole h hh hexp)⟩

end Findings

end VantaCore.Extractors.Cisco.ChunkEnds
