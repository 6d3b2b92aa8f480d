import VantaCore.Extractors.Cisco.Text

/-! # Two dumps that differ in visible bytes

Hits at the same places of two dumps are parsed from aligned windows (`forall₂_of_places`). What is
copied from a window is the same in both exactly if the dumps agree on the bytes that are copied
(`textRun_eq_iff`). -/

namespace VantaCore.Extractors.Cisco.TwoDumps

open VantaCore.Core.DumpHandle VantaCore.Lib.Chunks VantaCore.Lib.Search VantaCore.Lib.PyText
open VantaCore.Lib.Alignment VantaCore.Extractors.Cisco.TextScan VantaCore.Extractors.Cisco.Text

variable {ρ : Type*} {passes : List (Pass ρ)} {d d' : Dump} {n m i pos : ℕ} {p : List UInt8}

/-- The dumps differ in a byte. -/
def Differ (d d' : Dump) (i : ℕ) : Prop := d[i]? ≠ d'[i]?

/-- No occurrence of the pattern in one of the dumps meets a byte in which they differ. -/
def Untouched (p : List UInt8) (d d' : Dump) : Prop :=
  ∀ pos i, pos ≤ i → i < pos + p.length → Differ d d' i → ¬ OccursAt p d pos ∧ ¬ OccursAt p d' pos

/-- The pattern occurs at the same positions of both dumps. -/
def SameOccurrences (p : List UInt8) (d d' : Dump) : Prop :=
  ∀ pos, OccursAt p d pos ↔ OccursAt p d' pos

theorem chunkAt_congr {l l' : List UInt8} (h : ∀ i, pos ≤ i → i < pos + m → l[i]? = l'[i]?) :
    chunkAt m l pos = chunkAt m l' pos := by
  refine List.ext_getElem? fun i => ?_
  by_cases hi : i < m
  · rw [getElem?_chunkAt hi, getElem?_chunkAt hi]
    exact h _ (by omega) (by omega)
  · have hnone : ∀ l : List UInt8, (chunkAt m l pos)[i]? = none := fun l => by
      refine List.getElem?_eq_none ?_
      rw [length_chunkAt]
      omega
    rw [hnone, hnone]

theorem Untouched.sameOccurrences (h : Untouched p d d') : SameOccurrences p d d' := by
  intro pos
  by_cases hall : ∀ i, pos ≤ i → i < pos + p.length → d[i]? = d'[i]?
  · unfold OccursAt
    rw [chunkAt_congr hall]
  · push Not at hall
    obtain ⟨i, hlow, hhigh, hdiff⟩ := hall
    obtain ⟨hnot, hnot'⟩ := h pos i hlow hhigh hdiff
    exact iff_of_false hnot hnot'

theorem aligned_chunkAt (h : Aligned Visible d d') (c : ℕ) :
    Aligned Visible (chunkAt m d c) (chunkAt m d' c) :=
  List.forall₂_take m (List.forall₂_drop c h)

theorem aligned_scanned (h : Aligned Visible d d') : Aligned Visible (scanned n d) (scanned n d') :=
  List.forall₂_take _ h

/-! ### Hits -/

/-- The hits are at one place, and what was read is related. -/
structure HitRel (R : ρ → ρ → Prop) (h h' : Hit ρ) : Prop where
  pass : h.pass = h'.pass
  pos : h.pos = h'.pos
  value : R h.value h'.value

/-- The search and the position of a hit. -/
def place (h : Hit ρ) : ℕ × ℕ := (h.pass, h.pos)

/-- **Hits at the same places are parsed from aligned windows.** -/
theorem forall₂_of_places {R : ρ → ρ → Prop} (h : Aligned Visible d d')
    (hparse : ∀ p ∈ passes, ∀ w w', Aligned Visible w w' → Option.Rel R (p.parse w) (p.parse w'))
    {l l' : List (Hit ρ)} (hl : ∀ a ∈ l, a ∈ hits n passes (scanned n d))
    (hl' : ∀ a ∈ l', a ∈ hits n passes (scanned n d')) (hplaces : l.map place = l'.map place) :
    List.Forall₂ (HitRel R) l l' := by
  rw [← List.forall₂_eq_eq_eq, List.forall₂_map_left_iff, List.forall₂_map_right_iff] at hplaces
  induction hplaces with
  | nil => exact List.Forall₂.nil
  | @cons a b _ _ hab _ ih =>
    refine List.Forall₂.cons ?_ (ih (fun c hc => hl c (List.mem_cons_of_mem a hc))
      fun c hc => hl' c (List.mem_cons_of_mem b hc))
    obtain ⟨hpass, hpos⟩ := Prod.mk.inj hab
    obtain ⟨p, hp, -, hread⟩ := parse_of_mem_hits (hl a List.mem_cons_self)
    obtain ⟨q, hq, -, hread'⟩ := parse_of_mem_hits (hl' b List.mem_cons_self)
    rw [← hpass, hp, Option.some_inj] at hq
    have hwindow := aligned_chunkAt (m := p.window)
      (aligned_chunkAt (m := n) (aligned_scanned (n := n) h) (a.pos / n * n)) (a.pos % n)
    have hrel := hparse p (List.mem_of_getElem? hp) _ _ hwindow
    rw [← hpos, ← hq] at hread'
    rw [hread, hread'] at hrel
    match hrel with
    | .some hvalue => exact ⟨hpass, hpos, hvalue⟩

/-- The order of the loop, of places. -/
def PlaceBefore (n : ℕ) (x y : ℕ × ℕ) : Prop :=
  x.2 / n < y.2 / n ∨ x.2 / n = y.2 / n ∧ (x.1 < y.1 ∨ x.1 = y.1 ∧ x.2 < y.2)

instance asymm_placeBefore : Std.Asymm (PlaceBefore n) where
  asymm x y h h' := by
    unfold PlaceBefore at *
    omega

instance asymm_before : Std.Asymm (Before n : Hit ρ → Hit ρ → Prop) := ⟨Before.asymm⟩

theorem sorted_places {l : List (Hit ρ)} (h : l.Pairwise (Before n)) :
    (l.map place).Pairwise (PlaceBefore n) := List.pairwise_map.mpr h

/-- Hits of one pass come in the order of their positions. -/
theorem before_iff_of_pass_eq {h h' : Hit ρ} (hpass : h.pass = h'.pass) :
    Before n h h' ↔ h.pos < h'.pos := by
  unfold Before
  rcases Nat.lt_trichotomy h.pos h'.pos with hlt | heq | hlt
  · have := Nat.div_le_div_right (c := n) hlt.le
    omega
  · rw [heq]
    omega
  · have := Nat.div_le_div_right (c := n) hlt.le
    omega

/-- **The places of one list among those of another** are the places of a part of it. -/
theorem exists_sublist_of_places {l l' : List (Hit ρ)} (h : l.Pairwise (Before n))
    (h' : l'.Pairwise (Before n)) (hsub : ∀ x ∈ l'.map place, x ∈ l.map place) :
    ∃ part : List (Hit ρ), part.Sublist l ∧ l'.map place = part.map place :=
  List.sublist_map_iff.mp (List.sublist_of_subperm_of_pairwise
    (List.subperm_of_subset (sorted_places h').nodup hsub) (sorted_places h') (sorted_places h))

/-! ### What is copied -/

/-- The chunk a position lies in. -/
def chunkOf (n : ℕ) (d : Dump) (pos : ℕ) : List UInt8 := chunkAt n (scanned n d) (pos / n * n)

/-- The bytes with a property from a position on, of at most `m`. -/
def textRun (m : ℕ) (f : UInt8 → Bool) (n : ℕ) (d : Dump) (pos : ℕ) : List UInt8 :=
  (chunkAt m (chunkOf n d pos) (pos % n)).takeWhile f

/-- A byte of the window is the byte of the dump. -/
theorem getElem?_window {j : ℕ} (hj : j < (chunkAt m (chunkOf n d pos) (pos % n)).length) :
    (chunkAt m (chunkOf n d pos) (pos % n))[j]? = d[pos + j]? := by
  unfold chunkOf scanned at hj ⊢
  rw [length_chunkAt, length_chunkAt, List.length_take] at hj
  have hmod := Nat.div_add_mod' pos n
  rw [getElem?_chunkAt (by omega), getElem?_chunkAt (by omega),
    List.getElem?_take_of_lt (by omega), ← Nat.add_assoc, hmod]

/-- **The first bytes of two windows are the same** exactly if the dumps agree on them. -/
theorem takeWhile_eq_iff_not_differ {f : UInt8 → Bool} (hf : ∀ b, Visible b → f b = true)
    {w w' : List UInt8} (hw : Aligned Visible w w') (hbyte : ∀ j < w.length, w[j]? = d[pos + j]?)
    (hbyte' : ∀ j < w'.length, w'[j]? = d'[pos + j]?) :
    w.takeWhile f = w'.takeWhile f ↔
      ∀ i, pos ≤ i → i < pos + (w.takeWhile f).length → ¬ Differ d d' i := by
  have hle : (w.takeWhile f).length ≤ w.length := (List.takeWhile_prefix f).length_le
  have hlen := hw.length_eq
  have hbytes : ∀ j < (w.takeWhile f).length, (w[j]? = w'[j]? ↔ ¬ Differ d d' (pos + j)) :=
    fun j hj => by rw [hbyte j (by omega), hbyte' j (by omega), Differ, not_not]
  refine (takeWhile_eq_iff hf hw).trans ⟨fun hall i hlow hhigh => ?_, fun hall j hj => ?_⟩
  · have hj : i - pos < (w.takeWhile f).length := by omega
    have hnot := (hbytes _ hj).mp (hall _ hj)
    rwa [Nat.add_sub_cancel' hlow] at hnot
  · exact (hbytes j hj).mpr (hall (pos + j) (by omega) (by omega))

/-- **The copied text is the same** exactly if the dumps agree on its bytes. -/
theorem textRun_eq_iff {f : UInt8 → Bool} (hf : ∀ b, Visible b → f b = true)
    (h : Aligned Visible d d') :
    textRun m f n d pos = textRun m f n d' pos ↔
      ∀ i, pos ≤ i → i < pos + (textRun m f n d pos).length → ¬ Differ d d' i :=
  takeWhile_eq_iff_not_differ hf (aligned_chunkAt (aligned_chunkAt (aligned_scanned h) _) _)
    (fun _ => getElem?_window) (fun _ => getElem?_window)

end VantaCore.Extractors.Cisco.TwoDumps
