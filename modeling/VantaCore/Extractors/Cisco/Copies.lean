import VantaCore.Extractors.Cisco.Common.CliHistory
import VantaCore.Extractors.Cisco.Ios.RunningConfig
import VantaCore.Extractors.Cisco.Occurrences

/-! # Text that is copied to the output

The running configuration and the command history report the text behind their patterns. Two dumps in
which the patterns lead at the same places give the same text exactly if no byte in which they differ is
copied (`RunningConfig.text_eq_iff`, `CliHistory.run_eq_iff`). If the texts are the same, no dump can
have more places than the other (`leads_iff_of_text_eq`, `found_iff_of_run_eq`). -/

namespace VantaCore.Extractors.Cisco.Copies

open VantaCore.Core.DumpHandle VantaCore.Lib.Chunks VantaCore.Lib.Search VantaCore.Lib.PyText
open VantaCore.Lib.FirstBy VantaCore.Lib.Alignment VantaCore.Extractors.Cisco.TextScan
open VantaCore.Extractors.Cisco.Text VantaCore.Extractors.Cisco.TwoDumps
open VantaCore.Extractors.Cisco.Occurrences

variable {n m i pos : ℕ} {d d' : Dump} {p : List UInt8} {f : UInt8 → Bool}

theorem chunkAt_self {l : List UInt8} {c : ℕ} : chunkAt m (chunkAt m l c) 0 = chunkAt m l c := by
  unfold chunkAt
  rw [List.drop_zero, List.take_take, min_self]

/-- A text is the same exactly if its bytes are. -/
theorem strip_textRun_eq_iff (hf : ∀ b, Visible b → f b = true) (h : Aligned Visible d d') :
    strip (ofBytes (textRun m f n d pos)) = strip (ofBytes (textRun m f n d' pos)) ↔
      ∀ i, pos ≤ i → i < pos + (textRun m f n d pos).length → ¬ Differ d d' i := by
  have hrun : Aligned Visible (textRun m f n d pos) (textRun m f n d' pos) :=
    aligned_takeWhile hf (aligned_chunkAt (aligned_chunkAt (aligned_scanned h) _) _)
  rw [strip_eq_iff (aligned_ofBytes hrun), ofBytes_inj, textRun_eq_iff hf h]

/-- The byte is copied from one of the places. -/
def Copied (m : ℕ) (f : UInt8 → Bool) (n : ℕ) (d : Dump) (At : ℕ → Prop) (i : ℕ) : Prop :=
  ∃ pos, At pos ∧ pos ≤ i ∧ i < pos + (textRun m f n d pos).length

/-- A pattern that is copied with the text behind it and shows in the output. -/
structure Copyable (m : ℕ) (f : UInt8 → Bool) (p : List UInt8) : Prop where
  length_le : p.length ≤ m
  text : ∀ b ∈ p, f b = true
  visible : ∃ b ∈ p, Visible b

theorem Copyable.ne_nil (hp : Copyable m f p) : p ≠ [] := by
  rintro rfl
  obtain ⟨b, hb, -⟩ := hp.visible
  exact List.not_mem_nil hb

/-- **If no byte that differs is copied**, none lies in a pattern that is copied. -/
theorem Copyable.not_meets {e : Dump} {At : ℕ → Prop} (hp : Copyable m f p) (hfound : Found n p e pos)
    (hat : At pos) (hcopied : ∀ i, Differ d d' i → ¬ Copied m f n e At i) : ¬ Meets p d d' pos := by
  rintro ⟨i, hlow, hhigh, hdiff⟩
  have hle := length_le_textRun hp.text hp.length_le hfound
  exact hcopied i hdiff ⟨pos, hat, hlow, by omega⟩

/-- What is copied is no empty text. -/
theorem Copyable.strip_ne_nil (hp : Copyable m f p) (hfound : Found n p d pos) :
    strip (ofBytes (textRun m f n d pos)) ≠ [] := by
  rw [Found] at hfound
  obtain ⟨rest, hrest⟩ := hfound.1.exists_chunkAt_eq hp.length_le
  obtain ⟨b, hb, hvis⟩ := hp.visible
  refine VantaCore.Lib.PyText.strip_ne_nil ⟨_, mem_ofBytes_iff.mpr ?_, solid_of_visible b hvis⟩
  unfold textRun
  rw [hrest, List.takeWhile_append_of_pos hp.text]
  exact List.mem_append_left _ hb

/-! ### Places -/

section Places

variable {ρ : Type*} {passes : List (Pass ρ)}

/-- The search of a pattern. -/
theorem exists_pass (hp : p ∈ passes.map Pass.pattern) : ∃ k : ℕ, ∀ (At : List UInt8 → ℕ → Prop) pos,
    (∃ q, passes[k]? = some q ∧ At q.pattern pos) ↔ At p pos := by
  obtain ⟨q, hq, rfl⟩ := List.mem_map.mp hp
  obtain ⟨k, hk⟩ := List.mem_iff_getElem?.mp hq
  refine ⟨k, fun At pos => ⟨?_, fun hat => ⟨q, hk, hat⟩⟩⟩
  rintro ⟨q', hq', hat⟩
  obtain rfl : q = q' := Option.some.inj (hk.symm.trans hq')
  exact hat

/-- The hits are told by the places of the patterns. -/
def HitsAt (passes : List (Pass ρ)) (At : List UInt8 → ℕ → Prop) (value : List UInt8 → ℕ → ρ)
    (hs : List (Hit ρ)) : Prop :=
  ∀ h, h ∈ hs ↔ ∃ p, passes[h.pass]? = some p ∧ At p.pattern h.pos ∧ h.value = value p.pattern h.pos

variable {hs hs' : List (Hit ρ)} {At At' : List UInt8 → ℕ → Prop} {value value' : List UInt8 → ℕ → ρ}
  (hmem : HitsAt passes At value hs)

include hmem

theorem HitsAt.mem_map_place_iff {x : ℕ × ℕ} :
    x ∈ hs.map place ↔ ∃ p, passes[x.1]? = some p ∧ At p.pattern x.2 := by
  rw [List.mem_map]
  constructor
  · rintro ⟨h, hh, rfl⟩
    obtain ⟨p, hp, hat, -⟩ := (hmem h).mp hh
    exact ⟨p, hp, hat⟩
  · rintro ⟨p, hp, hat⟩
    exact ⟨⟨x.1, x.2, value p.pattern x.2⟩, (hmem _).mpr ⟨p, hp, hat, rfl⟩, rfl⟩

/-- A byte is copied from one of the places exactly if it is copied for one of the hits. -/
theorem HitsAt.exists_copied_iff : (∃ a ∈ passes.map Pass.pattern, Copied m f n d (At a) i) ↔
    ∃ h ∈ hs, h.pos ≤ i ∧ i < h.pos + (textRun m f n d h.pos).length := by
  constructor
  · rintro ⟨a, ha, pos, hat, hlow, hhigh⟩
    obtain ⟨p, hp, rfl⟩ := List.mem_map.mp ha
    obtain ⟨k, hk⟩ := List.mem_iff_getElem?.mp hp
    exact ⟨⟨k, pos, value p.pattern pos⟩, (hmem _).mpr ⟨p, hk, hat, rfl⟩, hlow, hhigh⟩
  · rintro ⟨h, hh, hlow, hhigh⟩
    obtain ⟨p, hp, hat, -⟩ := (hmem h).mp hh
    exact ⟨p.pattern, List.mem_map_of_mem (List.mem_of_getElem? hp), h.pos, hat, hlow, hhigh⟩

/-- No byte that is copied for a hit differs exactly if none that is copied from a place does. -/
theorem HitsAt.forall_not_differ_iff :
    (∀ h ∈ hs, ∀ i, h.pos ≤ i → i < h.pos + (textRun m f n d h.pos).length → ¬ Differ d d' i) ↔
      ∀ i, Differ d d' i → ¬ ∃ a ∈ passes.map Pass.pattern, Copied m f n d (At a) i := by
  constructor
  · intro hall i hdiff hin
    obtain ⟨h, hh, hlow, hhigh⟩ := hmem.exists_copied_iff.mp hin
    exact hall h hh i hlow hhigh hdiff
  · exact fun hall h hh i hlow hhigh hdiff =>
      hall i hdiff (hmem.exists_copied_iff.mpr ⟨h, hh, hlow, hhigh⟩)

variable (hmem' : HitsAt passes At' value' hs')

include hmem'

/-- Where one dump has all places of the other, so have the hits. -/
theorem HitsAt.map_place_subset (hsub : ∀ a ∈ passes.map Pass.pattern, ∀ pos, At a pos → At' a pos) :
    ∀ x ∈ hs.map place, x ∈ hs'.map place := by
  intro x hx
  obtain ⟨p, hp, hat⟩ := hmem.mem_map_place_iff.mp hx
  have ha : p.pattern ∈ passes.map Pass.pattern := List.mem_map_of_mem (List.mem_of_getElem? hp)
  exact hmem'.mem_map_place_iff.mpr ⟨p, hp, hsub p.pattern ha x.2 hat⟩

/-- **Where the places are the same**, the hits stand at the same places in order. -/
theorem HitsAt.map_place_eq (hsorted : hs.Pairwise (Before n)) (hsorted' : hs'.Pairwise (Before n))
    (hsame : ∀ a ∈ passes.map Pass.pattern, ∀ pos, At a pos ↔ At' a pos) :
    hs.map place = hs'.map place := by
  refine (sorted_places hsorted).eq_of_mem_iff (sorted_places hsorted') fun x => ⟨?_, ?_⟩
  · exact hmem.map_place_subset hmem' (fun a ha pos => (hsame a ha pos).mp) x
  · exact hmem'.map_place_subset hmem (fun a ha pos => (hsame a ha pos).mpr) x

end Places

/-! ### The running configuration -/

namespace RunningConfig

open VantaCore.Extractors.Cisco.Ios.RunningConfig

theorem isText_of_visible (b : UInt8) (h : Visible b) : isText b = true := by
  have hlow : 32 ≤ b := UInt8.le_of_lt h.1
  simp [isText, hlow, h.2]

/-- `_ANCHOR_SENTINELS` -/
def anchors : List (List UInt8) := passes.map Pass.pattern

theorem copyable_of_mem : ∀ a ∈ anchors, Copyable 4096 isText a := by
  intro a ha
  have hall : ∀ a ∈ anchors, a.length ≤ 4096 ∧ (∀ b ∈ a, isText b = true) ∧ ∃ b ∈ a, Visible b := by
    decide +kernel
  obtain ⟨hle, htext, hvis⟩ := hall a ha
  exact ⟨hle, htext, hvis⟩

theorem borderless_of_mem : ∀ a ∈ anchors, Borderless a := by decide +kernel

theorem nodup_anchors : anchors.Nodup := by decide +kernel

/-- The byte is reported with the configuration: it lies in the text behind the first anchor of its kind
in a bucket. -/
def InSection (n : ℕ) (d : Dump) (i : ℕ) : Prop :=
  ∃ a ∈ anchors, Copied 4096 isText n d (Leads n a d) i

/-- The text behind an anchor. -/
def sectionAt (n : ℕ) (d : Dump) (anchor : List UInt8) (pos : ℕ) : Section :=
  ⟨anchor, strip (ofBytes (textRun 4096 isText n d pos))⟩

theorem parse_eq : ∀ p ∈ passes,
    p.parse (chunkAt p.window (chunkOf n d pos) (pos % n)) = some (sectionAt n d p.pattern pos) := by
  intro p hp
  have hsection : ∀ a, parseSection a (chunkAt 4096 (chunkOf n d pos) (pos % n)) =
      some (sectionAt n d a pos) := fun a => by
    unfold parseSection extractPrintableBlock printableRun sectionAt
    rw [chunkAt_self]
    rfl
  simp only [passes, List.mem_cons, List.not_mem_nil, or_false] at hp
  rcases hp with rfl | rfl | rfl | rfl | rfl | rfl | rfl <;> exact hsection _

theorem mem_hits_iff_section {h : Hit Section} (hn : 0 < n) : h ∈ hits n passes (scanned n d) ↔
    ∃ p, passes[h.pass]? = some p ∧ Found n p.pattern d h.pos ∧
      h.value = sectionAt n d p.pattern h.pos := by
  rw [mem_hits_iff_found hn]
  refine exists_congr fun p => and_congr_right fun hp => and_congr_right fun _ => ?_
  rw [parse_eq p (List.mem_of_getElem? hp), Option.some_inj]
  exact eq_comm

/-- The hits that are reported. -/
def reported (n : ℕ) (d : Dump) : List (Hit Section) := firsts bucket [] (hits n passes (scanned n d))

theorem sorted_reported (hn : 0 < n) : (reported n d).Pairwise (Before n) :=
  (sorted_hits hn).sublist (firsts_sublist _ _)

/-- A bucket belongs to one pass. -/
theorem pass_of_bucket {a b : Hit Section} (hn : 0 < n) (ha : a ∈ hits n passes (scanned n d))
    (hb : b ∈ hits n passes (scanned n d)) (h : bucket a = bucket b) : a.pass = b.pass := by
  obtain ⟨p, hp, -, hvalue⟩ := (mem_hits_iff_section hn).mp ha
  obtain ⟨q, hq, -, hvalue'⟩ := (mem_hits_iff_section hn).mp hb
  have hanchor : a.value.anchor = b.value.anchor := (Prod.mk.inj h).1
  rw [hvalue, hvalue'] at hanchor
  have hget : ∀ {k : ℕ} {r : Pass Section}, passes[k]? = some r → anchors[k]? = some r.pattern :=
    fun hr => by rw [anchors, List.getElem?_map, hr, Option.map_some]
  refine (List.getElem?_inj (List.getElem?_eq_some_iff.mp (hget hp)).1 nodup_anchors).mp ?_
  rw [hget hp, hget hq]
  exact congrArg some hanchor

/-- **What is reported** is the text behind the first anchor of its kind in a bucket. -/
theorem mem_reported_iff {h : Hit Section} (hn : 0 < n) : h ∈ reported n d ↔
    ∃ p, passes[h.pass]? = some p ∧ Leads n p.pattern d h.pos ∧
      h.value = sectionAt n d p.pattern h.pos := by
  have htotal : ∀ a ∈ hits n passes (scanned n d), ∀ b ∈ hits n passes (scanned n d),
      bucket a = bucket b → a = b ∨ Before n a b ∨ Before n b a := by
    intro a ha b hb hbucket
    have hpass := pass_of_bucket hn ha hb hbucket
    rw [before_iff_of_pass_eq hpass, before_iff_of_pass_eq hpass.symm]
    rcases Nat.lt_trichotomy a.pos b.pos with hlt | heq | hlt
    exacts [Or.inr (Or.inl hlt), Or.inl (eq_of_mem_hits ha hb hpass heq), Or.inr (Or.inr hlt)]
  rw [reported, mem_firsts_iff (sorted_hits hn) Before.asymm htotal]
  constructor
  · rintro ⟨hmem, hfirst⟩
    obtain ⟨p, hp, hfound, hvalue⟩ := (mem_hits_iff_section hn).mp hmem
    refine ⟨p, hp, ⟨hfound, fun j hj hbucket hfound' => ?_⟩, hvalue⟩
    let b : Hit Section := ⟨h.pass, j, sectionAt n d p.pattern j⟩
    have hb : b ∈ hits n passes (scanned n d) := (mem_hits_iff_section hn).mpr ⟨p, hp, hfound', rfl⟩
    refine hfirst b hb ?_ ((before_iff_of_pass_eq (show b.pass = h.pass from rfl)).mpr hj)
    unfold bucket
    rw [hvalue]
    exact Prod.ext rfl hbucket
  · rintro ⟨p, hp, hleads, hvalue⟩
    have hmem : h ∈ hits n passes (scanned n d) :=
      (mem_hits_iff_section hn).mpr ⟨p, hp, hleads.1, hvalue⟩
    refine ⟨hmem, fun b hb hbucket hlt => ?_⟩
    have hpass := pass_of_bucket hn hb hmem hbucket
    obtain ⟨q, hq, hfound, -⟩ := (mem_hits_iff_section hn).mp hb
    rw [hpass, hp, Option.some_inj] at hq
    rw [before_iff_of_pass_eq hpass] at hlt
    exact hleads.2 b.pos hlt (Prod.mk.inj hbucket).2 (hq ▸ hfound)

theorem hitsAt_reported (hn : 0 < n) :
    HitsAt passes (Leads n · d) (sectionAt n d) (reported n d) := fun _ => mem_reported_iff hn

theorem exists_place_iff {a : List UInt8} (hn : 0 < n) (ha : a ∈ anchors) :
    ∃ k, ∀ e pos, (k, pos) ∈ (reported n e).map place ↔ Leads n a e pos := by
  obtain ⟨k, hk⟩ := exists_pass ha
  exact ⟨k, fun e pos => (hitsAt_reported hn).mem_map_place_iff.trans (hk (Leads n · e) pos)⟩

/-! Two dumps. -/

/-- The sections are aligned. -/
def SectionRel (sec sec' : Section) : Prop :=
  sec.anchor = sec'.anchor ∧ Aligned Solid sec.text sec'.text

theorem rel_parse : ∀ p ∈ passes, ∀ w w', Aligned Visible w w' →
    Option.Rel SectionRel (p.parse w) (p.parse w') := by
  intro p hp w w' h
  have hsection : ∀ a, Option.Rel SectionRel (parseSection a w) (parseSection a w') := fun a =>
    .some ⟨rfl, aligned_strip (aligned_ofBytes (aligned_takeWhile isText_of_visible
      (aligned_chunkAt h 0)))⟩
  simp only [passes, List.mem_cons, List.not_mem_nil, or_false] at hp
  rcases hp with rfl | rfl | rfl | rfl | rfl | rfl | rfl <;> exact hsection _

/-- The loop runs over the hits that are reported. -/
theorem scanSections_eq_foldl (hn : 0 < n) : scanSections n d =
    (reported n d).foldl (fun s h => record h.pos h.value s) ⟨[], [], []⟩ := by
  have hold : ∀ (s : ConfigState) (h : Hit Section), bucket h ∈ s.seenOffsets →
      record h.pos h.value s = s := fun s h hseen => if_pos hseen
  have hnew : ∀ (s : ConfigState) (h : Hit Section), bucket h ∉ s.seenOffsets →
      (record h.pos h.value s).seenOffsets = bucket h :: s.seenOffsets := fun s h hseen =>
    (records.new s h h rfl hseen).1
  unfold scanSections reported
  rw [scanText_eq_foldl_scanned hn]
  exact foldl_firsts hold hnew _ _

theorem text_ne_nil {h : Hit Section} (hn : 0 < n) (hh : h ∈ reported n d) : h.value.text ≠ [] := by
  obtain ⟨p, hp, hleads, hvalue⟩ := (mem_reported_iff hn).mp hh
  have hcopy := copyable_of_mem p.pattern (List.mem_map_of_mem (List.mem_of_getElem? hp))
  rw [hvalue]
  exact hcopy.strip_ne_nil hleads.1

/-- The sections are the texts of the hits that are reported. -/
theorem foundSections_eq_map (hn : 0 < n) :
    (scanSections n d).foundSections = (reported n d).map fun h => h.value.text := by
  rw [foundSections_eq hn, List.map_eq_flatMap]
  refine List.flatMap_congr fun h hh => ?_
  exact if_neg (text_ne_nil hn hh)

/-- **If the texts are the same** and one dump has all the places of the other, the places are the
same. -/
theorem leads_iff_of_text_eq (hn : 0 < n) (h : Aligned Visible d d')
    (hsub : ∀ a ∈ anchors, ∀ pos, Leads n a d' pos → Leads n a d pos)
    (htext : (run n d).text = (run n d').text) :
    ∀ a ∈ anchors, ∀ pos, Leads n a d pos ↔ Leads n a d' pos := by
  have hplaces : ∀ x ∈ (reported n d').map place, x ∈ (reported n d).map place :=
    (hitsAt_reported hn).map_place_subset (hitsAt_reported hn) hsub
  obtain ⟨part, hpart, heq⟩ := exists_sublist_of_places (sorted_reported hn) (sorted_reported hn) hplaces
  have hrel : List.Forall₂ (HitRel SectionRel) part (reported n d') :=
    forall₂_of_places h rel_parse (fun a ha => (mem_of_mem_firsts (hpart.subset ha)).1)
      (fun _ ha => (mem_of_mem_firsts ha).1) heq.symm
  have hlen : List.Forall₂ (fun t t' : PyStr => t.length = t'.length)
      (part.map fun h => h.value.text) ((reported n d').map fun h => h.value.text) := by
    rw [List.forall₂_map_left_iff, List.forall₂_map_right_iff]
    exact hrel.imp fun _ _ hab => hab.value.2.length_eq
  have hjoin : (join "\n\n" (part.map fun h => h.value.text)).length =
      (join "\n\n" ((reported n d).map fun h => h.value.text)).length := by
    rw [length_join_congr hlen, ← foundSections_eq_map hn, ← foundSections_eq_map hn]
    exact congrArg List.length htext.symm
  have hne : ∀ t ∈ (reported n d).map fun h => h.value.text, t ≠ [] := by
    intro t ht
    obtain ⟨h, hh, rfl⟩ := List.mem_map.mp ht
    exact text_ne_nil hn hh
  have hall := congrArg List.length (eq_of_length_join_eq (hpart.map _) hne hjoin)
  rw [List.length_map, List.length_map] at hall
  obtain rfl := hpart.eq_of_length hall
  intro a ha pos
  obtain ⟨k, hk⟩ := exists_place_iff hn ha
  rw [← hk, ← hk, heq]

section Same

variable (hn : 0 < n) (h : Aligned Visible d d')
  (hsame : ∀ a ∈ anchors, ∀ pos, Leads n a d pos ↔ Leads n a d' pos)

include hn h hsame

theorem forall₂_reported : List.Forall₂ (HitRel SectionRel) (reported n d) (reported n d') := by
  refine forall₂_of_places h rel_parse (fun _ ha => (mem_of_mem_firsts ha).1)
    (fun _ ha => (mem_of_mem_firsts ha).1) ?_
  exact (hitsAt_reported hn).map_place_eq (hitsAt_reported hn) (sorted_reported hn)
    (sorted_reported hn) hsame

/-- **The text is the same** exactly if no byte of a section differs. -/
theorem text_eq_iff : (run n d).text = (run n d').text ↔ ∀ i, Differ d d' i → ¬ InSection n d i := by
  have hrel := forall₂_reported hn h hsame
  have htext : ∀ e, (run n e).text = join "\n\n" ((reported n e).map fun h => h.value.text) :=
    fun e => by rw [← foundSections_eq_map hn]; rfl
  have hlen : List.Forall₂ (fun t t' : PyStr => t.length = t'.length)
      ((reported n d).map fun h => h.value.text) ((reported n d').map fun h => h.value.text) := by
    rw [List.forall₂_map_left_iff, List.forall₂_map_right_iff]
    exact hrel.imp fun _ _ hab => hab.value.2.length_eq
  rw [htext, htext, join_eq_iff hlen, ← List.forall₂_eq_eq_eq, List.forall₂_map_left_iff,
    List.forall₂_map_right_iff]
  have hsection : ∀ {e} {a : Hit Section}, a ∈ reported n e →
      a.value.text = strip (ofBytes (textRun 4096 isText n e a.pos)) := fun ha => by
    obtain ⟨p, -, -, hvalue⟩ := (mem_reported_iff hn).mp ha
    rw [hvalue]
    rfl
  have hparts : List.Forall₂ (fun a b => a.value.text = b.value.text) (reported n d) (reported n d') ↔
      ∀ a ∈ reported n d, ∀ i, a.pos ≤ i → i < a.pos + (textRun 4096 isText n d a.pos).length →
        ¬ Differ d d' i :=
    forall₂_iff_forall hrel fun a ha b hb hab => by
      rw [hsection ha, hsection hb, ← hab.pos, strip_textRun_eq_iff isText_of_visible h]
  exact hparts.trans (hitsAt_reported hn).forall_not_differ_iff

/-- The anchors are counted alike. -/
theorem foundAnchors_eq : (scanSections n d).foundAnchors = (scanSections n d').foundAnchors := by
  have hstep : ∀ {s s' : ConfigState},
      s.foundAnchors = s'.foundAnchors ∧ s.seenOffsets = s'.seenOffsets →
      ∀ {a b : Hit Section}, HitRel SectionRel a b →
        (record a.pos a.value s).foundAnchors = (record b.pos b.value s').foundAnchors ∧
          (record a.pos a.value s).seenOffsets = (record b.pos b.value s').seenOffsets := by
    intro s s' hs a b hab
    have hnil : a.value.text = [] ↔ b.value.text = [] := by
      rw [← List.length_eq_zero_iff, ← List.length_eq_zero_iff, hab.value.2.length_eq]
    unfold record
    dsimp only
    rw [← hab.pos, ← hab.value.1, ← hs.2]
    by_cases hseen : (a.value.anchor, a.pos / 64) ∈ s.seenOffsets
    · rw [if_pos hseen, if_pos hseen]
      exact hs
    · rw [if_neg hseen, if_neg hseen]
      by_cases htext : a.value.text = []
      · rw [if_pos htext, if_pos (hnil.mp htext)]
        exact ⟨hs.1, rfl⟩
      · rw [if_neg htext, if_neg (mt hnil.mpr htext), hs.1]
        exact ⟨rfl, rfl⟩
  rw [scanSections_eq_foldl hn, scanSections_eq_foldl hn]
  exact (List.rel_foldl (R := HitRel SectionRel) (P := fun s s' : ConfigState =>
    s.foundAnchors = s'.foundAnchors ∧ s.seenOffsets = s'.seenOffsets)
    (fun _ _ hs _ _ hab => hstep hs hab) ⟨rfl, rfl⟩ (forall₂_reported hn h hsame)).1

end Same

/-- The configurations are the same exactly if text, number of anchors and version are. -/
theorem run_eq_run_iff : run n d = run n d' ↔ (run n d).text = (run n d').text ∧
    (scanSections n d).foundAnchors.length = (scanSections n d').foundAnchors.length ∧
    detectFirmwareVersion (firstChunk d) = detectFirmwareVersion (firstChunk d') := by
  constructor
  · intro heq
    exact ⟨congrArg Config.text heq, congrArg Config.sectionsFound heq,
      congrArg Config.firmwareVersion heq⟩
  · rintro ⟨htext, hcount, hversion⟩
    have hrun : ∀ e : Dump, run n e = ⟨(run n e).text, confidence (scanSections n e).foundAnchors.length,
        (scanSections n e).foundAnchors.length, "text_pattern",
        detectFirmwareVersion (firstChunk e), "N/A"⟩ := fun _ => rfl
    rw [hrun d, hrun d', htext, hcount, hversion]

/-! The firmware version. -/

/-- The text behind the first occurrence of a banner in the first chunk, up to a NUL or a line feed and of
at most 16 bytes. -/
def TextBehind (d : Dump) (p : List UInt8) (t : PyStr) : Prop :=
  ∃ pos, OccursAt p (firstChunk d) pos ∧ (∀ j < pos, ¬ OccursAt p (firstChunk d) j) ∧
    strip (decodeAscii ((chunkAt 16 (firstChunk d) (pos + p.length)).takeWhile
      fun b => b ≠ 0 && b ≠ 10)) = t

/-- The first of the banners with a text behind it shows the text. -/
def Shows (d : Dump) (t : PyStr) : Prop :=
  t ≠ [] ∧ ∃ (k : ℕ) (p : List UInt8), versionPatterns[k]? = some p ∧ TextBehind d p t ∧
    ∀ j < k, ∀ q, versionPatterns[j]? = some q → ∀ u, TextBehind d q u → u = []

theorem textBehind_iff {t : PyStr} (hp : p ≠ []) :
    TextBehind d p t ↔ (rawVersion (firstChunk d) p).map versionText = some t := by
  unfold TextBehind rawVersion
  rw [Option.map_map, Option.map_eq_some_iff]
  refine exists_congr fun pos => ?_
  rw [find_eq_some_iff hp, ← and_assoc]
  simp only [Nat.zero_le, true_and, forall_const]
  exact Iff.rfl

theorem shows_iff {t : PyStr} : Shows d t ↔ (banner (firstChunk d)).map versionText = some t := by
  have hne : ∀ {k : ℕ} {p : List UInt8}, versionPatterns[k]? = some p → p ≠ [] := fun hk heq => by
    have hmem := List.mem_of_getElem? hk
    rw [heq] at hmem
    exact absurd hmem (by decide +kernel)
  unfold Shows banner
  rw [List.find?_filterMap, Option.map_eq_some_iff]
  constructor
  · rintro ⟨ht, k, p, hk, hbehind, hfirst⟩
    obtain ⟨raw, hraw, hval⟩ := Option.map_eq_some_iff.mp ((textBehind_iff (hne hk)).mp hbehind)
    obtain ⟨hlt, hget⟩ := List.getElem?_eq_some_iff.mp hk
    refine ⟨raw, Option.bind_eq_some_iff.mpr ⟨p, List.find?_eq_some_iff_getElem.mpr ⟨?_, k, hlt, hget,
      fun j hj => ?_⟩, hraw⟩, hval⟩
    · rw [hraw, Option.any_some, decide_eq_true_iff, hval]
      exact ht
    · have hq := List.getElem?_eq_getElem (hj.trans hlt)
      cases hrawq : rawVersion (firstChunk d) versionPatterns[j] with
      | none => rfl
      | some r =>
        have hnil := hfirst j hj _ hq _ ((textBehind_iff (hne hq)).mpr (by rw [hrawq]; rfl))
        simp [hnil]
  · rintro ⟨raw, hbind, hval⟩
    obtain ⟨p, hfind, hraw⟩ := Option.bind_eq_some_iff.mp hbind
    obtain ⟨hany, k, hlt, hget, hfirst⟩ := List.find?_eq_some_iff_getElem.mp hfind
    have hk := List.getElem?_eq_some_iff.mpr ⟨hlt, hget⟩
    rw [hraw, Option.any_some, decide_eq_true_iff, hval] at hany
    refine ⟨hany, k, p, hk, (textBehind_iff (hne hk)).mpr (by rw [hraw, ← hval]; rfl),
      fun j hj q hq u hu => ?_⟩
    obtain ⟨r, hr, hru⟩ := Option.map_eq_some_iff.mp ((textBehind_iff (hne hq)).mp hu)
    obtain ⟨hltq, hgetq⟩ := List.getElem?_eq_some_iff.mp hq
    have hnot := hfirst j hj
    rw [hgetq, hr, Option.any_some, hru] at hnot
    simpa using hnot

theorem getD_eq_getD_iff {α : Type*} {o o' : Option α} {u : α} :
    o.getD u = o'.getD u ↔ ∀ t, t ≠ u → (o = some t ↔ o' = some t) := by
  have hkey : ∀ (o : Option α) {t : α}, t ≠ u → (o = some t ↔ o.getD u = t) := by
    intro o t ht
    cases o with
    | none => simpa using ht.symm
    | some a => simp
  constructor
  · intro heq t ht
    rw [hkey o ht, hkey o' ht, heq]
  · intro hall
    by_cases hu : o.getD u = u
    · by_contra hne
      have hne' : o'.getD u ≠ u := fun hu' => hne (hu.trans hu'.symm)
      exact hne ((hkey o hne').mp ((hall _ hne').mpr ((hkey o' hne').mpr rfl)))
    · exact ((hkey o' hu).mp ((hall _ hu).mp ((hkey o hu).mpr rfl))).symm

/-- **The version is the same** exactly if the same text shows, where no text counts as `unknown`. -/
theorem detectFirmwareVersion_eq_iff :
    detectFirmwareVersion (firstChunk d) = detectFirmwareVersion (firstChunk d') ↔
      ∀ t, t ≠ ofString "unknown" → (Shows d t ↔ Shows d' t) := by
  have hdetect : ∀ e, detectFirmwareVersion (firstChunk e) =
      ((banner (firstChunk e)).map versionText).getD (ofString "unknown") := fun e => by
    unfold detectFirmwareVersion
    cases banner (firstChunk e) <;> rfl
  rw [hdetect, hdetect, getD_eq_getD_iff]
  simp only [shows_iff]

end RunningConfig

/-! ### The command history -/

namespace CliHistory

open VantaCore.Extractors.Cisco.Common.CliHistory

/-- The byte may stand in a command. -/
def isCommand (b : UInt8) : Bool := 32 ≤ b && b ≤ 126

theorem isCommand_of_visible (b : UInt8) (h : Visible b) : isCommand b = true := by
  have hlow : 32 ≤ b := UInt8.le_of_lt h.1
  simp [isCommand, hlow, h.2]

/-- `_CLI_SENTINELS` -/
def sentinels : List (List UInt8) := passes.map Pass.pattern

theorem copyable_of_mem : ∀ a ∈ sentinels, Copyable 256 isCommand a := by
  intro a ha
  have hall : ∀ a ∈ sentinels, a.length ≤ 256 ∧ (∀ b ∈ a, isCommand b = true) ∧ ∃ b ∈ a, Visible b := by
    decide +kernel
  obtain ⟨hle, htext, hvis⟩ := hall a ha
  exact ⟨hle, htext, hvis⟩

/-- The byte is reported with a command. -/
def InCommand (n : ℕ) (d : Dump) (i : ℕ) : Prop :=
  ∃ a ∈ sentinels, Copied 256 isCommand n d (Found n a d) i

/-- The text behind a pattern. -/
def commandAt (n : ℕ) (d : Dump) (pos : ℕ) : PyStr :=
  strip (ofBytes (textRun 256 isCommand n d pos))

theorem pass_eq : ∀ p ∈ passes, p.window = 256 ∧ p.parse = parseCommand := by
  intro p hp
  simp only [passes, List.mem_cons, List.not_mem_nil, or_false] at hp
  rcases hp with rfl | rfl | rfl | rfl | rfl <;> exact ⟨rfl, rfl⟩

theorem mem_hits_iff_command {h : Hit PyStr} (hn : 0 < n) : h ∈ hits n passes (scanned n d) ↔
    ∃ p, passes[h.pass]? = some p ∧ Found n p.pattern d h.pos ∧
      h.value = commandAt n d h.pos := by
  rw [mem_hits_iff_found hn]
  refine exists_congr fun p => and_congr_right fun hp => and_congr_right fun hfound => ?_
  have hmem := List.mem_of_getElem? hp
  have hne := (copyable_of_mem p.pattern (List.mem_map_of_mem hmem)).strip_ne_nil hfound
  obtain ⟨hwindow, hparse⟩ := pass_eq p hmem
  have hrun : commandRun (chunkAt 256 (chunkOf n d h.pos) (h.pos % n)) 0 =
      textRun 256 isCommand n d h.pos := by
    unfold commandRun
    rw [chunkAt_self]
    rfl
  rw [hwindow, hparse]
  unfold parseCommand extractCommandString
  dsimp only
  rw [hrun, if_neg hne, Option.some_inj]
  exact eq_comm

theorem hitsAt_hits (hn : 0 < n) : HitsAt passes (Found n · d) (fun _ => commandAt n d)
    (hits n passes (scanned n d)) := fun _ => mem_hits_iff_command hn

theorem exists_place_iff {a : List UInt8} (hn : 0 < n) (ha : a ∈ sentinels) :
    ∃ k, ∀ e pos, (k, pos) ∈ (hits n passes (scanned n e)).map place ↔ Found n a e pos := by
  obtain ⟨k, hk⟩ := exists_pass ha
  exact ⟨k, fun e pos => (hitsAt_hits hn).mem_map_place_iff.trans (hk (Found n · e) pos)⟩

theorem rel_parse : ∀ p ∈ passes, ∀ w w', Aligned Visible w w' →
    Option.Rel (Aligned Solid) (p.parse w) (p.parse w') := by
  intro p hp w w' h
  rw [(pass_eq p hp).2]
  have htext : Aligned Solid (strip (ofBytes (commandRun w 0))) (strip (ofBytes (commandRun w' 0))) :=
    aligned_strip (aligned_ofBytes (aligned_takeWhile isCommand_of_visible (aligned_chunkAt h 0)))
  have hnil : strip (ofBytes (commandRun w 0)) = [] ↔ strip (ofBytes (commandRun w' 0)) = [] := by
    rw [← List.length_eq_zero_iff, ← List.length_eq_zero_iff, htext.length_eq]
  unfold parseCommand extractCommandString
  dsimp only
  by_cases hempty : strip (ofBytes (commandRun w 0)) = []
  · rw [if_pos hempty, if_pos (hnil.mp hempty)]
    exact .none
  · rw [if_neg hempty, if_neg (mt hnil.mpr hempty)]
    exact .some htext

/-- **Matches at the same offsets are sorted alike**, so their commands are told from the sorted
commands. -/
theorem sorted_commands_eq_iff {raw raw' : List (ℕ × PyStr)}
    (h : List.Forall₂ (fun m m' => m.1 = m'.1) raw raw') :
    (sortMatches raw).map Prod.snd = (sortMatches raw').map Prod.snd ↔ raw = raw' := by
  refine ⟨fun heq => ?_, fun heq => by rw [heq]⟩
  obtain ⟨hlen, hoffset⟩ := List.forall₂_iff_zip.mp h
  -- Both lists are parts of their zip, which is sorted once.
  let pairs := raw.zip raw'
  let sorted := pairs.mergeSort fun a b => a.1.1 ≤ b.1.1
  have hleft : pairs.map Prod.fst = raw := List.map_fst_zip hlen.le
  have hright : pairs.map Prod.snd = raw' := List.map_snd_zip hlen.ge
  have hsorted : sortMatches raw = sorted.map Prod.fst := by
    rw [← hleft]
    refine (List.map_mergeSort fun a _ b _ => ?_).symm
    rfl
  have hsorted' : sortMatches raw' = sorted.map Prod.snd := by
    rw [← hright]
    refine (List.map_mergeSort fun a ha b hb => ?_).symm
    rw [hoffset ha, hoffset hb]
  rw [hsorted, hsorted', List.map_map, List.map_map, List.map_inj_left] at heq
  rw [← hleft, ← hright]
  refine List.map_congr_left fun a ha => ?_
  have hmem : a ∈ sorted := (List.mergeSort_perm _ _).mem_iff.mpr ha
  exact Prod.ext (hoffset ha) (heq a hmem)

/-- The report tells the sorted commands. -/
theorem commands_eq_of_run_eq (heq : run n d = run n d') :
    (sortMatches (rawMatches n d)).map Prod.snd = (sortMatches (rawMatches n d')).map Prod.snd := by
  have hclusters : clusters (sortMatches (rawMatches n d)) =
      clusters (sortMatches (rawMatches n d')) := by
    have hcommands := congrArg (fun r => r.cliHistory.map History.commands) heq
    unfold run at hcommands
    dsimp only at hcommands
    rwa [List.map_map, List.map_map, List.map_id'', List.map_id''] at hcommands
    all_goals exact fun _ => rfl
  rw [← flatten_clusters, ← flatten_clusters, hclusters]

theorem rawMatches_eq_of_run_eq
    (h : List.Forall₂ (fun m m' => m.1 = m'.1) (rawMatches n d) (rawMatches n d'))
    (heq : run n d = run n d') : rawMatches n d = rawMatches n d' :=
  (sorted_commands_eq_iff h).mp (commands_eq_of_run_eq heq)

/-- **If the histories are the same** and one dump has all the places of the other, the places are the
same. -/
theorem found_iff_of_run_eq (hn : 0 < n)
    (hsub : ∀ a ∈ sentinels, ∀ pos, Found n a d' pos → Found n a d pos) (heq : run n d = run n d') :
    ∀ a ∈ sentinels, ∀ pos, Found n a d pos ↔ Found n a d' pos := by
  have hplaces : ∀ x ∈ (hits n passes (scanned n d')).map place,
      x ∈ (hits n passes (scanned n d)).map place :=
    (hitsAt_hits hn).map_place_subset (hitsAt_hits hn) hsub
  obtain ⟨part, hpart, hmap⟩ := exists_sublist_of_places (sorted_hits hn) (sorted_hits hn) hplaces
  have hlen : (rawMatches n d).length = (rawMatches n d').length := by
    have hcommands := congrArg List.length (commands_eq_of_run_eq heq)
    rwa [List.length_map, List.length_map, sortMatches, sortMatches, List.length_mergeSort,
      List.length_mergeSort] at hcommands
  have hpartlen := congrArg List.length hmap
  rw [rawMatches_eq hn, rawMatches_eq hn, List.length_map, List.length_map] at hlen
  rw [List.length_map, List.length_map] at hpartlen
  obtain rfl := hpart.eq_of_length (by omega)
  intro a ha pos
  obtain ⟨k, hk⟩ := exists_place_iff hn ha
  rw [← hk, ← hk, hmap]

section Same

variable (hn : 0 < n) (h : Aligned Visible d d')
  (hsame : ∀ a ∈ sentinels, ∀ pos, Found n a d pos ↔ Found n a d' pos)

include hn h hsame

/-- **The reports are equal** exactly if no byte of a command differs. -/
theorem run_eq_iff : run n d = run n d' ↔ ∀ i, Differ d d' i → ¬ InCommand n d i := by
  have hplaces : (hits n passes (scanned n d)).map place = (hits n passes (scanned n d')).map place :=
    (hitsAt_hits hn).map_place_eq (hitsAt_hits hn) (sorted_hits hn) (sorted_hits hn) hsame
  have hhits : List.Forall₂ (HitRel (Aligned Solid)) (hits n passes (scanned n d))
      (hits n passes (scanned n d')) :=
    forall₂_of_places h rel_parse (fun _ ha => ha) (fun _ ha => ha) hplaces
  have hmatches : List.Forall₂ (fun m m' : ℕ × PyStr => m.1 = m'.1) (rawMatches n d)
      (rawMatches n d') := by
    rw [rawMatches_eq hn, rawMatches_eq hn, List.forall₂_map_left_iff, List.forall₂_map_right_iff]
    exact hhits.imp fun _ _ hab => hab.pos
  have hruns : run n d = run n d' ↔ rawMatches n d = rawMatches n d' := by
    refine ⟨rawMatches_eq_of_run_eq hmatches, fun heq => ?_⟩
    unfold run
    rw [heq]
  have hvalue : ∀ {e} {a : Hit PyStr}, a ∈ hits n passes (scanned n e) →
      a.value = commandAt n e a.pos := fun ha => by
    obtain ⟨p, -, -, hvalue⟩ := (mem_hits_iff_command hn).mp ha
    exact hvalue
  rw [hruns, rawMatches_eq hn, rawMatches_eq hn, ← List.forall₂_eq_eq_eq,
    List.forall₂_map_left_iff, List.forall₂_map_right_iff]
  have hparts : List.Forall₂ (fun a b => (a.pos, a.value) = (b.pos, b.value))
      (hits n passes (scanned n d)) (hits n passes (scanned n d')) ↔
      ∀ a ∈ hits n passes (scanned n d), ∀ i, a.pos ≤ i →
        i < a.pos + (textRun 256 isCommand n d a.pos).length → ¬ Differ d d' i :=
    forall₂_iff_forall hhits fun a ha b hb hab => by
      rw [Prod.mk.injEq, and_iff_right hab.pos, hvalue ha, hvalue hb, ← hab.pos, commandAt, commandAt,
        strip_textRun_eq_iff isCommand_of_visible h]
  exact hparts.trans (hitsAt_hits hn).forall_not_differ_iff

end Same

end CliHistory

end VantaCore.Extractors.Cisco.Copies
