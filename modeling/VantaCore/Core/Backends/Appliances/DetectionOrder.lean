import VantaCore.Core.Backends.Agreement

/-! # The order of discovery

The registry takes the first of the best scores, so what it finds depends on the order in which the
detectors were discovered where two of them share the best score (`registryDetect_order`). Only an
ELF file can be such a dump: an ELF file with the banners of Cisco IOS and of Cisco IOS XE is
(`not_orderFree`). -/

namespace VantaCore.Core.Backends.Appliances.DetectionOrder

open VantaCore.Core.DumpHandle VantaCore.Core.Backends.Appliances.Detectors
open VantaCore.Core.Backends.Agreement
open VantaCore.Lib

variable {elfFile : ElfFile} {dump : Dump} {ds : List Detector} {d : Detector}

/-- The score of the detector reaches the threshold, and no other detector scores better. -/
def Best (elfFile : ElfFile) (dump : Dump) (d : Detector) : Prop :=
  ∃ score, d.detect elfFile dump = some score ∧ 60 ≤ score ∧
    ∀ (d' : Detector) (score' : ℕ), d'.detect elfFile dump = some score' → score' ≤ score

/-- Every order of the detectors gives the same platform, or none. -/
def OrderFree (elfFile : ElfFile) (dump : Dump) : Prop :=
  ∀ ds₁ ds₂ : List Detector, ds₁.Perm detectors → ds₂.Perm detectors →
    (registryDetect elfFile ds₁ dump).map Detector.platformName =
      (registryDetect elfFile ds₂ dump).map Detector.platformName

/-! ### The first of the best -/

/-- What stands before the winner is worse. -/
theorem maxFirst_split {δ : Type*} : ∀ {rs : List (ℕ × δ)} {best : ℕ × δ},
    maxFirst rs = some best → ∃ l₁ l₂, rs = l₁ ++ best :: l₂ ∧ ∀ r ∈ l₁, r.1 < best.1
  | [], _, h => by cases h
  | r :: rs, best, h => by
    rw [maxFirst] at h
    cases hrs : maxFirst rs with
    | none =>
      rw [hrs] at h
      obtain rfl := Option.some.inj h
      exact ⟨[], rs, rfl, by simp⟩
    | some best' =>
      rw [hrs] at h
      dsimp only at h
      split_ifs at h with hlt
      · obtain rfl := Option.some.inj h
        obtain ⟨l₁, l₂, rfl, hbefore⟩ := maxFirst_split hrs
        refine ⟨r :: l₁, l₂, rfl, fun r' hr' => ?_⟩
        rcases List.mem_cons.mp hr' with rfl | hr'
        · exact hlt
        · exact hbefore r' hr'
      · obtain rfl := Option.some.inj h
        exact ⟨[], rs, rfl, by simp⟩

theorem exists_maxFirst {δ : Type*} {rs : List (ℕ × δ)} (h : rs ≠ []) :
    ∃ best, maxFirst rs = some best := by
  obtain ⟨r, rs, rfl⟩ := List.exists_cons_of_ne_nil h
  rw [maxFirst]
  cases maxFirst rs with
  | none => exact ⟨r, rfl⟩
  | some best =>
    by_cases hlt : r.1 < best.1
    · exact ⟨best, if_pos hlt⟩
    · exact ⟨r, if_neg hlt⟩

/-! ### What the registry finds -/

/-- The score of a detector, if it reaches the threshold. -/
def qualify (elfFile : ElfFile) (dump : Dump) (d : Detector) : Option (ℕ × Detector) :=
  ((d.detect elfFile dump).map fun score => (score, d)).filter fun r => 60 ≤ r.1

theorem registryDetect_eq (elfFile : ElfFile) (ds : List Detector) (dump : Dump) :
    registryDetect elfFile ds dump =
      (maxFirst (ds.filterMap (qualify elfFile dump))).map (·.2) := by
  unfold registryDetect qualify
  dsimp only
  rw [List.filter_filterMap]

theorem qualify_eq_some_iff {r : ℕ × Detector} : qualify elfFile dump d = some r ↔
    r.2 = d ∧ d.detect elfFile dump = some r.1 ∧ 60 ≤ r.1 := by
  obtain ⟨score, d'⟩ := r
  unfold qualify
  rw [Option.filter_eq_some_iff, Option.map_eq_some_iff]
  simp only [Prod.mk.injEq, decide_eq_true_eq]
  constructor
  · rintro ⟨⟨s, hs, rfl, rfl⟩, hle⟩
    exact ⟨rfl, hs, hle⟩
  · rintro ⟨rfl, hs, hle⟩
    exact ⟨⟨score, hs, rfl, rfl⟩, hle⟩

theorem best_of_qualify {score : ℕ} (hq : qualify elfFile dump d = some (score, d))
    (hall : ∀ d, d ∈ ds)
    (hmax : ∀ r ∈ ds.filterMap (qualify elfFile dump), r.1 ≤ score) : Best elfFile dump d := by
  obtain ⟨-, hscore, h60⟩ := qualify_eq_some_iff.mp hq
  refine ⟨score, hscore, h60, fun d' score' hd' => ?_⟩
  rcases Nat.lt_or_ge score' 60 with hlt | hge
  · dsimp only at h60
    omega
  · have hq' : qualify elfFile dump d' = some (score', d') :=
      qualify_eq_some_iff.mpr ⟨rfl, hd', hge⟩
    exact hmax _ (List.mem_filterMap.mpr ⟨d', hall d', hq'⟩)

/-- **The registry finds the first detector of the best score.** -/
theorem registryDetect_eq_some_iff (hall : ∀ d, d ∈ ds) :
    registryDetect elfFile ds dump = some d ↔
      ∃ l₁ l₂, ds = l₁ ++ d :: l₂ ∧ Best elfFile dump d ∧ ∀ d' ∈ l₁, ¬ Best elfFile dump d' := by
  -- what wins is the first of the best
  have found : ∀ d, registryDetect elfFile ds dump = some d →
      ∃ l₁ l₂, ds = l₁ ++ d :: l₂ ∧ Best elfFile dump d ∧ ∀ d' ∈ l₁, ¬ Best elfFile dump d' := by
    intro d h
    rw [registryDetect_eq] at h
    obtain ⟨⟨score, d'⟩, hmax, rfl⟩ := Option.map_eq_some_iff.mp h
    obtain ⟨-, hle⟩ := maxFirst_eq_some hmax
    obtain ⟨q₁, q₂, hq, hbefore⟩ := maxFirst_split hmax
    obtain ⟨l₁, l₂, rfl, h₁, h₂⟩ := List.filterMap_eq_append_iff.mp hq
    obtain ⟨m₁, e, m₂, rfl, hm₁, he, hm₂⟩ := List.filterMap_eq_cons_iff.mp h₂
    obtain ⟨rfl, hscore, h60⟩ := qualify_eq_some_iff.mp he
    have hbest := best_of_qualify he hall hle
    refine ⟨l₁ ++ m₁, m₂, by simp, hbest, fun f hf hfbest => ?_⟩
    obtain ⟨s, hs, hs60, hsmax⟩ := id hfbest
    have hfq : qualify elfFile dump f = some (s, f) := qualify_eq_some_iff.mpr ⟨rfl, hs, hs60⟩
    rcases List.mem_append.mp hf with hf | hf
    · have hlt : s < score := hbefore (s, f) (h₁ ▸ List.mem_filterMap.mpr ⟨f, hf, hfq⟩)
      have hge : score ≤ s := hsmax _ _ hscore
      omega
    · rw [hm₁ f hf] at hfq
      cases hfq
  refine ⟨found d, ?_⟩
  rintro ⟨l₁, l₂, rfl, hbest, hnone⟩
  obtain ⟨score, hscore, h60, -⟩ := id hbest
  have hne : (l₁ ++ d :: l₂).filterMap (qualify elfFile dump) ≠ [] := by
    refine List.ne_nil_of_mem (a := (score, d)) (List.mem_filterMap.mpr ⟨d, by simp, ?_⟩)
    exact qualify_eq_some_iff.mpr ⟨rfl, hscore, h60⟩
  obtain ⟨⟨s, e⟩, hmax⟩ := exists_maxFirst hne
  have he : registryDetect elfFile (l₁ ++ d :: l₂) dump = some e := by
    rw [registryDetect_eq, hmax]
    rfl
  obtain ⟨m₁, m₂, hsplit, hebest, henone⟩ := found e he
  rw [he]
  -- both `d` and `e` are the first of the best
  rcases List.append_eq_append_iff.mp hsplit with ⟨c, rfl, hc⟩ | ⟨c, rfl, hc⟩
  · rcases c with _ | ⟨x, c⟩
    · exact congrArg some (List.cons.inj hc).1.symm
    · obtain rfl := (List.cons.inj hc).1
      exact absurd hbest (henone d (by simp))
  · rcases c with _ | ⟨x, c⟩
    · exact congrArg some (List.cons.inj hc).1
    · obtain rfl := (List.cons.inj hc).1
      exact absurd hebest (hnone e (by simp))

/-! ### Orders -/

theorem mem_of_perm (h : ds.Perm detectors) (d : Detector) : d ∈ ds := by
  rw [h.mem_iff]
  cases d <;> decide

/-- Without a best detector nothing is found. -/
theorem registryDetect_eq_none (hall : ∀ d, d ∈ ds) (h : ∀ d, ¬ Best elfFile dump d) :
    registryDetect elfFile ds dump = none := by
  cases hd : registryDetect elfFile ds dump with
  | none => rfl
  | some d =>
    obtain ⟨-, -, -, hbest, -⟩ := (registryDetect_eq_some_iff hall).mp hd
    exact absurd hbest (h d)

theorem platformName_injective : Function.Injective Detector.platformName := by
  intro d e h
  cases d <;> cases e <;> first | rfl | simp [Detector.platformName] at h

/-- The first of an order wins if it is one of the best. -/
theorem registryDetect_erase (h : Best elfFile dump d) :
    (d :: detectors.erase d).Perm detectors ∧
      registryDetect elfFile (d :: detectors.erase d) dump = some d := by
  have hperm : (d :: detectors.erase d).Perm detectors :=
    (List.perm_cons_erase (mem_of_perm (List.Perm.refl _) d)).symm
  exact ⟨hperm, (registryDetect_eq_some_iff (mem_of_perm hperm)).mpr ⟨[], _, rfl, h, by simp⟩⟩

/-- **The order matters** exactly if two detectors are best. -/
theorem orderFree_iff : OrderFree elfFile dump ↔
    ∀ d d', Best elfFile dump d → Best elfFile dump d' → d = d' := by
  constructor
  · intro h d d' hd hd'
    obtain ⟨hperm, hfound⟩ := registryDetect_erase hd
    obtain ⟨hperm', hfound'⟩ := registryDetect_erase hd'
    have heq := h _ _ hperm hperm'
    rw [hfound, hfound'] at heq
    exact platformName_injective (Option.some.inj heq)
  · intro h ds₁ ds₂ h₁ h₂
    by_cases hex : ∃ d, Best elfFile dump d
    · obtain ⟨d, hd⟩ := hex
      have key : ∀ ds : List Detector, ds.Perm detectors →
          registryDetect elfFile ds dump = some d := by
        intro ds hperm
        -- the only best detector stands somewhere, and no best one before it
        have hn : ds.Nodup := hperm.nodup_iff.mpr (by decide)
        obtain ⟨l₁, l₂, rfl⟩ := List.append_of_mem (mem_of_perm hperm d)
        refine (registryDetect_eq_some_iff (mem_of_perm hperm)).mpr ⟨l₁, l₂, rfl, hd, ?_⟩
        rintro d' hd' hbest
        obtain rfl := h d d' hd hbest
        exact (List.nodup_append.mp hn).2.2 d hd' d List.mem_cons_self rfl
      rw [key ds₁ h₁, key ds₂ h₂]
    · have hnone := not_exists.mp hex
      rw [registryDetect_eq_none (mem_of_perm h₁) hnone,
        registryDetect_eq_none (mem_of_perm h₂) hnone]

/-- Only Cisco IOS finds a file that is not an ELF file. -/
theorem eq_ciscoIos_of_best (helf : ¬ IsElf dump) (h : Best elfFile dump d) : d = .ciscoIos := by
  obtain ⟨score, hscore, h60, -⟩ := h
  cases d with
  | ciscoAsa => exact absurd (isElf_of_ciscoAsaDetect hscore h60) helf
  | ciscoIos => rfl
  | ciscoIosxe =>
    obtain rfl := Option.some.inj hscore
    exact absurd (isElf_of_ciscoIosxeDetect h60) helf
  | genericFlat =>
    obtain rfl := Option.some.inj hscore
    omega

/-- **What an order finds, and when the order matters**: the first of the best detectors is found,
so the order does not matter exactly if there is at most one, as in any file that is not an ELF
file. -/
theorem registryDetect_order (elfFile : ElfFile) (dump : Dump) :
    (∀ ds : List Detector, ds.Perm detectors → ∀ d,
      (registryDetect elfFile ds dump = some d ↔
        ∃ l₁ l₂, ds = l₁ ++ d :: l₂ ∧ Best elfFile dump d ∧
          ∀ d' ∈ l₁, ¬ Best elfFile dump d')) ∧
    (OrderFree elfFile dump ↔ ∀ d d', Best elfFile dump d → Best elfFile dump d' → d = d') ∧
    (¬ IsElf dump → OrderFree elfFile dump) := by
  refine ⟨fun ds hperm d => registryDetect_eq_some_iff (mem_of_perm hperm), orderFree_iff,
    fun helf => orderFree_iff.mpr fun d d' hd hd' => ?_⟩
  rw [eq_ciscoIos_of_best helf hd, eq_ciscoIos_of_best helf hd']

/-- An ELF file with the banners of two platforms. -/
def twoBanners : Dump :=
  elfMagic ++ PyText.ascii "Cisco IOS Software" ++ PyText.ascii "Cisco IOS XE Software"

/-- Found first, each of the two wins. -/
theorem not_orderFree : ¬ ∀ (elfFile : ElfFile) (dump : Dump), OrderFree elfFile dump := by
  intro h
  have hios : registryDetect (fun _ => []) detectors twoBanners = some .ciscoIos := by
    decide +kernel
  have hxe : registryDetect (fun _ => []) detectors.reverse twoBanners = some .ciscoIosxe := by
    decide +kernel
  have heq := h (fun _ => []) twoBanners _ _ (List.Perm.refl _) (List.reverse_perm _)
  rw [hios, hxe] at heq
  exact absurd heq (by decide)

end VantaCore.Core.Backends.Appliances.DetectionOrder
