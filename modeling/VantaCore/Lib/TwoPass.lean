import VantaCore.Lib.FirstBy
import Mathlib.Data.List.Nodup

/-! # Entries of two passes

A first pass leaves entries with distinct keys. A second one meets keys, records every one of them as
a hit, and adds a late entry for a key that has none yet. Whatever the second pass meets, the keys of
the late entries are the hits that the first pass did not have (`Passes.late_iff`), and the entries
are the first of each key of both passes (`foldl_meet`). -/

namespace VantaCore.Lib.TwoPass

variable {ε κ : Type*}

/-- `early` are the keys of the first pass, `seen` those of all entries, `hits` those the second pass
has met. -/
structure Passes (key : ε → κ) (late : ε → Prop) (early : List κ) (entries : List ε)
    (seen hits : List κ) : Prop where
  nodup : (entries.map key).Nodup
  mem_seen : ∀ k, k ∈ seen ↔ k ∈ entries.map key
  mem_early : ∀ k, k ∈ early ↔ ∃ e ∈ entries, ¬ late e ∧ key e = k
  late_hit : ∀ e ∈ entries, late e → key e ∈ hits
  hit_seen : ∀ k ∈ hits, k ∈ seen

variable {key : ε → κ} {late : ε → Prop} {early seen hits : List κ} {entries : List ε}

/-- **Before the second pass.** -/
theorem Passes.init (hnodup : (entries.map key).Nodup) (hlate : ∀ e ∈ entries, ¬ late e)
    (hseen : ∀ k, k ∈ seen ↔ k ∈ entries.map key) (hearly : ∀ k, k ∈ early ↔ k ∈ entries.map key) :
    Passes key late early entries seen [] where
  nodup := hnodup
  mem_seen := hseen
  mem_early k := by
    rw [hearly, List.mem_map]
    exact exists_congr fun e => ⟨fun h => ⟨h.1, hlate e h.1, h.2⟩, fun h => ⟨h.1, h.2.2⟩⟩
  late_hit e he h := absurd h (hlate e he)
  hit_seen k hk := by cases hk

/-- A hit on a key that has an entry. -/
theorem Passes.old (h : Passes key late early entries seen hits) {k : κ} (hk : k ∈ seen) :
    Passes key late early entries seen (hits ++ [k]) where
  nodup := h.nodup
  mem_seen := h.mem_seen
  mem_early := h.mem_early
  late_hit e he hl := List.mem_append_left _ (h.late_hit e he hl)
  hit_seen k' hk' := by
    rcases List.mem_append.mp hk' with hk' | hk'
    · exact h.hit_seen k' hk'
    · rw [List.mem_singleton.mp hk']
      exact hk

/-- A hit on a key that has none. -/
theorem Passes.new (h : Passes key late early entries seen hits) {e : ε} (hk : key e ∉ seen)
    (he : late e) : Passes key late early (entries ++ [e]) (seen ++ [key e]) (hits ++ [key e]) where
  nodup := by
    rw [List.map_append]
    refine List.nodup_append.mpr ⟨h.nodup, List.nodup_singleton _, fun a ha b hb => ?_⟩
    rw [List.map_singleton, List.mem_singleton] at hb
    rintro rfl
    rw [hb] at ha
    exact hk ((h.mem_seen _).mpr ha)
  mem_seen k := by rw [List.mem_append, h.mem_seen, List.map_append, List.mem_append]; rfl
  mem_early k := by
    rw [h.mem_early]
    constructor
    · rintro ⟨f, hf, hrest⟩
      exact ⟨f, List.mem_append_left _ hf, hrest⟩
    · rintro ⟨f, hf, hlate, hkey⟩
      rcases List.mem_append.mp hf with hf | hf
      · exact ⟨f, hf, hlate, hkey⟩
      · rw [List.mem_singleton.mp hf] at hlate
        exact absurd he hlate
  late_hit f hf hl := by
    rcases List.mem_append.mp hf with hf | hf
    · exact List.mem_append_left _ (h.late_hit f hf hl)
    · rw [List.mem_singleton.mp hf]
      exact List.mem_append_right _ (List.mem_singleton_self _)
  hit_seen k hk' := by
    rcases List.mem_append.mp hk' with hk' | hk'
    · exact List.mem_append_left _ (h.hit_seen k hk')
    · exact List.mem_append_right _ hk'

theorem Passes.eq_of_key_eq (h : Passes key late early entries seen hits) {e f : ε}
    (he : e ∈ entries) (hf : f ∈ entries) (hkey : key e = key f) : e = f :=
  List.inj_on_of_nodup_map h.nodup he hf hkey

/-- **The late keys are the hits that are not early.** -/
theorem Passes.late_iff (h : Passes key late early entries seen hits) (k : κ) :
    (∃ e ∈ entries, late e ∧ key e = k) ↔ k ∈ hits ∧ k ∉ early := by
  constructor
  · rintro ⟨e, he, hlate, rfl⟩
    refine ⟨h.late_hit e he hlate, fun hearly => ?_⟩
    obtain ⟨f, hf, hnot, hkey⟩ := (h.mem_early _).mp hearly
    exact hnot (h.eq_of_key_eq hf he hkey ▸ hlate)
  · rintro ⟨hhit, hearly⟩
    obtain ⟨e, he, rfl⟩ := List.mem_map.mp ((h.mem_seen k).mp (h.hit_seen k hhit))
    refine ⟨e, he, ?_, rfl⟩
    by_contra hlate
    exact hearly ((h.mem_early _).mpr ⟨e, he, hlate, rfl⟩)

/-! ### The second pass -/

section Meet

variable [DecidableEq κ] {τ ρ : Type*}

/-- The second pass meets `t`. -/
def meet (tkey : τ → κ) (entry : τ → ε) (hit : τ → ρ) (s : List ε × List κ × List ρ) (t : τ) :
    List ε × List κ × List ρ :=
  (if tkey t ∈ s.2.1 then s.1 else s.1 ++ [entry t],
    if tkey t ∈ s.2.1 then s.2.1 else s.2.1 ++ [tkey t], s.2.2 ++ [hit t])

variable (tkey : τ → κ) (entry : τ → ε) (hit : τ → ρ)

/-- **What the second pass leaves**: the first of each key that was not seen, and every hit. -/
theorem foldl_meet : ∀ (ts : List τ) (entries : List ε) (seen seen' : List κ) (hits : List ρ),
    (∀ k, k ∈ seen ↔ k ∈ seen') →
    let s := ts.foldl (meet tkey entry hit) (entries, seen, hits)
    s.1 = entries ++ (FirstBy.firsts tkey seen' ts).map entry ∧ s.2.2 = hits ++ ts.map hit
  | [], entries, _, _, hits, _ => ⟨(List.append_nil entries).symm, (List.append_nil hits).symm⟩
  | t :: ts, entries, seen, seen', hits, hseen => by
    rw [List.foldl_cons, FirstBy.firsts, meet]
    dsimp only
    by_cases ht : tkey t ∈ seen
    · rw [if_pos ht, if_pos ht, if_pos ((hseen _).mp ht)]
      obtain ⟨hentries, hhits⟩ := foldl_meet ts entries seen seen' (hits ++ [hit t]) hseen
      refine ⟨hentries, hhits.trans ?_⟩
      rw [List.append_assoc]
      rfl
    · rw [if_neg ht, if_neg ht, if_neg fun h => ht ((hseen _).mpr h)]
      have hseen' : ∀ k, k ∈ seen ++ [tkey t] ↔ k ∈ tkey t :: seen' := by
        intro k
        rw [List.mem_append, List.mem_singleton, List.mem_cons, hseen, or_comm]
      obtain ⟨hentries, hhits⟩ := foldl_meet ts (entries ++ [entry t]) (seen ++ [tkey t])
        (tkey t :: seen') (hits ++ [hit t]) hseen'
      refine ⟨hentries.trans ?_, hhits.trans ?_⟩
      · rw [List.map_cons, List.append_assoc]
        rfl
      · rw [List.append_assoc]
        rfl

end Meet

end VantaCore.Lib.TwoPass
