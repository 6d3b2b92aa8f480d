import Mathlib.Data.List.DropRight
import Mathlib.Tactic

/-! # Trimming lists

`trim p s` is the list `s` without the elements at its two ends that satisfy `p`. What is cut off
satisfies `p` (`exists_trim`), and putting such elements back at the ends changes nothing
(`trim_append_left`, `trim_append_right`). So a filter and a cut commute with trimming if they keep what
is left of the list (`trim_filter`, `trim_takeWhile`). -/

namespace VantaCore.Lib.Trim

variable {α : Type*} {p q : α → Bool} {s pre post : List α}

/-- The list without the elements at its ends that satisfy `p`. -/
def trim (p : α → Bool) (s : List α) : List α := (s.dropWhile p).rdropWhile p

theorem dropWhile_eq_nil (h : ∀ a ∈ s, p a = true) : s.dropWhile p = [] :=
  List.dropWhile_eq_nil_iff.mpr h

theorem trim_append_left (h : ∀ a ∈ pre, p a = true) : trim p (pre ++ s) = trim p s := by
  unfold trim
  rw [List.dropWhile_append_of_pos h]

theorem rdropWhile_append (h : ∀ a ∈ post, p a = true) :
    (s ++ post).rdropWhile p = s.rdropWhile p := by
  unfold List.rdropWhile
  rw [List.reverse_append, List.dropWhile_append_of_pos fun a ha => h a (List.mem_reverse.mp ha)]

theorem trim_append_right (h : ∀ a ∈ post, p a = true) : trim p (s ++ post) = trim p s := by
  unfold trim
  by_cases hall : ∀ a ∈ s, p a = true
  · rw [List.dropWhile_append_of_pos hall, dropWhile_eq_nil h, dropWhile_eq_nil hall]
  · have hne : s.dropWhile p ≠ [] := fun hnil => hall (List.dropWhile_eq_nil_iff.mp hnil)
    have hdrop : (s ++ post).dropWhile p = s.dropWhile p ++ post := by
      rw [List.dropWhile_append, if_neg (by simpa using hne)]
    rw [hdrop, rdropWhile_append h]

/-- **What is cut off** satisfies `p`. -/
theorem exists_trim (p : α → Bool) (s : List α) : ∃ pre post, s = pre ++ trim p s ++ post ∧
    (∀ a ∈ pre, p a = true) ∧ ∀ a ∈ post, p a = true := by
  refine ⟨s.takeWhile p, (s.dropWhile p).rtakeWhile p, ?_, fun a => List.mem_takeWhile_imp, ?_⟩
  · unfold trim
    rw [List.append_assoc, List.rdropWhile_append_rtakeWhile, List.takeWhile_append_dropWhile]
  · exact fun a => List.mem_rtakeWhile_imp

theorem trim_trim : trim p (trim p s) = trim p s := by
  obtain ⟨pre, post, hs, hpre, hpost⟩ := exists_trim p s
  have h := congrArg (trim p) hs
  rw [trim_append_right hpost, trim_append_left hpre] at h
  exact h.symm

theorem trim_eq_nil_iff : trim p s = [] ↔ ∀ a ∈ s, p a = true := by
  constructor
  · intro h a ha
    obtain ⟨pre, post, hs, hpre, hpost⟩ := exists_trim p s
    rw [h, List.append_nil] at hs
    rw [hs] at ha
    exact (List.mem_append.mp ha).elim (hpre a) (hpost a)
  · intro h
    unfold trim
    rw [dropWhile_eq_nil h]
    rfl

theorem mem_of_mem_trim {a : α} (h : a ∈ trim p s) : a ∈ s := by
  obtain ⟨pre, post, hs, -, -⟩ := exists_trim p s
  rw [hs]
  exact List.mem_append_left _ (List.mem_append_right _ h)

/-- **A filter that keeps the trimmed list** changes nothing but the ends. -/
theorem trim_filter (h : ∀ a ∈ trim p s, q a = true) : trim p (s.filter q) = trim p s := by
  obtain ⟨pre, post, hs, hpre, hpost⟩ := exists_trim p s
  have hfilter : s.filter q = pre.filter q ++ trim p s ++ post.filter q := by
    conv_lhs => rw [hs, List.filter_append, List.filter_append, List.filter_eq_self.mpr h]
  rw [hfilter, trim_append_right fun a ha => hpost a (List.mem_of_mem_filter ha),
    trim_append_left fun a ha => hpre a (List.mem_of_mem_filter ha), trim_trim]

/-- **A cut behind the trimmed list** changes nothing but the end. -/
theorem trim_takeWhile (hne : trim p (s.takeWhile q) ≠ []) (h : ∀ a ∈ trim p s, q a = true) :
    trim p (s.takeWhile q) = trim p s := by
  obtain ⟨pre, post, hs, hpre, hpost⟩ := exists_trim p s
  by_cases hcut : ∀ a ∈ pre, q a = true
  · have htake : s.takeWhile q = pre ++ trim p s ++ post.takeWhile q := by
      conv_lhs => rw [hs, List.append_assoc, List.takeWhile_append_of_pos hcut,
        List.takeWhile_append_of_pos h, ← List.append_assoc]
    rw [htake, trim_append_right fun a ha => hpost a (List.takeWhile_subset q ha),
      trim_append_left hpre, trim_trim]
  · -- the cut is before the trimmed list, so nothing is left
    refine absurd (trim_eq_nil_iff.mpr fun a ha => ?_) hne
    have htake : s.takeWhile q = pre.takeWhile q := by
      have hlen : ¬ (pre.takeWhile q).length = pre.length := fun hlen =>
        hcut (List.takeWhile_eq_self_iff.mp
          ((List.takeWhile_prefix q).eq_of_length hlen))
      rw [hs, List.append_assoc, List.takeWhile_append, if_neg hlen]
    rw [htake] at ha
    exact hpre a (List.takeWhile_subset q ha)

end VantaCore.Lib.Trim
