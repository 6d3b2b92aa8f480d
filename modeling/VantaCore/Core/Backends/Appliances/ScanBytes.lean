import VantaCore.Core.DumpHandle
import VantaCore.Lib.Search

/-! # Searching a dump for a banner

`_scan_bytes` of the appliance detectors reads the dump in chunks that overlap by one byte less than
the pattern, so it finds what a search of the first `max_bytes` bytes finds (`scanBytes_iff`). -/

namespace VantaCore.Core.Backends.Appliances.ScanBytes

open VantaCore.Core.DumpHandle VantaCore.Lib.Chunks VantaCore.Lib.Search

/-- The loop of `_scan_bytes`: the position in the file is `read_total` in every turn. -/
def scanLoop (dump : Dump) (pattern : List UInt8) (maxBytes chunkSize : ℕ) : ℕ → ℕ → Bool
  | 0, _ => false
  | fuel + 1, readTotal =>
    let overlap := pattern.length - 1
    if maxBytes ≤ readTotal then false
    else
      let toRead := min chunkSize (maxBytes - readTotal)
      let chunk := readAt dump readTotal toRead
      if chunk.isEmpty then false
      else if (find pattern chunk 0).isSome then true
      else if chunk.length = chunkSize ∧ 0 < overlap then
        scanLoop dump pattern maxBytes chunkSize fuel (readTotal + chunk.length - overlap)
      else scanLoop dump pattern maxBytes chunkSize fuel (readTotal + chunk.length)

/-- `_scan_bytes`: whether the pattern is found, and the position it leaves the file at. -/
def scanBytes (dump : Dump) (pattern : List UInt8) (maxBytes chunkSize : ℕ) : Bool × ℕ :=
  (scanLoop dump pattern maxBytes chunkSize (maxBytes + 1) 0, 0)

/-- The default of `chunk_size`. -/
def defaultChunkSize : ℕ := 4 * 1024 * 1024

/-- The pattern occurs somewhere. -/
def Occurs (p xs : List UInt8) : Prop := ∃ i, OccursAt p xs i

section Scan

variable {dump : Dump} {p : List UInt8} {maxBytes n : ℕ}

theorem readAt_eq_chunkAt (r : ℕ) :
    readAt dump r (min n (maxBytes - r)) = chunkAt n (dump.take maxBytes) r := by
  rw [readAt, chunkAt, List.drop_take, List.take_take]

theorem find_isSome_iff {xs : List UInt8} (hp : p ≠ []) :
    (find p xs 0).isSome ↔ Occurs p xs := by
  constructor
  · intro h
    obtain ⟨i, hi⟩ := Option.isSome_iff_exists.mp h
    exact ⟨i, ((find_eq_some_iff hp).mp hi).2.1⟩
  · rintro ⟨i, hi⟩
    by_contra h
    exact (find_eq_none_iff hp).mp (by simpa using h) i (Nat.zero_le i) hi

/-- An occurrence that starts in a chunk and ends in it. -/
theorem occurs_of_inside {r i : ℕ} {xs : List UInt8} (hocc : OccursAt p xs i) (hr : r ≤ i)
    (hend : i + p.length ≤ r + (chunkAt n xs r).length) : Occurs p (chunkAt n xs r) := by
  refine ⟨i - r, (occursAt_chunkAt (by omega)).mpr ?_⟩
  rwa [Nat.add_sub_cancel' hr]

theorem scanLoop_iff (hp : p ≠ []) (hn : p.length ≤ n) : ∀ (fuel r : ℕ), maxBytes - r < fuel →
    (scanLoop dump p maxBytes n fuel r = true ↔
      ∃ i, r ≤ i ∧ OccursAt p (dump.take maxBytes) i)
  | 0, _, h => absurd h (Nat.not_lt_zero _)
  | fuel + 1, r, h => by
    have hlenp := List.length_pos_of_ne_nil hp
    have hlenD : (dump.take maxBytes).length ≤ maxBytes := List.length_take_le ..
    have hchunk : (chunkAt n (dump.take maxBytes) r).length =
        min n ((dump.take maxBytes).length - r) := length_chunkAt
    rw [scanLoop]
    simp only [readAt_eq_chunkAt]
    by_cases hmax : maxBytes ≤ r
    · rw [if_pos hmax]
      refine iff_of_false (by simp) ?_
      rintro ⟨i, hi, hocc⟩
      have := hocc.le hp
      omega
    rw [if_neg hmax]
    by_cases hempty : (chunkAt n (dump.take maxBytes) r).isEmpty = true
    · rw [if_pos hempty]
      refine iff_of_false (by simp) ?_
      rintro ⟨i, hi, hocc⟩
      have := hocc.le hp
      rw [List.isEmpty_iff_length_eq_zero] at hempty
      omega
    rw [if_neg hempty]
    rw [List.isEmpty_iff_length_eq_zero] at hempty
    by_cases hfind : (find p (chunkAt n (dump.take maxBytes) r) 0).isSome = true
    · rw [if_pos hfind]
      obtain ⟨a, ha⟩ := (find_isSome_iff hp).mp hfind
      exact iff_of_true rfl ⟨r + a, by omega, (occursAt_chunkAt (ha.le hp)).mp ha⟩
    rw [if_neg hfind]
    -- what lies within the chunk has not been found
    have hnone : ∀ i, r ≤ i → i + p.length ≤ r + (chunkAt n (dump.take maxBytes) r).length →
        ¬ OccursAt p (dump.take maxBytes) i := fun i hi hend hocc =>
      hfind ((find_isSome_iff hp).mpr (occurs_of_inside hocc hi hend))
    have hnext : ∀ r', r ≤ r' →
        (∀ i, r ≤ i → i < r' → OccursAt p (dump.take maxBytes) i →
          i + p.length ≤ r + (chunkAt n (dump.take maxBytes) r).length) →
        ((∃ i, r' ≤ i ∧ OccursAt p (dump.take maxBytes) i) ↔
          ∃ i, r ≤ i ∧ OccursAt p (dump.take maxBytes) i) := by
      intro r' hr' hbefore
      constructor
      · rintro ⟨i, hi, hocc⟩
        exact ⟨i, by omega, hocc⟩
      · rintro ⟨i, hi, hocc⟩
        refine ⟨i, Nat.le_of_not_lt fun hlt => ?_, hocc⟩
        exact hnone i hi (hbefore i hi hlt hocc) hocc
    split_ifs with hfull
    · rw [scanLoop_iff hp hn fuel _ (by omega)]
      exact hnext _ (by omega) fun i _ hlt _ => by omega
    · rw [scanLoop_iff hp hn fuel _ (by omega)]
      refine hnext _ (by omega) fun i _ hlt hocc => ?_
      have := hocc.le hp
      omega

/-- **The chunked search finds what a plain search of the first `maxBytes` bytes finds.** -/
theorem scanBytes_iff (hp : p ≠ []) (hn : p.length ≤ n) :
    (scanBytes dump p maxBytes n).1 = true ↔ Occurs p (dump.take maxBytes) := by
  have h : scanLoop dump p maxBytes n (maxBytes + 1) 0 = true ↔
      ∃ i, 0 ≤ i ∧ OccursAt p (dump.take maxBytes) i := scanLoop_iff hp hn _ _ (by omega)
  simp only [Nat.zero_le, true_and] at h
  exact h

end Scan

end VantaCore.Core.Backends.Appliances.ScanBytes
