import VantaCore.Core.Scanner.Worker
import VantaCore.Lib.Chunks

/-! # What a worker sees of its window

The words of a window are those of the dump (`frombuffer_readAt`), so a worker puts the candidates
among them on the queue, in order (`processAddress_of_le`). It leaves an address alone whose window
goes past the end of the dump (`processAddress_of_lt`), though it is written to cut a short window to
whole words and takes every address with eight bytes behind it for a candidate. What it misses are
the candidates in the last part of the dump (`seesWindow_iff`). -/

namespace VantaCore.Core.Scanner.WorkerWindow

open VantaCore.Lib.Chunks VantaCore.Core.DumpHandle VantaCore.Core.Scanner.Worker

variable {dump : Dump} {addr stop windowSize n : ℕ}

/-! ### Words of the dump -/

/-- The little-endian words of `dump[addr : stop]`, in whole groups of eight bytes from `addr`. -/
def wordsIn (dump : Dump) (addr stop : ℕ) : List ℕ :=
  if addr + 8 ≤ stop then unpackLE (readAt dump addr 8) :: wordsIn dump (addr + 8) stop else []
termination_by stop - addr
decreasing_by omega

/-- A word that is the address of eight bytes of the dump, and not one of the lowest page. -/
def IsCandidate (dump : Dump) (word : ℕ) : Prop := 0x1000 ≤ word ∧ (word : ℤ) ≤ dump.length - 8

instance (dump : Dump) (word : ℕ) : Decidable (IsCandidate dump word) :=
  inferInstanceAs (Decidable (_ ∧ _))

/-- The candidates in `dump[addr : stop]`. -/
def candidatesIn (dump : Dump) (addr stop : ℕ) : List ℕ :=
  (wordsIn dump addr stop).filter (IsCandidate dump ·)

theorem wordsIn_of_lt (h : stop < addr + 8) : wordsIn dump addr stop = [] := by
  rw [wordsIn, if_neg (by omega)]

theorem wordsIn_of_le (h : addr + 8 ≤ stop) :
    wordsIn dump addr stop = unpackLE (readAt dump addr 8) :: wordsIn dump (addr + 8) stop := by
  rw [wordsIn, if_pos h]

/-- The words by their places. -/
theorem wordsIn_eq_map : ∀ k addr, (stop - addr) / 8 = k →
    wordsIn dump addr stop =
      (List.range k).map fun i => unpackLE (readAt dump (addr + 8 * i) 8)
  | 0, addr, h => wordsIn_of_lt (by omega)
  | k + 1, addr, h => by
    rw [wordsIn_of_le (by omega), wordsIn_eq_map k (addr + 8) (by omega), List.range_succ_eq_map,
      List.map_cons, List.map_map, Nat.mul_zero, Nat.add_zero]
    refine congrArg _ (List.map_congr_left fun i _ => ?_)
    have hplace : addr + 8 + 8 * i = addr + 8 * Nat.succ i := by omega
    rw [hplace, Function.comp_apply]

/-! ### The window -/

theorem frombuffer_take {window : List UInt8} :
    frombuffer (window.take (window.length - window.length % 8)) = frombuffer window := by
  have hlen : (window.length - window.length % 8) / 8 = window.length / 8 := by omega
  unfold frombuffer
  rw [List.length_take, min_eq_left (Nat.sub_le _ _), hlen]
  refine List.map_congr_left fun i hi => ?_
  have hi := List.mem_range.mp hi
  unfold readAt
  rw [List.drop_take, List.take_take, min_eq_left (by omega)]

/-- **The words of a window are those of the dump.** -/
theorem frombuffer_readAt :
    frombuffer (readAt dump addr n) = wordsIn dump addr (min (addr + n) dump.length) := by
  have hlen : (readAt dump addr n).length = min (addr + n) dump.length - addr := by
    rw [length_readAt]
    omega
  rw [wordsIn_eq_map _ addr rfl, frombuffer, hlen]
  refine List.map_congr_left fun i hi => ?_
  have hi := List.mem_range.mp hi
  refine congrArg unpackLE (chunkAt_chunkAt ?_)
  have hwindow : (chunkAt n dump addr).length = min (addr + n) dump.length - addr := hlen
  omega

/-! ### The worker -/

theorem processAddress_of_lt (h : dump.length < addr + windowSize) :
    processAddress dump addr windowSize dump.length = [] := by
  unfold processAddress
  exact if_pos (Or.inr (by omega))

/-- **The candidates of a window within the dump.** -/
theorem processAddress_of_le (hsize : 8 ≤ windowSize) (h : addr + windowSize ≤ dump.length) :
    processAddress dump addr windowSize dump.length = candidatesIn dump addr (addr + windowSize) := by
  have hlen : (readAt dump addr windowSize).length = windowSize := length_readAt_of_le h
  unfold processAddress
  rw [if_neg (by omega), Int.toNat_natCast]
  dsimp only
  rw [if_neg (by omega), frombuffer_take, frombuffer_readAt, min_eq_left h]
  rfl

/-- **A worker sees its window**: it puts exactly the candidates in the part of the dump that is in
the window on the queue, in order. -/
def SeesWindow (dump : Dump) (windowSize addr : ℕ) : Prop :=
  processAddress dump addr windowSize dump.length =
    candidatesIn dump addr (min (addr + windowSize) dump.length)

/-- The window is within the dump, or there is no candidate in the part that is. -/
def WindowFits (dump : Dump) (windowSize addr : ℕ) : Prop :=
  addr + windowSize ≤ dump.length ∨ candidatesIn dump addr dump.length = []

theorem sees_iff_fits (hsize : 8 ≤ windowSize) :
    SeesWindow dump windowSize addr ↔ WindowFits dump windowSize addr := by
  unfold SeesWindow WindowFits
  rcases Nat.lt_or_ge dump.length (addr + windowSize) with hlt | hle
  · rw [processAddress_of_lt hlt, min_eq_right hlt.le, eq_comm]
    simp only [Nat.not_le.mpr hlt, false_or]
  · rw [processAddress_of_le hsize hle, min_eq_left hle]
    simp only [hle, true_or]

/-- What a worker reports is the address of eight bytes. -/
theorem le_of_mem_processAddress {c : ℕ}
    (h : c ∈ processAddress dump addr windowSize dump.length) : c + 8 ≤ dump.length := by
  unfold processAddress at h
  dsimp only at h
  split_ifs at h with hout hshort
  · cases h
  · cases h
  · have := of_decide_eq_true (List.mem_filter.mp h).2
    omega

/-- **A worker sees its window** exactly if the window is within the dump or its part of the dump
holds no candidate; the same is true of each candidate it reports, when that is submitted. -/
theorem seesWindow_iff (dump : Dump) (addr : ℕ) {windowSize : ℕ} (hsize : 8 ≤ windowSize) :
    (SeesWindow dump windowSize addr ↔ WindowFits dump windowSize addr) ∧
      ∀ c ∈ processAddress dump addr windowSize dump.length, c + 8 ≤ dump.length ∧
        (SeesWindow dump windowSize c ↔ WindowFits dump windowSize c) :=
  ⟨sees_iff_fits hsize, fun _ hc => ⟨le_of_mem_processAddress hc, sees_iff_fits hsize⟩⟩

/-- The last word of a dump, whose address is its first word. -/
def lastWord : Dump :=
  [0x08, 0x10, 0, 0, 0, 0, 0, 0] ++ List.replicate 4096 0 ++ [0, 0x10, 0, 0, 0, 0, 0, 0]

theorem length_lastWord : lastWord.length = 4112 := by
  rw [lastWord, List.length_append, List.length_append, List.length_replicate]
  rfl

theorem candidatesIn_lastWord : candidatesIn lastWord 4104 lastWord.length = [0x1000] := by
  have hread : readAt lastWord 4104 8 = [0, 0x10, 0, 0, 0, 0, 0, 0] := by
    have hlen : ([0x08, 0x10, 0, 0, 0, 0, 0, 0] ++ List.replicate 4096 (0 : UInt8)).length = 4104 := by
      rw [List.length_append, List.length_replicate]
      rfl
    rw [readAt, lastWord, List.drop_left' hlen]
    rfl
  have hcandidate : IsCandidate lastWord 0x1000 := by
    rw [IsCandidate, length_lastWord]
    decide
  rw [candidatesIn, length_lastWord, wordsIn_of_le (by decide), wordsIn_of_lt (by decide), hread]
  exact List.filter_cons_of_pos (decide_eq_true hcandidate)

/-- The worker sees the words of a window of 512 bytes. -/
theorem seesWindow_iff_lastWord :
    (SeesWindow lastWord 512 0 ↔ WindowFits lastWord 512 0) ∧
      ∀ c ∈ processAddress lastWord 0 512 lastWord.length, c + 8 ≤ lastWord.length ∧
        (SeesWindow lastWord 512 c ↔ WindowFits lastWord 512 c) :=
  seesWindow_iff lastWord 0 (by decide)

/-- The address of the last word is reported by the worker and is skipped when it is submitted. -/
theorem skipped_lastWord : 4104 ∈ processAddress lastWord 0 512 lastWord.length ∧
    ¬ SeesWindow lastWord 512 4104 := by
  constructor
  · have hcandidate : IsCandidate lastWord 4104 := by
      rw [IsCandidate, length_lastWord]
      decide
    have hfirst : unpackLE (readAt lastWord 0 8) = 4104 := rfl
    have hfits : processAddress lastWord (0 : ℕ) 512 lastWord.length =
        candidatesIn lastWord 0 (0 + 512) :=
      processAddress_of_le (by decide) (by rw [length_lastWord]; decide)
    rw [Nat.cast_zero] at hfits
    rw [hfits, candidatesIn, wordsIn_of_le (by decide), hfirst]
    exact List.mem_filter.mpr ⟨List.mem_cons_self, decide_eq_true hcandidate⟩
  · rw [sees_iff_fits (by decide), WindowFits, candidatesIn_lastWord, length_lastWord]
    simp

end VantaCore.Core.Scanner.WorkerWindow
