import VantaCore.Core.DumpHandle
import VantaCore.Lib.Chunks

/-! # Keys

`KeysExtractor.run` reads the dump in chunks of 4096 bytes and takes every window of 256 bytes on the
grid of 256 whose entropy is at least 7.0. The grid fits the chunks, so this is one scan over the part
of the dump that is read (`mem_offsets_run_iff`). The entropy of a window and its rounding are floating
point, and parameters here. -/

namespace VantaCore.Extractors.Generic.Keys

open VantaCore.Core.DumpHandle VantaCore.Lib.Chunks

def maxHops : ℕ := 500000

/-- An entry of `high_entropy_regions`. -/
structure Region (F : Type*) where
  offset : ℕ
  length : ℕ
  entropy : F
deriving DecidableEq

/-- What the loop carries. -/
structure ScanState (F : Type*) where
  results : List (Region F)
  hops : ℕ

section Run

variable {F : Type*} [LE F] [DecidableLE F] [OfNat F 7]
variable (calculateShannonEntropy : List UInt8 → F) (round4 : F → F)

/-- One window of a chunk. -/
def scanWindow (offset : ℕ) (chunk : List UInt8) (s : ScanState F) (winOffset : ℕ) : ScanState F :=
  let window := readAt chunk winOffset 256
  let entropy := calculateShannonEntropy window
  if entropy ≥ 7 then
    { s with results := s.results ++ [⟨offset + winOffset, 256, round4 entropy⟩] }
  else s

/-- The windows of a chunk, at `range(0, len(chunk) - 256 + 1, 256)`. -/
def scanChunk (offset : ℕ) (chunk : List UInt8) (s : ScanState F) : ScanState F :=
  (steps (chunk.length + 1 - 256) 256).foldl
    (scanWindow calculateShannonEntropy round4 offset chunk) { s with hops := s.hops + 1 }

/-- `KeysExtractor.run`: its `high_entropy_regions`. -/
def run (dump : Dump) : List (Region F) :=
  (scan 4096 (fun s => decide (maxHops ≤ s.hops)) (scanChunk calculateShannonEntropy round4) dump
    ⟨[], 0⟩).results

/-- The entropy of the window at an offset, if it is high. -/
def highEntropy (dump : Dump) (o : ℕ) : Option F :=
  let entropy := calculateShannonEntropy (readAt dump o 256)
  if entropy ≥ 7 then some entropy else none

variable {calculateShannonEntropy round4}

/-! ### The loops -/

theorem results_scanChunk (c : ℕ) (chunk : List UInt8) (s : ScanState F) :
    (scanChunk calculateShannonEntropy round4 c chunk s).results = s.results ++
      chunkHits 255 256 (highEntropy calculateShannonEntropy)
        (fun o entropy => ⟨o, 256, round4 entropy⟩) c chunk := by
  have hstop : chunk.length + 1 - 256 = chunk.length - 255 := by omega
  unfold scanChunk chunkHits
  rw [hstop]
  refine results_foldl (fun s a => ?_) _ _
  unfold scanWindow highEntropy
  dsimp only
  split_ifs
  · rfl
  · exact (List.append_nil _).symm

theorem hops_scanChunk (c : ℕ) (chunk : List UInt8) (s : ScanState F) :
    (scanChunk calculateShannonEntropy round4 c chunk s).hops = s.hops + 1 := by
  unfold scanChunk
  refine List.foldlRecOn (motive := fun t : ScanState F => t.hops = s.hops + 1) _ _ rfl
    fun t ht a _ => ?_
  unfold scanWindow
  dsimp only
  split_ifs <;> exact ht

/-- A window of a chunk is one of the dump. -/
theorem highEntropy_chunkAt {dump : Dump} {c a n : ℕ} (h : a + 255 < (chunkAt n dump c).length) :
    highEntropy calculateShannonEntropy (chunkAt n dump c) a =
      highEntropy calculateShannonEntropy dump (c + a) := by
  have hread : readAt (chunkAt n dump c) a 256 = readAt dump (c + a) 256 :=
    chunkAt_chunkAt (by omega)
  unfold highEntropy
  rw [hread]

/-- **The loops are one scan** over the part of the dump that is read. -/
theorem run_eq (dump : Dump) : run calculateShannonEntropy round4 dump =
    (windows 255 256 4096 (dump.take (maxHops * 4096))).filterMap fun o =>
      (highEntropy calculateShannonEntropy (dump.take (maxHops * 4096)) o).map fun entropy =>
        ⟨o, 256, round4 entropy⟩ := by
  unfold run
  rw [scan_eq_foldl_take (by decide) (fun s => decide_eq_true_iff) hops_scanChunk rfl]
  refine (results_foldl_of_nil (fun s c => results_scanChunk c _ s) _ rfl).trans ?_
  exact flatMap_chunkHits (by decide) fun c a h => highEntropy_chunkAt h

/-- The offsets are the windows of high entropy. -/
theorem offsets_run (dump : Dump) : (run calculateShannonEntropy round4 dump).map (·.offset) =
    (windows 255 256 4096 (dump.take (maxHops * 4096))).filter fun o =>
      (highEntropy calculateShannonEntropy (dump.take (maxHops * 4096)) o).isSome := by
  rw [run_eq, List.map_filterMap, ← List.filterMap_eq_filter]
  refine List.filterMap_congr fun o _ => ?_
  cases h : highEntropy calculateShannonEntropy (dump.take (maxHops * 4096)) o <;>
    simp [Option.guard, h]

theorem isSome_highEntropy_iff {dump : Dump} {o : ℕ} :
    (highEntropy calculateShannonEntropy dump o).isSome = true ↔
      calculateShannonEntropy (readAt dump o 256) ≥ 7 := by
  unfold highEntropy
  dsimp only
  split_ifs with h <;> simp [h]

/-- The window at an offset is within the first `limit` bytes and of high entropy. -/
def IsHigh (calculateShannonEntropy : List UInt8 → F) (dump : Dump) (limit o : ℕ) : Prop :=
  256 ∣ o ∧ o + 256 ≤ min dump.length limit ∧ calculateShannonEntropy (readAt dump o 256) ≥ 7

/-- **The offsets are those of one flat scan**, in order and each once. -/
theorem mem_offsets_run_iff (calculateShannonEntropy : List UInt8 → F) (round4 : F → F)
    (dump : Dump) :
    ((run calculateShannonEntropy round4 dump).map (·.offset)).Pairwise (· < ·) ∧
      ∀ o, o ∈ (run calculateShannonEntropy round4 dump).map (·.offset) ↔
        IsHigh calculateShannonEntropy dump (500000 * 4096) o := by
  rw [offsets_run]
  refine ⟨(sorted_windows (by decide) (by decide)).filter _, fun o => ?_⟩
  have hlen : (dump.take (maxHops * 4096)).length = min dump.length (500000 * 4096) := by
    rw [List.length_take, min_comm, maxHops]
  have hwindow : o + 256 ≤ min dump.length (500000 * 4096) →
      readAt (dump.take (maxHops * 4096)) o 256 = readAt dump o 256 := fun h =>
    chunkAt_take (h.trans (min_le_right _ _))
  rw [List.mem_filter, mem_windows_iff (by decide) (by decide) (by decide), isSome_highEntropy_iff]
  unfold IsHigh
  constructor
  · rintro ⟨⟨ho, hin⟩, hhigh⟩
    rw [inside_iff_of_grid (by decide) rfl (by decide) ho, hlen] at hin
    rw [hwindow hin] at hhigh
    exact ⟨ho, hin, hhigh⟩
  · rintro ⟨ho, hle, hhigh⟩
    rw [inside_iff_of_grid (by decide) rfl (by decide) ho, hlen, hwindow hle]
    exact ⟨⟨ho, hle⟩, hhigh⟩

end Run

end VantaCore.Extractors.Generic.Keys
