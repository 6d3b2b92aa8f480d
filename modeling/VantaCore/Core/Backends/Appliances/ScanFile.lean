import VantaCore.Core.Backends.Appliances.ScanBytes

/-! # The search on the open file

`_scan_bytes` moves the position of the file it is given: every read moves it on, and behind a full
chunk the loop seeks back over the overlap. At the head of the loop the position is `read_total`
(`aligned`), so the loop on the file is the loop on the bytes (`scanFile_eq`). It ends within
`max_bytes + 1` turns, never seeks before the start, and leaves the file at its start
(`scanFile_iff`). -/

namespace VantaCore.Core.Backends.Appliances.ScanFile

open VantaCore.Core.DumpHandle VantaCore.Lib.Search
open VantaCore.Lib.Chunks (chunkAt)
open VantaCore.Core.Backends.Appliances.ScanBytes

/-- An open binary file: its content and the position. -/
structure Handle where
  dump : Dump
  pos : ℕ
deriving DecidableEq, Repr

/-- `seek(pos)`; `none` if it raises, on a negative position. -/
def Handle.seek (h : Handle) (pos : ℤ) : Option Handle :=
  if pos < 0 then none else some { h with pos := pos.toNat }

/-- `read(n)`: what exists of the bytes asked for, and the file behind them. -/
def Handle.read (h : Handle) (n : ℕ) : List UInt8 × Handle :=
  let chunk := readAt h.dump h.pos n
  (chunk, { h with pos := h.pos + chunk.length })

/-- What the loop of `_scan_bytes` changes. -/
structure ScanState where
  handle : Handle
  readTotal : ℤ
deriving DecidableEq, Repr

/-- How a turn of the loop ends. -/
inductive Turn where
  | next (s : ScanState)
  | returns (found : Bool) (h : Handle)
  | raises
deriving DecidableEq, Repr

/-- `dump_handle.seek(0)` and the return. -/
def leave (found : Bool) (h : Handle) : Turn :=
  match h.seek 0 with
  | none => .raises
  | some h => .returns found h

/-- A turn of the loop, its condition first. -/
def scanTurn (pattern : List UInt8) (maxBytes chunkSize : ℕ) (s : ScanState) : Turn :=
  let overlap : ℤ := pattern.length - 1
  if s.readTotal < maxBytes then
    let toRead := min chunkSize (maxBytes - s.readTotal).toNat
    let (chunk, h) := s.handle.read toRead
    if chunk.isEmpty then leave false h
    else if (find pattern chunk 0).isSome then leave true h
    else
      let readTotal := s.readTotal + chunk.length
      if chunk.length = chunkSize ∧ 0 < overlap then
        match h.seek (h.pos - overlap) with
        | none => .raises
        | some h => .next ⟨h, readTotal - overlap⟩
      else .next ⟨h, readTotal⟩
  else leave false s.handle

/-- The loop, for a number of turns; `none` if they do not suffice. -/
def scanTurns (pattern : List UInt8) (maxBytes chunkSize : ℕ) : ℕ → ScanState → Option Turn
  | 0, _ => none
  | turns + 1, s =>
    match scanTurn pattern maxBytes chunkSize s with
    | .next s => scanTurns pattern maxBytes chunkSize turns s
    | t => some t

/-- `_scan_bytes` on an open file, for a number of turns of its loop. -/
def scanFile (h : Handle) (pattern : List UInt8) (maxBytes chunkSize turns : ℕ) : Option Turn :=
  match h.seek 0 with
  | none => some .raises
  | some h => scanTurns pattern maxBytes chunkSize turns ⟨h, 0⟩

/-! ### The loop on the bytes -/

/-- The state in which the position is `read_total`. -/
def aligned (dump : Dump) (r : ℕ) : ScanState := ⟨⟨dump, r⟩, r⟩

variable {dump : Dump} {p : List UInt8} {maxBytes n : ℕ}

theorem Handle.seek_natCast (h : Handle) (pos : ℕ) : h.seek pos = some { h with pos } := by
  unfold Handle.seek
  rw [if_neg (by omega), Int.toNat_natCast]

theorem leave_eq (found : Bool) (h : Handle) : leave found h = .returns found { h with pos := 0 } := by
  unfold leave
  rw [show (0 : ℤ) = ((0 : ℕ) : ℤ) from rfl, h.seek_natCast]

/-- **A turn at the position `read_total`** ends the search, or the next one is at the new
`read_total` again. -/
theorem scanTurn_aligned (hp : p ≠ []) (hn : p.length ≤ n) (r : ℕ) :
    scanTurn p maxBytes n (aligned dump r) =
      let chunk := readAt dump r (min n (maxBytes - r))
      if maxBytes ≤ r ∨ chunk.isEmpty then .returns false ⟨dump, 0⟩
      else if (find p chunk 0).isSome then .returns true ⟨dump, 0⟩
      else if chunk.length = n ∧ 0 < p.length - 1 then
        .next (aligned dump (r + chunk.length - (p.length - 1)))
      else .next (aligned dump (r + chunk.length)) := by
  have hpos := List.length_pos_of_ne_nil hp
  unfold scanTurn
  simp only [aligned, Handle.read, leave_eq]
  by_cases hmax : maxBytes ≤ r
  · rw [if_neg (by omega), if_pos (Or.inl hmax)]
  have hread : ((maxBytes : ℤ) - r).toNat = maxBytes - r := by omega
  rw [if_pos (by omega)]
  simp only [hread]
  set chunk := readAt dump r (min n (maxBytes - r)) with hchunk
  by_cases hempty : chunk.isEmpty = true
  · rw [if_pos hempty, if_pos (Or.inr hempty)]
  rw [if_neg hempty, if_neg (not_or.mpr ⟨hmax, hempty⟩)]
  by_cases hfind : (find p chunk 0).isSome = true
  · rw [if_pos hfind, if_pos hfind]
  rw [if_neg hfind, if_neg hfind]
  by_cases hfull : chunk.length = n ∧ 0 < p.length - 1
  · -- the chunk is at least as long as the pattern: the file is behind the overlap
    have hback : ((r + chunk.length : ℕ) : ℤ) - (p.length - 1) =
        ((r + chunk.length - (p.length - 1) : ℕ) : ℤ) := by omega
    have htotal : (r : ℤ) + chunk.length - (p.length - 1) =
        ((r + chunk.length - (p.length - 1) : ℕ) : ℤ) := by omega
    rw [if_pos ⟨hfull.1, by omega⟩, if_pos hfull, hback, Handle.seek_natCast, htotal]
  · rw [if_neg (by omega), if_neg hfull]
    push_cast
    rfl

/-- **The loop on the file is the loop on the bytes.** -/
theorem scanTurns_aligned (hp : p ≠ []) (hn : p.length ≤ n) : ∀ (turns r : ℕ),
    maxBytes - r < turns → scanTurns p maxBytes n turns (aligned dump r) =
      some (.returns (scanLoop dump p maxBytes n turns r) ⟨dump, 0⟩)
  | 0, r, h => absurd h (Nat.not_lt_zero _)
  | turns + 1, r, h => by
    have hpos := List.length_pos_of_ne_nil hp
    unfold scanTurns scanLoop
    rw [scanTurn_aligned hp hn r]
    simp only
    by_cases hmax : maxBytes ≤ r
    · rw [if_pos (Or.inl hmax), if_pos hmax]
    rw [if_neg hmax]
    by_cases hempty : (readAt dump r (min n (maxBytes - r))).isEmpty = true
    · rw [if_pos (Or.inr hempty), if_pos hempty]
    rw [if_neg (not_or.mpr ⟨hmax, hempty⟩), if_neg hempty]
    by_cases hfind : (find p (readAt dump r (min n (maxBytes - r))) 0).isSome = true
    · rw [if_pos hfind, if_pos hfind]
    rw [if_neg hfind, if_neg hfind]
    rw [List.isEmpty_iff_length_eq_zero] at hempty
    by_cases hfull : (readAt dump r (min n (maxBytes - r))).length = n ∧ 0 < p.length - 1
    · rw [if_pos hfull, if_pos hfull]
      exact scanTurns_aligned hp hn turns _ (by omega)
    · rw [if_neg hfull, if_neg hfull]
      exact scanTurns_aligned hp hn turns _ (by omega)

theorem scanFile_eq (hp : p ≠ []) (hn : p.length ≤ n) (pos : ℕ) {turns : ℕ}
    (ht : maxBytes < turns) : scanFile ⟨dump, pos⟩ p maxBytes n turns =
      some (.returns (scanLoop dump p maxBytes n turns 0) ⟨dump, 0⟩) := by
  unfold scanFile
  rw [show (0 : ℤ) = ((0 : ℕ) : ℤ) from rfl, Handle.seek_natCast]
  exact scanTurns_aligned hp hn turns 0 (by omega)

/-- An occurrence is a part of the list. -/
theorem occurs_iff_infix {q xs : List UInt8} : Occurs q xs ↔ q <:+: xs := by
  constructor
  · rintro ⟨i, hi⟩
    refine ⟨xs.take i, xs.drop (i + q.length), ?_⟩
    have hq : (xs.drop i).take q.length = q := hi
    calc xs.take i ++ q ++ xs.drop (i + q.length)
        = xs.take i ++ ((xs.drop i).take q.length ++ (xs.drop i).drop q.length) := by
          rw [hq, List.drop_drop, List.append_assoc]
      _ = xs := by rw [List.take_append_drop, List.take_append_drop]
  · rintro ⟨a, b, rfl⟩
    refine ⟨a.length, ?_⟩
    rw [OccursAt, chunkAt, List.append_assoc, List.drop_left, List.take_left]

/-- **The search on the open file** ends, finds the pattern exactly if it occurs in the first
`maxBytes` bytes, and leaves the file at its start. -/
theorem scanFile_iff (h : Handle) (pattern : List UInt8) (maxBytes chunkSize : ℕ)
    (hp : pattern ≠ []) (hn : pattern.length ≤ chunkSize) :
    ∃ found, (∀ turns, maxBytes < turns → scanFile h pattern maxBytes chunkSize turns =
        some (.returns found ⟨h.dump, 0⟩)) ∧
      (found = true ↔ pattern <:+: h.dump.take maxBytes) := by
  have hloop : ∀ turns, maxBytes < turns →
      (scanLoop h.dump pattern maxBytes chunkSize turns 0 = true ↔
        pattern <:+: h.dump.take maxBytes) := by
    intro turns ht
    rw [scanLoop_iff hp hn turns 0 (by omega), ← occurs_iff_infix]
    simp [Occurs]
  refine ⟨scanLoop h.dump pattern maxBytes chunkSize (maxBytes + 1) 0, fun turns ht => ?_,
    hloop (maxBytes + 1) (by omega)⟩
  rw [scanFile_eq hp hn h.pos ht, Bool.eq_iff_iff.mpr
    ((hloop turns ht).trans (hloop (maxBytes + 1) (by omega)).symm)]

/-- A match across the boundary of two chunks of three bytes, in a file that is not at its start. -/
theorem scanFile_iff_sample :
    ∃ found, (∀ turns, 5 < turns → scanFile ⟨[1, 2, 3, 4, 5], 4⟩ [3, 4] 5 3 turns =
        some (.returns found ⟨[1, 2, 3, 4, 5], 0⟩)) ∧
      (found = true ↔ [3, 4] <:+: ([1, 2, 3, 4, 5] : List UInt8).take 5) :=
  scanFile_iff ⟨[1, 2, 3, 4, 5], 4⟩ [3, 4] 5 3 (by decide) (by decide)

end VantaCore.Core.Backends.Appliances.ScanFile
