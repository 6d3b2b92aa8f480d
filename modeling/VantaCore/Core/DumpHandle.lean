import Mathlib.Data.List.Basic
import Mathlib.Tactic

/-! # The memory dump

A dump is the byte string behind the open file handle. `seek` followed by `read` returns what exists
of the requested bytes (`readAt`); `struct.unpack` of a `"<Q"` or `"<H"` field is the little-endian
value of its bytes (`unpackLE`). -/

namespace VantaCore.Core.DumpHandle

/-- The content of a dump file. -/
abbrev Dump := List UInt8

/-- `handle.seek(offset)` and `handle.read(n)`: the bytes from `offset` on, at most `n`. -/
def readAt (dump : Dump) (offset n : ℕ) : List UInt8 := (dump.drop offset).take n

/-- The little-endian value of a byte string. -/
def unpackLE : List UInt8 → ℕ
  | [] => 0
  | b :: bs => b.toNat + 256 * unpackLE bs

variable {dump : Dump} {offset n i : ℕ}

theorem length_readAt : (readAt dump offset n).length = min n (dump.length - offset) := by
  simp [readAt]

theorem length_readAt_of_le (h : offset + n ≤ dump.length) : (readAt dump offset n).length = n := by
  rw [length_readAt]; omega

/-- A read past the end of the file returns what there is. -/
theorem readAt_of_le (h : dump.length ≤ offset + n) : readAt dump offset n = dump.drop offset := by
  rw [readAt, List.take_of_length_le (by rw [List.length_drop]; omega)]

theorem getElem?_readAt :
    (readAt dump offset n)[i]? = if i < n then dump[offset + i]? else none := by
  rw [readAt, List.getElem?_take, List.getElem?_drop]

theorem unpackLE_lt : ∀ bs : List UInt8, unpackLE bs < 256 ^ bs.length
  | [] => by simp [unpackLE]
  | b :: bs => by
    have h1 := unpackLE_lt bs
    have h2 : b.toNat < 256 := b.toNat_lt
    rw [unpackLE, List.length_cons, pow_succ]
    omega

end VantaCore.Core.DumpHandle
