import VantaCore.Core.DumpHandle

/-! # What the translation backends share

The error of `read_virtual`, and what a reader of virtual memory is for: the byte at every address
that has a physical address, zero at the others, and an error only if no address of the range has
one (`readBytewise`). -/

namespace VantaCore.Core.TranslationBase

open VantaCore.Core.DumpHandle

/-- `PageFaultError`, with its message. -/
structure PageFaultError where
  message : String
deriving DecidableEq, Repr

/-- Python's `{n:x}`. -/
def hex (n : ℕ) : String := String.ofList (Nat.toDigits 16 n)

/-! ### Reading byte by byte -/

/-- The byte at a virtual address: that of the file at its physical address, zero if it has none. -/
def byteAt (dump : Dump) (resolve : ℕ → Option ℕ) (va : ℕ) : UInt8 :=
  match resolve va with
  | some p => dump.getD p 0
  | none => 0

/-- The bytes at `va, …, va + n - 1`. -/
def bytesAt (dump : Dump) (resolve : ℕ → Option ℕ) (va n : ℕ) : List UInt8 :=
  (List.range' va n).map (byteAt dump resolve)

/-- **Reading byte by byte**, `none` if no address of the range has a physical one. -/
def readBytewise (dump : Dump) (resolve : ℕ → Option ℕ) (va n : ℕ) : Option (List UInt8) :=
  if ∀ i < n, resolve (va + i) = none then none else some (bytesAt dump resolve va n)

variable {dump : Dump} {resolve : ℕ → Option ℕ}

@[simp] theorem length_bytesAt (va n : ℕ) : (bytesAt dump resolve va n).length = n := by
  simp [bytesAt]

theorem getElem?_bytesAt {va n i : ℕ} (h : i < n) :
    (bytesAt dump resolve va n)[i]? = some (byteAt dump resolve (va + i)) := by
  simp [bytesAt, List.getElem?_map, List.getElem?_range' h]

theorem bytesAt_add (va m n : ℕ) :
    bytesAt dump resolve va (m + n) =
      bytesAt dump resolve va m ++ bytesAt dump resolve (va + m) n := by
  rw [bytesAt, bytesAt, bytesAt, ← List.map_append, List.range'_append_1]

/-- A range without physical addresses reads as zeros. -/
theorem bytesAt_of_none {va n : ℕ} (h : ∀ i < n, resolve (va + i) = none) :
    bytesAt dump resolve va n = List.replicate n 0 := by
  refine List.ext_getElem? fun i => ?_
  rcases Nat.lt_or_ge i n with hi | hi
  · rw [getElem?_bytesAt hi, byteAt, h i hi, List.getElem?_replicate_of_lt hi]
  · rw [List.getElem?_eq_none (by simpa using hi), List.getElem?_eq_none (by simpa using hi)]

/-- A range that lies at the physical address `p`, up to the end of the file, reads as the bytes
there, filled up with zeros. -/
theorem bytesAt_of_block {va n p : ℕ}
    (h : ∀ i < n, resolve (va + i) = if p + i < dump.length then some (p + i) else none) :
    bytesAt dump resolve va n =
      readAt dump p n ++ List.replicate (n - (readAt dump p n).length) 0 := by
  refine List.ext_getElem? fun i => ?_
  rcases Nat.lt_or_ge i n with hi | hi
  · rw [getElem?_bytesAt hi, byteAt, h i hi]
    by_cases hp : p + i < dump.length
    · rw [List.getElem?_append_left (by rw [length_readAt]; omega), getElem?_readAt, if_pos hi,
        if_pos hp, List.getElem?_eq_getElem hp]
      simp [hp]
    · rw [List.getElem?_append_right (by rw [length_readAt]; omega), if_neg hp,
        List.getElem?_replicate_of_lt (by rw [length_readAt]; omega)]
  · rw [List.getElem?_eq_none (by simpa using hi),
      List.getElem?_eq_none (by simp [length_readAt]; omega)]

end VantaCore.Core.TranslationBase
