import VantaCore.Core.DumpHandle
import VantaCore.Lib.Chunks
import VantaCore.Lib.PyText

/-! # Fields of kernel structures

Reading fields at an offset in a buffer, and the tests the Linux extractors share. A field within a
chunk is the field of the dump at its physical offset (`readAt_chunkAt`). -/

namespace VantaCore.Extractors.Linux.Fields

open VantaCore.Core.DumpHandle VantaCore.Lib.Chunks VantaCore.Lib.PyText

/-- `struct.unpack_from` of a little-endian field of `n` bytes. -/
def unpackFrom (n : ℕ) (buf : List UInt8) (pos : ℕ) : ℕ := unpackLE (readAt buf pos n)

/-- `struct.unpack_from` of a signed little-endian field of `n` bytes. -/
def unpackSigned (n : ℕ) (buf : List UInt8) (pos : ℕ) : ℤ :=
  (unpackFrom n buf pos : ℤ).bmod (2 ^ (8 * n))

/-- `struct.unpack_from` of a big-endian field of `n` bytes. -/
def unpackBig (n : ℕ) (buf : List UInt8) (pos : ℕ) : ℕ := unpackLE (readAt buf pos n).reverse

/-- `raw.split(b"\x00")[0]`. -/
def beforeNul (raw : List UInt8) : List UInt8 := raw.takeWhile (· ≠ 0)

/-- All bytes are printable ASCII. -/
def Printable (bs : List UInt8) : Prop := ∀ b ∈ bs, 32 ≤ b ∧ b ≤ 126

instance (bs : List UInt8) : Decidable (Printable bs) :=
  inferInstanceAs (Decidable (∀ b ∈ bs, 32 ≤ b ∧ b ≤ 126))

def kernelVaMin : ℕ := 0xFFFF800000000000
def kernelVaMax : ℕ := 0xFFFFFFFFFFFF0000

/-- `_is_valid_kernel_va`. -/
def isValidKernelVa (va : ℕ) : Bool := kernelVaMin ≤ va && va ≤ kernelVaMax

theorem readAt_chunkAt {dump : Dump} {n c k m : ℕ} (h : k + m ≤ (chunkAt n dump c).length) :
    readAt (chunkAt n dump c) k m = readAt dump (c + k) m := chunkAt_chunkAt h

end VantaCore.Extractors.Linux.Fields
