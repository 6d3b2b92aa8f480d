import VantaCore.Core.Backends.Appliances.Detectors

/-! # The validator of ELF headers

`InputValidator.validate_elf_header`, with what Python does if it is not given bytes: an open file has
no length. -/

namespace VantaCore.Utils.Validation

open VantaCore.Core.DumpHandle
open VantaCore.Core.Backends.Appliances.Detectors (elfMagic)

/-- What `validate_elf_header` raises. -/
inductive Exc where
  | valueError (message : String)
  | typeError (message : String)
  | structError
deriving DecidableEq

/-- What a caller passes as `data`: bytes, or an open file on a dump. -/
inductive Data where
  | bytes (bs : List UInt8)
  | file (dump : Dump)
deriving DecidableEq

namespace Data

/-- `len(data)` -/
def len : Data → Except Exc ℕ
  | bytes bs => .ok bs.length
  | file _ => .error (.typeError "object of type '_io.BufferedReader' has no len()")

/-- `data[start:stop]` -/
def slice (start stop : ℕ) : Data → Except Exc (List UInt8)
  | bytes bs => .ok (readAt bs start (stop - start))
  | file _ => .error (.typeError "'_io.BufferedReader' object is not subscriptable")

/-- `struct.unpack_from("<H", data, offset)[0]` -/
def unpackFrom (offset : ℕ) : Data → Except Exc ℕ
  | bytes bs =>
    if bs.length < offset + 2 then .error .structError else .ok (unpackLE (readAt bs offset 2))
  | file _ => .error (.typeError "a bytes-like object is required, not '_io.BufferedReader'")

end Data

/-- `bs.hex()` -/
def hex (bs : List UInt8) : String :=
  String.ofList (bs.flatMap fun b => [Nat.digitChar (b.toNat / 16), Nat.digitChar (b.toNat % 16)])

/-- `InputValidator.validate_elf_header` -/
def validateElfHeader (data : Data) : Except Exc Unit := do
  let length ← data.len
  if length < 20 then
    throw (.valueError ("Data too short for ELF header: " ++ toString length ++ " bytes"))
  let magic ← data.slice 0 4
  if magic ≠ elfMagic then
    throw (.valueError ("Not an ELF file: magic=" ++ hex magic))
  let eType ← data.unpackFrom 16
  if eType ≠ 4 then
    throw (.valueError
      ("Not an ELF core file: e_type=" ++ toString eType ++ " (expected 4/ET_CORE)"))

/-- The header of an ELF core file. -/
def ElfCore (dump : Dump) : Prop :=
  20 ≤ dump.length ∧ readAt dump 0 4 = elfMagic ∧ unpackLE (readAt dump 16 2) = 4

/-- **The validator accepts bytes** that are the header of an ELF core file. -/
theorem validateElfHeader_bytes_iff {bs : List UInt8} :
    validateElfHeader (.bytes bs) = .ok () ↔ ElfCore bs := by
  unfold validateElfHeader ElfCore Data.len Data.slice Data.unpackFrom
  by_cases hlen : bs.length < 20
  · simp [bind, Except.bind, throw, throwThe, MonadExceptOf.throw, hlen]
  have hfield : ¬ bs.length < 16 + 2 := by omega
  by_cases hmagic : readAt bs 0 4 = elfMagic
  · by_cases htype : unpackLE (readAt bs 16 2) = 4
    · simp [bind, Except.bind, pure, Except.pure, hlen, hfield, hmagic, htype]
      omega
    · simp [bind, Except.bind, throw, throwThe, MonadExceptOf.throw, hlen, hfield, hmagic, htype]
  · simp [bind, Except.bind, throw, throwThe, MonadExceptOf.throw, hlen, hmagic]

/-- **The validator rejects an open file**, whatever it holds. -/
theorem validateElfHeader_file (dump : Dump) : validateElfHeader (.file dump) =
    .error (.typeError "object of type '_io.BufferedReader' has no len()") := rfl

end VantaCore.Utils.Validation
