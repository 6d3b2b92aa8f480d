import VantaCore.Core.TranslationBase
import VantaCore.Lib.PyText

/-! # The flat image backend

`FlatImageBackend`: virtual addresses are file offsets. -/

namespace VantaCore.Core.Backends.FlatImage

open VantaCore.Core.DumpHandle VantaCore.Core.TranslationBase VantaCore.Lib.PyText

/-- The state of the backend. -/
structure FlatImageBackend where
  dumpHandle : Option Dump
  fileSize : ℕ
deriving DecidableEq, Repr

/-- `FlatImageBackend()`. -/
def new : FlatImageBackend := ⟨none, 0⟩

namespace FlatImageBackend

/-- `initialize(dump_handle)`. -/
def initializeBackend (_b : FlatImageBackend) (dump : Dump) : FlatImageBackend :=
  ⟨some dump, dump.length⟩

/-- `read_virtual`; the namespace is ignored. -/
def readVirtual (b : FlatImageBackend) (_namespaceId : PyStr) (virtualAddress length : ℕ) :
    Except PageFaultError (List UInt8) :=
  match b.dumpHandle with
  | none => .error ⟨"FlatImageBackend is not initialized"⟩
  | some dump =>
    if virtualAddress ≥ b.fileSize then
      .error ⟨"Virtual address 0x" ++ hex virtualAddress ++ " is beyond flat image size"⟩
    else if virtualAddress + length ≤ b.fileSize then
      .ok (readAt dump virtualAddress length)
    else
      let available := b.fileSize - virtualAddress
      let data := readAt dump virtualAddress available
      .ok (data ++ List.replicate (length - available) 0)

end FlatImageBackend

/-- The physical address of a file offset: itself. -/
def resolve (dump : Dump) (va : ℕ) : Option ℕ := if va < dump.length then some va else none

end VantaCore.Core.Backends.FlatImage
