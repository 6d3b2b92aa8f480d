import VantaCore.Core.Backends.Appliances.Detectors
import VantaCore.Core.Backends.FlatImage
import VantaCore.Core.Backends.X8664

/-! # The architecture detector

`ArchitectureDetector.detect` asks the two backends in turn whether they take the dump, and
initialises the first that does. It does not look at the platform. -/

namespace VantaCore.Core.Backends.Detector

open VantaCore.Core.DumpHandle VantaCore.Core.Backends
open VantaCore.Core.Backends.Appliances.Detectors (BackendClass elfMagic)

/-- `X86_64TranslationBackend.detect`; `none` where `struct.unpack_from` raises, on an ELF header of
18 or 19 bytes. -/
def x8664Detect (dump : Dump) : Option Bool :=
  let fileSize := dump.length
  let data := readAt dump 0 20
  if 18 ≤ data.length ∧ readAt data 0 4 = elfMagic then
    if data.length < 20 then none
    else
      let is64bit := data.getD 4 0 = 2
      let eMachine := unpackLE (readAt data 18 2)
      some (is64bit ∧ eMachine = 62)
  else some (67108864 ≤ fileSize)

/-- `FlatImageBackend.detect`. -/
def flatImageDetect (dump : Dump) : Bool := readAt dump 0 4 ≠ elfMagic

/-- An initialised backend. -/
inductive Backend where
  | x8664 (b : X8664.X86_64TranslationBackend)
  | flatImage (b : FlatImage.FlatImageBackend)

/-- The class of a backend. -/
def Backend.cls : Backend → BackendClass
  | .x8664 _ => .x8664TranslationBackend
  | .flatImage _ => .flatImageBackend

/-- What `detect` raises. -/
inductive Error where
  | translationError (message : String)
  | structError
deriving DecidableEq

/-- `ArchitectureDetector.detect`. -/
def architectureDetect (dump : Dump) : Except Error Backend :=
  match x8664Detect dump with
  | none => .error .structError
  | some true => .ok (.x8664 (X8664.new.initializeBackend dump))
  | some false =>
    if flatImageDetect dump then .ok (.flatImage (FlatImage.new.initializeBackend dump))
    else .error (.translationError "Failed to detect architecture for memory dump")

end VantaCore.Core.Backends.Detector
