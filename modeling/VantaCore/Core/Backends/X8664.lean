import VantaCore.Core.TranslationBase
import VantaCore.Lib.PyText

/-! # The x86-64 translation backend

`X86_64TranslationBackend`: the four-level page walk over a raw dump (`walkPml4`), the page-wise
reader built on it (`readVirtual`), and the scan of physical memory for the kernel base that
`initialize` runs (`scanKaslrBase`). Addresses and table entries are Python integers, here naturals;
every mask and shift is the one of the source. -/

namespace VantaCore.Core.Backends.X8664

open VantaCore.Core.DumpHandle VantaCore.Core.TranslationBase VantaCore.Lib.PyText

/-- The state of the backend. -/
structure X86_64TranslationBackend where
  dumpHandle : Option Dump
  fileSize : ℕ
  kernelBase : ℕ
  pageOffsetBase : ℕ
deriving DecidableEq, Repr

/-- `X86_64TranslationBackend()`. -/
def new : X86_64TranslationBackend := ⟨none, 0, 0xFFFF800000000000, 0xFFFF888000000000⟩

/-! ### The scan for the kernel base -/

/-- The kernel base an interrupt descriptor table register image at `offset` gives, if the ten bytes
there look like one. -/
def kaslrBaseAt (dump : Dump) (offset : ℕ) : Option ℕ :=
  let data := readAt dump offset 10
  if data.length = 10 then
    let limit := unpackLE (data.take 2)
    if 0x0100 ≤ limit ∧ limit ≤ 0x0FFF then
      let base := unpackLE ((data.drop 2).take 8)
      if base ≥ 0xFFFF800000000000 then some (base - (base &&& 0xFFF)) else none
    else none
  else none

/-- The loop of `_scan_kaslr_base`: the first page whose start looks like a descriptor. -/
def kaslrLoop (dump : Dump) (scanLimit offset : ℕ) : Option ℕ :=
  if offset < scanLimit then
    match kaslrBaseAt dump offset with
    | some base => some base
    | none => kaslrLoop dump scanLimit (offset + 0x1000)
  else none
termination_by scanLimit - offset
decreasing_by omega

namespace X86_64TranslationBackend

/-- `_scan_kaslr_base`: the base found in the first 2 GiB, else the one the backend has. -/
def scanKaslrBase (b : X86_64TranslationBackend) : X86_64TranslationBackend :=
  match b.dumpHandle with
  | none => b
  | some dump =>
    match kaslrLoop dump (min (2 * 1024 * 1024 * 1024) b.fileSize) 0 with
    | some base => { b with kernelBase := base }
    | none => b

/-- `initialize(dump_handle)`. -/
def initializeBackend (b : X86_64TranslationBackend) (dump : Dump) : X86_64TranslationBackend :=
  scanKaslrBase { b with dumpHandle := some dump, fileSize := dump.length }

/-! ### The page walk -/

/-- `_read_phys_u64`: the little-endian word at a physical offset, `0` outside the file. -/
def readPhysU64 (b : X86_64TranslationBackend) (physOffset : ℕ) : ℕ :=
  match b.dumpHandle with
  | none => 0
  | some dump =>
    if physOffset + 8 > b.fileSize then 0
    else
      let buf := readAt dump physOffset 8
      if buf.length < 8 then 0 else unpackLE buf

/-- `_walk_pml4`: the physical address of `vaddr`, `none` if a level is not present or the address
is outside the file. -/
def walkPml4 (b : X86_64TranslationBackend) (cr3 vaddr : ℕ) : Option ℕ :=
  let cr3Masked := cr3 &&& 0xFFFFFFFFFFFFF000
  let pml4i := (vaddr >>> 39) &&& 0x1FF
  let pdpti := (vaddr >>> 30) &&& 0x1FF
  let pdi := (vaddr >>> 21) &&& 0x1FF
  let pti := (vaddr >>> 12) &&& 0x1FF
  let pageOff := vaddr &&& 0xFFF
  -- Level 1: PML4
  let entry := b.readPhysU64 (cr3Masked + pml4i * 8)
  if entry &&& 1 = 0 then none else
  let pdptPhys := entry &&& 0x000FFFFFFFFFF000
  -- Level 2: PDPT
  let entry := b.readPhysU64 (pdptPhys + pdpti * 8)
  if entry &&& 1 = 0 then none else
  let pdPhys := entry &&& 0x000FFFFFFFFFF000
  -- Level 3: PD
  let entry := b.readPhysU64 (pdPhys + pdi * 8)
  if entry &&& 1 = 0 then none else
  if entry &&& (1 <<< 7) ≠ 0 then
    let resolved := (entry &&& 0x000FFFFFFFE00000) + (vaddr &&& 0x1FFFFF)
    if resolved ≥ b.fileSize then none else some resolved
  else
  let ptPhys := entry &&& 0x000FFFFFFFFFF000
  -- Level 4: PT
  let entry := b.readPhysU64 (ptPhys + pti * 8)
  if entry &&& 1 = 0 then none else
  let pagePhys := entry &&& 0x000FFFFFFFFFF000
  let resolved := pagePhys + pageOff
  if resolved ≥ b.fileSize then none else some resolved

/-! ### The reader -/

/-- The page directory base of a namespace: `int(namespace_id, 16)` if it starts with `0x`, and `0`
otherwise or on a `ValueError`. -/
def parseCr3 (namespaceId : PyStr) : ℕ :=
  if ofString "0x" <+: namespaceId then (intHex namespaceId).getD 0 else 0

/-- **A namespace that starts with `0x`** gives the number its hexadecimal digits say. -/
theorem parseCr3_digits {ds : List ℕ} (hne : ds ≠ []) (hlt : ∀ d ∈ ds, d < 16) :
    parseCr3 (ofString "0x" ++ ds.map fun d => char d.digitChar) =
      ds.foldl (fun acc d => 16 * acc + d) 0 := by
  let code : ℕ → ℕ := fun d => toAscii (char d.digitChar).val
  have hcode : ∀ d < 16, digitValue (code d) = some d := by decide
  have hscan : scanDigits 16 false 0 (ds.map code) = some (ds.foldl (fun acc d => 16 * acc + d) 0) :=
    scanDigits_digits (fun d hd => ⟨hcode d (hlt d hd), hlt d hd⟩) (Or.inr hne)
  have hdrop : ((ofString "0x" ++ ds.map fun d => char d.digitChar).drop 2).map (toAscii ·.val) =
      ds.map code := by
    show (ds.map fun d => char d.digitChar).map (toAscii ·.val) = _
    rw [List.map_map]
    rfl
  have hint : intHex (ofString "0x" ++ ds.map fun d => char d.digitChar) =
      some (ds.foldl (fun acc d => 16 * acc + d) 0) := by
    unfold intHex
    rw [hdrop]
    split
    · rename_i cs heq
      -- an underscore is no digit
      have hnone : scanDigits 16 false 0 (ds.map code) = none := by rw [heq]; rfl
      rw [hnone] at hscan
      cases hscan
    · exact hscan
  unfold parseCr3
  rw [if_pos (List.prefix_append _ _), hint, Option.getD_some]

/-- A namespace that does not, or whose number is malformed, gives `0`. -/
theorem parseCr3_eq_zero {namespaceId : PyStr}
    (h : ofString "0x" <+: namespaceId → intHex namespaceId = none) : parseCr3 namespaceId = 0 := by
  unfold parseCr3
  split_ifs with hprefix
  · rw [h hprefix, Option.getD_none]
  · rfl

example : parseCr3 "0x10" = 16 := by decide

/-- What the reading loop of `read_virtual` carries. -/
structure ReadState where
  result : List UInt8
  resolvedPages : ℕ
  totalPages : ℕ
deriving DecidableEq, Repr

/-- The bytes of one chunk of `read_virtual`: zeros if the page is not mapped, else what the file
holds, filled up with zeros. -/
def chunk (dump : Dump) (phys : Option ℕ) (chunkLen : ℕ) : List UInt8 :=
  match phys with
  | none => List.replicate chunkLen 0
  | some phys =>
    let readBytes := readAt dump phys chunkLen
    readBytes ++ List.replicate (chunkLen - readBytes.length) 0

/-- The loop of `read_virtual`, one page (or the part of it that is asked for) at a time. -/
def readLoop (b : X86_64TranslationBackend) (dump : Dump) (cr3 bytesLeft currVaddr : ℕ)
    (s : ReadState) : ReadState :=
  if h : bytesLeft > 0 then
    let pageOff := currVaddr &&& 0xFFF
    let chunkLen := min bytesLeft (0x1000 - pageOff)
    have : 0 < chunkLen := by
      have : pageOff < 0x1000 := Nat.and_lt_two_pow (n := 12) _ (by decide)
      omega
    let phys := b.walkPml4 cr3 currVaddr
    readLoop b dump cr3 (bytesLeft - chunkLen) (currVaddr + chunkLen)
      { result := s.result ++ chunk dump phys chunkLen
        resolvedPages := if phys.isSome then s.resolvedPages + 1 else s.resolvedPages
        totalPages := s.totalPages + 1 }
  else s
termination_by bytesLeft

/-- `read_virtual`. -/
def readVirtual (b : X86_64TranslationBackend) (namespaceId : PyStr) (virtualAddress length : ℕ) :
    Except PageFaultError (List UInt8) :=
  match b.dumpHandle with
  | none => .error ⟨"X86_64TranslationBackend is not initialized"⟩
  | some dump =>
    let s := b.readLoop dump (parseCr3 namespaceId) length virtualAddress ⟨[], 0, 0⟩
    if s.resolvedPages = 0 then
      .error ⟨"Page fault: 0 of " ++ toString s.totalPages ++ " pages resolved for vaddr 0x" ++
        hex virtualAddress⟩
    else .ok s.result

end X86_64TranslationBackend

end VantaCore.Core.Backends.X8664
