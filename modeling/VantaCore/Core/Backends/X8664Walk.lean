import VantaCore.Core.Backends.X8664
import VantaCore.Lib.PageTable

/-! # The page walk against the architecture

`x86Translate` is four-level paging as the processor does it: tables of 512 entries of 8 bytes, a
leaf of 1 GiB, 2 MiB or 4 KiB, cut to the file. `walkPml4` is the same walk with a page directory
pointer table that never ends a walk (`walkPml4_eq_translate`): the size bit of its entries is not
looked at. So the two agree up to the walks that meet a 1 GiB leaf (`walkPml4_eq_x86Translate_iff`),
and differ on a file of three entries (`walkPml4_ne_x86Translate`). -/

namespace VantaCore.Core.Backends.X8664Walk

open VantaCore.Core.DumpHandle VantaCore.Lib.Bits VantaCore.Lib.PageTable
open VantaCore.Core.Backends.X8664 VantaCore.Core.Backends.X8664.X86_64TranslationBackend

/-! ### Four-level paging -/

/-- Entries of 8 bytes: bit 0 is present, bit 7 the page size, the frame is in the bits up to 51. -/
def x86Format : Format where
  bytes := 8
  page := 12
  present e := e % 2 = 1
  size e := e.testBit 7
  frame s e := field s (52 - s) e

def pml4 : Level := ⟨39, 9, false⟩
def pdpt : Level := ⟨30, 9, true⟩
def pd : Level := ⟨21, 9, true⟩
def pt : Level := ⟨12, 9, false⟩

/-- The entry at a physical address; there is none outside the file. -/
def entryAt (dump : Dump) (addr : ℕ) : Option ℕ :=
  if addr + 8 ≤ dump.length then some (unpackLE (readAt dump addr 8)) else none

/-- An address inside the file. -/
def inFile (dump : Dump) (addr : Option ℕ) : Option ℕ := addr.filter (· < dump.length)

/-- **The translation of the architecture** for the page directory base `cr3`. -/
def x86Translate (dump : Dump) (cr3 va : ℕ) : Option ℕ :=
  inFile dump (translate x86Format (entryAt dump) [pml4, pdpt, pd, pt] (field 12 40 cr3) va)

/-- Bits 47 to 63 agree. -/
def Canonical (va : ℕ) : Prop := va < 2 ^ 47 ∨ 2 ^ 64 - 2 ^ 47 ≤ va ∧ va < 2 ^ 64

/-- The walk of the architecture meets a 1 GiB leaf: the entry of the page directory pointer table
that maps it. -/
def gigabyteLeaf (dump : Dump) (cr3 va : ℕ) : Option ℕ :=
  (lookup x86Format (entryAt dump) pml4 (field 12 40 cr3) va).bind fun e =>
    largeEntry x86Format (entryAt dump) pdpt (x86Format.frame 12 e) va

/-- The walk for `va` meets no present 1 GiB leaf; or the frame of the one it meets, read as a page
directory, leads to the very address of the leaf (or neither address is in the file). -/
def GigabyteLeafAgrees (dump : Dump) (cr3 va : ℕ) : Prop :=
  ∀ e, gigabyteLeaf dump cr3 va = some e →
    inFile dump (translate x86Format (entryAt dump) [pd, pt] (x86Format.frame 12 e) va) =
      inFile dump (some (leaf x86Format 30 e va))

/-! ### The backend after `initialize` -/

/-- The backend has opened `dump`. -/
structure Opened (b : X86_64TranslationBackend) (dump : Dump) : Prop where
  handle : b.dumpHandle = some dump
  size : b.fileSize = dump.length

theorem opened_initializeBackend (b : X86_64TranslationBackend) (dump : Dump) :
    Opened (b.initializeBackend dump) dump := by
  unfold initializeBackend scanKaslrBase
  simp only
  split <;> exact ⟨rfl, rfl⟩

section Opened

variable {b : X86_64TranslationBackend} {dump : Dump} (hb : Opened b dump)
include hb

theorem readPhysU64_eq (addr : ℕ) : b.readPhysU64 addr = (entryAt dump addr).getD 0 := by
  unfold readPhysU64 entryAt
  rw [hb.handle, hb.size]
  simp only
  by_cases h : addr + 8 ≤ dump.length
  · rw [if_neg (by omega), if_pos h, if_neg (by rw [length_readAt_of_le h]; omega),
      Option.getD_some]
  · rw [if_pos (by omega), if_neg h, Option.getD_none]

/-- One table read of the walk: bit 0 of the word read is set exactly if there is a present entry,
which is then the word. -/
theorem readPhysU64_slot (l : Level) (base va : ℕ) :
    (lookup x86Format (entryAt dump) l base va = none ∧
      b.readPhysU64 (slot x86Format l base va) &&& 1 = 0) ∨
    ∃ e, lookup x86Format (entryAt dump) l base va = some e ∧
      b.readPhysU64 (slot x86Format l base va) = e ∧ e &&& 1 ≠ 0 := by
  rw [readPhysU64_eq hb, lookup]
  cases entryAt dump (slot x86Format l base va) with
  | none => exact Or.inl ⟨rfl, rfl⟩
  | some e =>
    simp only [Option.getD_some, and_one_eq, Option.filter_some, x86Format]
    rcases Nat.mod_two_eq_zero_or_one e with h | h <;> simp [h]

/-- **What the code walks**: the levels of the architecture, with a page directory pointer table
that has no leaves. -/
theorem walkPml4_eq_translate (cr3 va : ℕ) :
    b.walkPml4 cr3 va = inFile dump (translate x86Format (entryAt dump)
      [pml4, pdpt.small, pd, pt] (field 12 52 cr3) va) := by
  have hidx : ∀ s, (va >>> s) &&& 0x1FF = va / 2 ^ s % 2 ^ 9 := fun s => by
    rw [Nat.shiftRight_eq_div_pow]; exact Nat.and_two_pow_sub_one_eq_mod _ 9
  have hframe : ∀ e, e &&& 0x000FFFFFFFFFF000 = x86Format.frame 12 e := fun e => and_field 12 40 e
  have hlarge : ∀ e, e &&& 0x000FFFFFFFE00000 = x86Format.frame 21 e := fun e => and_field 21 31 e
  have hcr3 : cr3 &&& 0xFFFFFFFFFFFFF000 = field 12 52 cr3 := and_field 12 52 cr3
  have hlow : va &&& 0x1FFFFF = va % 2 ^ 21 := Nat.and_two_pow_sub_one_eq_mod va 21
  have hoff : va &&& 0xFFF = va % 2 ^ 12 := Nat.and_two_pow_sub_one_eq_mod va 12
  have hsize : ∀ e, (e &&& (1 <<< 7) ≠ 0) ↔ x86Format.size e = true :=
    fun e => and_two_pow_ne_zero_iff e 7
  have hcut : ∀ a, (if a ≥ b.fileSize then none else some a) = inFile dump (some a) := fun a => by
    rw [hb.size, inFile, Option.filter_some]
    by_cases h : a < dump.length <;> simp [h]
  have hs1 : ∀ base, base + va / 2 ^ 39 % 2 ^ 9 * 8 = slot x86Format pml4 base va := fun _ => rfl
  have hs2 : ∀ base, base + va / 2 ^ 30 % 2 ^ 9 * 8 = slot x86Format pdpt.small base va :=
    fun _ => rfl
  have hs3 : ∀ base, base + va / 2 ^ 21 % 2 ^ 9 * 8 = slot x86Format pd base va := fun _ => rfl
  have hs4 : ∀ base, base + va / 2 ^ 12 % 2 ^ 9 * 8 = slot x86Format pt base va := fun _ => rfl
  have hpage : x86Format.page = 12 := rfl
  unfold walkPml4
  simp only [hidx, hframe, hlarge, hcr3, hlow, hoff, hsize, hcut, hs1, hs2, hs3, hs4]
  rcases readPhysU64_slot hb pml4 (field 12 52 cr3) va with ⟨h1, h2⟩ | ⟨e1, h1, h2, h3⟩
  · rw [if_pos h2, translate_none h1]; rfl
  rw [h2, if_neg h3, translate_next h1 rfl, hpage]
  rcases readPhysU64_slot hb pdpt.small (x86Format.frame 12 e1) va with
    ⟨h4, h5⟩ | ⟨e2, h4, h5, h6⟩
  · rw [if_pos h5, translate_none h4]; rfl
  rw [h5, if_neg h6, translate_next h4 rfl, hpage]
  rcases readPhysU64_slot hb pd (x86Format.frame 12 e2) va with ⟨h7, h8⟩ | ⟨e3, h7, h8, h9⟩
  · rw [if_pos h8, translate_none h7]; rfl
  rw [h8, if_neg h9]
  by_cases hs : x86Format.size e3 = true
  · rw [if_pos hs, translate_leaf h7 (by rw [hs]; rfl)]; rfl
  rw [if_neg hs, translate_next h7 (by rw [Bool.eq_false_iff.mpr hs]; rfl), hpage]
  rcases readPhysU64_slot hb pt (x86Format.frame 12 e3) va with ⟨h10, h11⟩ | ⟨e4, h10, h11, h12⟩
  · rw [if_pos h11, translate_none h10]; rfl
  · rw [h11, if_neg h12, translate_next h10 rfl]; rfl

/-- **A page is translated as one block**, up to the end of the file. -/
theorem walkPml4_add (cr3 : ℕ) {va i : ℕ} (h : va % 2 ^ 12 + i < 2 ^ 12) :
    b.walkPml4 cr3 (va + i) = inFile dump ((b.walkPml4 cr3 va).map (· + i)) := by
  have hls : ∀ l ∈ [pml4, pdpt.small, pd, pt], x86Format.page ≤ l.shift := by decide
  rw [walkPml4_eq_translate hb, walkPml4_eq_translate hb, translate_add h _ hls]
  unfold inFile
  cases translate x86Format (entryAt dump) [pml4, pdpt.small, pd, pt] (field 12 52 cr3) va with
  | none => rfl
  | some a =>
    rw [Option.map_some, Option.filter_some, Option.filter_some]
    by_cases ha : a < dump.length
    · simp [ha, Option.filter_some]
    · simp [ha, show ¬ a + i < dump.length by omega]

/-- **Where the code and the architecture agree**, for a directory base below `2 ^ 52`. -/
theorem walkPml4_agree {cr3 : ℕ} (hcr3 : cr3 < 2 ^ 52) (va : ℕ) :
    b.walkPml4 cr3 va = x86Translate dump cr3 va ↔ GigabyteLeafAgrees dump cr3 va := by
  have hbase : field 12 52 cr3 = field 12 40 cr3 := by
    rw [field_eq_of_lt (hcr3.trans (by norm_num)), field_eq_of_lt hcr3]
  rw [walkPml4_eq_translate hb, x86Translate, GigabyteLeafAgrees, gigabyteLeaf, hbase]
  cases h : lookup x86Format (entryAt dump) pml4 (field 12 40 cr3) va with
  | none => simp [translate_none h]
  | some e =>
    rw [translate_next h rfl, translate_next h rfl, Option.bind_some]
    exact translate_small_iff rfl [pd, pt] _ va (inFile dump)

end Opened

/-! ### The code and the architecture -/

/-- **The walk is the translation of the architecture exactly where no 1 GiB leaf is misread.** -/
theorem walkPml4_eq_x86Translate_iff (dump : Dump) (cr3 va : ℕ) (hcr3 : cr3 < 2 ^ 52) :
    (new.initializeBackend dump).walkPml4 cr3 va = x86Translate dump cr3 va ↔
      GigabyteLeafAgrees dump cr3 va :=
  walkPml4_agree (opened_initializeBackend new dump) hcr3 va

/-- A file of three entries: the second is a table at 0, the third a 1 GiB leaf at 0. -/
def gigabyteDump : Dump :=
  [0, 0, 0, 0, 0, 0, 0, 0] ++ [1, 0, 0, 0, 0, 0, 0, 0] ++ [0x81, 0, 0, 0, 0, 0, 0, 0]

/-- On `gigabyteDump` the address `0x8080000000` is at 0, but the code does not resolve it. -/
theorem walkPml4_ne_x86Translate : ¬ ∀ (dump : Dump) (cr3 va : ℕ), cr3 < 2 ^ 52 → Canonical va →
    (new.initializeBackend dump).walkPml4 cr3 va = x86Translate dump cr3 va := by
  intro h
  have h1 := h gigabyteDump 0 0x8080000000 (by norm_num) (Or.inl (by norm_num))
  rw [walkPml4_agree (opened_initializeBackend new gigabyteDump) (by norm_num)] at h1
  have h2 : gigabyteLeaf gigabyteDump 0 0x8080000000 = some 0x81 := by decide
  have h3 := h1 _ h2
  revert h3
  decide

theorem walkPml4_eq_x86Translate_small :
    (new.initializeBackend [1, 0, 0, 0, 0, 0, 0, 0]).walkPml4 0 5 =
        x86Translate [1, 0, 0, 0, 0, 0, 0, 0] 0 5 ↔
      GigabyteLeafAgrees [1, 0, 0, 0, 0, 0, 0, 0] 0 5 :=
  walkPml4_eq_x86Translate_iff [1, 0, 0, 0, 0, 0, 0, 0] 0 5 (by norm_num)

end VantaCore.Core.Backends.X8664Walk
