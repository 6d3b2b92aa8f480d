import VantaCore.Core.Backends.FlatImage
import VantaCore.Core.Backends.X8664Walk

/-! # Reading virtual memory

Both backends read as if every byte were translated on its own (`readVirtual_eq_bytewise`). The
flat image is one block; the x86-64 reader translates the first byte of every page and takes the
rest of the page from behind it (`chunk_eq`), and so page by page (`readLoop_spec`). -/

namespace VantaCore.Core.Backends.ReadVirtual

open VantaCore.Core.DumpHandle VantaCore.Core.TranslationBase VantaCore.Lib.PyText
open VantaCore.Core.Backends.X8664 VantaCore.Core.Backends.X8664.X86_64TranslationBackend
open VantaCore.Core.Backends.X8664Walk
open VantaCore.Core.Backends.FlatImage (resolve)

section Opened

variable {b : X86_64TranslationBackend} {dump : Dump} (hb : Opened b dump) (cr3 : ℕ)
include hb

/-! ### One page -/

theorem walkPml4_page {va n : ℕ} (hn : va % 2 ^ 12 + n ≤ 2 ^ 12) {p : ℕ}
    (h : b.walkPml4 cr3 va = some p) :
    ∀ i < n, b.walkPml4 cr3 (va + i) = if p + i < dump.length then some (p + i) else none := by
  intro i hi
  rw [walkPml4_add hb cr3 (by omega), h, Option.map_some, inFile, Option.filter_some]
  simp only [decide_eq_true_eq]

/-- The page of an address that is not mapped is not mapped. -/
theorem walkPml4_page_none {va n : ℕ} (hn : va % 2 ^ 12 + n ≤ 2 ^ 12)
    (h : b.walkPml4 cr3 va = none) : ∀ i < n, b.walkPml4 cr3 (va + i) = none := by
  intro i hi
  rw [walkPml4_add hb cr3 (by omega), h]
  rfl

/-- **One chunk** of the reader is the bytes of its addresses. -/
theorem chunk_eq {va n : ℕ} (hn : va % 2 ^ 12 + n ≤ 2 ^ 12) :
    chunk dump (b.walkPml4 cr3 va) n = bytesAt dump (b.walkPml4 cr3) va n := by
  cases h : b.walkPml4 cr3 va with
  | none => exact (bytesAt_of_none (walkPml4_page_none hb cr3 hn h)).symm
  | some p => exact (bytesAt_of_block (walkPml4_page hb cr3 hn h)).symm

/-- A chunk is mapped exactly if its first address is. -/
theorem page_none_iff {va c n : ℕ} (hc0 : 0 < c) (hcn : c ≤ n) (hc : va % 2 ^ 12 + c ≤ 2 ^ 12) :
    (∀ i < n, b.walkPml4 cr3 (va + i) = none) ↔
      b.walkPml4 cr3 va = none ∧ ∀ i < n - c, b.walkPml4 cr3 (va + c + i) = none := by
  constructor
  · intro h
    refine ⟨by simpa using h 0 (by omega), fun i hi => ?_⟩
    rw [Nat.add_assoc]
    exact h (c + i) (by omega)
  · rintro ⟨h0, h⟩ i hi
    rcases Nat.lt_or_ge i c with hic | hic
    · exact walkPml4_page_none hb cr3 hc h0 i hic
    · have := h (i - c) (by omega)
      rwa [Nat.add_assoc, Nat.add_sub_cancel' hic] at this

/-! ### The loop over the pages -/

/-- **The loop** appends the bytes of the range, and counts a page only if an address of the range
is mapped. -/
theorem readLoop_spec (n va : ℕ) (s : ReadState) :
    (b.readLoop dump cr3 n va s).result = s.result ++ bytesAt dump (b.walkPml4 cr3) va n ∧
      ((b.readLoop dump cr3 n va s).resolvedPages = 0 ↔
        s.resolvedPages = 0 ∧ ∀ i < n, b.walkPml4 cr3 (va + i) = none) := by
  induction n using Nat.strong_induction_on generalizing va s with
  | _ n ih =>
    rw [readLoop]
    by_cases h0 : n > 0
    · have hoff : va &&& 0xFFF = va % 2 ^ 12 := Nat.and_two_pow_sub_one_eq_mod va 12
      have hlt : va % 2 ^ 12 < 2 ^ 12 := Nat.mod_lt _ (by norm_num)
      simp only [dif_pos h0, hoff]
      set c := min n (0x1000 - va % 2 ^ 12)
      have hc0 : 0 < c := by omega
      have hcn : c ≤ n := by omega
      have hc : va % 2 ^ 12 + c ≤ 2 ^ 12 := by omega
      obtain ⟨ih1, ih2⟩ := ih (n - c) (by omega) (va + c)
        { result := s.result ++ chunk dump (b.walkPml4 cr3 va) c
          resolvedPages := if (b.walkPml4 cr3 va).isSome then s.resolvedPages + 1
            else s.resolvedPages
          totalPages := s.totalPages + 1 }
      constructor
      · rw [ih1, chunk_eq hb cr3 hc, List.append_assoc, ← bytesAt_add, Nat.add_sub_cancel' hcn]
      · rw [ih2, page_none_iff hb cr3 hc0 hcn hc]
        cases b.walkPml4 cr3 va <;> simp
    · obtain rfl : n = 0 := by omega
      simp [bytesAt]

/-- The reader of the backend, once the file is open. -/
theorem readVirtual_opened (ns : PyStr) (va n : ℕ) :
    (b.readVirtual ns va n).toOption =
      readBytewise dump (b.walkPml4 (parseCr3 ns)) va n := by
  unfold readVirtual readBytewise
  rw [hb.handle]
  obtain ⟨h1, h2⟩ := readLoop_spec hb (parseCr3 ns) n va ⟨[], 0, 0⟩
  simp only [true_and, List.nil_append] at h1 h2
  simp only [h1, h2]
  split_ifs <;> rfl

end Opened

/-! ### The flat image -/

theorem flat_resolve_add {dump : Dump} (va i : ℕ) :
    resolve dump (va + i) = if va + i < dump.length then some (va + i) else none := rfl

theorem flat_none_iff {dump : Dump} {va n : ℕ} (hn : 1 ≤ n) :
    (∀ i < n, resolve dump (va + i) = none) ↔ dump.length ≤ va := by
  constructor
  · intro h
    by_contra hlt
    have := h 0 (by omega)
    rw [flat_resolve_add, if_pos (by omega)] at this
    cases this
  · intro h i _
    rw [flat_resolve_add, if_neg (by omega)]

theorem flat_readVirtual (dump : Dump) (ns : PyStr) (va : ℕ) {n : ℕ} (hn : 1 ≤ n) :
    ((FlatImage.new.initializeBackend dump).readVirtual ns va n).toOption =
      readBytewise dump (resolve dump) va n := by
  unfold FlatImage.FlatImageBackend.readVirtual FlatImage.FlatImageBackend.initializeBackend
    readBytewise
  simp only [flat_none_iff hn, ge_iff_le]
  have hblock := @bytesAt_of_block dump (resolve dump) va n va fun i _ => flat_resolve_add va i
  split_ifs with h1 h2
  · rfl
  · rw [hblock, length_readAt_of_le h2, Nat.sub_self, List.replicate_zero, List.append_nil]
    rfl
  · rw [hblock, readAt_of_le (show dump.length ≤ va + (dump.length - va) by omega),
      readAt_of_le (show dump.length ≤ va + n by omega), List.length_drop]
    rfl

/-- **Both readers read byte by byte.** -/
theorem readVirtual_eq_bytewise (dump : Dump) (ns : PyStr) (va n : ℕ) (hn : 1 ≤ n) :
    ((X8664.new.initializeBackend dump).readVirtual ns va n).toOption =
        readBytewise dump ((X8664.new.initializeBackend dump).walkPml4 (parseCr3 ns)) va n ∧
      ((FlatImage.new.initializeBackend dump).readVirtual ns va n).toOption =
        readBytewise dump (resolve dump) va n :=
  ⟨readVirtual_opened (opened_initializeBackend X8664.new dump) ns va n,
    flat_readVirtual dump ns va hn⟩

/-- A dump whose first page holds the tables that map it to address `0`. -/
def selfMapped : Dump := [1, 0, 0, 0, 0, 0, 0, 0, 7, 8, 9]

/-- At the end of the page the tables map the last bytes of the dump, and zeros fill up. -/
theorem readVirtual_eq_bytewise_end :
    (((X8664.new.initializeBackend selfMapped).readVirtual "0x10" 6 8).toOption =
        readBytewise selfMapped
          ((X8664.new.initializeBackend selfMapped).walkPml4 (parseCr3 "0x10")) 6 8 ∧
      ((FlatImage.new.initializeBackend selfMapped).readVirtual "0x10" 6 8).toOption =
        readBytewise selfMapped (resolve selfMapped) 6 8) ∧
      readBytewise selfMapped
        ((X8664.new.initializeBackend selfMapped).walkPml4 (parseCr3 "0x10")) 6 8 =
          some [0, 0, 7, 8, 9, 0, 0, 0] :=
  ⟨readVirtual_eq_bytewise selfMapped "0x10" 6 8 (by norm_num), by decide +kernel⟩

end VantaCore.Core.Backends.ReadVirtual
