import VantaCore.Lib.Bits

/-! # Radix page tables

A translation through a tree of tables. Every `Level` names the bits of the address that index its
tables and whether an entry with the size bit ends the walk there; what an entry says is a `Format`
(its bytes, its present and size bits, the frames it names). Memory is read through `entryAt`, which
is `none` outside it. A walk that passes every level ends in a page of `2 ^ F.page` bytes.

* `translate_add`: a page is translated as one block.
* `translate_small_iff`: a walk that ignores the size bit at a level differs from one that honours
  it only if it meets an entry with that bit there. -/

namespace VantaCore.Lib.PageTable

open VantaCore.Lib.Bits

/-- One level of tables: the address bits `shift, …, shift + bits - 1` are the index, and an entry
with the size bit is a leaf if `large`. -/
structure Level where
  shift : ℕ
  bits : ℕ
  large : Bool
deriving DecidableEq, Repr

/-- The meaning of an entry; `frame s e` is the base of the block of `2 ^ s` bytes `e` names. -/
structure Format where
  bytes : ℕ
  page : ℕ
  present : ℕ → Bool
  size : ℕ → Bool
  frame : ℕ → ℕ → ℕ

variable (F : Format) (entryAt : ℕ → Option ℕ)

/-- The address of the entry for `va` in the table at `base`. -/
def slot (l : Level) (base va : ℕ) : ℕ := base + va / 2 ^ l.shift % 2 ^ l.bits * F.bytes

/-- The present entry for `va` in the table at `base`. -/
def lookup (l : Level) (base va : ℕ) : Option ℕ :=
  (entryAt (slot F l base va)).filter F.present

/-- The address a leaf entry `e` of a block of `2 ^ s` bytes gives `va`. -/
def leaf (s e va : ℕ) : ℕ := F.frame s e + va % 2 ^ s

/-- **The walk** from the table at `base`. -/
def translate : List Level → ℕ → ℕ → Option ℕ
  | [], base, va => some (base + va % 2 ^ F.page)
  | l :: ls, base, va =>
    (lookup F entryAt l base va).bind fun e =>
      if l.large && F.size e then some (leaf F l.shift e va)
      else translate ls (F.frame F.page e) va

variable {F entryAt}

theorem translate_nil (base va : ℕ) :
    translate F entryAt [] base va = some (base + va % 2 ^ F.page) := rfl

theorem translate_cons (l : Level) (ls : List Level) (base va : ℕ) :
    translate F entryAt (l :: ls) base va =
      (lookup F entryAt l base va).bind fun e =>
        if l.large && F.size e then some (leaf F l.shift e va)
        else translate F entryAt ls (F.frame F.page e) va := rfl

theorem translate_none {l : Level} {ls : List Level} {base va : ℕ}
    (h : lookup F entryAt l base va = none) : translate F entryAt (l :: ls) base va = none := by
  rw [translate_cons, h, Option.bind_none]

theorem translate_leaf {l : Level} {ls : List Level} {base va e : ℕ}
    (h : lookup F entryAt l base va = some e) (hs : (l.large && F.size e) = true) :
    translate F entryAt (l :: ls) base va = some (leaf F l.shift e va) := by
  rw [translate_cons, h, Option.bind_some, if_pos hs]

theorem translate_next {l : Level} {ls : List Level} {base va e : ℕ}
    (h : lookup F entryAt l base va = some e) (hs : (l.large && F.size e) = false) :
    translate F entryAt (l :: ls) base va = translate F entryAt ls (F.frame F.page e) va := by
  rw [translate_cons, h, Option.bind_some, if_neg (by rw [hs]; decide)]

/-! ### A page is translated as one block -/

section Add

variable {va i : ℕ} (h : va % 2 ^ F.page + i < 2 ^ F.page)
include h

theorem lookup_add {l : Level} (hl : F.page ≤ l.shift) (base : ℕ) :
    lookup F entryAt l base (va + i) = lookup F entryAt l base va := by
  unfold lookup slot
  rw [add_div_two_pow hl h]

theorem leaf_add {s : ℕ} (hs : F.page ≤ s) (e : ℕ) :
    leaf F s e (va + i) = leaf F s e va + i := by
  unfold leaf
  rw [add_mod_two_pow hs h, Nat.add_assoc]

/-- **A page is translated as one block.** -/
theorem translate_add : ∀ ls : List Level, (∀ l ∈ ls, F.page ≤ l.shift) → ∀ base : ℕ,
    translate F entryAt ls base (va + i) = (translate F entryAt ls base va).map (· + i)
  | [], _, base => by
    rw [translate_nil, translate_nil, add_mod_two_pow le_rfl h, Option.map_some, Nat.add_assoc]
  | l :: ls, hls, base => by
    have hl : F.page ≤ l.shift := hls l List.mem_cons_self
    have ih := translate_add ls fun l' hl' => hls l' (List.mem_cons_of_mem _ hl')
    rw [translate_cons, translate_cons, lookup_add h hl]
    cases lookup F entryAt l base va with
    | none => rfl
    | some e =>
      simp only [Option.bind_some]
      split_ifs with hb
      · rw [leaf_add h hl, Option.map_some]
      · exact ih _

end Add

/-! ### Where the size bit is not honoured -/

/-- The level without its large leaves. -/
def Level.small (l : Level) : Level := { l with large := false }

@[simp] theorem lookup_small (l : Level) (base va : ℕ) :
    lookup F entryAt l.small base va = lookup F entryAt l base va := rfl

theorem translate_small_cons (l : Level) (ls : List Level) (base va : ℕ) :
    translate F entryAt (l.small :: ls) base va =
      (lookup F entryAt l base va).bind fun e =>
        translate F entryAt ls (F.frame F.page e) va := by
  rw [translate_cons, lookup_small]
  rfl

/-- The entry with the size bit that the walk meets at the level `l`. -/
def largeEntry (F : Format) (entryAt : ℕ → Option ℕ) (l : Level) (base va : ℕ) : Option ℕ :=
  (lookup F entryAt l base va).filter F.size

/-- **Ignoring the size bit at a level** is harmless exactly if the walk meets no entry with the bit
there, or the frame of the one it meets, read as a table, gives the address of the leaf. -/
theorem translate_small_iff {l : Level} (hl : l.large = true) (ls : List Level) (base va : ℕ)
    {α : Type*} (f : Option ℕ → α) :
    f (translate F entryAt (l.small :: ls) base va) = f (translate F entryAt (l :: ls) base va) ↔
      ∀ e, largeEntry F entryAt l base va = some e →
        f (translate F entryAt ls (F.frame F.page e) va) = f (some (leaf F l.shift e va)) := by
  rw [translate_small_cons, translate_cons, largeEntry, hl]
  simp only [Bool.true_and]
  cases lookup F entryAt l base va with
  | none => simp
  | some e =>
    simp only [Option.bind_some, Option.filter_some]
    cases hs : F.size e <;> simp

end VantaCore.Lib.PageTable
