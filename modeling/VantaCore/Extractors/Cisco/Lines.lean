import VantaCore.Extractors.Cisco.Text
import VantaCore.Lib.Lines
import VantaCore.Lib.PyFields
import Mathlib.Data.List.Sort

/-! # Images of lines

A dump of lines of text. Where a pattern occurs at the start of lines only, a line that is found is not
cut by a chunk, and a parser reads nothing behind a line, the scan reads the lines one by one, in order
(`mem_hits_text_iff`, `hits_text_eq`). -/

namespace VantaCore.Extractors.Cisco.Lines

open VantaCore.Core.DumpHandle VantaCore.Lib.Chunks VantaCore.Lib.Search VantaCore.Lib.Lines
open VantaCore.Lib.PyText VantaCore.Lib.PyFields VantaCore.Extractors.Cisco.TextScan
open VantaCore.Extractors.Cisco.Text

variable {ρ : Type*}

/-- The line begins with the pattern. -/
def Found (p : Pass ρ) (l : Line UInt8) : Prop := OccursAt p.pattern l.content 0

instance (p : Pass ρ) (l : Line UInt8) : Decidable (Found p l) := inferInstanceAs (Decidable (_ = _))

/-- A pass reads the lines it finds: the pattern holds no separator and stands at the start of lines
only, a line that is found is whole in its window and its chunk, and nothing behind it is read. -/
structure Reads (n : ℕ) (lines : List (Line UInt8)) (p : Pass ρ) : Prop where
  stop : ∀ l ∈ lines, l.stop ∉ p.pattern
  start : ∀ l ∈ lines, ∀ i, OccursAt p.pattern l.content i → i = 0
  whole : ∀ a ∈ placed 0 lines, Found p a.2 →
    a.2.content.length ≤ p.window ∧ a.1 % n + a.2.content.length ≤ n
  parse : ∀ l ∈ lines, Found p l → ∀ rest,
    p.parse (l.content ++ l.stop :: rest) = p.parse l.content

variable {n : ℕ} {lines : List (Line UInt8)} {passes : List (Pass ρ)} {p : Pass ρ} {l : Line UInt8}
  {h : Hit ρ} {o pos : ℕ}

/-- **The pattern occurs at the starts of the lines it finds.** -/
theorem occursAt_text_iff_found (hr : Reads n lines p) :
    OccursAt p.pattern (text lines) pos ↔ ∃ l, (pos, l) ∈ placed 0 lines ∧ Found p l := by
  rw [occursAt_text_iff p.pattern_ne_nil (o := 0) hr.stop, Nat.zero_add]
  constructor
  · rintro ⟨⟨i, l⟩, ha, j, rfl, hocc⟩
    obtain rfl := hr.start l (snd_of_mem_placed ha) j hocc
    exact ⟨l, ha, hocc⟩
  · rintro ⟨l, ha, hfound⟩
    exact ⟨(pos, l), ha, 0, rfl, hfound⟩

/-- The search in a chunk finds the lines, which do not overlap. -/
theorem mem_findAll_text_iff (hr : Reads n lines p) :
    pos % n ∈ findAll p.pattern (chunkAt n (text lines) (pos / n * n)) ↔
      ∃ l, (pos, l) ∈ placed 0 lines ∧ Found p l := by
  have hp := p.pattern_ne_nil
  have hdump : ∀ {a : ℕ}, OccursAt p.pattern (chunkAt n (text lines) (pos / n * n)) a →
      OccursAt p.pattern (text lines) (pos / n * n + a) := fun hocc =>
    (occursAt_chunkAt (hocc.le hp)).mp hocc
  constructor
  · intro hmem
    have hocc := hdump (occursAt_of_mem_findAll hp hmem)
    rw [Nat.div_add_mod'] at hocc
    exact (occursAt_text_iff_found hr).mp hocc
  · rintro ⟨l, ha, hfound⟩
    have hlen : 0 + p.pattern.length ≤ l.content.length := OccursAt.le hfound hp
    have hocc := (occursAt_text_iff_found hr).mpr ⟨l, ha, hfound⟩
    have hcut := (hr.whole _ ha hfound).2
    have hle := hocc.le hp
    have hdiv := Nat.div_add_mod' pos n
    have hfit : pos % n + p.pattern.length ≤ (chunkAt n (text lines) (pos / n * n)).length := by
      rw [length_chunkAt]
      dsimp only at hcut
      omega
    have hchunk := (occursAt_chunkAt hfit).mpr (by rwa [hdiv])
    refine mem_findAll_of_not_overlapped hp hchunk fun j hj hover hocc' => ?_
    obtain ⟨l', ha', hfound'⟩ := (occursAt_text_iff_found hr).mp (hdump hocc')
    have hlen' : 0 + p.pattern.length ≤ l'.content.length := OccursAt.le hfound' hp
    rcases eq_or_apart ha' ha with heq | hlt | hlt
    · have := (Prod.mk.inj heq).1
      omega
    · dsimp only at hlt
      omega
    · dsimp only at hlt
      omega

/-- The window of a line that is found is the line, or goes on with its separator. -/
theorem parse_window (hr : Reads n lines p) (ha : (pos, l) ∈ placed 0 lines) (hfound : Found p l) :
    p.parse (chunkAt p.window (chunkAt n (text lines) (pos / n * n)) (pos % n)) =
      p.parse l.content := by
  obtain ⟨rest, hrest⟩ := exists_drop_text (o := 0) (by rwa [Nat.zero_add])
  obtain ⟨hwindow, hcut⟩ := hr.whole _ ha hfound
  have hchunk : chunkAt p.window (chunkAt n (text lines) (pos / n * n)) (pos % n) =
      (l.content ++ l.stop :: rest).take (min p.window (n - pos % n)) := by
    unfold chunkAt
    rw [List.drop_take, List.drop_drop, Nat.div_add_mod', hrest, List.take_take]
  dsimp only at hwindow hcut
  obtain ⟨k, hk⟩ : ∃ k, min p.window (n - pos % n) = l.content.length + k :=
    ⟨min p.window (n - pos % n) - l.content.length, by omega⟩
  rw [hchunk, hk, List.take_length_add_append]
  cases k with
  | zero => rw [List.take_zero, List.append_nil]
  | succ k =>
    rw [List.take_succ_cons]
    exact hr.parse l (snd_of_mem_placed ha) hfound _

/-- **A pass reads the lines it finds.** -/
theorem hitAt_text (hr : Reads n lines p) {r : ρ} :
    hitAt n p (text lines) pos = some r ↔
      ∃ l, (pos, l) ∈ placed 0 lines ∧ Found p l ∧ p.parse l.content = some r := by
  unfold hitAt
  dsimp only
  by_cases hmem : pos % n ∈ findAll p.pattern (chunkAt n (text lines) (pos / n * n))
  · rw [if_pos hmem]
    obtain ⟨l, ha, hfound⟩ := (mem_findAll_text_iff hr).mp hmem
    rw [parse_window hr ha hfound]
    refine ⟨fun hparse => ⟨l, ha, hfound, hparse⟩, ?_⟩
    rintro ⟨l', ha', -, hparse⟩
    rcases eq_or_apart ha ha' with heq | hlt | hlt
    · rwa [(Prod.mk.inj heq).2]
    · dsimp only at hlt
      omega
    · dsimp only at hlt
      omega
  · rw [if_neg hmem]
    refine iff_of_false (Option.some_ne_none r).symm ?_
    rintro ⟨l, ha, hfound, -⟩
    exact hmem ((mem_findAll_text_iff hr).mpr ⟨l, ha, hfound⟩)

theorem mem_hits_text_iff (hr : ∀ p ∈ passes, Reads n lines p) (hn : 0 < n) :
    h ∈ hits n passes (text lines) ↔ ∃ p l, passes[h.pass]? = some p ∧
      (h.pos, l) ∈ placed 0 lines ∧ Found p l ∧ p.parse l.content = some h.value := by
  rw [mem_hits_iff hn]
  refine exists_congr fun p => ⟨fun ⟨hp, hread⟩ => ?_, fun ⟨l, hp, hrest⟩ => ?_⟩
  · obtain ⟨l, hrest⟩ := (hitAt_text (hr p (List.mem_of_getElem? hp))).mp hread
    exact ⟨l, hp, hrest⟩
  · exact ⟨hp, (hitAt_text (hr p (List.mem_of_getElem? hp))).mpr ⟨l, hrest⟩⟩

/-- What a pass reads at a line. -/
def lineHit (k : ℕ) (p : Pass ρ) (a : ℕ × Line UInt8) : Option (Hit ρ) :=
  if Found p a.2 then (p.parse a.2.content).map (Hit.mk k a.1) else none

theorem mem_filterMap_lineHit {k : ℕ} : h ∈ (placed o lines).filterMap (lineHit k p) ↔
    h.pass = k ∧ ∃ l, (h.pos, l) ∈ placed o lines ∧ Found p l ∧ p.parse l.content = some h.value := by
  rw [List.mem_filterMap]
  constructor
  · rintro ⟨⟨pos, l⟩, ha, hhit⟩
    unfold lineHit at hhit
    split_ifs at hhit with hfound
    obtain ⟨r, hparse, rfl⟩ := Option.map_eq_some_iff.mp hhit
    exact ⟨rfl, l, ha, hfound, hparse⟩
  · rintro ⟨rfl, l, ha, hfound, hparse⟩
    refine ⟨(h.pos, l), ha, ?_⟩
    unfold lineHit
    rw [if_pos hfound, hparse]
    rfl

theorem sorted_filterMap_lineHit {k : ℕ} :
    ((placed o lines).filterMap (lineHit k p)).Pairwise (Before n) := by
  refine List.pairwise_filterMap.mpr ((pairwise_placed o lines).imp fun {a b} hlt x hx y hy => ?_)
  have hhit : ∀ {a : ℕ × Line UInt8} {x : Hit ρ}, lineHit k p a = some x →
      x.pass = k ∧ x.pos = a.1 := fun {a x} hx => by
    unfold lineHit at hx
    split_ifs at hx
    obtain ⟨r, -, rfl⟩ := Option.map_eq_some_iff.mp hx
    exact ⟨rfl, rfl⟩
  obtain ⟨hpass, hpos⟩ := hhit hx
  obtain ⟨hpass', hpos'⟩ := hhit hy
  have hdiv : x.pos / n ≤ y.pos / n := Nat.div_le_div_right (by omega)
  unfold Before
  omega

/-- **The hits of a pass are what it reads of the lines**, in order. -/
theorem filter_hits_text (hr : ∀ p ∈ passes, Reads n lines p) (hn : 0 < n) {k : ℕ}
    (hp : passes[k]? = some p) : (hits n passes (text lines)).filter (·.pass = k) =
      (placed 0 lines).filterMap (lineHit k p) := by
  have : Std.Irrefl (Before n : Hit ρ → Hit ρ → Prop) := ⟨fun a h => Before.asymm a a h h⟩
  have : Std.Antisymm (Before n : Hit ρ → Hit ρ → Prop) :=
    ⟨fun a b h h' => absurd h' (Before.asymm a b h)⟩
  refine ((sorted_hits hn).filter _).eq_of_mem_iff sorted_filterMap_lineHit fun h => ?_
  rw [List.mem_filter, decide_eq_true_iff, mem_hits_text_iff hr hn, mem_filterMap_lineHit, and_comm]
  refine and_congr_right fun hpass => ?_
  rw [hpass, hp]
  constructor
  · rintro ⟨q, l, hq, hrest⟩
    obtain rfl := Option.some.inj hq
    exact ⟨l, hrest⟩
  · rintro ⟨l, hrest⟩
    exact ⟨p, l, rfl, hrest⟩

/-! ### Printed records -/

/-- What stands in a line of an image. -/
inductive Item (β : Type*) where
  | record (r : β)
  | other (content : List UInt8)

variable {β : Type*} (print : β → List UInt8)

def Item.content : Item β → List UInt8
  | .record r => print r
  | .other content => content

/-- The lines of items with their separators. -/
def linesOf (items : List (Item β × UInt8)) : List (Line UInt8) :=
  items.map fun i => ⟨i.1.content print, i.2⟩

/-- The dump that is printed. -/
def image (items : List (Item β × UInt8)) : Dump := text (linesOf print items)

/-- The records with their positions, from a position on. -/
def recordsAt : ℕ → List (Item β × UInt8) → List (ℕ × β)
  | _, [] => []
  | o, (.record r, _) :: items => (o, r) :: recordsAt (o + (print r).length + 1) items
  | o, (.other content, _) :: items => recordsAt (o + content.length + 1) items

/-- An item that is no record shows no pattern. -/
def Item.Plain (passes : List (Pass ρ)) : Item β → Prop
  | .record _ => True
  | .other content => ∀ p ∈ passes, ∀ i < content.length, ¬ OccursAt p.pattern content i

instance (passes : List (Pass ρ)) : DecidablePred (Item.Plain passes : Item β → Prop)
  | .record _ => isTrue trivial
  | .other content =>
    inferInstanceAs (Decidable (∀ p ∈ passes, ∀ i < content.length, ¬ OccursAt p.pattern content i))

/-- The passes read printed records back: the pass of its kind finds a record at its start, reads its
value and nothing behind a separator, and nothing else is found. -/
structure ReadsBack (passes : List (Pass ρ)) (print : β → List UInt8) (stop : UInt8 → Prop)
    (kind : β → ℕ) (value : β → ρ) : Prop where
  separator : ∀ p ∈ passes, ∀ b, stop b → b ∉ p.pattern
  found : ∀ r, ∃ p, passes[kind r]? = some p ∧ OccursAt p.pattern (print r) 0 ∧
    (print r).length ≤ p.window ∧ p.parse (print r) = some (value r) ∧
      ∀ b, stop b → ∀ rest, p.parse (print r ++ b :: rest) = p.parse (print r)
  start : ∀ r k p, passes[k]? = some p → ∀ i, OccursAt p.pattern (print r) i → k = kind r ∧ i = 0

/-- The image is read in chunks that cut no record, and its other lines show no pattern. -/
structure Fits (n : ℕ) (passes : List (Pass ρ)) (print : β → List UInt8) (stop : UInt8 → Prop)
    (items : List (Item β × UInt8)) : Prop where
  separator : ∀ i ∈ items, stop i.2
  plain : ∀ i ∈ items, i.1.Plain passes
  uncut : ∀ a ∈ recordsAt print 0 items, a.1 % n + (print a.2).length ≤ n

variable {print} {stop : UInt8 → Prop} {kind : β → ℕ} {value : β → ρ}
  {items : List (Item β × UInt8)} {r : β}

theorem Fits.not_occursAt (hf : Fits n passes print stop items) {content : List UInt8} {b : UInt8}
    (hi : (.other content, b) ∈ items) (hp : p ∈ passes) (i : ℕ) :
    ¬ OccursAt p.pattern content i := by
  intro hocc
  have hle := hocc.le p.pattern_ne_nil
  have hpos := List.length_pos_of_ne_nil p.pattern_ne_nil
  exact hf.plain _ hi p hp i (by omega) hocc

/-- A placed line is a record or another line. -/
theorem mem_placed_linesOf : ∀ {items : List (Item β × UInt8)} {o : ℕ},
    (pos, l) ∈ placed o (linesOf print items) →
      (∃ r b, (.record r, b) ∈ items ∧ (pos, r) ∈ recordsAt print o items ∧ l = ⟨print r, b⟩) ∨
        ∃ content b, (.other content, b) ∈ items ∧ l = ⟨content, b⟩
  | (.record r, b) :: items, o, h => by
    rcases List.mem_cons.mp h with heq | h
    · obtain ⟨rfl, rfl⟩ := Prod.mk.inj heq
      exact Or.inl ⟨r, b, List.mem_cons_self, List.mem_cons_self, rfl⟩
    · rcases mem_placed_linesOf h with ⟨r', b', hi, ha, hl⟩ | ⟨content, b', hi, hl⟩
      · exact Or.inl ⟨r', b', List.mem_cons_of_mem _ hi, List.mem_cons_of_mem _ ha, hl⟩
      · exact Or.inr ⟨content, b', List.mem_cons_of_mem _ hi, hl⟩
  | (.other content, b) :: items, o, h => by
    rcases List.mem_cons.mp h with heq | h
    · obtain ⟨rfl, rfl⟩ := Prod.mk.inj heq
      exact Or.inr ⟨content, b, List.mem_cons_self, rfl⟩
    · rcases mem_placed_linesOf h with ⟨r', b', hi, ha, hl⟩ | ⟨content', b', hi, hl⟩
      · exact Or.inl ⟨r', b', List.mem_cons_of_mem _ hi, ha, hl⟩
      · exact Or.inr ⟨content', b', List.mem_cons_of_mem _ hi, hl⟩

/-- **Every pass reads the lines of the image.** -/
theorem ReadsBack.reads (hb : ReadsBack passes print stop kind value)
    (hf : Fits n passes print stop items) (hp : p ∈ passes) : Reads n (linesOf print items) p := by
  obtain ⟨k, hk⟩ := List.getElem?_of_mem hp
  have hline : ∀ l ∈ linesOf print items, (∃ r b, (.record r, b) ∈ items ∧ l = ⟨print r, b⟩) ∨
      ∃ content b, (.other content, b) ∈ items ∧ l = ⟨content, b⟩ := by
    intro l hl
    obtain ⟨⟨i, b⟩, hi, rfl⟩ := List.mem_map.mp hl
    cases i with
    | record r => exact Or.inl ⟨r, b, hi, rfl⟩
    | other content => exact Or.inr ⟨content, b, hi, rfl⟩
  refine ⟨fun l hl => ?_, fun l hl i hocc => ?_, fun ⟨o, l⟩ ha hfound => ?_, fun l hl hfound rest => ?_⟩
  · rcases hline l hl with ⟨r, b, hi, rfl⟩ | ⟨content, b, hi, rfl⟩
    · exact hb.separator p hp b (hf.separator _ hi)
    · exact hb.separator p hp b (hf.separator _ hi)
  · rcases hline l hl with ⟨r, b, hi, rfl⟩ | ⟨content, b, hi, rfl⟩
    · exact (hb.start r k p hk i hocc).2
    · exact absurd hocc (hf.not_occursAt hi hp i)
  · rcases mem_placed_linesOf ha with ⟨r, b, hi, hrec, rfl⟩ | ⟨content, b, hi, rfl⟩
    · obtain ⟨q, hq, -, hwindow, -⟩ := hb.found r
      rw [← (hb.start r k p hk 0 hfound).1, hk] at hq
      obtain rfl := Option.some.inj hq
      exact ⟨hwindow, hf.uncut (o, r) hrec⟩
    · exact absurd hfound (hf.not_occursAt hi hp 0)
  · rcases hline l hl with ⟨r, b, hi, rfl⟩ | ⟨content, b, hi, rfl⟩
    · obtain ⟨q, hq, -, -, -, hrest⟩ := hb.found r
      rw [← (hb.start r k p hk 0 hfound).1, hk] at hq
      obtain rfl := Option.some.inj hq
      exact hrest b (hf.separator _ hi) rest
    · exact absurd hfound (hf.not_occursAt hi hp 0)

/-- What is read of a record. -/
def hitOf (kind : β → ℕ) (value : β → ρ) (a : ℕ × β) : Hit ρ := ⟨kind a.2, a.1, value a.2⟩

theorem filterMap_lineHit_linesOf (hb : ReadsBack passes print stop kind value) {k : ℕ}
    (hp : passes[k]? = some p) : ∀ {items : List (Item β × UInt8)} {o : ℕ},
    (∀ content b, (.other content, b) ∈ items → ∀ i, ¬ OccursAt p.pattern content i) →
      (placed o (linesOf print items)).filterMap (lineHit k p) =
        ((recordsAt print o items).filter (kind ·.2 = k)).map (hitOf kind value)
  | [], _, _ => rfl
  | (.record r, b) :: items, o, hothers => by
    have ih := @filterMap_lineHit_linesOf hb k hp items (o + (print r).length + 1)
      fun content b hi => hothers content b (List.mem_cons_of_mem _ hi)
    have hplaced : placed o (linesOf print ((.record r, b) :: items)) =
        (o, ⟨print r, b⟩) :: placed (o + (print r).length + 1) (linesOf print items) := rfl
    rw [hplaced, recordsAt]
    by_cases hk : kind r = k
    · obtain ⟨q, hq, hfound, -, hparse, -⟩ := hb.found r
      rw [hk, hp] at hq
      obtain rfl := Option.some.inj hq
      have hhit : lineHit k p (o, ⟨print r, b⟩) = some ⟨k, o, value r⟩ := by
        refine (if_pos hfound).trans ?_
        rw [hparse]
        rfl
      rw [List.filterMap_cons_some hhit, ih, List.filter_cons_of_pos (a := (o, r)) (by simpa using hk),
        List.map_cons, hitOf, hk]
    · have hhit : lineHit k p (o, ⟨print r, b⟩) = none :=
        if_neg fun hfound => hk (hb.start r k p hp 0 hfound).1.symm
      rw [List.filterMap_cons_none hhit, ih, List.filter_cons_of_neg (a := (o, r)) (by simpa using hk)]
  | (.other content, b) :: items, o, hothers => by
    have ih := @filterMap_lineHit_linesOf hb k hp items (o + content.length + 1)
      fun content b hi => hothers content b (List.mem_cons_of_mem _ hi)
    have hplaced : placed o (linesOf print ((.other content, b) :: items)) =
        (o, ⟨content, b⟩) :: placed (o + content.length + 1) (linesOf print items) := rfl
    have hhit : lineHit k p (o, ⟨content, b⟩) = none :=
      if_neg (hothers content b List.mem_cons_self 0)
    rw [hplaced, recordsAt, List.filterMap_cons_none hhit, ih]

/-- **The records of a kind are read back**, in order. -/
theorem ReadsBack.filter_hits (hb : ReadsBack passes print stop kind value)
    (hf : Fits n passes print stop items) (hn : 0 < n) {k : ℕ} (hp : passes[k]? = some p) :
    (hits n passes (image print items)).filter (·.pass = k) =
      ((recordsAt print 0 items).filter (kind ·.2 = k)).map (hitOf kind value) := by
  unfold image
  rw [filter_hits_text (fun q hq => hb.reads hf hq) hn hp]
  exact filterMap_lineHit_linesOf hb hp fun content b hi i =>
    hf.not_occursAt hi (List.mem_of_getElem? hp) i

/-- Records of one kind are all that is read. -/
theorem ReadsBack.hits_eq {k : ℕ} (hb : ReadsBack passes print stop (fun _ => k) value)
    (hf : Fits n passes print stop items) (hn : 0 < n) (hp : passes[k]? = some p) :
    hits n passes (image print items) =
      (recordsAt print 0 items).map (hitOf (fun _ => k) value) := by
  have hfilter := hb.filter_hits hf hn hp
  rw [List.filter_eq_self.mpr fun h hh => ?_, List.filter_eq_self.mpr fun _ _ => decide_eq_true rfl]
    at hfilter
  · exact hfilter
  · obtain ⟨q, l, hq, ha, hfound, -⟩ := (mem_hits_text_iff (fun q hq => hb.reads hf hq) hn).mp hh
    rcases mem_placed_linesOf ha with ⟨r, b, -, -, rfl⟩ | ⟨content, b, hi, rfl⟩
    · exact decide_eq_true (hb.start r _ q hq 0 hfound).1
    · exact absurd hfound (hf.not_occursAt hi (List.mem_of_getElem? hq) 0)

/-! ### The text of a line -/

/-- A NUL or a newline. -/
def IsStop (b : UInt8) : Prop := b = 0 ∨ b = 10

instance (b : UInt8) : Decidable (IsStop b) := inferInstanceAs (Decidable (_ ∨ _))

theorem before_append_of_mem {sep : Char} {s t : PyStr} (h : char sep ∈ s) :
    before sep (s ++ t) = before sep s := by
  obtain ⟨a, b, rfl, ha⟩ := List.eq_append_cons_of_mem h
  rw [List.append_assoc, List.cons_append, before_append ha, before_append ha]
  simp [before]

theorem before_of_not_mem {sep : Char} {s : PyStr} (h : char sep ∉ s) : before sep s = s := by
  have := before_append (t := []) h
  rwa [List.append_nil, show before sep [] = [] from rfl, List.append_nil] at this

theorem before_append_cons {sep : Char} {s t : PyStr} :
    before sep (s ++ char sep :: t) = before sep s := by
  by_cases h : char sep ∈ s
  · exact before_append_of_mem h
  · rw [before_append h, before_of_not_mem h]
    simp [before]

/-- **Nothing behind a separator is read as part of the line.** -/
theorem lineOf_append {content rest : List UInt8} {b : UInt8} (hb : IsStop b) :
    lineOf (content ++ b :: rest) = lineOf content := by
  have hbytes : ofBytes (content ++ b :: rest) =
      ofBytes content ++ Fin.ofNat 0x110000 b.toNat :: ofBytes rest := List.map_append
  unfold lineOf
  rw [hbytes]
  rcases hb with rfl | rfl
  · exact congrArg (fun s => strip (before '\n' s)) before_append_cons
  by_cases h : char '\x00' ∈ ofBytes content
  · rw [before_append_of_mem h]
  · have hnew : before '\x00' (Fin.ofNat 0x110000 (10 : UInt8).toNat :: ofBytes rest) =
        char '\n' :: before '\x00' (ofBytes rest) := List.takeWhile_cons_of_pos (by decide)
    rw [before_append h, before_of_not_mem h, hnew, before_append_cons]

/-- **The fields of a printed line** are read back. -/
theorem split_lineOf {fields : List (List UInt8)}
    (h : ∀ f ∈ fields, f ≠ [] ∧ ∀ b ∈ f, Visible b) :
    split (lineOf ([32].intercalate fields)) = fields.map ofBytes := by
  have hbyte : ∀ b ∈ [32].intercalate fields, b = 32 ∨ Visible b := by
    intro b hb
    rcases mem_intercalate hb with hspace | ⟨f, hf, hmem⟩
    · exact Or.inl (List.mem_singleton.mp hspace)
    · exact Or.inr ((h f hf).2 b hmem)
  have hstop : ∀ b, IsStop b → Fin.ofNat 0x110000 b.toNat ∉ ofBytes ([32].intercalate fields) := by
    rintro b (rfl | rfl) hmem
    · exact absurd (hbyte 0 (mem_ofBytes_iff.mp hmem)) (by decide)
    · exact absurd (hbyte 10 (mem_ofBytes_iff.mp hmem)) (by decide)
  have hnul : char '\x00' ∉ ofBytes ([32].intercalate fields) := hstop 0 (Or.inl rfl)
  have hnewline : char '\n' ∉ ofBytes ([32].intercalate fields) := hstop 10 (Or.inr rfl)
  have hfields : ∀ f ∈ fields.map ofBytes, IsField f := by
    intro f hf
    obtain ⟨bytes, hbytes, rfl⟩ := List.mem_map.mp hf
    refine ⟨fun hnil => (h bytes hbytes).1 (List.map_eq_nil_iff.mp hnil), fun c hc => ?_⟩
    obtain ⟨b, hb, rfl⟩ := List.mem_map.mp hc
    exact solid_of_visible b ((h bytes hbytes).2 b hb)
  unfold lineOf
  rw [split_strip, before_of_not_mem hnul, before_of_not_mem hnewline, ofBytes_intercalate,
    split_join hfields]

end VantaCore.Extractors.Cisco.Lines
