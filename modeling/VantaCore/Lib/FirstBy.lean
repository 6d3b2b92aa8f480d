import Mathlib.Data.List.Basic
import Mathlib.Tactic

/-! # The first record of each key

A loop that keeps a record unless it has seen the record's key keeps the first record of each key
(`found_foldl`). In a list sorted by a strict order these are the records with none of their key
before them (`not_lt_of_mem_firsts`). Two such loops find the same things exactly when the first
records of each are accounted for by the other (`sameFound_iff`). -/

namespace VantaCore.Lib.FirstBy

variable {α κ φ σ : Type*} [DecidableEq κ]

/-- The records of a list whose key neither is in `seen` nor comes before them. -/
def firsts (key : α → κ) : List κ → List α → List α
  | _, [] => []
  | seen, a :: l =>
    if key a ∈ seen then firsts key seen l else a :: firsts key (key a :: seen) l

variable {key : α → κ} {seen : List κ} {l l' : List α} {lt : α → α → Prop} {a b : α}

theorem mem_of_mem_firsts : ∀ {seen : List κ} {l : List α}, a ∈ firsts key seen l →
    a ∈ l ∧ key a ∉ seen
  | _, [], h => by cases h
  | seen, b :: l, h => by
    rw [firsts] at h
    split_ifs at h with hseen
    · obtain ⟨hmem, hkey⟩ := mem_of_mem_firsts h
      exact ⟨List.mem_cons_of_mem b hmem, hkey⟩
    · rcases List.mem_cons.mp h with rfl | h
      · exact ⟨List.mem_cons_self, hseen⟩
      · obtain ⟨hmem, hkey⟩ := mem_of_mem_firsts h
        exact ⟨List.mem_cons_of_mem b hmem, fun hin => hkey (List.mem_cons_of_mem _ hin)⟩

/-- **Every key that was not seen has a first record.** -/
theorem exists_mem_firsts : ∀ {seen : List κ} {l : List α}, a ∈ l → key a ∉ seen →
    ∃ b ∈ firsts key seen l, key b = key a
  | _, [], h, _ => by cases h
  | seen, b :: l, h, hseen => by
    rw [firsts]
    split_ifs with hb
    · rcases List.mem_cons.mp h with rfl | h
      · exact absurd hb hseen
      · exact exists_mem_firsts h hseen
    · by_cases hab : key b = key a
      · exact ⟨b, List.mem_cons_self, hab⟩
      · have hl : a ∈ l := (List.mem_cons.mp h).resolve_left fun heq => hab (heq ▸ rfl)
        have hnot : key a ∉ key b :: seen := by
          rw [List.mem_cons]
          rintro (heq | hin)
          exacts [hab heq.symm, hseen hin]
        obtain ⟨c, hc, hkey⟩ := exists_mem_firsts hl hnot
        exact ⟨c, List.mem_cons_of_mem b hc, hkey⟩

/-- No two first records have one key. -/
theorem pairwise_firsts : ∀ (seen : List κ) (l : List α),
    (firsts key seen l).Pairwise fun a b => key a ≠ key b
  | _, [] => List.Pairwise.nil
  | seen, a :: l => by
    rw [firsts]
    split_ifs
    · exact pairwise_firsts seen l
    · refine List.pairwise_cons.mpr ⟨fun b hb heq => ?_, pairwise_firsts _ l⟩
      have hnot := (mem_of_mem_firsts hb).2
      rw [heq] at hnot
      exact hnot List.mem_cons_self

theorem eq_of_key_eq (ha : a ∈ firsts key seen l) (hb : b ∈ firsts key seen l)
    (h : key a = key b) : a = b := by
  by_contra hne
  have : Std.Symm fun x y : α => key x ≠ key y := ⟨fun _ _ h => h.symm⟩
  exact (pairwise_firsts seen l).forall ha hb hne h

theorem firsts_sublist : ∀ (seen : List κ) (l : List α), (firsts key seen l).Sublist l
  | _, [] => List.Sublist.slnil
  | seen, a :: l => by
    rw [firsts]
    split_ifs
    · exact (firsts_sublist seen l).cons a
    · exact (firsts_sublist _ l).cons_cons a

/-- The first records of two lists: those of the first list, and those of the second one whose key the
first list does not have. -/
theorem firsts_append : ∀ (seen : List κ) (l l' : List α), firsts key seen (l ++ l') =
    firsts key seen l ++ firsts key (((firsts key seen l).map key).reverse ++ seen) l'
  | _, [], _ => rfl
  | seen, a :: l, l' => by
    rw [List.cons_append, firsts, firsts]
    split_ifs with ha
    · exact firsts_append seen l l'
    · rw [firsts_append, List.cons_append, List.map_cons, List.reverse_cons, List.append_assoc]
      rfl

/-- The keys of the first records are those of the list. -/
theorem mem_map_firsts {k : κ} : k ∈ (firsts key [] l).map key ↔ k ∈ l.map key := by
  simp only [List.mem_map]
  constructor
  · rintro ⟨a, ha, rfl⟩
    exact ⟨a, (mem_of_mem_firsts ha).1, rfl⟩
  · rintro ⟨a, ha, rfl⟩
    exact exists_mem_firsts ha List.not_mem_nil

theorem firsts_map {β : Type*} (f : β → α) : ∀ (seen : List κ) (l : List β),
    firsts key seen (l.map f) = (firsts (fun b => key (f b)) seen l).map f
  | _, [] => rfl
  | seen, b :: l => by
    rw [List.map_cons, firsts, firsts]
    split_ifs
    · exact firsts_map f seen l
    · rw [List.map_cons, firsts_map f]

/-- Only which records share a key matters. -/
theorem firsts_congr {κ' : Type*} [DecidableEq κ'] {key' : α → κ'}
    (h : ∀ a b, key a = key b ↔ key' a = key' b) :
    ∀ seen l : List α, firsts key (seen.map key) l = firsts key' (seen.map key') l
  | _, [] => rfl
  | seen, a :: l => by
    have hmem : key a ∈ seen.map key ↔ key' a ∈ seen.map key' := by
      simp only [List.mem_map, h]
    have ih := firsts_congr h (a :: seen) l
    rw [List.map_cons, List.map_cons] at ih
    rw [firsts, firsts]
    by_cases ha : key a ∈ seen.map key
    · rw [if_pos ha, if_pos (hmem.mp ha), firsts_congr h seen l]
    · rw [if_neg ha, if_neg (mt hmem.mpr ha), ih]

/-- Only the keys of the list need to be looked for. -/
theorem firsts_seen_congr : ∀ {seen seen' : List κ} {l : List α},
    (∀ a ∈ l, key a ∈ seen ↔ key a ∈ seen') → firsts key seen l = firsts key seen' l
  | _, _, [], _ => rfl
  | seen, seen', a :: l, h => by
    have hl : ∀ b ∈ l, key b ∈ seen ↔ key b ∈ seen' := fun b hb => h b (List.mem_cons_of_mem a hb)
    have hcons : ∀ b ∈ l, key b ∈ key a :: seen ↔ key b ∈ key a :: seen' := fun b hb => by
      rw [List.mem_cons, List.mem_cons, hl b hb]
    rw [firsts, firsts]
    by_cases ha : key a ∈ seen
    · rw [if_pos ha, if_pos ((h a List.mem_cons_self).mp ha), firsts_seen_congr hl]
    · rw [if_neg ha, if_neg (mt (h a List.mem_cons_self).mpr ha), firsts_seen_congr hcons]

/-- Records are chosen by their key before the first ones are taken, or after it. -/
theorem filter_firsts {q : α → Bool} (h : ∀ a b, key a = key b → q a = q b) :
    ∀ (seen : List κ) (l : List α), (firsts key seen l).filter q = firsts key seen (l.filter q)
  | _, [] => rfl
  | seen, a :: l => by
    rw [firsts]
    by_cases hq : q a = true
    · rw [List.filter_cons_of_pos hq, firsts]
      split_ifs
      · exact filter_firsts h seen l
      · rw [List.filter_cons_of_pos hq, filter_firsts h]
    · rw [List.filter_cons_of_neg hq]
      split_ifs
      · exact filter_firsts h seen l
      · rw [List.filter_cons_of_neg hq, filter_firsts h]
        -- no record that is chosen has the key
        refine firsts_seen_congr fun b hb => ?_
        have hb := (List.mem_filter.mp hb).2
        rw [List.mem_cons, or_iff_right fun heq => hq (h b a heq ▸ hb)]

/-- **In a sorted list a record is first if none of its key comes before it.** -/
theorem not_lt_of_mem_firsts : ∀ {seen : List κ} {l : List α}, l.Pairwise lt →
    (∀ x y, lt x y → ¬ lt y x) → a ∈ firsts key seen l → b ∈ l → key b = key a → ¬ lt b a
  | _, [], _, _, h, _, _ => by cases h
  | seen, c :: l, hsorted, hasymm, ha, hb, hkey => by
    obtain ⟨hc, hl⟩ := List.pairwise_cons.mp hsorted
    have hirrefl : ∀ x, ¬ lt x x := fun x hx => hasymm x x hx hx
    rw [firsts] at ha
    split_ifs at ha with hseen
    · rcases List.mem_cons.mp hb with rfl | hb
      · exact absurd (hkey ▸ hseen) (mem_of_mem_firsts ha).2
      · exact not_lt_of_mem_firsts hl hasymm ha hb hkey
    · rcases List.mem_cons.mp ha with rfl | ha
      · rcases List.mem_cons.mp hb with rfl | hb
        exacts [hirrefl b, hasymm _ _ (hc b hb)]
      · rcases List.mem_cons.mp hb with rfl | hb
        · exact absurd (hkey ▸ List.mem_cons_self) (mem_of_mem_firsts ha).2
        · exact not_lt_of_mem_firsts hl hasymm ha hb hkey

/-- **The first records of a sorted list** are those with none of their key before them. -/
theorem mem_firsts_iff (hsorted : l.Pairwise lt) (hasymm : ∀ x y, lt x y → ¬ lt y x)
    (htotal : ∀ a ∈ l, ∀ b ∈ l, key a = key b → a = b ∨ lt a b ∨ lt b a) :
    a ∈ firsts key [] l ↔ a ∈ l ∧ ∀ b ∈ l, key b = key a → ¬ lt b a := by
  refine ⟨fun ha => ⟨(mem_of_mem_firsts ha).1, fun b hb hkey => ?_⟩, fun ⟨ha, hfirst⟩ => ?_⟩
  · exact not_lt_of_mem_firsts hsorted hasymm ha hb hkey
  · obtain ⟨b, hb, hkey⟩ : ∃ b ∈ firsts key [] l, key b = key a :=
      exists_mem_firsts ha List.not_mem_nil
    have hbl := (mem_of_mem_firsts hb).1
    have hnot := not_lt_of_mem_firsts hsorted hasymm hb ha hkey.symm
    rcases htotal a ha b hbl hkey.symm with rfl | hlt | hlt
    exacts [hb, absurd hlt hnot, absurd hlt (hfirst b hbl hkey)]

/-! ### The loop -/

/-- A loop body that looks at the elements `sel` selects and records what they hold unless their key
was seen. -/
structure Records {β : Type*} (sel : α → Option β) (key : β → κ) (value : β → List φ)
    (record : σ → α → σ) (seen : σ → List κ) (found : σ → List φ) : Prop where
  skip : ∀ s a, sel a = none → seen (record s a) = seen s ∧ found (record s a) = found s
  old : ∀ s a b, sel a = some b → key b ∈ seen s →
    seen (record s a) = seen s ∧ found (record s a) = found s
  new : ∀ s a b, sel a = some b → key b ∉ seen s →
    seen (record s a) = key b :: seen s ∧ found (record s a) = found s ++ value b

variable {β : Type*} {record : σ → α → σ} {seenOf : σ → List κ} {found : σ → List φ}

/-- **The loop finds what the first record of each key holds.** -/
theorem Records.found_foldl {sel : α → Option β} {key : β → κ} {value : β → List φ}
    (h : Records sel key value record seenOf found) : ∀ (l : List α) (s : σ),
    found (l.foldl record s) =
      found s ++ (firsts key (seenOf s) (l.filterMap sel)).flatMap value
  | [], s => (List.append_nil _).symm
  | a :: l, s => by
    rw [List.foldl_cons, h.found_foldl l, List.filterMap_cons]
    cases hsel : sel a with
    | none =>
      obtain ⟨hseen, hfound⟩ := h.skip s a hsel
      rw [hseen, hfound]
    | some b =>
      rw [firsts]
      split_ifs with hmem
      · obtain ⟨hseen, hfound⟩ := h.old s a b hsel hmem
        rw [hseen, hfound]
      · obtain ⟨hseen, hfound⟩ := h.new s a b hsel hmem
        rw [hseen, hfound, List.append_assoc, List.flatMap_cons]

/-- **A loop that skips what it has seen** runs over the first records alone. -/
theorem foldl_firsts (hold : ∀ s a, key a ∈ seenOf s → record s a = s)
    (hseen : ∀ s a, key a ∉ seenOf s → seenOf (record s a) = key a :: seenOf s) :
    ∀ (l : List α) (s : σ), l.foldl record s = (firsts key (seenOf s) l).foldl record s
  | [], _ => rfl
  | a :: l, s => by
    rw [List.foldl_cons, foldl_firsts hold hseen l, firsts]
    split_ifs with hmem
    · rw [hold s a hmem]
    · rw [hseen s a hmem, List.foldl_cons]

/-- **A loop body that records every element** unless its key was seen finds the first of each key. -/
theorem found_foldl {value : α → φ} (hold : ∀ s a, key a ∈ seenOf s → record s a = s)
    (hseen : ∀ s a, key a ∉ seenOf s → seenOf (record s a) = key a :: seenOf s)
    (hfound : ∀ s a, key a ∉ seenOf s → found (record s a) = found s ++ [value a]) (l : List α)
    (s : σ) : found (l.foldl record s) = found s ++ (firsts key (seenOf s) l).map value := by
  have hrecords : Records some key (fun a => [value a]) record seenOf found :=
    { skip := fun _ _ h => absurd h (Option.some_ne_none _)
      old := fun s a b h hmem => by
        obtain rfl := Option.some.inj h
        rw [hold s a hmem]
        exact ⟨rfl, rfl⟩
      new := fun s a b h hmem => by
        obtain rfl := Option.some.inj h
        exact ⟨hseen s a hmem, hfound s a hmem⟩ }
  rw [hrecords.found_foldl, List.filterMap_some, List.map_eq_flatMap]

theorem found_foldl_of_nil {value : α → φ} (hold : ∀ s a, key a ∈ seenOf s → record s a = s)
    (hseen : ∀ s a, key a ∉ seenOf s → seenOf (record s a) = key a :: seenOf s)
    (hfound : ∀ s a, key a ∉ seenOf s → found (record s a) = found s ++ [value a]) (l : List α)
    {s : σ} (hs : found s = []) (hnone : seenOf s = []) :
    found (l.foldl record s) = (firsts key [] l).map value := by
  rw [found_foldl hold hseen hfound, hs, hnone, List.nil_append]

/-! ### Two loops -/

/-- **Two lists of first records give the same values** exactly when what one has first and the other
does not have at all is found by the other elsewhere, and what both have first of one key gives one
value. -/
theorem sameFound_iff {val : α → φ} (hval : ∀ a b, val a = val b → key a = key b) :
    (∀ v, v ∈ (firsts key [] l).map val ↔ v ∈ (firsts key [] l').map val) ↔
      (∀ a ∈ firsts key [] l, a ∉ l' → val a ∈ (firsts key [] l').map val) ∧
      (∀ a ∈ firsts key [] l', a ∉ l → val a ∈ (firsts key [] l).map val) ∧
      ∀ a ∈ firsts key [] l, a ∈ l' → ∀ b ∈ firsts key [] l', b ∈ l → key a = key b →
        val a = val b := by
  constructor
  · intro h
    refine ⟨fun a ha _ => (h _).mp (List.mem_map_of_mem ha),
      fun a ha _ => (h _).mpr (List.mem_map_of_mem ha), fun a ha _ b hb _ hkey => ?_⟩
    obtain ⟨c, hc, hca⟩ := List.mem_map.mp ((h _).mp (List.mem_map_of_mem ha))
    rw [← hca, eq_of_key_eq hc hb ((hval c a hca).trans hkey)]
  · -- A first record that both lists have: the first record of its key in the other list is the
    -- same value, or it is not in this list, and then this list finds its value at the same key.
    have half : ∀ {l l' : List α},
        (∀ a ∈ firsts key [] l, a ∉ l' → val a ∈ (firsts key [] l').map val) →
        (∀ a ∈ firsts key [] l', a ∉ l → val a ∈ (firsts key [] l).map val) →
        (∀ a ∈ firsts key [] l, a ∈ l' → ∀ b ∈ firsts key [] l', b ∈ l → key a = key b →
          val a = val b) →
        ∀ v, v ∈ (firsts key [] l).map val → v ∈ (firsts key [] l').map val := by
      intro l l' hleft hright hboth v hv
      obtain ⟨a, ha, rfl⟩ := List.mem_map.mp hv
      by_cases hmem : a ∈ l'
      · obtain ⟨b, hb, hkey⟩ : ∃ b ∈ firsts key [] l', key b = key a :=
          exists_mem_firsts hmem List.not_mem_nil
        by_cases hbl : b ∈ l
        · rw [hboth a ha hmem b hb hbl hkey.symm]
          exact List.mem_map_of_mem hb
        · obtain ⟨c, hc, hcb⟩ := List.mem_map.mp (hright b hb hbl)
          rw [eq_of_key_eq ha hc (hkey.symm.trans (hval c b hcb).symm), hcb]
          exact List.mem_map_of_mem hb
      · exact hleft a ha hmem
    rintro ⟨hleft, hright, hboth⟩ v
    refine ⟨half hleft hright hboth v, half hright hleft (fun a ha hal b hb hbl hkey => ?_) v⟩
    exact (hboth b hb hbl a ha hal hkey.symm).symm

/-! ### The order of a list -/

/-- One element comes before the other, or is the other. -/
def Listed (l : List φ) (x y : φ) : Prop :=
  ∃ i j : ℕ, i ≤ j ∧ l[i]? = some x ∧ l[j]? = some y

/-- **Lists without duplicates are told from their order.** -/
theorem eq_of_listed {l l' : List φ} (hl : l.Nodup) (hl' : l'.Nodup)
    (h : ∀ x y, Listed l x y ↔ Listed l' x y) : l = l' := by
  have hmem : ∀ {m : List φ} {x}, x ∈ m ↔ Listed m x x := by
    intro m x
    rw [List.mem_iff_getElem?]
    exact ⟨fun ⟨i, hi⟩ => ⟨i, i, le_rfl, hi, hi⟩, fun ⟨i, _, _, hi, _⟩ => ⟨i, hi⟩⟩
  have hsorted : ∀ m : List φ, m.Pairwise (Listed m) := fun m =>
    List.pairwise_iff_getElem.mpr fun i j hi hj hij =>
      ⟨i, j, hij.le, List.getElem?_eq_getElem hi, List.getElem?_eq_getElem hj⟩
  have hperm : l.Perm l' := (List.perm_ext_iff_of_nodup hl hl').mpr fun x => by
    rw [hmem, hmem, h]
  refine hperm.eq_of_pairwise (fun x y _ _ hxy hyx => ?_) (hsorted l)
    ((hsorted l').imp fun {x y} hxy => (h x y).mpr hxy)
  obtain ⟨i, j, hij, hi, hj⟩ := hxy
  obtain ⟨k, m, hkm, hk, hm⟩ := hyx
  have hlt : ∀ {a : ℕ} {z : φ}, l[a]? = some z → a < l.length := fun h =>
    (List.getElem?_eq_some_iff.mp h).1
  have hjk : j = k := (List.getElem?_inj (hlt hj) hl).mp (hj.trans hk.symm)
  have him : i = m := (List.getElem?_inj (hlt hi) hl).mp (hi.trans hm.symm)
  obtain rfl : i = j := by omega
  exact Option.some.inj (hi.symm.trans hj)

/-- The order of what a sorted list gives is that of the list. -/
theorem listed_map_iff {f : α → φ} {x y : φ} (hl : l.Pairwise lt)
    (hasymm : ∀ x y, lt x y → ¬ lt y x) :
    Listed (l.map f) x y ↔ ∃ a ∈ l, ∃ b ∈ l, (a = b ∨ lt a b) ∧ f a = x ∧ f b = y := by
  have hget := List.pairwise_iff_getElem.mp hl
  unfold Listed
  simp only [List.getElem?_map, Option.map_eq_some_iff]
  constructor
  · rintro ⟨i, j, hij, ⟨a, ha, hx⟩, b, hb, hy⟩
    refine ⟨a, List.mem_of_getElem? ha, b, List.mem_of_getElem? hb, ?_, hx, hy⟩
    rcases Nat.eq_or_lt_of_le hij with rfl | hlt
    · exact Or.inl (Option.some.inj (ha.symm.trans hb))
    · obtain ⟨hi, rfl⟩ := List.getElem?_eq_some_iff.mp ha
      obtain ⟨hj, rfl⟩ := List.getElem?_eq_some_iff.mp hb
      exact Or.inr (hget i j hi hj hlt)
  · rintro ⟨a, ha, b, hb, hab, hx, hy⟩
    obtain ⟨i, hi, rfl⟩ := List.getElem_of_mem ha
    obtain ⟨j, hj, rfl⟩ := List.getElem_of_mem hb
    rcases hab with heq | hlt
    · exact ⟨i, i, le_rfl, ⟨_, List.getElem?_eq_getElem hi, hx⟩, _, List.getElem?_eq_getElem hi,
        (congrArg f heq).trans hy⟩
    · have hle : i ≤ j := not_lt.mp fun hji => hasymm _ _ (hget j i hj hi hji) hlt
      exact ⟨i, j, hle, ⟨_, List.getElem?_eq_getElem hi, hx⟩, _, List.getElem?_eq_getElem hj, hy⟩

end VantaCore.Lib.FirstBy
