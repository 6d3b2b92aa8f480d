import VantaCore.Core.DumpHandle
import VantaCore.Lib.FirstBy
import VantaCore.Lib.Search

/-! # Scanning a dump for text

The loop the Cisco extractors share: the dump is read in chunks, each chunk is searched for one pattern
after the other, and behind an occurrence a window of the chunk is parsed. The loop records its hits in
the order of the chunks, the passes and the positions (`scanText_eq_foldl`, `sorted_hits`). -/

namespace VantaCore.Extractors.Cisco.TextScan

open VantaCore.Core.DumpHandle VantaCore.Lib.Chunks VantaCore.Lib.Search

/-- A search for a pattern: at an occurrence the window of the chunk that starts there is parsed. -/
structure Pass (ρ : Type*) where
  pattern : List UInt8
  window : ℕ
  parse : List UInt8 → Option ρ
  pattern_ne_nil : pattern ≠ []
  length_le_window : pattern.length ≤ window

/-- `_CHUNK_SIZE` -/
def chunkSize : ℕ := 65536

/-- `_MAX_HOPS` -/
def maxHops : ℕ := 500000

section Loop

variable {ρ σ : Type*} (record : ℕ → ρ → σ → σ)

/-- The loop over the occurrences in a chunk. -/
def scanPass (offset : ℕ) (chunk : List UInt8) (s : σ) (p : Pass ρ) : σ :=
  (findAll p.pattern chunk).foldl (fun s idx =>
    match p.parse (chunkAt p.window chunk idx) with
    | none => s
    | some r => record (offset + idx) r s) s

/-- The body of the loop over the chunks. -/
def scanChunk (passes : List (Pass ρ)) (offset : ℕ) (chunk : List UInt8) (s : σ) : σ :=
  passes.foldl (scanPass record offset chunk) s

/-- The loop over the chunks, which stops at the hop cap. -/
def scanText (n : ℕ) (passes : List (Pass ρ)) (dump : Dump) (s : σ) : σ :=
  (scan n (fun t : σ × ℕ => maxHops ≤ t.2)
    (fun offset chunk t => (scanChunk record passes offset chunk t.1, t.2 + 1)) dump (s, 0)).1

end Loop

/-! ### Hits -/

/-- An occurrence that was parsed: the index of its pass, its position and what was read. -/
@[ext]
structure Hit (ρ : Type*) where
  pass : ℕ
  pos : ℕ
  value : ρ
deriving DecidableEq

variable {ρ σ : Type*} {record : ℕ → ρ → σ → σ} {passes : List (Pass ρ)} {dump : Dump} {n : ℕ}
  {p : Pass ρ} {h : Hit ρ} {pos : ℕ}

/-- The hits of a chunk. -/
def chunkHits (passes : List (Pass ρ)) (offset : ℕ) (chunk : List UInt8) : List (Hit ρ) :=
  passes.zipIdx.flatMap fun pk => (findAll pk.1.pattern chunk).filterMap fun idx =>
    (pk.1.parse (chunkAt pk.1.window chunk idx)).map (Hit.mk pk.2 (offset + idx))

/-- The hits of a scan, in the order the loop comes to them. -/
def hits (n : ℕ) (passes : List (Pass ρ)) (dump : Dump) : List (Hit ρ) :=
  (steps dump.length n).flatMap fun c => chunkHits passes c (chunkAt n dump c)

theorem scanChunk_eq_foldl (offset : ℕ) (chunk : List UInt8) (s : σ) :
    scanChunk record passes offset chunk s =
      (chunkHits passes offset chunk).foldl (fun s h => record h.pos h.value s) s := by
  have hpasses : passes = passes.zipIdx.map Prod.fst := (List.zipIdx_map_fst 0 passes).symm
  unfold scanChunk chunkHits
  rw [List.foldl_flatMap]
  conv_lhs => rw [hpasses, List.foldl_map]
  congr 1
  funext s pk
  unfold scanPass
  rw [List.foldl_filterMap]
  congr 1
  funext s idx
  cases pk.1.parse (chunkAt pk.1.window chunk idx) <;> rfl

/-- The bytes the loop comes to before the hop cap. -/
def scanned (n : ℕ) (dump : Dump) : Dump := dump.take (maxHops * n)

theorem foldl_scanChunk (l : List ℕ) (chunks : ℕ → List UInt8) : ∀ t : σ × ℕ,
    (l.foldl (fun t c => (scanChunk record passes c (chunks c) t.1, t.2 + 1)) t).1 =
      (l.flatMap fun c => chunkHits passes c (chunks c)).foldl
        (fun s h => record h.pos h.value s) t.1 := by
  induction l with
  | nil => exact fun _ => rfl
  | cons c l ih =>
    intro t
    rw [List.foldl_cons, ih, List.flatMap_cons, List.foldl_append, scanChunk_eq_foldl]

/-- **The loop records its hits in order.** -/
theorem scanText_eq_foldl_scanned (hn : 0 < n) (s : σ) :
    scanText record n passes dump s =
      (hits n passes (scanned n dump)).foldl (fun s h => record h.pos h.value s) s := by
  unfold scanText hits scanned
  have hloop := @scan_eq_foldl_take _ (σ × ℕ) n dump (fun t => decide (maxHops ≤ t.2))
    (fun offset chunk t => (scanChunk record passes offset chunk t.1, t.2 + 1)) hn Prod.snd maxHops
    (fun _ => decide_eq_true_iff) (fun _ _ _ => rfl) (s, 0) rfl
  rw [hloop]
  exact foldl_scanChunk _ _ _

theorem scanText_eq_foldl (hlen : dump.length ≤ maxHops * n) (s : σ) :
    scanText record n passes dump s =
      (hits n passes dump).foldl (fun s h => record h.pos h.value s) s := by
  rcases Nat.eq_zero_or_pos n with rfl | hn
  · have hnil : dump = [] := List.length_eq_zero_iff.mp (Nat.le_zero.mp hlen)
    subst hnil
    rfl
  · rw [scanText_eq_foldl_scanned hn, scanned, List.take_of_length_le hlen]

/-- What the scan reads at a position. -/
def hitAt (n : ℕ) (p : Pass ρ) (dump : Dump) (pos : ℕ) : Option ρ :=
  let chunk := chunkAt n dump (pos / n * n)
  if pos % n ∈ findAll p.pattern chunk then p.parse (chunkAt p.window chunk (pos % n)) else none

theorem lt_length_of_mem_findAll {chunk : List UInt8} {idx : ℕ}
    (h : idx ∈ findAll p.pattern chunk) : idx < chunk.length := by
  have hle := (occursAt_of_mem_findAll p.pattern_ne_nil h).le p.pattern_ne_nil
  have hpos := List.length_pos_of_ne_nil p.pattern_ne_nil
  omega

/-- **The hits are what the scan reads at the positions.** -/
theorem mem_hits_iff (hn : 0 < n) : h ∈ hits n passes dump ↔
    ∃ p, passes[h.pass]? = some p ∧ hitAt n p dump h.pos = some h.value := by
  unfold hits chunkHits hitAt
  simp only [List.mem_flatMap, List.mem_filterMap, mem_steps_iff hn, Prod.exists,
    List.mem_zipIdx_iff_getElem?, Option.map_eq_some_iff]
  constructor
  · rintro ⟨c, ⟨hc, -⟩, p, k, hp, idx, hidx, r, hr, rfl⟩
    have hlt := lt_length_of_mem_findAll hidx
    have hlen : (chunkAt n dump c).length = min n (dump.length - c) := length_chunkAt
    obtain ⟨hdiv, hmod⟩ := div_mul_of_add (a := idx) hc (by omega)
    refine ⟨p, hp, ?_⟩
    rw [hdiv, hmod, if_pos hidx]
    exact hr
  · rintro ⟨p, hp, hread⟩
    split_ifs at hread with hidx
    have hlt := lt_length_of_mem_findAll hidx
    have hlen : (chunkAt n dump (h.pos / n * n)).length = min n (dump.length - h.pos / n * n) :=
      length_chunkAt
    refine ⟨h.pos / n * n, ⟨Nat.dvd_mul_left n _, by omega⟩, p, h.pass, hp, h.pos % n, hidx,
      h.value, hread, ?_⟩
    rw [Nat.div_add_mod']

theorem pos_of_mem_hits (hh : h ∈ hits n passes dump) : 0 < n := by
  obtain ⟨c, hc, -⟩ := List.mem_flatMap.mp hh
  refine Nat.pos_of_ne_zero fun hzero => ?_
  rw [hzero, steps, Nat.div_zero] at hc
  exact List.not_mem_nil hc

/-- A pass reads one thing at a position. -/
theorem eq_of_mem_hits {h' : Hit ρ} (hh : h ∈ hits n passes dump) (hh' : h' ∈ hits n passes dump)
    (hpass : h.pass = h'.pass) (hpos : h.pos = h'.pos) : h = h' := by
  have hn := pos_of_mem_hits hh
  obtain ⟨p, hp, hread⟩ := (mem_hits_iff hn).mp hh
  obtain ⟨p', hp', hread'⟩ := (mem_hits_iff hn).mp hh'
  rw [hpass, hp', Option.some_inj] at hp
  rw [hpos, ← hp, hread', Option.some_inj] at hread
  exact Hit.ext hpass hpos hread.symm

/-- **A hit is parsed from the window of its chunk** at an occurrence of its pattern. -/
theorem parse_of_mem_hits (hh : h ∈ hits n passes dump) :
    ∃ p, passes[h.pass]? = some p ∧
      OccursAt p.pattern (chunkAt n dump (h.pos / n * n)) (h.pos % n) ∧
      p.parse (chunkAt p.window (chunkAt n dump (h.pos / n * n)) (h.pos % n)) = some h.value := by
  obtain ⟨p, hp, hread⟩ := (mem_hits_iff (pos_of_mem_hits hh)).mp hh
  unfold hitAt at hread
  dsimp only at hread
  split_ifs at hread with hmem
  exact ⟨p, hp, occursAt_of_mem_findAll p.pattern_ne_nil hmem, hread⟩

/-- What is parsed begins with the pattern. -/
theorem exists_parse_of_mem_hits (hh : h ∈ hits n passes dump) :
    ∃ p rest, passes[h.pass]? = some p ∧ OccursAt p.pattern dump h.pos ∧
      p.parse (p.pattern ++ rest) = some h.value := by
  obtain ⟨p, hp, hocc, hparse⟩ := parse_of_mem_hits hh
  have hdump := (occursAt_chunkAt (hocc.le p.pattern_ne_nil)).mp hocc
  rw [Nat.div_add_mod'] at hdump
  obtain ⟨rest, hrest⟩ := hocc.exists_chunkAt_eq p.length_le_window
  exact ⟨p, rest, hp, hdump, hrest ▸ hparse⟩

theorem pos_lt_of_mem_hits (hh : h ∈ hits n passes dump) : h.pos < dump.length := by
  obtain ⟨p, -, -, hocc, -⟩ := exists_parse_of_mem_hits hh
  have hle := hocc.le p.pattern_ne_nil
  have hpos := List.length_pos_of_ne_nil p.pattern_ne_nil
  omega

/-- The order of the loop. -/
def Before (n : ℕ) (h h' : Hit ρ) : Prop :=
  h.pos / n < h'.pos / n ∨
    h.pos / n = h'.pos / n ∧ (h.pass < h'.pass ∨ h.pass = h'.pass ∧ h.pos < h'.pos)

theorem Before.asymm (x y : Hit ρ) (h : Before n x y) : ¬ Before n y x := by
  unfold Before at *
  omega

theorem sorted_chunkHits {c : ℕ} {chunk : List UInt8} (hc : n ∣ c) (hlen : chunk.length ≤ n) :
    (chunkHits passes c chunk).Pairwise (Before n) := by
  have hdiv : ∀ {p : Pass ρ} {idx}, idx ∈ findAll p.pattern chunk → (c + idx) / n * n = c :=
    fun hidx => (div_mul_of_add hc ((lt_length_of_mem_findAll hidx).trans_le hlen)).1
  have hsame : ∀ {p q : Pass ρ} {a b}, a ∈ findAll p.pattern chunk → b ∈ findAll q.pattern chunk →
      (c + a) / n = (c + b) / n := fun {p q a b} ha hb => by
    have hn : 0 < n := (Nat.zero_le a).trans_lt ((lt_length_of_mem_findAll ha).trans_le hlen)
    exact Nat.eq_of_mul_eq_mul_right hn ((hdiv ha).trans (hdiv hb).symm)
  refine List.pairwise_flatMap.mpr ⟨fun pk _ => ?_, ?_⟩
  · refine List.pairwise_filterMap.mpr ?_
    refine (sorted_findAll pk.1.pattern_ne_nil).imp_of_mem fun {a b} ha hb hlt x hx y hy => ?_
    obtain ⟨r, -, rfl⟩ := Option.map_eq_some_iff.mp hx
    obtain ⟨r', -, rfl⟩ := Option.map_eq_some_iff.mp hy
    exact Or.inr ⟨hsame ha hb, Or.inr ⟨rfl, Nat.add_lt_add_left hlt c⟩⟩
  · have hidx : (passes.zipIdx).Pairwise fun pk qk => pk.2 < qk.2 := by
      have := List.pairwise_lt_range' (s := 0) (n := passes.length)
      rw [← List.zipIdx_map_snd 0 passes] at this
      exact List.pairwise_map.mp this
    refine hidx.imp fun {pk qk} hlt x hx y hy => ?_
    obtain ⟨a, ha, hx⟩ := List.mem_filterMap.mp hx
    obtain ⟨b, hb, hy⟩ := List.mem_filterMap.mp hy
    obtain ⟨r, -, rfl⟩ := Option.map_eq_some_iff.mp hx
    obtain ⟨r', -, rfl⟩ := Option.map_eq_some_iff.mp hy
    exact Or.inr ⟨hsame ha hb, Or.inl hlt⟩

theorem div_of_mem_chunkHits {c : ℕ} {chunk : List UInt8} (hc : n ∣ c) (hlen : chunk.length ≤ n)
    (hh : h ∈ chunkHits passes c chunk) : h.pos / n * n = c := by
  obtain ⟨pk, -, hh⟩ := List.mem_flatMap.mp hh
  obtain ⟨idx, hidx, hh⟩ := List.mem_filterMap.mp hh
  obtain ⟨r, -, rfl⟩ := Option.map_eq_some_iff.mp hh
  exact (div_mul_of_add hc ((lt_length_of_mem_findAll hidx).trans_le hlen)).1

/-- **The loop comes to its hits in the order of chunk, pass and position.** -/
theorem sorted_hits (hn : 0 < n) : (hits n passes dump).Pairwise (Before n) := by
  have hlen : ∀ c, (chunkAt n dump c).length ≤ n := fun c => by
    rw [length_chunkAt]
    exact min_le_left _ _
  refine List.pairwise_flatMap.mpr ⟨fun c hc => ?_, ?_⟩
  · exact sorted_chunkHits ((mem_steps_iff hn).mp hc).1 (hlen c)
  · refine (sorted_steps hn).imp_of_mem fun {c d} hc hd hlt x hx y hy => Or.inl ?_
    have hx' := div_of_mem_chunkHits ((mem_steps_iff hn).mp hc).1 (hlen c) hx
    have hy' := div_of_mem_chunkHits ((mem_steps_iff hn).mp hd).1 (hlen d) hy
    refine Nat.lt_of_mul_lt_mul_right (a := n) ?_
    omega

end VantaCore.Extractors.Cisco.TextScan
