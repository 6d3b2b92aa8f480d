import VantaCore.Extractors.Linux.Modules
import VantaCore.Extractors.Linux.Network
import VantaCore.Extractors.Linux.Process

/-! # Is carving complete?

A structure is a window of the dump that passes the tests, at an aligned offset (`TaskAt`, `ModuleAt`,
`SocketAt`). The carving loops find it if its window ends before the end of its chunk: one that ends
with the chunk, at the end of the dump too, or crosses into the next one is lost (`complete_iff`). -/

namespace VantaCore.Extractors.Linux.Carving

open VantaCore.Core.DumpHandle VantaCore.Lib.Chunks VantaCore.Lib.PyText
open VantaCore.Extractors.Linux

/-! ### Structures -/

/-- The bytes at the offset satisfy the pid, state and comm tests. -/
def TaskAt (dump : Dump) (o : ℕ) : Prop :=
  8 ∣ o ∧ o + 0x700 ≤ dump.length ∧ (Process.carveTask dump o).isSome

/-- The bytes at the offset satisfy the name, base and size tests. -/
def ModuleAt (dump : Dump) (o : ℕ) : Prop :=
  8 ∣ o ∧ o + 0x200 ≤ dump.length ∧ (Modules.carveModule dump o).isSome

/-- The bytes at the offset satisfy the address and port tests. -/
def SocketAt (dump : Dump) (o : ℕ) : Prop :=
  4 ∣ o ∧ o + 0x4D0 ≤ dump.length ∧ (Network.carveSocket dump o).isSome

instance (dump : Dump) (o : ℕ) : Decidable (TaskAt dump o) := inferInstanceAs (Decidable (_ ∧ _))
instance (dump : Dump) (o : ℕ) : Decidable (SocketAt dump o) := inferInstanceAs (Decidable (_ ∧ _))

/-- The loops record the offsets of the structures, and no others; the list walks before them have
found `processes` and `modules`. -/
structure Complete (dump : Dump) (processes : List Process.ProcessEntry) (seenPids : List ℤ)
    (modules : List Modules.ModuleEntry) (seenNames : List PyStr) : Prop where
  process : ∀ o, o ∈ (Process.carve dump processes seenPids).carveResults.map (·.physOffset) ↔
    TaskAt dump o
  modules : ∀ o, o ∈ (Modules.carve dump modules seenNames).carveResults.map (·.physOffset) ↔
    ModuleAt dump o
  network : ∀ o, o ∈ (Network.run dump).map (·.offset) ↔ SocketAt dump o

/-- No structure has a window that ends with its chunk or behind it. -/
structure NoneLost (dump : Dump) : Prop where
  process : ∀ o, TaskAt dump o → Inside 0x700 65536 dump o
  modules : ∀ o, ModuleAt dump o → Inside 0x200 65536 dump o
  network : ∀ o, SocketAt dump o → Inside 0x4D0 65536 dump o

/-! ### Offsets -/

section Offsets

variable {ρ τ : Type*} {dump : Dump} {size align : ℕ} {test : ℕ → Option τ} {mk : ℕ → τ → ρ}
  {offset : ρ → ℕ}

theorem Inside.le {o : ℕ} (h : Inside size 65536 dump o) : o + size ≤ dump.length := by
  unfold Inside at h
  rw [length_chunkAt] at h
  have := Nat.div_add_mod' o 65536
  omega

/-- The offsets that are recorded. -/
theorem mem_hits_iff (halign : 0 < align) (hdvd : align ∣ 65536)
    (hoffset : ∀ o t, offset (mk o t) = o) (o : ℕ) :
    o ∈ ((windows size align 65536 dump).filterMap fun o => (test o).map (mk o)).map offset ↔
      (align ∣ o ∧ Inside size 65536 dump o) ∧ (test o).isSome := by
  rw [← mem_windows_iff (by decide) halign hdvd]
  simp only [List.mem_map, List.mem_filterMap, Option.map_eq_some_iff]
  constructor
  · rintro ⟨-, ⟨o', ho', t, ht, rfl⟩, rfl⟩
    rw [hoffset, ht]
    exact ⟨ho', rfl⟩
  · rintro ⟨ho, h⟩
    obtain ⟨t, ht⟩ := Option.isSome_iff_exists.mp h
    exact ⟨mk o t, ⟨o, ho, t, ht, rfl⟩, hoffset o t⟩

/-- The offsets that are recorded are those of the structures if none is lost. -/
theorem recorded_iff {l : List ρ}
    (hl : l = (windows size align 65536 dump).filterMap fun o => (test o).map (mk o))
    (halign : 0 < align) (hdvd : align ∣ 65536) (hoffset : ∀ o t, offset (mk o t) = o) :
    (∀ o, o ∈ l.map offset ↔ align ∣ o ∧ o + size ≤ dump.length ∧ (test o).isSome) ↔
      ∀ o, (align ∣ o ∧ o + size ≤ dump.length ∧ (test o).isSome) → Inside size 65536 dump o := by
  refine forall_congr' fun o => ?_
  rw [hl, mem_hits_iff halign hdvd hoffset]
  constructor
  · exact fun h hspec => (h.mpr hspec).1.2
  · intro h
    constructor
    · rintro ⟨⟨ho, hin⟩, hsome⟩
      exact ⟨ho, Inside.le hin, hsome⟩
    · exact fun hspec => ⟨⟨hspec.1, h hspec⟩, hspec.2.2⟩

end Offsets

/-! ### The three loops -/

variable {dump : Dump}

theorem process_iff (hlen : dump.length ≤ 500000 * 65536)
    (processes : List Process.ProcessEntry) (seenPids : List ℤ) :
    (∀ o, o ∈ (Process.carve dump processes seenPids).carveResults.map (·.physOffset) ↔
      TaskAt dump o) ↔ ∀ o, TaskAt dump o → Inside 0x700 65536 dump o :=
  recorded_iff (Process.carve_eq hlen processes seenPids) (by decide) (by decide) fun _ _ => rfl

theorem modules_iff (hlen : dump.length ≤ 500000 * 65536)
    (modules : List Modules.ModuleEntry) (seenNames : List PyStr) :
    (∀ o, o ∈ (Modules.carve dump modules seenNames).carveResults.map (·.physOffset) ↔
      ModuleAt dump o) ↔ ∀ o, ModuleAt dump o → Inside 0x200 65536 dump o :=
  recorded_iff (Modules.carve_eq hlen modules seenNames) (by decide) (by decide) fun _ _ => rfl

/-- There are no more hits than sockets. -/
theorem length_hits_le (dump : Dump) :
    ((windows 0x4D0 4 65536 dump).filterMap fun o =>
      (Network.carveSocket dump o).map (Network.connection o)).length ≤
        ((List.range dump.length).filter (SocketAt dump ·)).length := by
  have hmem : ∀ o, o ∈ ((windows 0x4D0 4 65536 dump).filterMap fun o =>
      (Network.carveSocket dump o).map (Network.connection o)).map Network.Connection.offset ↔
        (4 ∣ o ∧ Inside 0x4D0 65536 dump o) ∧ (Network.carveSocket dump o).isSome :=
    mem_hits_iff (by decide) (by decide) fun _ _ => rfl
  have hsorted : (((windows 0x4D0 4 65536 dump).filterMap fun o =>
      (Network.carveSocket dump o).map (Network.connection o)).map
        Network.Connection.offset).Nodup := by
    rw [List.map_filterMap]
    refine List.Nodup.filterMap (fun o o' r hr hr' => ?_)
      ((sorted_windows (by decide) (by decide)).imp fun h => h.ne)
    simp only [Option.map_map, Option.mem_def, Option.map_eq_some_iff] at hr hr'
    obtain ⟨t, -, rfl⟩ := hr
    obtain ⟨t', -, h⟩ := hr'
    exact h.symm
  rw [← List.length_map Network.Connection.offset]
  refine (hsorted.subperm fun o ho => ?_).length_le
  obtain ⟨⟨ho, hin⟩, hsome⟩ := (hmem o).mp ho
  have hle := Inside.le hin
  refine List.mem_filter.mpr ⟨List.mem_range.mpr (by omega), decide_eq_true ⟨ho, hle, hsome⟩⟩

theorem network_iff (hhits : ((List.range dump.length).filter (SocketAt dump ·)).length ≤ 500000) :
    (∀ o, o ∈ (Network.run dump).map (·.offset) ↔ SocketAt dump o) ↔
      ∀ o, SocketAt dump o → Inside 0x4D0 65536 dump o :=
  recorded_iff (Network.run_eq ((length_hits_le dump).trans hhits)) (by decide) (by decide)
    fun _ _ => rfl

/-- **When carving is complete**: for images within the caps. -/
theorem complete_iff (dump : Dump) (processes : List Process.ProcessEntry) (seenPids : List ℤ)
    (modules : List Modules.ModuleEntry) (seenNames : List PyStr)
    (hlen : dump.length ≤ 500000 * 65536)
    (hhits : ((List.range dump.length).filter (SocketAt dump ·)).length ≤ 500000) :
    Complete dump processes seenPids modules seenNames ↔ NoneLost dump := by
  have hprocess := process_iff hlen processes seenPids
  have hmodules := modules_iff hlen modules seenNames
  have hnetwork := network_iff hhits
  constructor
  · exact fun h => ⟨hprocess.mp h.process, hmodules.mp h.modules, hnetwork.mp h.network⟩
  · exact fun h => ⟨hprocess.mpr h.process, hmodules.mpr h.modules, hnetwork.mpr h.network⟩

/-- An image with the task `init`, pid 1, and `n` more bytes behind the structure. -/
def taskImage (n : ℕ) : Dump :=
  List.replicate 0x558 0 ++ [1, 0, 0, 0, 1, 0, 0, 0] ++ List.replicate 0x118 0 ++
    [105, 110, 105, 116] ++ List.replicate (0x84 + n) 0

theorem length_taskImage (n : ℕ) : (taskImage n).length = 0x700 + n := by
  simp only [taskImage, List.length_append, List.length_replicate, List.length_cons,
    List.length_nil]
  omega

/-- A task with one more word behind it. -/
theorem complete_iff_taskImage :
    Complete (taskImage 8) [] [] [] [] ↔ NoneLost (taskImage 8) :=
  complete_iff (taskImage 8) [] [] [] [] (by rw [length_taskImage]; decide)
    ((List.length_filter_le _ _).trans (by rw [List.length_range, length_taskImage]; decide))

/-- A task that ends with the image is lost. -/
theorem not_complete : ¬ ∀ (dump : Dump) (processes : List Process.ProcessEntry)
    (seenPids : List ℤ) (modules : List Modules.ModuleEntry) (seenNames : List PyStr),
    dump.length ≤ 500000 * 65536 →
    ((List.range dump.length).filter (SocketAt dump ·)).length ≤ 500000 →
    Complete dump processes seenPids modules seenNames := by
  intro h
  have hlen := length_taskImage 0
  have hcaps : (taskImage 0).length ≤ 500000 * 65536 := by rw [hlen]; decide
  have hcomplete := h (taskImage 0) [] [] [] [] hcaps
    ((List.length_filter_le _ _).trans (by rw [List.length_range, hlen]; decide))
  have htask : TaskAt (taskImage 0) 0 := by decide +kernel
  have hinside := (process_iff hcaps [] []).mp hcomplete.process 0 htask
  unfold Inside at hinside
  rw [length_chunkAt, hlen] at hinside
  omega

end VantaCore.Extractors.Linux.Carving
