import VantaCore.Extractors.Linux.Report

/-! # Structures that are unlinked

A rootkit hides a task or a module by unlinking it: the link of the structure before it is set to where
its own leads, so that the ring is closed without it. On a memory with such a ring the walk reads all
structures of the ring (`walkedInfos_ring`), and those of the shorter one afterwards. The reports on
the two memories differ in the anomalies of the key that was unlinked: before there are none, and
afterwards all that was carved under it (`unlinked_task_flagged`, `unlinked_module_flagged`). -/

namespace VantaCore.Extractors.Linux.Unlinking

open VantaCore.Core.DumpHandle VantaCore.Lib VantaCore.Lib.LinkedPath VantaCore.Lib.PyText
open VantaCore.Extractors.Linux.Fields VantaCore.Extractors.Linux.ListWalk
open VantaCore.Extractors.Linux.Process VantaCore.Extractors.Linux.Modules
open VantaCore.Extractors.Linux.Report

variable {S ε κ : Type}

/-! ### Rings in a memory -/

/-- A backend whose answers do not depend on the calls before. -/
def fixed (kernelBase : Option ℕ) (mem : ℕ → ℕ → Option (List UInt8)) : Backend Unit where
  getKernelBase := return kernelBase
  readVirtual va n := return mem va n

/-- The structure at an address. -/
def structOf (w : Walker Unit S ε κ) (va : ℕ) : Option S := ((w.readStruct va).run ()).1

/-- Where the link of the structure at an address leads. -/
def linkOf (w : Walker Unit S ε κ) (va : ℕ) : Option ℕ := ((w.readNext va).run ()).1

/-- The walk starts at `head`, and the links lead from there through `l` and back. -/
structure Ring (w : Walker Unit S ε κ) (findStart : StateM Unit (Option ℕ)) (head : ℕ)
    (l : List ℕ) : Prop where
  found : (findStart.run ()).1 = some head
  valid : isValidKernelVa head
  leads : Leads (linkOf w) head l head
  nodup : (head :: l).Nodup
  le_cap : l.length < maxHops

variable {w w' : Walker Unit S ε κ} {findStart findStart' : StateM Unit (Option ℕ)} {head x : ℕ}
  {l pre post : List ℕ} {k : κ}

/-- **The walk reads the structures of the ring.** -/
theorem Ring.walkedInfos_eq (h : Ring w findStart head l) :
    walkedInfos w findStart () = (head :: l).filterMap (structOf w) := by
  have hleads : Leads (nextNode w) ((), head) (l.map (Prod.mk ())) ((), head) :=
    Leads.map (Prod.mk ()) (fun _ => rfl) h.leads
  have haddr : ((((), head) :: l.map (Prod.mk ())).map Prod.snd) = head :: l := by
    rw [List.map_cons, List.map_map]
    exact congrArg (head :: ·) (List.map_id l)
  have hpath : cutPath Prod.snd (nextNode w) maxHops [] (firstNode head ()) =
      ((), head) :: l.map (Prod.mk ()) := by
    rw [firstNode, if_pos h.valid]
    refine cutPath_ring hleads (by rw [haddr]; exact h.nodup) ?_
    rw [List.length_map]
    exact h.le_cap
  have hcons : ((), head) :: l.map (Prod.mk ()) = (head :: l).map (Prod.mk ()) := rfl
  unfold walkedInfos
  dsimp only
  rw [h.found]
  dsimp only
  rw [hpath, hcons, List.filterMap_map]
  rfl

/-- The structure before `x` on a ring. -/
abbrev before (head : ℕ) (pre : List ℕ) : ℕ := (head :: pre).getLast (List.cons_ne_nil head pre)

/-- The link of the structure before the one at `x` leads to where that one's led; the structures of the
rest of the ring, and their links, are as before. -/
structure Unlinks (w w' : Walker Unit S ε κ) (head : ℕ) (pre : List ℕ) (x : ℕ) (post : List ℕ) :
    Prop where
  link : linkOf w' (before head pre) = linkOf w x
  others : ∀ va ∈ head :: (pre ++ post), va ≠ before head pre → linkOf w' va = linkOf w va
  structs : ∀ va ∈ head :: (pre ++ post), structOf w' va = structOf w va

/-- **The ring is closed without the structure.** -/
theorem Ring.unlink (h : Ring w findStart head (pre ++ x :: post))
    (hun : Unlinks w w' head pre x post) (hfound : (findStart'.run ()).1 = some head) :
    Ring w' findStart' head (pre ++ post) where
  found := hfound
  valid := h.valid
  leads := h.leads.unlink h.nodup hun.link hun.others
  nodup := h.nodup.sublist
    (((List.sublist_cons_self x post).append_left pre).cons_cons head)
  le_cap := by
    have := h.le_cap
    rw [List.length_append, List.length_cons] at this
    rw [List.length_append]
    omega

/-- The structures that are read are the same, but for the one that was unlinked. -/
theorem Ring.walkedInfos_unlink (h : Ring w findStart head (pre ++ x :: post))
    (hun : Unlinks w w' head pre x post) (hfound : (findStart'.run ()).1 = some head) :
    walkedInfos w' findStart' () = (head :: (pre ++ post)).filterMap (structOf w) := by
  rw [(h.unlink hun hfound).walkedInfos_eq]
  exact List.filterMap_congr hun.structs

/-- No structure of the ring but the one at `x` has its key. -/
def OnlyKey (w : Walker Unit S ε κ) (head x : ℕ) (pre post : List ℕ) (k : κ) : Prop :=
  (∃ info, structOf w x = some info ∧ w.key info = k) ∧
    ∀ va ∈ head :: (pre ++ post), ∀ info, structOf w va = some info → w.key info ≠ k

/-- The keys that are walked before and after. -/
theorem Ring.mem_keys_unlink (h : Ring w findStart head (pre ++ x :: post))
    (hun : Unlinks w w' head pre x post) (hfound : (findStart'.run ()).1 = some head)
    (hkey : OnlyKey w head x pre post k) (k' : κ) :
    k' ∈ (walkedInfos w' findStart' ()).map w.key ↔
      k' ∈ (walkedInfos w findStart ()).map w.key ∧ k' ≠ k := by
  obtain ⟨⟨info₀, hx, hk⟩, hothers⟩ := hkey
  rw [h.walkedInfos_unlink hun hfound, h.walkedInfos_eq]
  simp only [List.mem_map, List.mem_filterMap]
  constructor
  · rintro ⟨info, ⟨va, hva, hinfo⟩, rfl⟩
    refine ⟨⟨info, ⟨va, ?_, hinfo⟩, rfl⟩, hothers va hva info hinfo⟩
    exact (((List.sublist_cons_self x post).append_left pre).cons_cons head).subset hva
  · rintro ⟨⟨info, ⟨va, hva, hinfo⟩, rfl⟩, hne⟩
    refine ⟨info, ⟨va, ?_, hinfo⟩, rfl⟩
    have hvax : va ≠ x := by
      rintro rfl
      obtain rfl := Option.some.inj (hx.symm.trans hinfo)
      exact hne hk
    simp only [List.mem_cons, List.mem_append] at hva ⊢
    tauto

/-- Between two memories a structure of the ring has been unlinked, the only one of its key. -/
def Hides (w w' : Walker Unit S ε κ) (findStart findStart' : StateM Unit (Option ℕ)) (k : κ) : Prop :=
  ∃ head pre x post, Ring w findStart head (pre ++ x :: post) ∧
    Unlinks w w' head pre x post ∧ (findStart'.run ()).1 = some head ∧
    OnlyKey w head x pre post k

theorem Hides.mem_keys (h : Hides w w' findStart findStart' k) :
    (∀ k', k' ∈ (walkedInfos w' findStart' ()).map w.key ↔
      k' ∈ (walkedInfos w findStart ()).map w.key ∧ k' ≠ k) ∧
    k ∈ (walkedInfos w findStart ()).map w.key := by
  obtain ⟨head, pre, x, post, hring, hun, hfound, hkey⟩ := h
  refine ⟨hring.mem_keys_unlink hun hfound hkey, ?_⟩
  obtain ⟨⟨info, hx, rfl⟩, -⟩ := hkey
  rw [hring.walkedInfos_eq]
  refine List.mem_map_of_mem (List.mem_filterMap.mpr ⟨x, ?_, hx⟩)
  exact List.mem_cons_of_mem head (List.mem_append_right pre List.mem_cons_self)

/-- What is carved under keys that were not walked: what was carved under the key that was unlinked comes
in addition. -/
theorem mem_filter_hidden {τ η : Type} {keys keys' : List κ} {k : κ} {hits : List τ} {hitKey : τ → κ}
    {mk : τ → η} {late late' hidden : τ → Bool} (h : ∀ k', k' ∈ keys' ↔ k' ∈ keys ∧ k' ≠ k)
    (hlate : ∀ t, late t = true ↔ hitKey t ∉ keys) (hlate' : ∀ t, late' t = true ↔ hitKey t ∉ keys')
    (hhidden : ∀ t, hidden t = true ↔ hitKey t = k) (a : η) :
    a ∈ (hits.filter late').map mk ↔
      a ∈ (hits.filter late).map mk ∨ a ∈ (hits.filter hidden).map mk := by
  simp only [List.mem_map, List.mem_filter, hlate, hlate', hhidden]
  constructor
  · rintro ⟨t, ⟨ht, hkeys⟩, rfl⟩
    rw [h, not_and, not_not] at hkeys
    by_cases hin : hitKey t ∈ keys
    · exact Or.inr ⟨t, ⟨ht, hkeys hin⟩, rfl⟩
    · exact Or.inl ⟨t, ⟨ht, hin⟩, rfl⟩
  · rintro (⟨t, ⟨ht, hkeys⟩, rfl⟩ | ⟨t, ⟨ht, rfl⟩, rfl⟩)
    · exact ⟨t, ⟨ht, fun hin => hkeys ((h _).mp hin).1⟩, rfl⟩
    · exact ⟨t, ⟨ht, fun hin => ((h _).mp hin).2 rfl⟩, rfl⟩

/-! ### The reports -/

variable {base base' : Option ℕ} {mem mem' : ℕ → ℕ → Option (List UInt8)} {dump dump' : Dump}

/-- **A task that is unlinked is flagged**: before there is no anomaly of its pid; afterwards the anomalies
are those from before and everything carved under its pid. -/
theorem unlinked_task_flagged {pid : ℤ}
    (hhides : Hides (ProcessRun.walker (fixed base mem)) (ProcessRun.walker (fixed base' mem'))
      (ProcessRun.findInitTaskVa (fixed base mem)) (ProcessRun.findInitTaskVa (fixed base' mem')) pid)
    (hcarved : carvedTasks dump' = carvedTasks dump) :
    ∃ r r', ProcessRun.run (fixed base mem) dump () = some r ∧
      ProcessRun.run (fixed base' mem') dump' () = some r' ∧
      (∀ a ∈ r.dkomAnomalies, a.pid ≠ pid) ∧
      ∀ a, a ∈ r'.dkomAnomalies ↔ a ∈ r.dkomAnomalies ∨
        a ∈ ((carvedTasks dump).filter fun hit => hit.2.pid = pid).map taskAnomaly := by
  obtain ⟨hkeys, hmem⟩ := hhides.mem_keys
  refine ⟨_, _, process_report _ dump (), process_report _ dump' (), fun a ha => ?_, fun a => ?_⟩
  · obtain ⟨hit, hhit, rfl⟩ := List.mem_map.mp ha
    have hnot := of_decide_eq_true (List.mem_filter.mp hhit).2
    rintro rfl
    exact hnot hmem
  · rw [hcarved]
    exact mem_filter_hidden hkeys (fun _ => decide_eq_true_iff) (fun _ => decide_eq_true_iff)
      (fun _ => decide_eq_true_iff) a

/-- **A module that is unlinked is flagged** in the same way, by its name. -/
theorem unlinked_module_flagged {name : PyStr}
    (hhides : Hides (ModulesRun.walker (fixed base mem)) (ModulesRun.walker (fixed base' mem'))
      (ModulesRun.findHeadModuleVa (fixed base mem)) (ModulesRun.findHeadModuleVa (fixed base' mem'))
      name)
    (hcarved : carvedModules dump' = carvedModules dump) :
    ∃ r r', ModulesRun.run (fixed base mem) dump () = some r ∧
      ModulesRun.run (fixed base' mem') dump' () = some r' ∧
      (∀ a ∈ r.dkomAnomalies, a.name ≠ name) ∧
      ∀ a, a ∈ r'.dkomAnomalies ↔ a ∈ r.dkomAnomalies ∨
        a ∈ ((carvedModules dump).filter fun hit => hit.2.name = name).map moduleAnomaly := by
  obtain ⟨hkeys, hmem⟩ := hhides.mem_keys
  refine ⟨_, _, modules_report _ dump (), modules_report _ dump' (), fun a ha => ?_, fun a => ?_⟩
  · obtain ⟨hit, hhit, rfl⟩ := List.mem_map.mp ha
    have hnot := of_decide_eq_true (List.mem_filter.mp hhit).2
    rintro rfl
    exact hnot hmem
  · rw [hcarved]
    exact mem_filter_hidden hkeys (fun _ => decide_eq_true_iff) (fun _ => decide_eq_true_iff)
      (fun _ => decide_eq_true_iff) a

/-! ### A ring of two tasks -/

/-- A task of the image: its pid, the address of the next one's link, and its name. -/
def taskBytes (pid : UInt8) (next : List UInt8) (comm : List UInt8) : List UInt8 :=
  List.replicate 0x4A8 0 ++ next ++ List.replicate 0xA8 0 ++ [pid, 0, 0, 0, pid, 0, 0, 0] ++
    List.replicate 0x118 0 ++ comm ++ List.replicate (0x88 - comm.length) 0

/-- Two tasks at the kernel base, `init` and `sh`; the link of the first one is given. -/
def twoTasks (next : List UInt8) : Dump :=
  taskBytes 1 next [105, 110, 105, 116] ++
    taskBytes 2 [0xA8, 0x04, 0, 0, 0, 0x80, 0xFF, 0xFF] [115, 104] ++ List.replicate 8 0

/-- The image at the kernel base. -/
def memoryOf (image : Dump) (va n : ℕ) : Option (List UInt8) :=
  if kernelVaMin ≤ va then some (readAt image (va - kernelVaMin) n) else none

/-- The link of `init` leads to `sh`. -/
def linkedImage : Dump := twoTasks [0xA8, 0x0B, 0, 0, 0, 0x80, 0xFF, 0xFF]

/-- The link of `init` leads to itself. -/
def unlinkedImage : Dump := twoTasks [0xA8, 0x04, 0, 0, 0, 0x80, 0xFF, 0xFF]

/-- The walks over the two images. -/
abbrev sampleWalker (image : Dump) : Walker Unit ProcessRun.TaskInfo ProcessEntry ℤ :=
  ProcessRun.walker (fixed (some kernelVaMin) (memoryOf image))

theorem hides_sample : Hides (sampleWalker linkedImage) (sampleWalker unlinkedImage)
    (ProcessRun.findInitTaskVa (fixed (some kernelVaMin) (memoryOf linkedImage)))
    (ProcessRun.findInitTaskVa (fixed (some kernelVaMin) (memoryOf unlinkedImage))) 2 := by
  have hleads : linkOf (sampleWalker linkedImage) kernelVaMin = some (kernelVaMin + 0x700) ∧
      linkOf (sampleWalker linkedImage) (kernelVaMin + 0x700) = some kernelVaMin := by decide +kernel
  have hlink : linkOf (sampleWalker unlinkedImage) kernelVaMin =
      linkOf (sampleWalker linkedImage) (kernelVaMin + 0x700) := by decide +kernel
  have hstruct : structOf (sampleWalker unlinkedImage) kernelVaMin =
      structOf (sampleWalker linkedImage) kernelVaMin := by decide +kernel
  have hinit : (structOf (sampleWalker linkedImage) kernelVaMin).map (·.task.pid) = some 1 := by
    decide +kernel
  have hsh : (structOf (sampleWalker linkedImage) (kernelVaMin + 0x700)).map (·.task.pid) =
      some 2 := by decide +kernel
  refine ⟨kernelVaMin, [], kernelVaMin + 0x700, [], ?_, ⟨hlink, ?_, ?_⟩, by decide +kernel,
    Option.map_eq_some_iff.mp hsh, ?_⟩
  · exact ⟨by decide +kernel, by decide, hleads, by decide, by decide⟩
  · exact fun va hva hne => absurd (List.mem_singleton.mp hva) hne
  · intro va hva
    rw [List.mem_singleton.mp hva]
    exact hstruct
  · intro va hva info hinfo
    rw [List.mem_singleton.mp hva] at hinfo
    rw [hinfo] at hinit
    have hone : info.task.pid = 1 := Option.some.inj hinit
    exact fun htwo => absurd (hone.symm.trans htwo) (by decide)

/-- The part of the image behind `init`. -/
def shImage : Dump := linkedImage.drop 0x700

/-- `sh` is flagged once it is unlinked. -/
theorem unlinked_task_flagged_sample :
    ∃ r r', ProcessRun.run (fixed (some kernelVaMin) (memoryOf linkedImage)) shImage () = some r ∧
      ProcessRun.run (fixed (some kernelVaMin) (memoryOf unlinkedImage)) shImage () = some r' ∧
      (∀ a ∈ r.dkomAnomalies, a.pid ≠ 2) ∧
      ∀ a, a ∈ r'.dkomAnomalies ↔ a ∈ r.dkomAnomalies ∨
        a ∈ ((carvedTasks shImage).filter fun hit => hit.2.pid = 2).map taskAnomaly :=
  unlinked_task_flagged hides_sample rfl

example : ((carvedTasks shImage).filter fun hit => hit.2.pid = 2).map taskAnomaly =
    [⟨2, ofBytes [115, 104], 0, "HIGH"⟩] := by decide +kernel

end VantaCore.Extractors.Linux.Unlinking
