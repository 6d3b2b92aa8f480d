import VantaCore.Extractors.Linux.Fields
import VantaCore.Lib.FirstBy
import VantaCore.Lib.LinkedPath

/-! # Walking a kernel list

The primary path of `LinuxProcessExtractor.run` and `LinuxModulesExtractor.run`: a worklist with the
address of one structure, that the link of every structure read adds to. The two loops differ in the
structure they read and in the offset of its link (`Walker`). What a backend answers may change from
call to call, so a place of the walk is an address and the state of the backend there (`Node`). The
walk follows the links to the first repeated address, the first invalid or unreadable link or the cap
(`walk_spec`). -/

namespace VantaCore.Extractors.Linux.ListWalk

open VantaCore.Lib VantaCore.Lib.LinkedPath
open VantaCore.Extractors.Linux.Fields

/-! ### Backends -/

/-- What the extractors call of a `TranslationBackend`, whose state is `σ`: `get_kernel_base()`, and
`read_virtual("GLOBAL_KERNEL", va, n)`. `none` if the call raises, or if there is no kernel base. -/
structure Backend (σ : Type) where
  getKernelBase : StateM σ (Option ℕ)
  readVirtual : ℕ → ℕ → StateM σ (Option (List UInt8))

variable {σ S ε κ : Type}

/-- What the pointer read at `nextOffset` of a structure leads to: it less the offset, if both are
kernel addresses; `none` also if there are less than 8 bytes. -/
def linkTarget (nextOffset : ℕ) (nextPtrBytes : List UInt8) : Option ℕ :=
  if nextPtrBytes.length < 8 then none
  else
    let nextPtr := unpackFrom 8 nextPtrBytes 0
    if isValidKernelVa nextPtr ∧ isValidKernelVa (nextPtr - nextOffset) then
      some (nextPtr - nextOffset)
    else none

/-- The address the link of the structure at `va` leads to. -/
def readLink (b : Backend σ) (nextOffset va : ℕ) : StateM σ (Option ℕ) := do
  let nextPtrBytes ← b.readVirtual (va + nextOffset) 8
  return nextPtrBytes.bind (linkTarget nextOffset)

/-! ### The loop -/

/-- What a loop reads at an address, what it takes for one structure, and what it appends. -/
structure Walker (σ S ε κ : Type) where
  readStruct : ℕ → StateM σ (Option S)
  readNext : ℕ → StateM σ (Option ℕ)
  key : S → κ
  entry : S → ε

def maxHops : ℕ := 500000

/-- What the loop changes; `seen` are the keys of the structures appended, and `walked` the set of
those from the list (`list_walk_pids`, `list_walk_names`). -/
structure WalkState (σ ε κ : Type) where
  queue : List ℕ
  visited : List ℕ
  hops : ℕ
  entries : List ε
  seen : List κ
  walked : List κ
  backend : σ

/-- The state in which the loop starts. -/
def walkInit (start : ℕ) (backend : σ) : WalkState σ ε κ := ⟨[start], [], 0, [], [], [], backend⟩

/-- The state without a walk. -/
def noWalk (backend : σ) : WalkState σ ε κ := ⟨[], [], 0, [], [], [], backend⟩

variable [DecidableEq κ]

/-- What is appended for a structure that was read. -/
def WalkState.append (w : Walker σ S ε κ) (s : WalkState σ ε κ) : Option S → WalkState σ ε κ
  | none => s
  | some info =>
    if w.key info ∈ s.seen then s
    else
      { s with
        entries := s.entries ++ [w.entry info]
        seen := w.key info :: s.seen
        walked := w.key info :: s.walked }

/-- The body of the loop at an address that has not been visited. -/
def visit (w : Walker σ S ε κ) (va : ℕ) (s : WalkState σ ε κ) : WalkState σ ε κ :=
  let info := (w.readStruct va).run s.backend
  let next := (w.readNext va).run info.2
  let s := { s with visited := va :: s.visited, hops := s.hops + 1 }.append w info.1
  { s with queue := s.queue ++ next.1.toList, backend := next.2 }

/-- A turn of `while queue and hops < max_hops`. -/
def walkStep (w : Walker σ S ε κ) (s : WalkState σ ε κ) : Option (WalkState σ ε κ) :=
  match s.queue with
  | [] => none
  | va :: queue =>
    if s.hops < maxHops then
      let s := { s with queue }
      if va ∈ s.visited ∨ va = 0 ∨ ¬ isValidKernelVa va then some s
      else some (visit w va s)
    else none

/-- The loop, for a number of turns; `none` if they do not suffice. -/
def walk (w : Walker σ S ε κ) : ℕ → WalkState σ ε κ → Option (WalkState σ ε κ)
  | 0, _ => none
  | turns + 1, s =>
    match walkStep w s with
    | none => some s
    | some s' => walk w turns s'

/-- Turns that suffice: one for every address that is visited, and one for the last. -/
def walkTurns : ℕ := maxHops + 2

/-- The walk from the address that is found, if one is. -/
def listWalk (w : Walker σ S ε κ) (findStart : StateM σ (Option ℕ)) (backend : σ) :
    Option (WalkState σ ε κ) :=
  let start := findStart.run backend
  match start.1 with
  | none => some (noWalk start.2)
  | some va => walk w walkTurns (walkInit va start.2)

/-! ### The path -/

/-- A place of the walk: the state of the backend, and the address. -/
abbrev Node (σ : Type) := σ × ℕ

/-- The structure at a place, if it is valid. -/
def structAt (w : Walker σ S ε κ) (v : Node σ) : Option S := ((w.readStruct v.2).run v.1).1

/-- The place its link leads to. -/
def nextNode (w : Walker σ S ε κ) (v : Node σ) : Option (Node σ) :=
  let info := (w.readStruct v.2).run v.1
  let next := (w.readNext v.2).run info.2
  next.1.map fun va => (next.2, va)

/-- The first place, if its address is valid. -/
def firstNode (start : ℕ) (backend : σ) : Option (Node σ) :=
  if isValidKernelVa start then some (backend, start) else none

/-- The links a walker follows lead to kernel addresses. -/
def Walker.LinksValid (w : Walker σ S ε κ) : Prop :=
  ∀ va backend next, ((w.readNext va).run backend).1 = some next → isValidKernelVa next

/-- **Where a link leads**: the eight bytes at the offset of the link hold a kernel address, and the
structure that holds its target is at a kernel address. -/
theorem readLink_eq_some_iff {b : Backend σ} {nextOffset va next : ℕ} {backend : σ} :
    ((readLink b nextOffset va).run backend).1 = some next ↔
      ∃ bytes, ((b.readVirtual (va + nextOffset) 8).run backend).1 = some bytes ∧
        8 ≤ bytes.length ∧ isValidKernelVa (unpackFrom 8 bytes 0) ∧ isValidKernelVa next ∧
        next = unpackFrom 8 bytes 0 - nextOffset := by
  show ((b.readVirtual (va + nextOffset) 8).run backend).1.bind (linkTarget nextOffset) = some next ↔ _
  rw [Option.bind_eq_some_iff]
  refine exists_congr fun bytes => and_congr_right fun _ => ?_
  unfold linkTarget
  dsimp only
  split_ifs with hshort hvalid
  · exact iff_of_false (fun h => by cases h) fun h => by omega
  · rw [Option.some_inj]
    constructor
    · rintro rfl
      exact ⟨not_lt.mp hshort, hvalid.1, hvalid.2, rfl⟩
    · rintro ⟨-, -, -, rfl⟩
      rfl
  · refine iff_of_false (fun h => by cases h) ?_
    rintro ⟨-, hptr, hnext, rfl⟩
    exact hvalid ⟨hptr, hnext⟩

omit [DecidableEq κ] in
theorem linksValid_of_readLink {w : Walker σ S ε κ} {b : Backend σ} {nextOffset : ℕ}
    (h : w.readNext = readLink b nextOffset) : w.LinksValid := by
  intro va backend next hnext
  rw [h] at hnext
  obtain ⟨bytes, -, -, -, hvalid, -⟩ := readLink_eq_some_iff.mp hnext
  exact hvalid

variable {w : Walker σ S ε κ}

/-! ### One turn -/

theorem walkStep_nil {s : WalkState σ ε κ} (h : s.queue = []) : walkStep w s = none := by
  unfold walkStep
  rw [h]

theorem walkStep_capped {s : WalkState σ ε κ} (h : maxHops ≤ s.hops) : walkStep w s = none := by
  unfold walkStep
  cases s.queue with
  | nil => rfl
  | cons va queue => exact if_neg (by omega)

/-- An address that was visited, or that is no kernel address, is dropped. -/
theorem walkStep_skip {s : WalkState σ ε κ} {va : ℕ} (hq : s.queue = [va]) (hh : s.hops < maxHops)
    (hskip : va ∈ s.visited ∨ ¬ isValidKernelVa va) :
    walkStep w s = some { s with queue := [] } := by
  unfold walkStep
  rw [hq]
  dsimp only
  rw [if_pos hh, if_pos (hskip.imp_right Or.inr)]

/-- A new kernel address is visited. -/
theorem walkStep_visit {s : WalkState σ ε κ} {va : ℕ} (hq : s.queue = [va]) (hh : s.hops < maxHops)
    (hnew : va ∉ s.visited) (hva : isValidKernelVa va) :
    walkStep w s = some (visit w va { s with queue := [] }) := by
  have hzero : va ≠ 0 := by
    rintro rfl
    exact absurd hva (by decide)
  unfold walkStep
  rw [hq]
  dsimp only
  rw [if_pos hh, if_neg (by simp [hnew, hzero, hva])]

/-! ### What a walk does -/

/-- `l` are the places visited between `s` and `s'`: what was appended is the first structure of each
key among them. -/
structure Walked (w : Walker σ S ε κ) (s : WalkState σ ε κ) (l : List (Node σ))
    (s' : WalkState σ ε κ) : Prop where
  visited : s'.visited = (l.map Prod.snd).reverse ++ s.visited
  hops : s'.hops = s.hops + l.length
  entries : s'.entries =
    s.entries ++ (FirstBy.firsts w.key s.seen (l.filterMap (structAt w))).map w.entry
  seen : s'.seen =
    ((FirstBy.firsts w.key s.seen (l.filterMap (structAt w))).map w.key).reverse ++ s.seen
  walked : s'.walked =
    ((FirstBy.firsts w.key s.seen (l.filterMap (structAt w))).map w.key).reverse ++ s.walked

theorem Walked.nil (s : WalkState σ ε κ) : Walked w s [] s where
  visited := rfl
  hops := rfl
  entries := (List.append_nil _).symm
  seen := rfl
  walked := rfl

theorem Walked.trans {s s' s'' : WalkState σ ε κ} {l l' : List (Node σ)} (h : Walked w s l s')
    (h' : Walked w s' l' s'') : Walked w s (l ++ l') s'' := by
  have hfirsts : FirstBy.firsts w.key s.seen ((l ++ l').filterMap (structAt w)) =
      FirstBy.firsts w.key s.seen (l.filterMap (structAt w)) ++
        FirstBy.firsts w.key s'.seen (l'.filterMap (structAt w)) := by
    rw [List.filterMap_append, FirstBy.firsts_append, h.seen]
  refine ⟨?_, ?_, ?_, ?_, ?_⟩
  · rw [h'.visited, h.visited]; simp
  · rw [h'.hops, h.hops, List.length_append, Nat.add_assoc]
  · rw [h'.entries, h.entries, hfirsts]; simp
  · rw [h'.seen, hfirsts, List.map_append, List.reverse_append, List.append_assoc, ← h.seen]
  · rw [h'.walked, h.walked, hfirsts]; simp

/-- The queue does not matter. -/
theorem Walked.of_queue {s s' : WalkState σ ε κ} {l : List (Node σ)} {queue : List ℕ}
    (h : Walked w { s with queue } l s') : Walked w s l s' :=
  ⟨h.visited, h.hops, h.entries, h.seen, h.walked⟩

/-- What `append` leaves alone. -/
theorem append_frame (s : WalkState σ ε κ) (info : Option S) :
    (s.append w info).queue = s.queue ∧ (s.append w info).visited = s.visited ∧
      (s.append w info).hops = s.hops := by
  rcases info with _ | info
  · exact ⟨rfl, rfl, rfl⟩
  · unfold WalkState.append
    dsimp only
    split_ifs <;> exact ⟨rfl, rfl, rfl⟩

/-- What `append` adds. -/
theorem append_eq (s : WalkState σ ε κ) (info : Option S) :
    (s.append w info).entries =
        s.entries ++ (FirstBy.firsts w.key s.seen info.toList).map w.entry ∧
      (s.append w info).seen =
        ((FirstBy.firsts w.key s.seen info.toList).map w.key).reverse ++ s.seen ∧
      (s.append w info).walked =
        ((FirstBy.firsts w.key s.seen info.toList).map w.key).reverse ++ s.walked := by
  rcases info with _ | info
  · exact ⟨(List.append_nil _).symm, rfl, rfl⟩
  · unfold WalkState.append
    rw [Option.toList_some, FirstBy.firsts, FirstBy.firsts]
    dsimp only
    split_ifs with hkey
    · exact ⟨(List.append_nil _).symm, rfl, rfl⟩
    · exact ⟨rfl, rfl, rfl⟩

/-- **A visit** appends the structure at the place if its key is new. -/
theorem walked_visit (va : ℕ) (s : WalkState σ ε κ) :
    Walked w s [(s.backend, va)] (visit w va s) := by
  have hinfo : [(s.backend, va)].filterMap (structAt w) =
      ((w.readStruct va).run s.backend).1.toList := by
    have hstruct : structAt w (s.backend, va) = ((w.readStruct va).run s.backend).1 := rfl
    cases h : ((w.readStruct va).run s.backend).1 with
    | none => exact List.filterMap_cons_none (hstruct.trans h)
    | some info => exact List.filterMap_cons_some (hstruct.trans h)
  set s₀ : WalkState σ ε κ := { s with visited := va :: s.visited, hops := s.hops + 1 } with hs₀
  obtain ⟨-, hvisited, hhops⟩ := append_frame (w := w) s₀ ((w.readStruct va).run s.backend).1
  obtain ⟨hentries, hseen, hwalked⟩ := append_eq (w := w) s₀ ((w.readStruct va).run s.backend).1
  rw [← hinfo] at hentries hseen hwalked
  exact ⟨hvisited, hhops, hentries, hseen, hwalked⟩

/-- The queue holds the next place, if there is one. -/
theorem queue_visit (va : ℕ) {s : WalkState σ ε κ} (hq : s.queue = []) :
    (visit w va s).queue = ((nextNode w (s.backend, va)).map Prod.snd).toList := by
  have hqueue : (visit w va s).queue =
      s.queue ++ ((w.readNext va).run ((w.readStruct va).run s.backend).2).1.toList :=
    congrArg (· ++ _) (append_frame (w := w)
      { s with visited := va :: s.visited, hops := s.hops + 1 } _).1
  rw [hqueue, hq, nextNode, Option.map_map]
  exact congrArg Option.toList Option.map_id'.symm

/-- The next place is one of the backend behind the visit. -/
theorem backend_of_nextNode {va : ℕ} {s : WalkState σ ε κ} {v : Node σ}
    (h : nextNode w (s.backend, va) = some v) : v.1 = (visit w va s).backend := by
  obtain ⟨next, -, rfl⟩ := Option.map_eq_some_iff.mp h
  rfl

omit [DecidableEq κ] in
theorem Walker.LinksValid.nextNode (hw : w.LinksValid) {u v : Node σ}
    (h : ListWalk.nextNode w u = some v) : isValidKernelVa v.2 := by
  obtain ⟨next, hnext, rfl⟩ := Option.map_eq_some_iff.mp h
  exact hw _ _ _ hnext

/-! ### The run of the loop -/

omit [DecidableEq κ] in
theorem cutPath_none (cap : ℕ) (seen : List ℕ) :
    cutPath Prod.snd (nextNode w) cap seen none = [] := by
  cases cap <;> rfl

theorem walk_of_nil {turns : ℕ} {s : WalkState σ ε κ} (hq : s.queue = []) (ht : 0 < turns) :
    walk w turns s = some s := by
  obtain ⟨turns, rfl⟩ : ∃ k, turns = k + 1 := ⟨turns - 1, by omega⟩
  unfold walk
  rw [walkStep_nil hq]

theorem walk_of_step {turns : ℕ} {s s' t : WalkState σ ε κ} (hstep : walkStep w s = some s')
    (hrun : walk w turns s' = some t) : walk w (turns + 1) s = some t := by
  unfold walk
  rw [hstep]
  exact hrun

/-- The loop ends behind an address that is dropped. -/
theorem walk_of_skip {turns : ℕ} {s : WalkState σ ε κ} {va : ℕ} (hq : s.queue = [va])
    (hh : s.hops < maxHops) (hskip : va ∈ s.visited ∨ ¬ isValidKernelVa va) (ht : 0 < turns) :
    walk w (turns + 1) s = some { s with queue := [] } :=
  walk_of_step (walkStep_skip hq hh hskip) (walk_of_nil rfl ht)

/-- **The loop visits the path** from the place in its queue on, if there is one. -/
theorem walk_from (hw : w.LinksValid) : ∀ (turns : ℕ) {s : WalkState σ ε κ}
    {v : Option (Node σ)}, s.queue = (v.map Prod.snd).toList →
    (∀ u, v = some u → u.1 = s.backend ∧ isValidKernelVa u.2) →
    s.queue.length + (maxHops - s.hops) < turns →
      ∃ s', walk w turns s = some s' ∧
        Walked w s (cutPath Prod.snd (nextNode w) (maxHops - s.hops) s.visited v) s'
  | 0, _, _, _, _, h => absurd h (Nat.not_lt_zero _)
  | turns + 1, s, none, hq, _, _ => by
    refine ⟨s, walk_of_nil hq (Nat.succ_pos turns), ?_⟩
    rw [cutPath_none]
    exact Walked.nil s
  | turns + 1, s, some (backend, va), hq, hv, hturns => by
    obtain ⟨hbackend, hva⟩ := hv _ rfl
    dsimp only at hbackend hva
    subst hbackend
    have hqueue : s.queue = [va] := hq
    rw [hqueue, List.length_singleton] at hturns
    rcases Nat.lt_or_ge s.hops maxHops with hh | hh
    · have hcap : maxHops - s.hops = (maxHops - (s.hops + 1)) + 1 := by omega
      rw [hcap, cutPath]
      by_cases hmem : va ∈ s.visited
      · -- the address is dropped, and the queue is empty
        refine ⟨_, walk_of_skip hqueue hh (Or.inl hmem) (by omega), ?_⟩
        rw [if_pos hmem]
        exact (Walked.nil { s with queue := [] }).of_queue
      · have hstep := walkStep_visit (w := w) hqueue hh hmem hva
        have hvisit := walked_visit (w := w) va { s with queue := [] }
        have hq' := queue_visit (w := w) va (s := { s with queue := [] }) rfl
        have hhops : (visit w va { s with queue := [] }).hops = s.hops + 1 := hvisit.hops
        have hvisited : (visit w va { s with queue := [] }).visited = va :: s.visited :=
          hvisit.visited
        have hlen : (visit w va { s with queue := [] }).queue.length ≤ 1 := by
          rw [hq']
          exact Option.length_toList_le
        obtain ⟨s', hrun, hwalked⟩ := walk_from hw turns hq'
          (fun u hu => ⟨backend_of_nextNode hu, hw.nextNode hu⟩) (by omega)
        rw [hhops, hvisited] at hwalked
        refine ⟨s', walk_of_step hstep hrun, ?_⟩
        rw [if_neg hmem]
        exact (hvisit.trans hwalked).of_queue
    · have hcap : maxHops - s.hops = 0 := by omega
      have hstep : walkStep w s = none := walkStep_capped hh
      refine ⟨s, ?_, by rw [hcap]; exact Walked.nil s⟩
      unfold walk
      rw [hstep]

/-- **The walk follows the list**: the loop ends, and the places it visits are those of the path, cut
at the first repeated address, at the first link that is invalid or cannot be read, or at the cap. -/
theorem walk_spec (hw : w.LinksValid) (start : ℕ) (backend : σ) {turns : ℕ}
    (ht : walkTurns ≤ turns) :
    ∃ s', walk w turns (walkInit start backend) = some s' ∧
      Walked w (walkInit start backend)
        (cutPath Prod.snd (nextNode w) maxHops [] (firstNode start backend)) s' := by
  have hturns : 1 + (maxHops - 0) < turns := by
    unfold walkTurns at ht
    omega
  unfold firstNode
  by_cases hva : isValidKernelVa start = true
  · rw [if_pos hva]
    have hfirst : ∀ u : Node σ, some (backend, start) = some u →
        u.1 = backend ∧ isValidKernelVa u.2 := by
      rintro _ ⟨rfl⟩
      exact ⟨rfl, hva⟩
    exact walk_from hw turns (s := walkInit start backend) rfl hfirst hturns
  · rw [if_neg hva, cutPath_none]
    obtain ⟨turns, rfl⟩ : ∃ k, turns = k + 1 := ⟨turns - 1, by omega⟩
    refine ⟨_, walk_of_skip rfl (show 0 < maxHops by decide) (Or.inr hva) (by omega), ?_⟩
    exact (Walked.nil (noWalk backend)).of_queue

/-- More turns change nothing. -/
theorem walk_of_le : ∀ {turns turns' : ℕ} {s s' : WalkState σ ε κ}, walk w turns s = some s' →
    turns ≤ turns' → walk w turns' s = some s'
  | 0, _, _, _, h, _ => by cases h
  | turns + 1, turns', s, s', h, hle => by
    obtain ⟨k, rfl⟩ : ∃ k, turns' = k + 1 := ⟨turns' - 1, by omega⟩
    unfold walk at h ⊢
    cases hstep : walkStep w s with
    | none => rwa [hstep] at h
    | some t =>
      rw [hstep] at h
      exact walk_of_le h (by omega)

/-- **What the walk leaves behind**: the first structure of each key of some list, and their keys. -/
theorem listWalk_spec (hw : w.LinksValid) (findStart : StateM σ (Option ℕ)) (backend : σ) :
    ∃ s' infos, listWalk w findStart backend = some s' ∧
      s'.entries = (FirstBy.firsts w.key [] infos).map w.entry ∧
      s'.seen = ((FirstBy.firsts w.key [] infos).map w.key).reverse ∧
      s'.walked = ((FirstBy.firsts w.key [] infos).map w.key).reverse := by
  unfold listWalk
  dsimp only
  cases hstart : (findStart.run backend).1 with
  | none => exact ⟨noWalk _, [], rfl, rfl, rfl, rfl⟩
  | some va =>
    obtain ⟨s', hrun, hwalked⟩ := walk_spec hw va (findStart.run backend).2 le_rfl
    exact ⟨s', _, hrun, hwalked.entries, hwalked.seen.trans (List.append_nil _),
      hwalked.walked.trans (List.append_nil _)⟩

end VantaCore.Extractors.Linux.ListWalk
