import VantaCore.Core.Scanner.Worker
import Mathlib.Algebra.BigOperators.Group.Finset.Basic
import Mathlib.Algebra.Order.Group.Multiset

/-! # A parallel scan

The coordinator submits addresses, sets the stop event and drains the result queue, while its
workers take the addresses out of the ring; `put` and `get` are single steps on one queue. What the
accepted addresses give is at any time on the result queue, in the hand of a worker or still in the
ring (`Inv`), and a worker that is done leaves an empty ring behind. So a scan gives what its
addresses give one by one, however many workers there are and whatever they do first
(`parallel_eq_sequential`). -/

namespace VantaCore.Core.Scanner.ParallelScan

open VantaCore.Core.DumpHandle VantaCore.Core.Scanner.Worker

/-! ### The scan -/

/-- The settings of a scan. -/
structure Config where
  dump : Dump
  windowSize : ℕ
  capacity : ℕ
  /-- A hook framework is given. -/
  hooks : Bool

/-- Where the coordinator is in `drain_results`. -/
inductive CoordinatorPc where
  | idle
  | draining (results : List ℕ)
  | emitting (results rest : List ℕ)
deriving DecidableEq

/-- The state of a scan, with what has happened in it. -/
structure State (n : ℕ) where
  ring : List ℕ
  stopEvent : Bool
  workers : Fin n → WorkerPc
  resultQueue : List ℕ
  coordinator : CoordinatorPc
  /-- The addresses for which `submit` has returned `True`. -/
  accepted : List ℕ
  /-- The values put on the result queue. -/
  put : List ℕ
  /-- What the calls of `drain_results` have returned. -/
  drained : List (List ℕ)
  /-- The addresses of the `ON_NODE_DISCOVERED` events. -/
  emitted : List ℕ

/-- What may come next: a call of the coordinator, or a step of a party. -/
inductive Label (n : ℕ) where
  | submit (addr : ℤ)
  | stop
  | drain
  | coordinator
  | worker (i : Fin n)
  | raise (i : Fin n) (e : Exc)

variable {n : ℕ}

/-- `submit(addr)`: a full ring takes nothing, and an address of more than 64 bits is an
`OverflowError`. -/
def submit (cfg : Config) (s : State n) (addr : ℤ) : State n :=
  if cfg.capacity - 1 ≤ s.ring.length then s
  else if addr < 0 ∨ 2 ^ 64 ≤ addr then s
  else { s with ring := s.ring ++ [addr.toNat], accepted := s.accepted ++ [addr.toNat] }

/-- The next step of `drain_results`. -/
def coordinatorStep (cfg : Config) (s : State n) : Option (State n) :=
  match s.coordinator with
  | .idle => none
  | .draining results =>
    match s.resultQueue with
    | c :: queue => some { s with resultQueue := queue, coordinator := .draining (results ++ [c]) }
    | [] =>
      if cfg.hooks then some { s with coordinator := .emitting results results }
      else some { s with coordinator := .idle, drained := s.drained ++ [results] }
  | .emitting results (addr :: rest) =>
    some { s with coordinator := .emitting results rest, emitted := s.emitted ++ [addr] }
  | .emitting results [] =>
    some { s with coordinator := .idle, drained := s.drained ++ [results] }

/-- The next step of a worker. -/
def workerStep (cfg : Config) (s : State n) (i : Fin n) : Option (State n) :=
  (proceed cfg.dump cfg.windowSize cfg.dump.length s.stopEvent s.ring (s.workers i)).map
    fun (pc, ring, out) =>
      { s with
        ring := ring
        workers := Function.update s.workers i pc
        resultQueue := s.resultQueue ++ out.toList
        put := s.put ++ out.toList }

/-- One step: the coordinator calls in sequence, and submits nothing after it has set the stop
event. -/
def step (cfg : Config) (s : State n) : Label n → Option (State n)
  | .submit addr =>
    if s.coordinator = .idle ∧ s.stopEvent = false then some (submit cfg s addr) else none
  | .stop => if s.coordinator = .idle then some { s with stopEvent := true } else none
  | .drain =>
    if s.coordinator = .idle then some { s with coordinator := .draining [] } else none
  | .coordinator => coordinatorStep cfg s
  | .worker i => workerStep cfg s i
  | .raise i e => (raiseIn e (s.workers i)).map fun how =>
      { s with workers := Function.update s.workers i (.exited (exitCode how)) }

/-- The state a schedule leads to, if all its steps are enabled. -/
def exec (cfg : Config) : List (Label n) → State n → Option (State n)
  | [], s => some s
  | l :: ls, s => (step cfg s l).bind (exec cfg ls)

/-- Workers that have just been started. -/
def State.init : State n := ⟨[], false, fun _ => .attach, [], .idle, [], [], [], []⟩

/-- No worker raises anything in the schedule. -/
def NoRaise (ls : List (Label n)) : Prop := ∀ i e, Label.raise i e ∉ ls

/-- All workers have returned. -/
def AllReturned (s : State n) : Prop := ∀ i, s.workers i = .exited 0

/-- What the addresses give one by one. -/
def sequential (cfg : Config) (addrs : List ℕ) : Multiset ℕ :=
  (addrs.map fun addr =>
    (processAddress cfg.dump addr cfg.windowSize cfg.dump.length : Multiset ℕ)).sum

/-! ### Conservation -/

/-- What a worker has in hand. -/
def inHand : WorkerPc → List ℕ
  | .mainProcess rest | .drainProcess rest => rest
  | _ => []

/-- The points behind the stop check that has found the event set. -/
def Draining : WorkerPc → Prop
  | .drainGet | .drainProcess _ | .exited _ => True
  | _ => False

/-- What a call of `drain_results` in progress has taken off the queue. -/
def taken : CoordinatorPc → List ℕ
  | .idle => []
  | .draining results | .emitting results _ => results

/-- The taken values whose events are emitted, with those that are to be. -/
def emitting : CoordinatorPc → List ℕ
  | .emitting results _ => results
  | _ => []

/-- The events that are to be emitted. -/
def toEmit : CoordinatorPc → List ℕ
  | .emitting _ rest => rest
  | _ => []

/-- **What holds in every state of a scan in which no worker raises.** -/
structure Inv (cfg : Config) (s : State n) : Prop where
  conserved : sequential cfg s.accepted =
    (s.put : Multiset ℕ) + ∑ i, (inHand (s.workers i) : Multiset ℕ) + sequential cfg s.ring
  stopped : ∀ i, Draining (s.workers i) → s.stopEvent = true
  empty : ∀ i code, s.workers i = .exited code → s.ring = []
  queue : s.put = s.drained.flatten ++ taken s.coordinator ++ s.resultQueue
  events : s.emitted ++ toEmit s.coordinator =
    if cfg.hooks then s.drained.flatten ++ emitting s.coordinator else []

section Sequential

variable (cfg : Config)

@[simp] theorem sequential_nil : sequential cfg [] = 0 := rfl

theorem sequential_cons (addr : ℕ) (addrs : List ℕ) : sequential cfg (addr :: addrs) =
    (processAddress cfg.dump addr cfg.windowSize cfg.dump.length : Multiset ℕ) +
      sequential cfg addrs := by
  simp [sequential]

theorem sequential_append (addrs addrs' : List ℕ) :
    sequential cfg (addrs ++ addrs') = sequential cfg addrs + sequential cfg addrs' := by
  simp [sequential]

end Sequential

theorem inv_init (cfg : Config) : Inv cfg (State.init : State n) where
  conserved := by simp [State.init, sequential, inHand]
  stopped i h := by cases h
  empty i code h := by cases h
  queue := rfl
  events := by simp [State.init, toEmit, emitting]

/-- A sum over the workers after one of them has moved. -/
theorem sum_inHand_update (w : Fin n → WorkerPc) (i : Fin n) (pc : WorkerPc) :
    ∑ j, (inHand (Function.update w i pc j) : Multiset ℕ) + (inHand (w i) : Multiset ℕ) =
      ∑ j, (inHand (w j) : Multiset ℕ) + (inHand pc : Multiset ℕ) := by
  have hpc : ∀ j, (inHand (Function.update w i pc j) : Multiset ℕ) =
      Function.update (fun j => (inHand (w j) : Multiset ℕ)) i (inHand pc) j := by
    intro j
    by_cases h : j = i
    · subst h; simp
    · simp [h]
  rw [Finset.sum_congr rfl fun j _ => hpc j,
    Finset.sum_update_of_mem (Finset.mem_univ i),
    ← Finset.add_sum_erase Finset.univ (fun j => (inHand (w j) : Multiset ℕ)) (Finset.mem_univ i),
    Finset.sdiff_singleton_eq_erase]
  abel

/-- **A step of a worker, in terms of what it does**: it puts the value in hand, takes an address,
returns on an empty ring, or moves on. -/
theorem proceed_cases {dump : Dump} {windowSize dumpFileSize : ℕ} {stop : Bool} {ring ring' : List ℕ}
    {pc pc' : WorkerPc} {out : Option ℕ}
    (h : proceed dump windowSize dumpFileSize stop ring pc = some (pc', ring', out)) :
    (ring' = ring ∧ inHand pc = out.toList ++ inHand pc' ∧ (Draining pc' → Draining pc ∨ stop = true) ∧
      ∀ code, pc' = .exited code → ring = []) ∨
    (∃ addr, ring = addr :: ring' ∧ inHand pc = [] ∧ out = none ∧
      inHand pc' = processAddress dump addr windowSize dumpFileSize ∧ (Draining pc' → Draining pc) ∧
      ∀ code, pc' ≠ .exited code) := by
  unfold proceed at h
  cases pc with
  | attach | openDump =>
    obtain ⟨rfl, rfl, rfl⟩ : _ ∧ _ ∧ _ := by simpa using h
    exact Or.inl ⟨rfl, rfl, fun h => absurd h id, by simp⟩
  | checkStop =>
    obtain ⟨rfl, rfl, rfl⟩ : _ ∧ _ ∧ _ := by simpa using h
    refine Or.inl ⟨rfl, by cases stop <;> rfl, fun h => Or.inr ?_, by cases stop <;> simp⟩
    cases stop
    · exact absurd h id
    · rfl
  | mainGet =>
    cases ring with
    | nil =>
      obtain ⟨rfl, rfl, rfl⟩ : _ ∧ _ ∧ _ := by simpa using h
      exact Or.inl ⟨rfl, rfl, fun h => absurd h id, by simp⟩
    | cons addr ring =>
      obtain ⟨rfl, rfl, rfl⟩ : _ ∧ _ ∧ _ := by simpa using h
      exact Or.inr ⟨addr, rfl, rfl, rfl, rfl, fun h => absurd h id, by simp⟩
  | mainProcess rest =>
    cases rest with
    | nil =>
      obtain ⟨rfl, rfl, rfl⟩ : _ ∧ _ ∧ _ := by simpa using h
      exact Or.inl ⟨rfl, rfl, fun h => absurd h id, by simp⟩
    | cons c cs =>
      obtain ⟨rfl, rfl, rfl⟩ : _ ∧ _ ∧ _ := by simpa using h
      exact Or.inl ⟨rfl, rfl, fun h => absurd h id, by simp⟩
  | drainGet =>
    cases ring with
    | nil =>
      obtain ⟨rfl, rfl, rfl⟩ : _ ∧ _ ∧ _ := by simpa using h
      exact Or.inl ⟨rfl, rfl, fun _ => Or.inl trivial, fun _ _ => rfl⟩
    | cons addr ring =>
      obtain ⟨rfl, rfl, rfl⟩ : _ ∧ _ ∧ _ := by simpa using h
      exact Or.inr ⟨addr, rfl, rfl, rfl, rfl, fun _ => trivial, by simp⟩
  | drainProcess rest =>
    cases rest with
    | nil =>
      obtain ⟨rfl, rfl, rfl⟩ : _ ∧ _ ∧ _ := by simpa using h
      exact Or.inl ⟨rfl, rfl, fun _ => Or.inl trivial, by simp⟩
    | cons c cs =>
      obtain ⟨rfl, rfl, rfl⟩ : _ ∧ _ ∧ _ := by simpa using h
      exact Or.inl ⟨rfl, rfl, fun _ => Or.inl trivial, by simp⟩
  | exited code => cases h

section Steps

variable {cfg : Config} {s s' : State n}

theorem Inv.submit (h : Inv cfg s) (addr : ℤ) (hstop : s.stopEvent = false) :
    Inv cfg (submit cfg s addr) := by
  unfold ParallelScan.submit
  split_ifs
  · exact h
  · exact h
  · constructor
    · have hc := h.conserved
      simp only [sequential_append, sequential_cons, sequential_nil, hc]
      abel
    · exact h.stopped
    · intro i code hi
      have hd : Draining (s.workers i) := by rw [show s.workers i = _ from hi]; trivial
      rw [h.stopped i hd] at hstop
      cases hstop
    · exact h.queue
    · exact h.events

theorem Inv.coordinatorStep (h : Inv cfg s) (hs : coordinatorStep cfg s = some s') :
    Inv cfg s' := by
  have hq := h.queue
  have he := h.events
  unfold ParallelScan.coordinatorStep at hs
  cases hc : s.coordinator with
  | idle => rw [hc] at hs; cases hs
  | draining results =>
    rw [hc] at hs hq he
    cases hr : s.resultQueue with
    | cons c queue =>
      rw [hr] at hs hq
      obtain rfl := Option.some.inj hs
      exact ⟨h.conserved, h.stopped, h.empty, by simpa [taken] using hq, he⟩
    | nil =>
      rw [hr] at hs hq
      dsimp only at hs
      split_ifs at hs with hhooks
      · obtain rfl := Option.some.inj hs
        refine ⟨h.conserved, h.stopped, h.empty, by simpa [taken, hr] using hq, ?_⟩
        simp only [hhooks, if_true, emitting, toEmit, List.append_nil] at he ⊢
        rw [he]
      · obtain rfl := Option.some.inj hs
        refine ⟨h.conserved, h.stopped, h.empty, by simpa [taken, hr] using hq, ?_⟩
        simpa [hhooks, emitting, toEmit] using he
  | emitting results rest =>
    rw [hc] at hs hq he
    cases rest with
    | cons addr rest =>
      obtain rfl := Option.some.inj hs
      exact ⟨h.conserved, h.stopped, h.empty, hq, by simpa [toEmit, emitting] using he⟩
    | nil =>
      obtain rfl := Option.some.inj hs
      exact ⟨h.conserved, h.stopped, h.empty, by simpa [taken] using hq,
        by simpa [toEmit, emitting] using he⟩

theorem Inv.workerStep (h : Inv cfg s) {i : Fin n} (hs : workerStep cfg s i = some s') :
    Inv cfg s' := by
  obtain ⟨⟨pc, ring, out⟩, hp, rfl⟩ := Option.map_eq_some_iff.mp hs
  have hsum := sum_inHand_update s.workers i pc
  have hqueue : s.put ++ out.toList = s.drained.flatten ++ taken s.coordinator ++
      (s.resultQueue ++ out.toList) := by rw [h.queue, List.append_assoc]
  have hstopped : (Draining pc → s.stopEvent = true) → ∀ j,
      Draining (Function.update s.workers i pc j) → s.stopEvent = true := by
    intro hpc j hj
    by_cases hji : j = i
    · subst hji
      rw [Function.update_self] at hj
      exact hpc hj
    · rw [Function.update_of_ne hji] at hj
      exact h.stopped j hj
  rcases proceed_cases hp with
    ⟨rfl, hhand, hdrain, hexit⟩ | ⟨addr, hring, hhand, rfl, hhand', hdrain, hexit⟩
  · refine ⟨?_, hstopped fun hpc => (hdrain hpc).elim (h.stopped i) id, fun j code hj => ?_, hqueue,
      h.events⟩
    · rw [hhand, ← Multiset.coe_add, ← add_assoc] at hsum
      have hc := h.conserved
      rw [← add_right_cancel hsum] at hc
      rw [hc, ← Multiset.coe_add]
      abel
    · by_cases hji : j = i
      · subst hji
        exact hexit code (by simpa using hj)
      · exact h.empty j code (by simpa [hji] using hj)
  · refine ⟨?_, hstopped fun hpc => h.stopped i (hdrain hpc), fun j code hj => ?_, hqueue, h.events⟩
    · have hc := h.conserved
      rw [hhand, hhand', Multiset.coe_nil, add_zero] at hsum
      rw [hring, sequential_cons] at hc
      simp only [Option.toList_none, List.append_nil, hsum, hc]
      abel
    · by_cases hji : j = i
      · subst hji
        exact absurd (by simpa using hj) (hexit code)
      · have := h.empty j code (by simpa [hji] using hj)
        rw [hring] at this
        cases this

/-- **A step keeps the invariant**, unless a worker raises. -/
theorem Inv.step (h : Inv cfg s) {l : Label n} (hl : ∀ i e, l ≠ .raise i e)
    (hs : step cfg s l = some s') : Inv cfg s' := by
  cases l with
  | submit addr =>
    rw [ParallelScan.step] at hs
    split_ifs at hs with hc
    obtain rfl := Option.some.inj hs
    exact h.submit addr hc.2
  | stop =>
    rw [ParallelScan.step] at hs
    split_ifs at hs
    obtain rfl := Option.some.inj hs
    exact ⟨h.conserved, fun _ _ => rfl, h.empty, h.queue, h.events⟩
  | drain =>
    rw [ParallelScan.step] at hs
    split_ifs at hs with hc
    obtain rfl := Option.some.inj hs
    have hq := h.queue
    have he := h.events
    rw [hc] at hq he
    exact ⟨h.conserved, h.stopped, h.empty, hq, he⟩
  | coordinator => exact h.coordinatorStep hs
  | worker i => exact h.workerStep hs
  | raise i e => exact absurd rfl (hl i e)

/-- **What every step in which no worker raises keeps, a schedule of such steps keeps.** -/
theorem exec_induction_of_noRaise {P : State n → Prop}
    (hstep : ∀ l s s', (∀ i e, l ≠ .raise i e) → P s → ParallelScan.step cfg s l = some s' → P s') :
    ∀ {ls : List (Label n)} {s s' : State n}, NoRaise ls → P s →
      ParallelScan.exec cfg ls s = some s' → P s'
  | [], s, s', _, h, hs => by
    obtain rfl := Option.some.inj hs
    exact h
  | l :: ls, s, s', hno, h, hs => by
    obtain ⟨s₁, h₁, h₂⟩ := Option.bind_eq_some_iff.mp hs
    have hl : ∀ i e, l ≠ .raise i e := fun i e he => hno i e (he ▸ List.mem_cons_self)
    have hls : NoRaise ls := fun i e he => hno i e (List.mem_cons_of_mem _ he)
    exact exec_induction_of_noRaise hstep hls (hstep l s s₁ hl h h₁) h₂

theorem Inv.exec {ls : List (Label n)} (h : Inv cfg s) (hno : NoRaise ls)
    (hs : exec cfg ls s = some s') : Inv cfg s' :=
  exec_induction_of_noRaise (fun _ _ _ hl h hs => h.step hl hs) hno h hs

/-- **When all workers have returned, the result queue has got what the addresses give.** -/
theorem Inv.put_eq (h : Inv cfg s) (hn : 0 < n) (hret : AllReturned s) :
    (s.put : Multiset ℕ) = sequential cfg s.accepted := by
  have hring : s.ring = [] := h.empty ⟨0, hn⟩ 0 (hret _)
  have hc := h.conserved
  rw [hring, sequential_nil, add_zero] at hc
  rw [hc, Finset.sum_eq_zero fun i _ => by rw [hret i]; rfl, add_zero]

/-! ### The last drain -/

/-- All workers have returned, and these are the accepted addresses. -/
structure Ended (accepted : List ℕ) (s : State n) : Prop where
  returned : AllReturned s
  stopped : s.stopEvent = true
  accepted : s.accepted = accepted

/-- After a call of `drain_results` that has started with all workers returned: it is still taking
values off the queue, or the queue is empty. -/
structure LastDrain (accepted : List ℕ) (s : State n) : Prop extends Ended accepted s where
  drained : (∃ results, s.coordinator = .draining results) ∨ s.resultQueue = []

variable {accepted : List ℕ}

theorem coordinatorStep_frame (hs : coordinatorStep cfg s = some s') :
    s'.workers = s.workers ∧ s'.stopEvent = s.stopEvent ∧ s'.accepted = s.accepted := by
  unfold coordinatorStep at hs
  split at hs
  · cases hs
  · split at hs
    · obtain rfl := Option.some.inj hs
      simp
    · split_ifs at hs <;> obtain rfl := Option.some.inj hs <;> simp
  · obtain rfl := Option.some.inj hs
    simp
  · obtain rfl := Option.some.inj hs
    simp

/-- **A step after the end**: nothing is submitted, and no worker moves. -/
theorem Ended.step (h : Ended accepted s) {l : Label n} (hl : ∀ i e, l ≠ .raise i e)
    (hs : step cfg s l = some s') : Ended accepted s' := by
  cases l with
  | submit addr =>
    rw [ParallelScan.step] at hs
    split_ifs at hs with hc
    rw [h.stopped] at hc
    cases hc.2
  | stop =>
    rw [ParallelScan.step] at hs
    split_ifs at hs
    obtain rfl := Option.some.inj hs
    exact ⟨h.returned, rfl, h.accepted⟩
  | drain =>
    rw [ParallelScan.step] at hs
    split_ifs at hs
    obtain rfl := Option.some.inj hs
    exact ⟨h.returned, h.stopped, h.accepted⟩
  | coordinator =>
    obtain ⟨hworkers, hstop, hacc⟩ := coordinatorStep_frame hs
    exact ⟨fun i => by rw [hworkers, h.returned i], by rw [hstop, h.stopped], by rw [hacc, h.accepted]⟩
  | worker i =>
    rw [ParallelScan.step, ParallelScan.workerStep, h.returned i] at hs
    cases hs
  | raise i e => exact absurd rfl (hl i e)

theorem Ended.exec {ls : List (Label n)} (h : Ended accepted s) (hno : NoRaise ls)
    (hs : ParallelScan.exec cfg ls s = some s') : Ended accepted s' :=
  exec_induction_of_noRaise (fun _ _ _ hl h hs => h.step hl hs) hno h hs

theorem Ended.lastDrain (h : Ended accepted s) (hs : ParallelScan.step cfg s .drain = some s') :
    LastDrain accepted s' := by
  refine ⟨h.step (by simp) hs, Or.inl ⟨[], ?_⟩⟩
  rw [ParallelScan.step] at hs
  split_ifs at hs
  obtain rfl := Option.some.inj hs
  rfl

theorem LastDrain.coordinatorStep (h : LastDrain accepted s)
    (hs : ParallelScan.coordinatorStep cfg s = some s') :
    (∃ results, s'.coordinator = .draining results) ∨ s'.resultQueue = [] := by
  unfold ParallelScan.coordinatorStep at hs
  cases hc : s.coordinator with
  | idle => rw [hc] at hs; cases hs
  | draining results =>
    rw [hc] at hs
    cases hr : s.resultQueue with
    | cons c queue =>
      rw [hr] at hs
      obtain rfl := Option.some.inj hs
      exact Or.inl ⟨_, rfl⟩
    | nil =>
      rw [hr] at hs
      dsimp only at hs
      split_ifs at hs
      all_goals
        obtain rfl := Option.some.inj hs
        exact Or.inr rfl
  | emitting results rest =>
    have hr : s.resultQueue = [] := h.drained.resolve_left (by rw [hc]; simp)
    rw [hc] at hs
    cases rest with
    | nil | cons =>
      obtain rfl := Option.some.inj hs
      exact Or.inr hr

theorem LastDrain.step (h : LastDrain accepted s) {l : Label n} (hl : ∀ i e, l ≠ .raise i e)
    (hs : ParallelScan.step cfg s l = some s') : LastDrain accepted s' := by
  have hended := h.toEnded.step hl hs
  refine ⟨hended, ?_⟩
  cases l with
  | submit addr =>
    rw [ParallelScan.step] at hs
    split_ifs at hs with hc
    rw [h.stopped] at hc
    cases hc.2
  | stop =>
    rw [ParallelScan.step] at hs
    split_ifs at hs
    obtain rfl := Option.some.inj hs
    exact h.drained
  | drain => exact (h.toEnded.lastDrain hs).drained
  | coordinator => exact h.coordinatorStep hs
  | worker i =>
    rw [ParallelScan.step, ParallelScan.workerStep, h.returned i] at hs
    cases hs
  | raise i e => exact absurd rfl (hl i e)

theorem LastDrain.exec {ls : List (Label n)} (h : LastDrain accepted s) (hno : NoRaise ls)
    (hs : ParallelScan.exec cfg ls s = some s') : LastDrain accepted s' :=
  exec_induction_of_noRaise (fun _ _ _ hl h hs => h.step hl hs) hno h hs

end Steps

theorem exec_append (cfg : Config) : ∀ (ls : List (Label n)) {ls' : List (Label n)} {s : State n},
    exec cfg (ls ++ ls') s = (exec cfg ls s).bind (exec cfg ls')
  | [], _, _ => rfl
  | l :: ls, ls', s => by
    rw [List.cons_append, exec, exec, Option.bind_assoc]
    exact congrArg _ (funext fun _ => exec_append cfg ls)

/-- What an enabled step leads to, the schedule that goes on with it leads to. -/
theorem exec_cons {cfg : Config} {s s₁ s₂ : State n} {l : Label n} {ls : List (Label n)}
    (hs : step cfg s l = some s₁) (hs₁ : exec cfg ls s₁ = some s₂) :
    exec cfg (l :: ls) s = some s₂ := by
  rw [exec, hs, Option.bind_some, hs₁]

/-- **The events of a drain are emitted**, and the call returns. -/
theorem exists_idle_of_emitting (cfg : Config) : ∀ (rest : List ℕ) {s : State n} {results : List ℕ},
    s.coordinator = .emitting results rest →
      ∃ k s', exec cfg (List.replicate k .coordinator) s = some s' ∧ s'.coordinator = .idle
  | [], s, results, hc => by
    have hstep : step cfg s .coordinator =
        some { s with coordinator := .idle, drained := s.drained ++ [results] } := by
      rw [step, coordinatorStep, hc]
    exact ⟨1, _, exec_cons hstep rfl, rfl⟩
  | addr :: rest, s, results, hc => by
    have hstep : step cfg s .coordinator = some
        { s with coordinator := .emitting results rest, emitted := s.emitted ++ [addr] } := by
      rw [step, coordinatorStep, hc]
    obtain ⟨k, s', hs', hidle⟩ := exists_idle_of_emitting cfg rest (s :=
      { s with coordinator := .emitting results rest, emitted := s.emitted ++ [addr] }) rfl
    exact ⟨k + 1, s', exec_cons hstep hs', hidle⟩

/-- **A drain takes what is on the queue**, and goes on to its end. -/
theorem exists_idle_of_draining (cfg : Config) : ∀ (queue : List ℕ) {s : State n} {results : List ℕ},
    s.resultQueue = queue → s.coordinator = .draining results →
      ∃ k s', exec cfg (List.replicate k .coordinator) s = some s' ∧ s'.coordinator = .idle
  | [], s, results, hq, hc => by
    by_cases hhooks : cfg.hooks = true
    · have hstep : step cfg s .coordinator =
          some { s with coordinator := .emitting results results } := by
        simp [step, coordinatorStep, hc, hq, hhooks]
      obtain ⟨k, s', hs', hidle⟩ := exists_idle_of_emitting cfg results (s :=
        { s with coordinator := .emitting results results }) rfl
      exact ⟨k + 1, s', exec_cons hstep hs', hidle⟩
    · have hstep : step cfg s .coordinator =
          some { s with coordinator := .idle, drained := s.drained ++ [results] } := by
        simp [step, coordinatorStep, hc, hq, hhooks]
      exact ⟨1, _, exec_cons hstep rfl, rfl⟩
  | c :: queue, s, results, hq, hc => by
    have hstep : step cfg s .coordinator = some
        { s with resultQueue := queue, coordinator := .draining (results ++ [c]) } := by
      simp [step, coordinatorStep, hc, hq]
    obtain ⟨k, s', hs', hidle⟩ := exists_idle_of_draining cfg queue (s :=
      { s with resultQueue := queue, coordinator := .draining (results ++ [c]) }) rfl rfl
    exact ⟨k + 1, s', exec_cons hstep hs', hidle⟩

/-- **A call of `drain_results` returns** if the coordinator goes on. -/
theorem exists_idle (cfg : Config) (s : State n) :
    ∃ k s', exec cfg (List.replicate k .coordinator) s = some s' ∧ s'.coordinator = .idle := by
  cases hc : s.coordinator with
  | idle => exact ⟨0, s, rfl, hc⟩
  | draining results => exact exists_idle_of_draining cfg s.resultQueue rfl hc
  | emitting results rest => exact exists_idle_of_emitting cfg rest hc

/-! ### The result -/

/-- **A parallel scan gives what its addresses give one by one**: in every schedule in which no
worker raises, when all workers have returned the values put on the result queue are those of the
accepted addresses. Whatever comes after, a call of `drain_results` returns if the coordinator goes on,
and when one has been called since, all calls together have returned each value once, and emitted an
event for each if there is a hook framework. -/
theorem parallel_eq_sequential (cfg : Config) (hn : 1 ≤ n) (ls : List (Label n)) (s : State n)
    (hno : NoRaise ls) (hs : exec cfg ls .init = some s) (hret : AllReturned s) :
    (s.put : Multiset ℕ) = sequential cfg s.accepted ∧
      ∀ ls' s', NoRaise ls' → exec cfg ls' s = some s' →
        (∃ k s'', exec cfg (List.replicate k .coordinator) s' = some s'' ∧
          s''.coordinator = .idle) ∧
        (.drain ∈ ls' → s'.coordinator = .idle →
          (s'.drained.flatten : Multiset ℕ) = sequential cfg s.accepted ∧
            s'.emitted = if cfg.hooks then s'.drained.flatten else []) := by
  have hinv : Inv cfg s := (inv_init cfg).exec hno hs
  refine ⟨hinv.put_eq hn hret, fun ls' s' hno' hs' => ⟨exists_idle cfg s', fun hdrain hidle => ?_⟩⟩
  have hended : Ended s.accepted s :=
    ⟨hret, hinv.stopped ⟨0, hn⟩ (by rw [hret]; trivial), rfl⟩
  have hinv' : Inv cfg s' := hinv.exec hno' hs'
  -- what comes before the call leaves what has ended, and what comes behind it the last drain
  obtain ⟨ls₁, ls₂, rfl⟩ := List.append_of_mem hdrain
  rw [exec_append] at hs'
  obtain ⟨s₁, h₁, h₂⟩ := Option.bind_eq_some_iff.mp hs'
  obtain ⟨s₂, hstep, h₃⟩ := Option.bind_eq_some_iff.mp h₂
  have hno₁ : NoRaise ls₁ := fun i e he => hno' i e (List.mem_append_left _ he)
  have hno₂ : NoRaise ls₂ := fun i e he =>
    hno' i e (List.mem_append_right _ (List.mem_cons_of_mem _ he))
  have hlast : LastDrain s.accepted s' := ((hended.exec hno₁ h₁).lastDrain hstep).exec hno₂ h₃
  have hqueue : s'.resultQueue = [] := hlast.drained.resolve_left (by rw [hidle]; simp)
  have hput : s'.put = s'.drained.flatten := by
    have hq := hinv'.queue
    rw [hidle, hqueue] at hq
    simpa [taken] using hq
  have hevents := hinv'.events
  rw [hidle] at hevents
  refine ⟨?_, by simpa [toEmit, emitting] using hevents⟩
  rw [← hput, hinv'.put_eq hn hlast.returned, hlast.accepted]

/-- A dump whose first word is an address in it. -/
def sampleConfig : Config := ⟨[0, 0x10, 0, 0, 0, 0, 0, 0] ++ List.replicate 4096 0, 8, 256, true⟩

/-- Two workers; the second takes the address after the stop event is set. -/
def sampleSchedule : List (Label 2) :=
  [.submit 0, .worker 1, .worker 1, .stop, .worker 1, .worker 1, .worker 1, .worker 1, .worker 1,
    .worker 0, .worker 0, .worker 0, .worker 0]

theorem processAddress_sample : processAddress sampleConfig.dump 0 sampleConfig.windowSize
    sampleConfig.dump.length = [0x1000] := by
  have hread : readAt sampleConfig.dump 0 8 = [0, 0x10, 0, 0, 0, 0, 0, 0] := rfl
  have hlen : sampleConfig.dump.length = 4104 := by
    rw [sampleConfig, List.length_append, List.length_replicate]
    rfl
  have hword : frombuffer [0, 0x10, 0, 0, 0, 0, 0, 0] = [0x1000] := by decide
  rw [hlen, show sampleConfig.windowSize = 8 from rfl, processAddress, if_neg (by decide)]
  simp [hread, hword]

/-- The last drain: one value is taken and its event emitted. -/
def drainSchedule : List (Label 2) :=
  [.drain, .coordinator, .coordinator, .coordinator, .coordinator]

theorem parallel_eq_sequential_sample : ∃ s s', exec sampleConfig sampleSchedule .init = some s ∧
    exec sampleConfig drainSchedule s = some s' ∧
    s.put = [0x1000] ∧ (s.put : Multiset ℕ) = sequential sampleConfig s.accepted ∧
    s'.drained = [[0x1000]] ∧
    (s'.drained.flatten : Multiset ℕ) = sequential sampleConfig s.accepted ∧
    s'.emitted = [0x1000] := by
  let s : State 2 := ⟨[], true, fun _ => .exited 0, [0x1000], .idle, [0], [0x1000], [], []⟩
  let s' : State 2 := ⟨[], true, fun _ => .exited 0, [], .idle, [0], [0x1000], [[0x1000]], [0x1000]⟩
  have hs : exec sampleConfig sampleSchedule .init = some s := by
    have hcap : sampleConfig.capacity = 256 := rfl
    have hproc := processAddress_sample
    simp [sampleSchedule, exec, step, submit, workerStep, proceed, State.init, hproc, hcap, s]
    funext i
    fin_cases i <;> rfl
  have hs' : exec sampleConfig drainSchedule s = some s' := rfl
  obtain ⟨hput, hafter⟩ := parallel_eq_sequential sampleConfig (by decide) sampleSchedule s
    (by intro i e; simp [sampleSchedule]) hs fun _ => rfl
  obtain ⟨hdrained, -⟩ := (hafter drainSchedule s' (by intro i e; simp [drainSchedule]) hs').2
    (by simp [drainSchedule]) rfl
  exact ⟨s, s', hs, hs', rfl, hput, rfl, hdrained, rfl⟩

end VantaCore.Core.Scanner.ParallelScan
