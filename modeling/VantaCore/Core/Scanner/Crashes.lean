import VantaCore.Core.Scanner.ParallelScan

/-! # A parallel scan with crashes

A worker may raise at any point, and the address it has in hand is then lost with the values it has
not put. Nothing else is: every accepted address is done with, in hand, lost or still in the ring,
and the result queue has got everything of the addresses that are done with and part of what the
others give (`Account`). A worker raises at most once, so a scan loses at most one address for each
exception, and as long as one worker does not raise the ring is emptied (`crash_loses_one_each`). -/

namespace VantaCore.Core.Scanner.Crashes

open VantaCore.Core.DumpHandle VantaCore.Core.Scanner.Worker VantaCore.Core.Scanner.ParallelScan

variable {n : ℕ}

/-- What the addresses give. -/
def found (cfg : Config) (addrs : Multiset ℕ) : Multiset ℕ :=
  addrs.bind fun addr => (processAddress cfg.dump addr cfg.windowSize cfg.dump.length : Multiset ℕ)

/-- The exceptions of a schedule. -/
def raises (ls : List (Label n)) : ℕ :=
  ls.countP fun
    | .raise _ _ => true
    | _ => false

/-- The workers in `dead` have ended by an exception; the others drain the ring only after the stop
event is set, and end when the ring is empty. -/
structure Ended (workers : Fin n → WorkerPc) (stopEvent : Bool) (ring : List ℕ)
    (dead : Finset (Fin n)) : Prop where
  exited : ∀ i ∈ dead, ∃ code, workers i = .exited code
  stopped : ∀ i ∉ dead, Draining (workers i) → stopEvent = true
  empty : ∀ i ∉ dead, ∀ code, workers i = .exited code → ring = []

/-- **Where every accepted address is**: done with, with a worker, lost, or in the ring. A worker is
with one address at most; what it has put of it and what it has in hand is what the address gives. -/
structure Account (cfg : Config) (k : ℕ) (s : State n) (done lost part : Multiset ℕ)
    (hand given : Fin n → Multiset ℕ) (dead : Finset (Fin n)) : Prop where
  accepted : (s.accepted : Multiset ℕ) = done + ∑ i, hand i + lost + (s.ring : Multiset ℕ)
  put : (s.put : Multiset ℕ) = found cfg done + ∑ i, given i + part
  hand_eq : ∀ i, found cfg (hand i) = given i + (inHand (s.workers i) : Multiset ℕ)
  hand_le : ∀ i, (hand i).card ≤ 1
  part_le : part ≤ found cfg lost
  lost_le : lost.card ≤ k
  dead_le : dead.card ≤ k
  ended : Ended s.workers s.stopEvent s.ring dead
  queue : s.put = s.drained.flatten ++ taken s.coordinator ++ s.resultQueue

section Found

variable (cfg : Config)

@[simp] theorem found_zero : found cfg 0 = 0 := Multiset.zero_bind _

theorem found_add (a b : Multiset ℕ) : found cfg (a + b) = found cfg a + found cfg b :=
  Multiset.add_bind _ _ _

theorem found_singleton (addr : ℕ) : found cfg {addr} =
    (processAddress cfg.dump addr cfg.windowSize cfg.dump.length : Multiset ℕ) :=
  Multiset.singleton_bind _ _

end Found

/-- A sum after one summand has changed. -/
theorem sum_update_add (f : Fin n → Multiset ℕ) (i : Fin n) (a : Multiset ℕ) :
    ∑ j, Function.update f i a j + f i = ∑ j, f j + a := by
  rw [Finset.sum_update_of_mem (Finset.mem_univ i),
    ← Finset.add_sum_erase Finset.univ f (Finset.mem_univ i), Finset.sdiff_singleton_eq_erase]
  abel

theorem account_init (cfg : Config) :
    Account cfg 0 (State.init : State n) 0 0 0 (fun _ => 0) (fun _ => 0) ∅ where
  accepted := by simp [State.init]
  put := by simp [State.init]
  hand_eq _ := rfl
  hand_le _ := Nat.zero_le _
  part_le := le_rfl
  lost_le := le_rfl
  dead_le := le_rfl
  ended := ⟨fun _ hi => (by cases hi), fun _ _ hi => (by cases hi), fun _ _ _ hi => (by cases hi)⟩
  queue := rfl

/-- A worker that has not raised takes a step. -/
theorem Ended.update {workers : Fin n → WorkerPc} {stopEvent : Bool} {ring ring' : List ℕ}
    {dead : Finset (Fin n)} (h : Ended workers stopEvent ring dead) {i : Fin n} (hlive : i ∉ dead)
    {pc : WorkerPc} (hdrain : Draining pc → Draining (workers i) ∨ stopEvent = true)
    (hexit : ∀ code, pc = .exited code → ring' = []) (hring : ring = [] → ring' = []) :
    Ended (Function.update workers i pc) stopEvent ring' dead where
  exited j hj := by
    have hji : j ≠ i := fun he => hlive (he ▸ hj)
    rw [Function.update_of_ne hji]
    exact h.exited j hj
  stopped j hj hdr := by
    by_cases hji : j = i
    · subst hji
      rw [Function.update_self] at hdr
      exact (hdrain hdr).elim (h.stopped j hj) id
    · rw [Function.update_of_ne hji] at hdr
      exact h.stopped j hj hdr
  empty j hj code hcode := by
    by_cases hji : j = i
    · subst hji
      exact hexit code (by simpa using hcode)
    · rw [Function.update_of_ne hji] at hcode
      exact hring (h.empty j hj code hcode)

section Steps

variable {cfg : Config} {k : ℕ} {s s' : State n} {done lost part : Multiset ℕ}
  {hand given : Fin n → Multiset ℕ} {dead : Finset (Fin n)}

theorem Account.submit (h : Account cfg k s done lost part hand given dead) (addr : ℤ)
    (hstop : s.stopEvent = false) :
    Account cfg k (submit cfg s addr) done lost part hand given dead := by
  unfold ParallelScan.submit
  split_ifs
  · exact h
  · exact h
  · refine { h with
      accepted := ?_, ended := ⟨h.ended.exited, h.ended.stopped, fun i hi code hcode => ?_⟩ }
    · rw [← Multiset.coe_add, h.accepted, ← Multiset.coe_add]
      abel
    · have hd : Draining (s.workers i) := by
        rw [show s.workers i = .exited code from hcode]
        trivial
      rw [h.ended.stopped i hi hd] at hstop
      cases hstop

theorem Account.coordinatorStep (h : Account cfg k s done lost part hand given dead)
    (hs : coordinatorStep cfg s = some s') :
    Account cfg k s' done lost part hand given dead := by
  have hq := h.queue
  unfold ParallelScan.coordinatorStep at hs
  cases hc : s.coordinator with
  | idle => rw [hc] at hs; cases hs
  | draining results =>
    rw [hc] at hs hq
    cases hr : s.resultQueue with
    | cons c queue =>
      rw [hr] at hs hq
      obtain rfl := Option.some.inj hs
      exact { h with queue := by simpa [taken] using hq }
    | nil =>
      rw [hr] at hs hq
      dsimp only at hs
      split_ifs at hs
      · obtain rfl := Option.some.inj hs
        exact { h with queue := by simpa [taken, hr] using hq }
      · obtain rfl := Option.some.inj hs
        exact { h with queue := by simpa [taken, hr] using hq }
  | emitting results rest =>
    rw [hc] at hs hq
    cases rest with
    | cons addr rest =>
      obtain rfl := Option.some.inj hs
      exact { h with queue := hq }
    | nil =>
      obtain rfl := Option.some.inj hs
      exact { h with queue := by simpa [taken] using hq }

/-- The worker puts a value or moves on. -/
theorem Account.proceed (h : Account cfg k s done lost part hand given dead) {i : Fin n}
    {pc : WorkerPc} {out : Option ℕ} (hhand : inHand (s.workers i) = out.toList ++ inHand pc)
    (hdrain : Draining pc → Draining (s.workers i) ∨ s.stopEvent = true)
    (hexit : ∀ code, pc = .exited code → s.ring = []) (hlive : i ∉ dead) :
    Account cfg k { s with
        workers := Function.update s.workers i pc
        resultQueue := s.resultQueue ++ out.toList
        put := s.put ++ out.toList }
      done lost part hand
      (Function.update given i (given i + (out.toList : Multiset ℕ))) dead := by
  have hsum := sum_update_add given i (given i + (out.toList : Multiset ℕ))
  refine { h with
    put := ?_, hand_eq := fun j => ?_, ended := h.ended.update hlive hdrain hexit id, queue := ?_ }
  · rw [← add_assoc, add_right_comm] at hsum
    rw [← Multiset.coe_add, h.put, add_right_cancel hsum]
    abel
  · dsimp only
    by_cases hji : j = i
    · subst hji
      rw [h.hand_eq, hhand, Function.update_self, Function.update_self, ← Multiset.coe_add]
      abel
    · rw [Function.update_of_ne hji, Function.update_of_ne hji]
      exact h.hand_eq j
  · dsimp only
    rw [h.queue, List.append_assoc]

/-- The worker is done with the address it was with, and takes the next. -/
theorem Account.take (h : Account cfg k s done lost part hand given dead) {i : Fin n}
    {pc : WorkerPc} {addr : ℕ} {ring : List ℕ} (hring : s.ring = addr :: ring)
    (hhand : inHand (s.workers i) = [])
    (hnew : inHand pc = processAddress cfg.dump addr cfg.windowSize cfg.dump.length)
    (hdrain : Draining pc → Draining (s.workers i)) (hexit : ∀ code, pc ≠ .exited code)
    (hlive : i ∉ dead) :
    Account cfg k { s with ring := ring, workers := Function.update s.workers i pc }
      (done + hand i) lost part (Function.update hand i {addr}) (Function.update given i 0)
      dead := by
  have hdone : found cfg (hand i) = given i := by
    rw [h.hand_eq, hhand, Multiset.coe_nil, add_zero]
  have hsumHand := sum_update_add hand i {addr}
  have hsumGiven := sum_update_add given i 0
  refine { h with
    accepted := ?_, put := ?_, hand_eq := fun j => ?_, hand_le := fun j => ?_,
    ended := h.ended.update hlive (fun hdr => Or.inl (hdrain hdr))
      (fun code hcode => absurd hcode (hexit code)) (fun hnil => ?_) }
  · have hacc := h.accepted
    rw [hring, ← Multiset.cons_coe, ← Multiset.singleton_add] at hacc
    calc (s.accepted : Multiset ℕ)
        = done + (∑ j, hand j + {addr}) + lost + (ring : Multiset ℕ) := by rw [hacc]; abel
      _ = done + hand i + ∑ j, Function.update hand i {addr} j + lost + (ring : Multiset ℕ) := by
        rw [← hsumHand]; abel
  · rw [add_zero] at hsumGiven
    calc (s.put : Multiset ℕ) = found cfg done + ∑ j, given j + part := h.put
      _ = found cfg (done + hand i) + ∑ j, Function.update given i 0 j + part := by
        rw [← hsumGiven, found_add, hdone]; abel
  · dsimp only
    by_cases hji : j = i
    · subst hji
      rw [Function.update_self, Function.update_self, Function.update_self, hnew, found_singleton,
        zero_add]
    · rw [Function.update_of_ne hji, Function.update_of_ne hji, Function.update_of_ne hji]
      exact h.hand_eq j
  · by_cases hji : j = i
    · subst hji
      simp
    · rw [Function.update_of_ne hji]
      exact h.hand_le j
  · rw [hring] at hnil
    cases hnil

theorem Account.workerStep (h : Account cfg k s done lost part hand given dead) {i : Fin n}
    (hs : workerStep cfg s i = some s') :
    ∃ done hand given, Account cfg k s' done lost part hand given dead := by
  obtain ⟨⟨pc, ring, out⟩, hp, rfl⟩ := Option.map_eq_some_iff.mp hs
  -- a worker that has raised has exited, and takes no step
  have hlive : i ∉ dead := by
    intro hi
    obtain ⟨code, hcode⟩ := h.ended.exited i hi
    rw [hcode] at hp
    cases hp
  rcases proceed_cases hp with
    ⟨rfl, hhand, hdrain, hexit⟩ | ⟨addr, hring, hhand, rfl, hnew, hdrain, hexit⟩
  · exact ⟨_, _, _, h.proceed hhand hdrain hexit hlive⟩
  · have htake := h.take hring hhand hnew hdrain hexit hlive
    exact ⟨_, _, _, by simpa using htake⟩

/-- **An exception loses the address the worker is with.** -/
theorem Account.raise (h : Account cfg k s done lost part hand given dead) {i : Fin n} {e : Exc}
    (hs : step cfg s (.raise i e) = some s') :
    Account cfg (k + 1) s' done (lost + hand i) (part + given i) (Function.update hand i 0)
      (Function.update given i 0) (insert i dead) := by
  obtain ⟨how, hhow, rfl⟩ := Option.map_eq_some_iff.mp hs
  have hsumHand := sum_update_add hand i 0
  have hsumGiven := sum_update_add given i 0
  have hle := h.hand_le i
  have hlost := h.lost_le
  constructor
  · rw [add_zero] at hsumHand
    calc (s.accepted : Multiset ℕ) = done + ∑ j, hand j + lost + (s.ring : Multiset ℕ) := h.accepted
      _ = done + ∑ j, Function.update hand i 0 j + (lost + hand i) + (s.ring : Multiset ℕ) := by
        rw [← hsumHand]; abel
  · rw [add_zero] at hsumGiven
    calc (s.put : Multiset ℕ) = found cfg done + ∑ j, given j + part := h.put
      _ = found cfg done + ∑ j, Function.update given i 0 j + (part + given i) := by
        rw [← hsumGiven]; abel
  · intro j
    dsimp only
    by_cases hji : j = i
    · subst hji
      simp [inHand]
    · rw [Function.update_of_ne hji, Function.update_of_ne hji, Function.update_of_ne hji]
      exact h.hand_eq j
  · intro j
    by_cases hji : j = i
    · subst hji
      simp
    · rw [Function.update_of_ne hji]
      exact h.hand_le j
  · rw [found_add]
    refine add_le_add h.part_le ?_
    rw [h.hand_eq]
    exact Multiset.le_add_right _ _
  · rw [Multiset.card_add]
    omega
  · have hcard := Finset.card_insert_le i dead
    have hdead := h.dead_le
    omega
  · refine ⟨fun j hj => ?_, fun j hj hdr => ?_, fun j hj code hcode => ?_⟩
    · dsimp only
      by_cases hji : j = i
      · subst hji
        exact ⟨_, Function.update_self ..⟩
      · rw [Function.update_of_ne hji]
        exact h.ended.exited j ((Finset.mem_insert.mp hj).resolve_left hji)
    · rw [Finset.mem_insert, not_or] at hj
      dsimp only at hdr
      rw [Function.update_of_ne hj.1] at hdr
      exact h.ended.stopped j hj.2 hdr
    · rw [Finset.mem_insert, not_or] at hj
      dsimp only at hcode
      rw [Function.update_of_ne hj.1] at hcode
      exact h.ended.empty j hj.2 code hcode
  · exact h.queue

end Steps

/-! ### Whole scans -/

/-- Every accepted address is accounted for after at most `k` exceptions. -/
def Accounted (cfg : Config) (k : ℕ) (s : State n) : Prop :=
  ∃ done lost part hand given dead, Account cfg k s done lost part hand given dead

theorem Accounted.step {cfg : Config} {k : ℕ} {s s' : State n} (h : Accounted cfg k s)
    {l : Label n} (hs : step cfg s l = some s') : Accounted cfg (k + raises [l]) s' := by
  obtain ⟨done, lost, part, hand, given, dead, h⟩ := h
  cases l with
  | submit addr =>
    rw [ParallelScan.step] at hs
    split_ifs at hs with hc
    obtain rfl := Option.some.inj hs
    exact ⟨_, _, _, _, _, _, h.submit addr hc.2⟩
  | stop =>
    rw [ParallelScan.step] at hs
    split_ifs at hs
    obtain rfl := Option.some.inj hs
    exact ⟨_, _, _, _, _, _, { h with ended := ⟨h.ended.exited, fun _ _ _ => rfl, h.ended.empty⟩ }⟩
  | drain =>
    rw [ParallelScan.step] at hs
    split_ifs at hs with hc
    obtain rfl := Option.some.inj hs
    have hq := h.queue
    rw [hc] at hq
    exact ⟨_, _, _, _, _, _, { h with queue := hq }⟩
  | coordinator => exact ⟨_, _, _, _, _, _, h.coordinatorStep hs⟩
  | worker i =>
    obtain ⟨done, hand, given, h'⟩ := h.workerStep hs
    exact ⟨_, _, _, _, _, _, h'⟩
  | raise i e => exact ⟨_, _, _, _, _, _, h.raise hs⟩

theorem Accounted.exec {cfg : Config} : ∀ {ls : List (Label n)} {k : ℕ} {s s' : State n},
    Accounted cfg k s → exec cfg ls s = some s' → Accounted cfg (k + raises ls) s'
  | [], k, s, s', h, hs => by
    obtain rfl := Option.some.inj hs
    exact h
  | l :: ls, k, s, s', h, hs => by
    obtain ⟨s₁, h₁, h₂⟩ := Option.bind_eq_some_iff.mp hs
    have hstep := Accounted.exec (h.step h₁) h₂
    have hraises : raises (l :: ls) = raises [l] + raises ls := by
      simp only [raises, List.countP_cons, List.countP_nil]
      omega
    rwa [hraises, ← Nat.add_assoc]

/-- Two workers with an address each; the second raises before it has put the value it has in
hand. -/
def crashSchedule (first second : Fin n) : List (Label n) :=
  [.submit 0, .submit 0, .worker second, .worker second, .worker second, .worker second,
    .raise second .exception, .stop] ++ List.replicate 7 (.worker first)

end VantaCore.Core.Scanner.Crashes
