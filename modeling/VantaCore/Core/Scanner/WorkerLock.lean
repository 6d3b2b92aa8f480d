import VantaCore.Core.Scanner.Delivery

/-! # Workers that share a lock

`SharedMemoryRingBuffer` takes a lock, so that handles can share one. A party is inside its call
exactly while it holds the lock of its handle (`Locked`), and so workers that share a lock are inside
one at a time: together they do what one worker does that starts a call when one of them gets the
lock (`Collapses`, `Collapses.exec`). What is known of one worker therefore holds of all of them.
Whose lock the coordinator holds makes no difference (`deliversOnce_iff_sharedLock`). -/

namespace VantaCore.Core.Scanner.WorkerLock

open VantaCore.Lib.RingQueue VantaCore.Core.Scanner.RingBuffer VantaCore.Core.Scanner.Spsc
open VantaCore.Core.Scanner.Delivery

/-! ### The kinds of steps -/

section Steps

variable {n : ℕ}

/-- The point behind the lock, of a call that asks for it. -/
def entered : Pc → Option Pc
  | .putAcquire addr => some (.putReadHead addr)
  | .getAcquire => some .getReadHead
  | _ => none

/-- The result of a call that is to give the lock back. -/
def returned (p : Party n) : Pc → Option (Event n)
  | .putRelease addr res => some (.putRet addr res)
  | .getRelease res => some (.getRet p res)
  | _ => none

/-- The point is behind the lock. -/
def Inside : Pc → Prop
  | .idle | .putAcquire _ | .getAcquire => False
  | _ => True

/-- The ring and the point after a step that neither gets the lock nor gives it back. -/
def access (m : Shm) : Pc → Shm × Pc
  | .putReadHead addr => (m, .putReadTail addr m.head)
  | .putReadTail addr head => (m, .putReadCap addr head m.tail)
  | .putReadCap addr head tail =>
    (m, if (tail + 1) % m.capacity = head then .putRelease addr false
      else .putWriteSlot addr tail ((tail + 1) % m.capacity))
  | .putWriteSlot addr tail nextTail =>
    ({ m with data := Function.update m.data tail addr }, .putWriteTail addr nextTail)
  | .putWriteTail addr nextTail => ({ m with tail := nextTail }, .putRelease addr true)
  | .getReadHead => (m, .getReadTail m.head)
  | .getReadTail head => (m, .getReadCap head m.tail)
  | .getReadCap head tail =>
    (m, if head = tail then .getRelease none else .getReadSlot head m.capacity)
  | .getReadSlot head cap => (m, .getWriteHead (m.data head) ((head + 1) % cap))
  | .getWriteHead addr nextHead => ({ m with head := nextHead }, .getRelease (some addr))
  | pc => (m, pc)

@[simp] theorem not_inside_idle : ¬ Inside .idle := id

@[simp] theorem inside_getReadHead : Inside .getReadHead := trivial

theorem access_putReadCap (m : Shm) (addr : UInt64) (head tail : ℕ) :
    access m (.putReadCap addr head tail) =
      (m, if (tail + 1) % m.capacity = head then .putRelease addr false
        else .putWriteSlot addr tail ((tail + 1) % m.capacity)) := rfl

theorem access_getReadCap (m : Shm) (head tail : ℕ) :
    access m (.getReadCap head tail) =
      (m, if head = tail then .getRelease none else .getReadSlot head m.capacity) := rfl

/-- What a step of a call does: it gets the lock, reads, computes and writes behind it, or gives it
back. -/
inductive TickStep (lockOf : Party n → ℕ) (s : State n) (p : Party n) : State n → Prop where
  | enter {pc : Pc} (hpc : entered (s.pc p) = some pc) (hfree : s.holder (lockOf p) = none) :
      TickStep lockOf s p
        ({ s with holder := Function.update s.holder (lockOf p) (some p) }.goto p pc)
  | access (hin : Inside (s.pc p)) (hret : returned p (s.pc p) = none) :
      TickStep lockOf s p ({ s with shm := (access s.shm (s.pc p)).1 }.goto p
        (access s.shm (s.pc p)).2)
  | ret {e : Event n} (hpc : returned p (s.pc p) = some e) :
      TickStep lockOf s p (((s.release (lockOf p)).emit e).goto p .idle)

theorem tick_iff {lockOf : Party n → ℕ} {s s' : State n} {p : Party n} :
    tick lockOf s p = some s' ↔ TickStep lockOf s p s' := by
  constructor
  · intro hs
    unfold tick at hs
    cases hpc : s.pc p <;> rw [hpc] at hs
    case idle => cases hs
    case putAcquire | getAcquire =>
      obtain ⟨s₁, h₁, rfl⟩ := Option.map_eq_some_iff.mp hs
      unfold State.acquire at h₁
      split_ifs at h₁ with hfree
      obtain rfl := Option.some.inj h₁
      exact .enter (by rw [hpc]; rfl) hfree
    case putRelease | getRelease =>
      obtain rfl := Option.some.inj hs
      exact .ret (by rw [hpc]; rfl)
    all_goals
      obtain rfl := Option.some.inj hs
      have h := @TickStep.access n lockOf s p (by rw [hpc]; trivial) (by rw [hpc]; rfl)
      rw [hpc] at h
      exact h
  · intro h
    unfold tick
    cases h with
    | enter hpc hfree =>
      cases hp : s.pc p <;> rw [hp] at hpc <;> cases hpc <;> simp [State.acquire, hfree]
    | access hin hret =>
      cases hp : s.pc p <;> rw [hp] at hin hret <;> first | rfl | exact hin.elim | cases hret
    | ret hpc => cases hp : s.pc p <;> rw [hp] at hpc <;> cases hpc <;> rfl

end Steps

/-! ### Mutual exclusion -/

section Locked

variable {n : ℕ} {lockOf : Party n → ℕ} {s s' : State n}

/-- **A party is inside its call exactly while it holds its lock.** -/
def Locked (lockOf : Party n → ℕ) (s : State n) : Prop :=
  ∀ p, Inside (s.pc p) ↔ s.holder (lockOf p) = some p

theorem inside_of_entered {pc pc' : Pc} (h : entered pc = some pc') : ¬ Inside pc ∧ Inside pc' := by
  cases pc <;> cases h <;> exact ⟨id, trivial⟩

theorem inside_of_returned {p : Party n} {pc : Pc} {e : Event n} (h : returned p pc = some e) :
    Inside pc := by
  cases pc <;> trivial

theorem inside_access {pc : Pc} (m : Shm) (hin : Inside pc) : Inside (access m pc).2 := by
  cases pc with
  | putReadCap =>
    rw [access_putReadCap]
    dsimp only
    split_ifs <;> trivial
  | getReadCap =>
    rw [access_getReadCap]
    dsimp only
    split_ifs <;> trivial
  | _ => trivial

/-- Two parties with one lock are not inside at once. -/
theorem Locked.eq_of_inside (h : Locked lockOf s) {p q : Party n} (hl : lockOf p = lockOf q)
    (hp : Inside (s.pc p)) (hq : Inside (s.pc q)) : p = q := by
  have hp := (h p).mp hp
  have hq := (h q).mp hq
  rw [hl, hq] at hp
  exact (Option.some.inj hp).symm

theorem Locked.tick (h : Locked lockOf s) {p : Party n} (hs : TickStep lockOf s p s') :
    Locked lockOf s' := by
  intro q
  have hq := h q
  have hp := h p
  by_cases hqp : q = p
  · subst hqp
    cases hs with
    | enter hpc hfree => simpa [State.goto] using (inside_of_entered hpc).2
    | access hin hret =>
      simp only [State.goto, Function.update_self]
      exact iff_of_true (inside_access _ hin) (hp.mp hin)
    | ret hpc => simp [State.goto, State.emit, State.release]
  · have hother : ∀ pc, Function.update s.pc p pc q = s.pc q :=
      fun pc => Function.update_of_ne hqp _ _
    by_cases hl : lockOf q = lockOf p
    · cases hs with
      | enter hpc hfree =>
        rw [hl, hfree] at hq
        simp only [State.goto, hother, hl, Function.update_self, hq]
        exact iff_of_false (by simp) (by simpa using Ne.symm hqp)
      | access hin hret => simpa only [State.goto, hother] using hq
      | ret hpc =>
        rw [hl, hp.mp (inside_of_returned hpc)] at hq
        simp only [State.goto, State.emit, State.release, hother, hl, Function.update_self, hq]
        exact iff_of_false (by simpa using Ne.symm hqp) (by simp)
    · cases hs with
      | enter | access | ret =>
        simpa only [State.goto, State.emit, State.release, hother, Function.update_of_ne hl]
          using hq

theorem Locked.step (h : Locked lockOf s) {l : Label n} (hs : step lockOf s l = some s') :
    Locked lockOf s' := by
  have hcall : ∀ (e : Event n) (p : Party n) (pc : Pc), s.pc p = .idle → ¬ Inside pc →
      Locked lockOf ((s.emit e).goto p pc) := by
    intro e p pc hidle hpc q
    have hq := h q
    by_cases hqp : q = p
    · subst hqp
      rw [hidle] at hq
      simp only [State.goto, State.emit, Function.update_self]
      exact iff_of_false hpc (fun hh => hq.mpr hh)
    · simpa only [State.goto, State.emit, Function.update_of_ne hqp] using hq
  cases l with
  | put addr =>
    rw [RingBuffer.step] at hs
    split_ifs at hs with hidle
    obtain rfl := Option.some.inj hs
    exact hcall _ _ _ hidle id
  | get i =>
    rw [RingBuffer.step] at hs
    split_ifs at hs with hidle
    obtain rfl := Option.some.inj hs
    exact hcall _ _ _ hidle id
  | tick p => exact h.tick (tick_iff.mp hs)

theorem locked_init (lockOf : Party n → ℕ) (shm : Shm) : Locked lockOf (.init shm) :=
  fun _ => iff_of_false id (by simp [State.init])

end Locked

/-! ### One worker for all -/

section Collapses

variable {n : ℕ} {lockOf : Party n → ℕ} {lock : ℕ} {s s' : State n} {t : State 1}

/-- The one worker stands for every worker. -/
def one : Party n → Party 1
  | .coordinator => .coordinator
  | .worker _ => worker

/-- The locks of the coordinator and of the one worker. -/
def locks (lockOf : Party n → ℕ) (lock : ℕ) : Party 1 → ℕ
  | .coordinator => lockOf .coordinator
  | .worker _ => lock

/-- The point is one of a `get`, or of no call. -/
def InGet : Pc → Prop
  | .putAcquire _ | .putReadHead _ | .putReadTail _ _ | .putReadCap _ _ _ | .putWriteSlot _ _ _
  | .putWriteTail _ _ | .putRelease _ _ => False
  | _ => True

/-- **The one worker is where the worker inside is**, and in no call when no worker is inside. -/
structure Collapses (lockOf : Party n → ℕ) (s : State n) (t : State 1) : Prop where
  locked : Locked lockOf s
  gets : ∀ i, InGet (s.pc (.worker i))
  shm : t.shm = s.shm
  holder : ∀ lock, t.holder lock = (s.holder lock).map one
  coordinator : t.pc .coordinator = s.pc .coordinator
  inside : ∀ i, Inside (s.pc (.worker i)) → t.pc worker = s.pc (.worker i)
  outside : (∀ i, ¬ Inside (s.pc (.worker i))) → t.pc worker = .idle
  accepted_eq : accepted t.trace = accepted s.trace
  delivered_eq : delivered t.trace = delivered s.trace

theorem collapses_init (lockOf : Party n → ℕ) (shm : Shm) :
    Collapses lockOf (.init shm) (.init shm) where
  locked := locked_init lockOf shm
  gets _ := trivial
  shm := rfl
  holder _ := rfl
  coordinator := rfl
  inside _ _ := rfl
  outside _ := rfl
  accepted_eq := rfl
  delivered_eq := rfl

theorem locks_one (hlock : ∀ i, lockOf (.worker i) = lock) (p : Party n) :
    locks lockOf lock (one p) = lockOf p := by
  cases p with
  | coordinator => rfl
  | worker i => exact (hlock i).symm

/-- A step leaves the calls of the other parties. -/
theorem TickStep.pc_of_ne {p q : Party n} (hs : TickStep lockOf s p s') (hq : q ≠ p) :
    s'.pc q = s.pc q := by
  cases hs <;> exact Function.update_of_ne hq _ _

/-- The results of the one worker are those of the workers. -/
theorem returned_one {p : Party n} {pc : Pc} {e : Event n} (h : returned p pc = some e) :
    ∃ e', returned (one p) pc = some e' ∧ accepted [e'] = accepted [e] ∧
      delivered [e'] = delivered [e] := by
  cases pc with
  | putRelease addr res =>
    obtain rfl := Option.some.inj h
    exact ⟨_, rfl, by cases res <;> rfl, rfl⟩
  | getRelease res =>
    obtain rfl := Option.some.inj h
    exact ⟨_, rfl, rfl, by cases res <;> rfl⟩
  | _ => cases h

theorem returned_one_none {p : Party n} {pc : Pc} (h : returned p pc = none) :
    returned (one p) pc = none := by
  cases pc <;> first | rfl | cases h

/-- **A party and the one that stands for it take the same step.** -/
theorem Collapses.same_tick (h : Collapses lockOf s t) (hlock : ∀ i, lockOf (.worker i) = lock)
    {p : Party n} (hpc : t.pc (one p) = s.pc p) (hs : TickStep lockOf s p s') :
    ∃ t', step (locks lockOf lock) t (.tick (one p)) = some t' ∧ t'.shm = s'.shm ∧
      (∀ l, t'.holder l = (s'.holder l).map one) ∧
      t'.pc = Function.update t.pc (one p) (s'.pc p) ∧ accepted t'.trace = accepted s'.trace ∧
      delivered t'.trace = delivered s'.trace := by
  have hone := locks_one hlock p
  have hacc : ∀ {m : ℕ} (u : List (Event m)) (e : Event m),
      accepted (u ++ [e]) = accepted u ++ accepted [e] := fun _ _ => List.filterMap_append
  have hdel : ∀ {m : ℕ} (u : List (Event m)) (e : Event m),
      delivered (u ++ [e]) = delivered u ++ delivered [e] := fun _ _ => List.filterMap_append
  have hupdate : ∀ (l : ℕ) (v : Option (Party n)),
      Function.update t.holder (lockOf p) (v.map one) l =
        (Function.update s.holder (lockOf p) v l).map one := by
    intro l v
    by_cases hl : l = lockOf p
    · rw [hl, Function.update_self, Function.update_self]
    · rw [Function.update_of_ne hl, Function.update_of_ne hl, h.holder]
  cases hs with
  | enter hent hfree =>
    rw [← hpc] at hent
    have hfree' : t.holder (locks lockOf lock (one p)) = none := by
      rw [hone, h.holder, hfree, Option.map_none]
    refine ⟨_, tick_iff.mpr (.enter hent hfree'), h.shm, fun l => ?_, ?_, h.accepted_eq, h.delivered_eq⟩
    · rw [hone]
      exact hupdate l (some p)
    · simp [State.goto]
  | access hin hret =>
    rw [← hpc] at hin hret ⊢
    refine ⟨_, tick_iff.mpr (.access hin (returned_one_none hret)), ?_, h.holder, ?_, h.accepted_eq,
      h.delivered_eq⟩
    · simp [h.shm]
    · simp [State.goto, h.shm]
  | ret hret =>
    obtain ⟨e', hret', hacc', hdel'⟩ := returned_one hret
    rw [← hpc] at hret'
    refine ⟨_, tick_iff.mpr (.ret hret'), h.shm, fun l => ?_, ?_, ?_, ?_⟩
    · rw [hone]
      exact hupdate l none
    · simp [State.goto]
    · simp only [goto_trace, emit_trace, release_trace, hacc, h.accepted_eq, hacc']
    · simp only [goto_trace, emit_trace, release_trace, hdel, h.delivered_eq, hdel']

theorem inGet_access {pc : Pc} (m : Shm) (h : InGet pc) : InGet (access m pc).2 := by
  cases pc with
  | getReadCap =>
    rw [access_getReadCap]
    dsimp only
    split_ifs <;> trivial
  | putReadCap => exact h.elim
  | _ => exact h

theorem TickStep.inGet {i : Fin n} (h : InGet (s.pc (.worker i)))
    (hs : TickStep lockOf s (.worker i) s') : InGet (s'.pc (.worker i)) := by
  cases hs with
  | enter hpc =>
    rw [goto_pc, Function.update_self]
    cases hp : s.pc (.worker i) <;> rw [hp] at hpc h <;> cases hpc
    · exact h
    · trivial
  | access => simpa using inGet_access _ h
  | ret => simp [InGet]

/-- A step of the coordinator is one of the coordinator. -/
theorem Collapses.tick_coordinator (h : Collapses lockOf s t)
    (hlock : ∀ i, lockOf (.worker i) = lock) (hs : TickStep lockOf s .coordinator s') :
    ∃ t', step (locks lockOf lock) t (.tick .coordinator) = some t' ∧
      Collapses lockOf s' t' := by
  obtain ⟨t', ht', hshm, hholder, hpc, hacc, hdel⟩ :=
    h.same_tick (p := .coordinator) hlock h.coordinator hs
  have hothers : ∀ i, s'.pc (.worker i) = s.pc (.worker i) := fun i => hs.pc_of_ne (by simp)
  have hworker : t'.pc worker = t.pc worker := by
    rw [hpc]
    exact Function.update_of_ne (by simp [one]) _ _
  refine ⟨t', ht', h.locked.tick hs, ?_, hshm, hholder, ?_, ?_, ?_, hacc, hdel⟩
  · intro i
    rw [hothers]
    exact h.gets i
  · rw [hpc]
    exact Function.update_self ..
  · intro i hi
    rw [hothers] at hi ⊢
    rw [hworker, h.inside i hi]
  · intro hno
    rw [hworker]
    exact h.outside fun i => by rw [← hothers]; exact hno i

/-- The other workers are outside when a worker is inside. -/
theorem Collapses.not_inside (h : Collapses lockOf s t) (hlock : ∀ i, lockOf (.worker i) = lock)
    {i j : Fin n} (hi : Inside (s.pc (.worker i))) (hj : j ≠ i) : ¬ Inside (s.pc (.worker j)) := by
  intro hin
  have heq : Party.worker j = .worker i :=
    h.locked.eq_of_inside (by rw [hlock, hlock]) hin hi
  exact hj (Party.worker.inj heq)

/-- What the one worker is, once it has taken the step of a worker. -/
theorem Collapses.of_worker (h : Collapses lockOf s t) {i : Fin n} {t' : State 1}
    (hs : TickStep lockOf s (.worker i) s') (hothers : ∀ j ≠ i, ¬ Inside (s.pc (.worker j)))
    (hshm : t'.shm = s'.shm) (hholder : ∀ l, t'.holder l = (s'.holder l).map one)
    (hcoord : t'.pc .coordinator = t.pc .coordinator)
    (hpc : Inside (s'.pc (.worker i)) → t'.pc worker = s'.pc (.worker i))
    (hidle : ¬ Inside (s'.pc (.worker i)) → t'.pc worker = .idle)
    (hacc : accepted t'.trace = accepted s'.trace)
    (hdel : delivered t'.trace = delivered s'.trace) : Collapses lockOf s' t' := by
  have hne : ∀ j ≠ i, s'.pc (.worker j) = s.pc (.worker j) := fun j hj =>
    hs.pc_of_ne (by simpa using hj)
  refine ⟨h.locked.tick hs, fun j => ?_, hshm, hholder, ?_, fun j hj => ?_, fun hno => ?_, hacc, hdel⟩
  · by_cases hji : j = i
    · subst hji
      exact hs.inGet (h.gets j)
    · rw [hne j hji]
      exact h.gets j
  · rw [hcoord, h.coordinator, hs.pc_of_ne (by simp)]
  · by_cases hji : j = i
    · subst hji
      exact hpc hj
    · rw [hne j hji] at hj
      exact absurd hj (hothers j hji)
  · exact hidle (hno i)

/-- A step of the worker inside is one of the one worker. -/
theorem Collapses.tick_inside (h : Collapses lockOf s t) (hlock : ∀ i, lockOf (.worker i) = lock)
    {i : Fin n} (hs : TickStep lockOf s (.worker i) s') (hin : Inside (s.pc (.worker i))) :
    ∃ t', step (locks lockOf lock) t (.tick worker) = some t' ∧ Collapses lockOf s' t' := by
  obtain ⟨t', ht', hshm, hholder, hpc, hacc, hdel⟩ :=
    h.same_tick (p := .worker i) hlock (h.inside i hin) hs
  have hworker : t'.pc worker = s'.pc (.worker i) := by
    rw [hpc]
    exact Function.update_self ..
  have hcoord : t'.pc .coordinator = t.pc .coordinator := by
    rw [hpc]
    exact Function.update_of_ne (by simp [one]) _ _
  refine ⟨t', ht', h.of_worker hs (fun j hj => h.not_inside hlock hin hj) hshm hholder hcoord
    (fun _ => hworker) (fun hno => ?_) hacc hdel⟩
  rw [hworker]
  cases hs with
  | enter hent => exact absurd hin (inside_of_entered hent).1
  | access => exact absurd (by simpa using inside_access _ hin) hno
  | ret => simp

/-- **The one worker starts its call when a worker gets the lock**: none is inside then. -/
theorem Collapses.tick_enter (h : Collapses lockOf s t) (hlock : ∀ i, lockOf (.worker i) = lock)
    {i : Fin n} {pc : Pc} (hent : entered (s.pc (.worker i)) = some pc)
    (hfree : s.holder (lockOf (.worker i)) = none) :
    ∃ t', exec (locks lockOf lock) [.get 0, .tick worker] t = some t' ∧ Collapses lockOf
      ({ s with holder := Function.update s.holder (lockOf (.worker i)) (some (.worker i)) }.goto
        (.worker i) pc) t' := by
  have hall : ∀ j, ¬ Inside (s.pc (.worker j)) := by
    intro j hj
    have hheld := (h.locked (.worker j)).mp hj
    rw [hlock, ← hlock i, hfree] at hheld
    cases hheld
  obtain rfl : pc = .getReadHead := by
    have hget := h.gets i
    cases hp : s.pc (.worker i) <;> rw [hp] at hent hget <;> cases hent
    · exact hget.elim
    · rfl
  let t₁ : State 1 := (t.emit (.getCall worker)).goto worker .getAcquire
  have h₁ : RingBuffer.step (locks lockOf lock) t (.get 0) = some t₁ := if_pos (h.outside hall)
  have hfree' : t₁.holder (locks lockOf lock worker) = none := by
    change t.holder lock = none
    rw [h.holder, ← hlock i, hfree, Option.map_none]
  have hpc' : t₁.pc worker = .getAcquire := by simp [t₁]
  have hent' : entered (t₁.pc worker) = some .getReadHead := congrArg entered hpc'
  have h₂ := tick_iff.mpr (TickStep.enter hent' hfree')
  refine ⟨_, by rw [exec, h₁, Option.bind_some, exec, RingBuffer.step, h₂]; rfl, ?_⟩
  refine h.of_worker (.enter hent hfree) (fun j _ => hall j) h.shm (fun l => ?_) ?_ (fun _ => ?_)
    (fun hno => ?_) ?_ ?_
  · change Function.update t.holder lock (some worker) l = _
    by_cases hl : l = lock
    · simp [hl, hlock, State.goto, one]
    · simp [hl, hlock, State.goto, h.holder]
  · simp [t₁]
  · simp
  · exact absurd (by simp) hno
  · have hacc : accepted (t.trace ++ [.getCall worker]) = accepted t.trace := by simp [accepted]
    exact hacc.trans h.accepted_eq
  · have hdel : delivered (t.trace ++ [.getCall worker]) = delivered t.trace := by
      simp [delivered]
    exact hdel.trans h.delivered_eq

theorem Collapses.tick_worker (h : Collapses lockOf s t) (hlock : ∀ i, lockOf (.worker i) = lock)
    {i : Fin n} (hs : TickStep lockOf s (.worker i) s') :
    ∃ ls t', exec (locks lockOf lock) ls t = some t' ∧ Collapses lockOf s' t' := by
  by_cases hin : Inside (s.pc (.worker i))
  · obtain ⟨t', ht', h'⟩ := h.tick_inside hlock hs hin
    exact ⟨[.tick worker], t', by rw [RingBuffer.exec, ht']; rfl, h'⟩
  · cases hs with
    | enter hent hfree =>
      obtain ⟨t', ht', h'⟩ := h.tick_enter hlock hent hfree
      exact ⟨_, t', ht', h'⟩
    | access hin' => exact absurd hin' hin
    | ret hret => exact absurd (inside_of_returned hret) hin

theorem Collapses.step (h : Collapses lockOf s t) (hlock : ∀ i, lockOf (.worker i) = lock)
    {l : Label n} (hs : step lockOf s l = some s') :
    ∃ ls t', exec (locks lockOf lock) ls t = some t' ∧ Collapses lockOf s' t' := by
  have hlocked := h.locked.step hs
  cases l with
  | put addr =>
    rw [RingBuffer.step] at hs
    split_ifs at hs with hidle
    obtain rfl := Option.some.inj hs
    have hput : RingBuffer.step (locks lockOf lock) t (.put addr) =
        some ((t.emit (.putCall addr)).goto .coordinator (.putAcquire addr)) :=
      if_pos (h.coordinator.trans hidle)
    refine ⟨[.put addr], (t.emit (.putCall addr)).goto .coordinator (.putAcquire addr),
      by rw [RingBuffer.exec, hput]; rfl, hlocked, ?_, h.shm, h.holder, ?_, ?_, ?_, ?_, ?_⟩
    · simpa using h.gets
    · simp
    · simpa using h.inside
    · simpa using h.outside
    · simpa [accepted] using h.accepted_eq
    · simpa [delivered] using h.delivered_eq
  | get i =>
    rw [RingBuffer.step] at hs
    split_ifs at hs with hidle
    obtain rfl := Option.some.inj hs
    have hne : ∀ j ≠ i, (Party.worker j : Party n) ≠ .worker i := fun j hj => by simpa using hj
    refine ⟨[], t, rfl, hlocked, fun j => ?_, h.shm, h.holder, ?_, fun j hj => ?_, fun hno => ?_, ?_, ?_⟩
    · by_cases hji : j = i
      · simp [hji, InGet]
      · simpa [hne j hji] using h.gets j
    · simpa using h.coordinator
    · by_cases hji : j = i
      · simp [hji] at hj
        exact hj.elim
      · simp only [goto_pc, emit_pc, Function.update_of_ne (hne j hji)] at hj ⊢
        exact h.inside j hj
    · refine h.outside fun j => ?_
      by_cases hji : j = i
      · rw [hji, hidle]
        exact id
      · simpa [hne j hji] using hno j
    · simpa [accepted] using h.accepted_eq
    · simpa [delivered] using h.delivered_eq
  | tick p =>
    cases p with
    | coordinator =>
      obtain ⟨t', ht', h'⟩ := h.tick_coordinator hlock (tick_iff.mp hs)
      exact ⟨[.tick .coordinator], t', by simp [exec, ht'], h'⟩
    | worker i => exact h.tick_worker hlock (tick_iff.mp hs)

/-- **Workers that share a lock do what one worker does**: every schedule of them has one of the
coordinator and one worker that leaves the same ring and gives the same results. -/
theorem Collapses.exec (hlock : ∀ i, lockOf (.worker i) = lock) : ∀ {ls : List (Label n)}
    {s s' : State n} {t : State 1}, Collapses lockOf s t → exec lockOf ls s = some s' →
      ∃ ls' t', exec (locks lockOf lock) ls' t = some t' ∧ Collapses lockOf s' t'
  | [], s, s', t, h, hs => by
    obtain rfl := Option.some.inj hs
    exact ⟨[], t, rfl, h⟩
  | l :: ls, s, s', t, h, hs => by
    obtain ⟨s₁, h₁, h₂⟩ := Option.bind_eq_some_iff.mp hs
    obtain ⟨ls₁, t₁, ht₁, hc₁⟩ := h.step hlock h₁
    obtain ⟨ls₂, t₂, ht₂, hc₂⟩ := Collapses.exec hlock hc₁ h₂
    exact ⟨ls₁ ++ ls₂, t₂, exec_trans ht₂ ht₁, hc₂⟩

end Collapses

/-! ### When every address is delivered once -/

section Delivers

variable {n : ℕ} {lockOf : Party n → ℕ} {capacity lock : ℕ}

theorem deliversOnce_of_sharedLock (hlock : ∀ i, lockOf (.worker i) = lock) (hc : 0 < capacity)
    (data : ℕ → UInt64) : DeliversOnce lockOf ⟨0, 0, capacity, data⟩ where
  atMostOnce ls s hs addr _ := by
    obtain ⟨ls', t, ht, h⟩ := Collapses.exec hlock (collapses_init lockOf _) hs
    have hcount := congrArg (List.count addr) ((inv_init hc data).exec ht).fifo
    rw [h.accepted_eq, h.delivered_eq, h.coordinator] at hcount
    simp only [List.count_append] at hcount
    have hpub := count_publishing_le s addr
    omega
  exactlyOnce ls s hs hidle i hnone addr _ := by
    obtain ⟨ls', t, ht, h⟩ := Collapses.exec hlock (collapses_init lockOf _) hs
    have hfifo := ((inv_init hc data).exec ht).fifo
    have hworker : t.pc worker = .idle := h.outside fun j => by rw [hidle]; exact id
    rw [h.coordinator, hidle .coordinator, hworker, queue, h.shm, hnone.empty, contents_self,
      h.accepted_eq, h.delivered_eq] at hfifo
    have : accepted s.trace = delivered s.trace := by simpa [publishing, taking] using hfifo
    rw [this]

/-- **The ring delivers every address once exactly if its workers share their lock**, or it has no
slot to put an address in; the coordinator may hold any lock. -/
theorem deliversOnce_iff_sharedLock (n : ℕ) (lockOf : Party n → ℕ) (capacity : ℕ)
    (data : ℕ → UInt64) (hc : 0 < capacity) :
    DeliversOnce lockOf ⟨0, 0, capacity, data⟩ ↔
      capacity = 1 ∨ ∀ i j, lockOf (.worker i) = lockOf (.worker j) := by
  constructor
  · intro h
    by_contra hno
    simp only [not_or, not_forall] at hno
    obtain ⟨hcap, i, j, hij⟩ := hno
    obtain ⟨ls, s, hs, hacc, hdel, hidle⟩ :=
      exec_get_twice_of_ne (Ne.symm hij) (show 1 < capacity by omega) data
    have hcount := h.atMostOnce ls s hs 7 (by rw [hacc]; decide)
    rw [hacc, hdel, pending, hidle .coordinator] at hcount
    revert hcount
    decide
  · rintro (rfl | hlock)
    · exact deliversOnce_oneSlot lockOf data
    · rcases Nat.eq_zero_or_pos n with rfl | hn
      · have hlock : ∀ i, lockOf (.worker i) = 0 := fun i => i.elim0
        exact deliversOnce_of_sharedLock hlock hc data
      · exact deliversOnce_of_sharedLock (fun i => hlock i ⟨0, hn⟩) hc data

/-- Two workers with one lock on a ring of 256 slots. -/
theorem deliversOnce_two_workers :
    DeliversOnce (RingBuffer.lockOf ⟨0, 0⟩ [⟨1, 0⟩, ⟨1, 0⟩]) ⟨0, 0, 256, fun _ => 0⟩ :=
  (deliversOnce_iff_sharedLock 2 _ 256 _ (by decide)).mpr (Or.inr (by decide))

end Delivers

end VantaCore.Core.Scanner.WorkerLock
