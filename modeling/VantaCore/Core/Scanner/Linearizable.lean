import VantaCore.Core.Scanner.WorkerLock
import VantaCore.Lib.QueueHistory

/-! # A ring with one lock

Handles that are all made with one lock use the ring one call at a time. Every party starts a call,
gets its result and starts the next (`Calls.exec`), and in the order in which the calls give the lock
back their results are those of a queue of one value less than the ring has slots, used by one call
after the other: `put` returns `False` exactly when that queue is full, `get` returns `None` exactly
when it is empty (`linearizable`). A call gives the lock back between its start and its end, so that
order is one in which calls that do not overlap stay as they are. -/

namespace VantaCore.Core.Scanner.Linearizable

open VantaCore.Lib.RingQueue VantaCore.Lib.QueueHistory VantaCore.Core.Scanner.RingBuffer
open VantaCore.Core.Scanner.Spsc VantaCore.Core.Scanner.Delivery VantaCore.Core.Scanner.WorkerLock

variable {n : ℕ}

/-! ### Calls and results -/

/-- A call. -/
inductive Call where
  | put (addr : UInt64)
  | get
deriving DecidableEq, Repr

/-- The result a call returns with. -/
def result : Event n → Option (Result UInt64)
  | .putRet addr res => some (.put addr res)
  | .getRet _ res => some (.got res)
  | _ => none

/-- The results in the order in which the calls return. -/
def results (t : List (Event n)) : List (Result UInt64) := t.filterMap result

/-- The call a party is in after an event, if the event can follow: a call starts when the party is
in none, and returns with the address it was made with. -/
def follow (p : Party n) (c : Option Call) : Event n → Option (Option Call)
  | .putCall addr =>
    if p = .coordinator then if c = none then some (some (.put addr)) else none else some c
  | .putRet addr _ =>
    if p = .coordinator then if c = some (.put addr) then some none else none else some c
  | .getCall q => if p = q then if c = none then some (some .get) else none else some c
  | .getRet q _ => if p = q then if c = some .get then some none else none else some c

/-- The call a party is in after a trace. -/
def calls (p : Party n) (t : List (Event n)) : Option (Option Call) :=
  t.foldlM (follow p) none

/-- The call of a point. -/
def callOf : Pc → Option Call
  | .idle => none
  | .putAcquire addr | .putReadHead addr | .putReadTail addr _ | .putReadCap addr _ _
  | .putWriteSlot addr _ _ | .putWriteTail addr _ | .putRelease addr _ => some (.put addr)
  | .getAcquire | .getReadHead | .getReadTail _ | .getReadCap _ _ | .getReadSlot _ _
  | .getWriteHead _ _ | .getRelease _ => some .get

/-- **The ring is a queue of at most `bound` values that is used by one call after the other.** -/
structure AtomicQueue (bound : ℕ) (lockOf : Party n → ℕ) (shm : Shm) : Prop where
  /-- A party is in one call at a time, and gets the result of the call it has started. -/
  calls : ∀ ls s, exec lockOf ls (.init shm) = some s → ∀ p, calls p s.trace = some (callOf (s.pc p))
  /-- The results are those of a queue, which the ring holds when no call is in progress. -/
  legal : ∀ ls s, exec lockOf ls (.init shm) = some s →
    ∃ q, replay bound [] (results s.trace) = some q ∧ (Idle s → queue s.shm = q)

/-! ### One call at a time -/

section Calls

variable {lockOf : Party n → ℕ} {s s' : State n}

/-- The calls so far. -/
structure Calls (s : State n) : Prop where
  gets : ∀ i, InGet (s.pc (.worker i))
  trace : ∀ p, calls p s.trace = some (callOf (s.pc p))

theorem calls_snoc {p : Party n} {t : List (Event n)} {c : Option Call} (h : calls p t = some c)
    (e : Event n) : calls p (t ++ [e]) = follow p c e := by
  unfold calls at h ⊢
  rw [List.foldlM_append, h]
  cases hf : follow p c e <;> simp [hf]

theorem callOf_entered {pc pc' : Pc} (h : entered pc = some pc') : callOf pc' = callOf pc := by
  cases pc <;> cases h <;> rfl

theorem callOf_access {pc : Pc} (m : Shm) : callOf (access m pc).2 = callOf pc := by
  cases pc with
  | putReadCap =>
    rw [access_putReadCap]
    dsimp only
    split_ifs <;> rfl
  | getReadCap =>
    rw [access_getReadCap]
    dsimp only
    split_ifs <;> rfl
  | _ => rfl

/-- A result ends the call of the party, and is none of the calls of the others. -/
theorem follow_returned {p q : Party n} {pc : Pc} {e : Event n} (h : returned p pc = some e)
    (hp : p = .coordinator ∨ InGet pc) (c : Option Call) :
    follow q c e = if q = p then (if c = callOf pc then some none else none) else some c := by
  cases pc with
  | putRelease addr res =>
    obtain rfl := Option.some.inj h
    obtain rfl := hp.resolve_right id
    rfl
  | getRelease res =>
    obtain rfl := Option.some.inj h
    rfl
  | _ => cases h

theorem Calls.tick (h : Calls s) {p : Party n} (hs : TickStep lockOf s p s') : Calls s' := by
  have hgets : ∀ i, InGet (s'.pc (.worker i)) := by
    intro i
    by_cases hi : p = .worker i
    · subst hi
      exact hs.inGet (h.gets i)
    · rw [hs.pc_of_ne (Ne.symm hi)]
      exact h.gets i
  refine ⟨hgets, fun q => ?_⟩
  have hq := h.trace q
  by_cases hqp : q = p
  · subst hqp
    cases hs with
    | enter hent => simpa [callOf_entered hent] using hq
    | access => simpa [callOf_access] using hq
    | ret hret =>
      have hp : q = .coordinator ∨ InGet (s.pc q) := by
        cases q with
        | coordinator => exact Or.inl rfl
        | worker i => exact Or.inr (h.gets i)
      rw [goto_trace, emit_trace, release_trace, calls_snoc hq, follow_returned hret hp, if_pos rfl,
        if_pos rfl]
      simp [callOf]
  · rw [hs.pc_of_ne hqp]
    cases hs with
    | enter | access => exact hq
    | ret hret =>
      have hp : p = .coordinator ∨ InGet (s.pc p) := by
        cases p with
        | coordinator => exact Or.inl rfl
        | worker i => exact Or.inr (h.gets i)
      rw [goto_trace, emit_trace, release_trace, calls_snoc hq, follow_returned hret hp, if_neg hqp]

theorem Calls.step (h : Calls s) {l : Label n} (hs : step lockOf s l = some s') : Calls s' := by
  cases l with
  | put addr =>
    rw [RingBuffer.step] at hs
    split_ifs at hs with hidle
    obtain rfl := Option.some.inj hs
    refine ⟨by simpa using h.gets, fun q => ?_⟩
    rw [goto_trace, emit_trace, calls_snoc (h.trace q)]
    by_cases hq : q = .coordinator
    · subst hq
      simp [follow, hidle, callOf]
    · simp [follow, hq]
  | get i =>
    rw [RingBuffer.step] at hs
    split_ifs at hs with hidle
    obtain rfl := Option.some.inj hs
    refine ⟨fun j => ?_, fun q => ?_⟩
    · by_cases hj : j = i
      · simp [hj, InGet]
      · have hne : (Party.worker j : Party n) ≠ .worker i := by simpa using hj
        simpa [hne] using h.gets j
    · rw [goto_trace, emit_trace, calls_snoc (h.trace q)]
      by_cases hq : q = .worker i
      · subst hq
        simp [follow, hidle, callOf]
      · simp [follow, hq]
  | tick p => exact h.tick (tick_iff.mp hs)

theorem calls_exec {ls : List (Label n)} {shm : Shm} (hs : exec lockOf ls (.init shm) = some s) :
    Calls s :=
  have hinit : Calls (.init shm : State n) := ⟨fun _ => trivial, fun _ => rfl⟩
  exec_induction (fun _ _ _ _ h hs => h.step hs) hinit hs

end Calls

/-! ### The results -/

section Legal

/-- The indices are in the ring. -/
def InRing (m : Shm) : Prop := m.head < m.capacity ∧ m.tail < m.capacity

/-- **What a call behind the lock knows**, where `q` is the queue the calls before it have left: what
it has read is what the ring holds, and once it is to return the ring holds the queue after it. -/
def Knows (bound : ℕ) (m : Shm) (q : List UInt64) : Pc → Prop
  | .idle | .putAcquire _ | .getAcquire => False
  | .putReadHead _ | .getReadHead => queue m = q
  | .putReadTail _ head | .getReadTail head => head = m.head ∧ queue m = q
  | .putReadCap _ head tail | .getReadCap head tail => head = m.head ∧ tail = m.tail ∧ queue m = q
  | .putWriteSlot _ tail nextTail =>
    tail = m.tail ∧ nextTail = next m.capacity m.tail ∧ next m.capacity m.tail ≠ m.head ∧ queue m = q
  | .putWriteTail addr nextTail =>
    nextTail = next m.capacity m.tail ∧ next m.capacity m.tail ≠ m.head ∧ m.data m.tail = addr ∧
      queue m = q
  | .getReadSlot head cap => head = m.head ∧ cap = m.capacity ∧ m.head ≠ m.tail ∧ queue m = q
  | .getWriteHead addr nextHead =>
    nextHead = next m.capacity m.head ∧ m.head ≠ m.tail ∧ m.data m.head = addr ∧ queue m = q
  | .putRelease addr res => apply bound q (.put addr res) = some (queue m)
  | .getRelease res => apply bound q (.got res) = some (queue m)

variable {m : Shm} {q : List UInt64} {pc : Pc}

theorem length_queue (m : Shm) : (queue m).length = dist m.capacity m.head m.tail :=
  length_contents _ _ _

/-- **A step behind the lock**: the ring stays a ring of as many slots, and the call knows what the
ring holds. -/
theorem knows_access (p : Party n) (hm : InRing m) (h : Knows (m.capacity - 1) m q pc)
    (hret : returned p pc = none) :
    InRing (access m pc).1 ∧ (access m pc).1.capacity = m.capacity ∧
      Knows (m.capacity - 1) (access m pc).1 q (access m pc).2 := by
  obtain ⟨hh, ht⟩ := hm
  have hpos : 0 < m.capacity := by omega
  cases pc with
  | idle | putAcquire | getAcquire => exact h.elim
  | putRelease | getRelease => cases hret
  | putReadHead | getReadHead => exact ⟨⟨hh, ht⟩, rfl, rfl, h⟩
  | putReadTail | getReadTail => exact ⟨⟨hh, ht⟩, rfl, h.1, rfl, h.2⟩
  | putReadCap addr head tail =>
    obtain ⟨rfl, rfl, rfl⟩ := h
    refine ⟨⟨hh, ht⟩, rfl, ?_⟩
    rw [access_putReadCap]
    dsimp only
    split_ifs with hfull
    · have hlen : (queue m).length + 1 = m.capacity := by
        rw [length_queue]
        exact dist_of_full ht hfull
      exact apply_put_false addr (by omega)
    · exact ⟨rfl, rfl, hfull, rfl⟩
  | putWriteSlot addr tail nextTail =>
    obtain ⟨rfl, rfl, hroom, rfl⟩ := h
    refine ⟨⟨hh, ht⟩, rfl, rfl, hroom, Function.update_self .., ?_⟩
    exact contents_update m.data hh ht addr
  | putWriteTail addr nextTail =>
    obtain ⟨rfl, hroom, rfl, rfl⟩ := h
    have hlt : dist m.capacity m.head m.tail + 1 < m.capacity := dist_succ_lt hh ht hroom
    refine ⟨⟨hh, next_lt hpos _⟩, rfl, ?_⟩
    have hpush := contents_push m.data hh ht hlt
    have hlen := length_queue m
    change apply _ (queue m) _ = some (contents m.capacity m.data m.head (next m.capacity m.tail))
    rw [hpush]
    exact apply_put_true _ (by omega)
  | getReadCap head tail =>
    obtain ⟨rfl, rfl, rfl⟩ := h
    refine ⟨⟨hh, ht⟩, rfl, ?_⟩
    rw [access_getReadCap]
    dsimp only
    split_ifs with hempty
    · have hnil : queue m = [] := by rw [queue, hempty, contents_self]
      change apply _ (queue m) _ = some (queue m)
      rw [hnil]
      exact apply_got_none
    · exact ⟨rfl, rfl, hempty, rfl⟩
  | getReadSlot head cap =>
    obtain ⟨rfl, rfl, hne, rfl⟩ := h
    exact ⟨⟨hh, ht⟩, rfl, rfl, hne, rfl, rfl⟩
  | getWriteHead addr nextHead =>
    obtain ⟨rfl, hne, rfl, rfl⟩ := h
    refine ⟨⟨next_lt hpos _, ht⟩, rfl, ?_⟩
    have hpop := contents_pop m.data hh ht hne
    change apply _ (contents m.capacity m.data m.head m.tail) _ =
      some (contents m.capacity m.data (next m.capacity m.head) m.tail)
    rw [hpop]
    exact apply_got_some _ _

theorem knows_entered {bound : ℕ} {pc' : Pc} (h : entered pc = some pc') :
    Knows bound m (queue m) pc' := by
  cases pc <;> cases h <;> rfl

theorem knows_returned {bound : ℕ} {p : Party n} {e : Event n} (h : returned p pc = some e)
    (hk : Knows bound m q pc) : ∃ r, result e = some r ∧ apply bound q r = some (queue m) := by
  cases pc with
  | putRelease | getRelease =>
    obtain rfl := Option.some.inj h
    exact ⟨_, rfl, hk⟩
  | _ => cases h

/-- **What holds along a schedule**, where `q` is the queue the calls that have returned have
left. -/
structure Legal (bound : ℕ) (lockOf : Party n → ℕ) (s : State n) (q : List UInt64) : Prop where
  locked : Locked lockOf s
  ring : InRing s.shm
  capacity : bound = s.shm.capacity - 1
  results_eq : replay bound [] (results s.trace) = some q
  inside : ∀ p, Inside (s.pc p) → Knows bound s.shm q (s.pc p)
  outside : (∀ p, ¬ Inside (s.pc p)) → queue s.shm = q

variable {bound : ℕ} {lockOf : Party n → ℕ} {s s' : State n}

theorem results_snoc (t : List (Event n)) {e : Event n} {r : Result UInt64}
    (h : result e = some r) : results (t ++ [e]) = results t ++ [r] := by
  simp [results, h]

/-- No party is inside when the lock is free, and no other when a party is. -/
theorem Legal.outside_of_free (h : Legal bound lockOf s q) {p : Party n}
    (hlock : ∀ p p', lockOf p = lockOf p') (hfree : s.holder (lockOf p) = none) (p' : Party n) :
    ¬ Inside (s.pc p') := by
  intro hin
  have hheld := (h.locked p').mp hin
  rw [hlock p' p, hfree] at hheld
  cases hheld

theorem Legal.tick (h : Legal bound lockOf s q) (hlock : ∀ p p', lockOf p = lockOf p')
    {p : Party n} (hs : TickStep lockOf s p s') : ∃ q', Legal bound lockOf s' q' := by
  have hlocked := h.locked.tick hs
  have hothers : ∀ p' ≠ p, s'.pc p' = s.pc p' := fun p' hp' => hs.pc_of_ne hp'
  have hnot : Inside (s.pc p) → ∀ p' ≠ p, ¬ Inside (s'.pc p') := by
    intro hin p' hp' hin'
    rw [hothers p' hp'] at hin'
    exact hp' (h.locked.eq_of_inside (hlock p' p) hin' hin)
  cases hs with
  | enter hent hfree =>
    have hout := h.outside_of_free hlock hfree
    refine ⟨q, hlocked, h.ring, h.capacity, h.results_eq, fun p' hp' => ?_, fun hno => ?_⟩
    · by_cases heq : p' = p
      · subst heq
        rw [goto_pc, Function.update_self, goto_shm, ← h.outside hout]
        exact knows_entered hent
      · rw [hothers p' heq] at hp'
        exact absurd hp' (hout p')
    · refine absurd ?_ (hno p)
      simpa using (inside_of_entered hent).2
  | access hin hret =>
    have hk := h.inside p hin
    have hcap := h.capacity
    rw [hcap] at hk
    obtain ⟨hring, hcap', hk'⟩ := knows_access p h.ring hk hret
    refine ⟨q, hlocked, hring, ?_, h.results_eq, fun p' hp' => ?_, fun hno => ?_⟩
    · rw [hcap]
      exact congrArg (· - 1) hcap'.symm
    · by_cases heq : p' = p
      · subst heq
        rw [goto_pc, Function.update_self, goto_shm, hcap]
        exact hk'
      · exact absurd hp' (hnot hin p' heq)
    · refine absurd ?_ (hno p)
      simpa using inside_access _ hin
  | ret hret =>
    have hin := inside_of_returned hret
    obtain ⟨r, hr, happly⟩ := knows_returned hret (h.inside p hin)
    refine ⟨queue s.shm, hlocked, h.ring, h.capacity, ?_, fun p' hp' => ?_, fun _ => rfl⟩
    · rw [goto_trace, emit_trace, release_trace, results_snoc _ hr]
      exact replay_snoc h.results_eq happly
    · by_cases heq : p' = p
      · subst heq
        simp at hp'
      · exact absurd hp' (hnot hin p' heq)

/-- A party starts a call. -/
theorem Legal.call (h : Legal bound lockOf s q) {e : Event n} {p : Party n} {pc : Pc}
    (hidle : s.pc p = .idle) (hpc : ¬ Inside pc) (he : result e = none)
    (hlocked : Locked lockOf ((s.emit e).goto p pc)) :
    Legal bound lockOf ((s.emit e).goto p pc) q where
  locked := hlocked
  ring := h.ring
  capacity := h.capacity
  results_eq := by
    rw [← h.results_eq]
    simp [results, he]
  inside p' hp' := by
    by_cases heq : p' = p
    · subst heq
      simp [hpc] at hp'
    · simp only [goto_pc, emit_pc, Function.update_of_ne heq] at hp' ⊢
      exact h.inside p' hp'
  outside hno := by
    refine h.outside fun p' => ?_
    by_cases heq : p' = p
    · rw [heq, hidle]
      exact id
    · simpa [heq] using hno p'

theorem Legal.step (h : Legal bound lockOf s q) (hlock : ∀ p p', lockOf p = lockOf p')
    {l : Label n} (hs : step lockOf s l = some s') : ∃ q', Legal bound lockOf s' q' := by
  have hlocked := h.locked.step hs
  cases l with
  | put addr =>
    rw [RingBuffer.step] at hs
    split_ifs at hs with hidle
    obtain rfl := Option.some.inj hs
    exact ⟨q, h.call hidle id rfl hlocked⟩
  | get i =>
    rw [RingBuffer.step] at hs
    split_ifs at hs with hidle
    obtain rfl := Option.some.inj hs
    exact ⟨q, h.call hidle id rfl hlocked⟩
  | tick p => exact h.tick hlock (tick_iff.mp hs)

theorem legal_exec (hlock : ∀ p p', lockOf p = lockOf p') {capacity : ℕ} (hc : 0 < capacity)
    (data : ℕ → UInt64) {ls : List (Label n)}
    (hs : exec lockOf ls (.init ⟨0, 0, capacity, data⟩) = some s) :
    ∃ q, Legal (capacity - 1) lockOf s q := by
  have hinit : Legal (capacity - 1) lockOf (.init ⟨0, 0, capacity, data⟩) [] := by
    refine ⟨locked_init _ _, ⟨hc, hc⟩, rfl, rfl, fun p hp => hp.elim, fun _ => ?_⟩
    exact contents_self data 0
  exact exec_induction (P := fun s => ∃ q, Legal (capacity - 1) lockOf s q)
    (fun _ _ _ _ ⟨_, h⟩ hs => h.step hlock hs) ⟨[], hinit⟩ hs

end Legal

/-- **A ring whose handles share one lock is a queue used by one call after the other**, for any
number of workers and every schedule. -/
theorem linearizable (n : ℕ) (lockOf : Party n → ℕ) (capacity : ℕ) (data : ℕ → UInt64)
    (hc : 0 < capacity) (hlock : ∀ p p', lockOf p = lockOf p') :
    AtomicQueue (capacity - 1) lockOf ⟨0, 0, capacity, data⟩ where
  calls _ _ hs := (calls_exec hs).trace
  legal ls s hs := by
    obtain ⟨q, h⟩ := legal_exec hlock hc data hs
    refine ⟨q, h.results_eq, fun hidle => h.outside fun p => ?_⟩
    rw [hidle p]
    exact id

/-- Three workers with the lock of the coordinator, on a ring of 256 slots. -/
theorem linearizable_three_workers :
    AtomicQueue (256 - 1) (RingBuffer.lockOf ⟨0, 0⟩ [⟨0, 0⟩, ⟨0, 0⟩, ⟨0, 0⟩])
      ⟨0, 0, 256, fun _ => 0⟩ :=
  linearizable 3 _ 256 _ (by decide) fun p p' => by
    have hzero : ∀ p : Party 3,
        RingBuffer.lockOf ⟨0, 0⟩ [⟨0, 0⟩, ⟨0, 0⟩, ⟨0, 0⟩] p = 0 := by
      rintro (_ | i)
      · rfl
      · fin_cases i <;> rfl
    rw [hzero p, hzero p']

end VantaCore.Core.Scanner.Linearizable
