import VantaCore.Core.Scanner.Spsc

/-! # The ring is a bounded queue

One coordinator and one worker, whatever locks they hold, use the ring as a queue of one value less
than it has slots: a step of either side leaves the queue alone, puts a value in at its end or takes
the first one out (`Inv.fifoStep`). An index of the other side is stale, but was right when it was
read: a `put` that returns `False` has seen a full ring and a `get` that returns `None` an empty one
at some instant of the call (`Seen`, `seen_exec`). -/

namespace VantaCore.Core.Scanner.Fifo

open VantaCore.Lib.RingQueue VantaCore.Core.Scanner.RingBuffer VantaCore.Core.Scanner.Spsc

/-! ### Instants of a call -/

section Instant

variable {n : ℕ}

/-- The step starts a call of the party. -/
def Calls (p : Party n) : Label n → Prop
  | .put _ => p = .coordinator
  | .get i => p = .worker i
  | .tick _ => False

/-- The call that the party is in after the schedule `ls` has passed through a state with the
property: the party is in a call in that state, and starts none after it. -/
def AtSomeInstant (lockOf : Party n → ℕ) (s₀ : State n) (p : Party n) (ls : List (Label n))
    (P : State n → Prop) : Prop :=
  ∃ ls₁ ls₂ s₁, ls = ls₁ ++ ls₂ ∧ exec lockOf ls₁ s₀ = some s₁ ∧ s₁.pc p ≠ .idle ∧
    (∀ l ∈ ls₂, ¬ Calls p l) ∧ P s₁

variable {lockOf : Party n → ℕ} {s₀ s s' : State n} {p : Party n} {ls : List (Label n)}
  {l : Label n} {P Q : State n → Prop}

theorem atSomeInstant_now (hs : exec lockOf ls s₀ = some s) (hpc : s.pc p ≠ .idle) (h : P s) :
    AtSomeInstant lockOf s₀ p ls P :=
  ⟨ls, [], s, (List.append_nil ls).symm, hs, hpc, by simp, h⟩

theorem AtSomeInstant.imp (h : AtSomeInstant lockOf s₀ p ls P)
    (hPQ : ∀ ls₁ s₁, exec lockOf ls₁ s₀ = some s₁ → P s₁ → Q s₁) :
    AtSomeInstant lockOf s₀ p ls Q := by
  obtain ⟨ls₁, ls₂, s₁, rfl, hs₁, hpc, hl, hP⟩ := h
  exact ⟨ls₁, ls₂, s₁, rfl, hs₁, hpc, hl, hPQ ls₁ s₁ hs₁ hP⟩

theorem AtSomeInstant.snoc (h : AtSomeInstant lockOf s₀ p ls P) (hl : ¬ Calls p l) :
    AtSomeInstant lockOf s₀ p (ls ++ [l]) P := by
  obtain ⟨ls₁, ls₂, s₁, rfl, hs₁, hpc, hls₂, hP⟩ := h
  refine ⟨ls₁, ls₂ ++ [l], s₁, List.append_assoc .., hs₁, hpc, fun l' hl' => ?_, hP⟩
  rcases List.mem_append.mp hl' with h' | h'
  · exact hls₂ l' h'
  · rwa [List.mem_singleton.mp h']

theorem exec_snoc : ∀ {ls : List (Label n)} {s₀ : State n},
    exec lockOf (ls ++ [l]) s₀ = (exec lockOf ls s₀).bind fun s => step lockOf s l
  | [], s₀ => by
    rw [List.nil_append, exec, exec, Option.bind_some]
    cases step lockOf s₀ l <;> rfl
  | l' :: ls, s₀ => by
    rw [List.cons_append, exec, exec, Option.bind_assoc]
    exact congrArg _ (funext fun s => exec_snoc)

end Instant

/-! ### Who writes what -/

section Frame

variable {lockOf : Party 1 → ℕ} {s s' : State 1}

/-- A step of the worker leaves the call of the coordinator and the tail. -/
theorem tick_worker_frame (h : Inv s) (hs : tick lockOf s worker = some s') :
    s'.pc .coordinator = s.pc .coordinator ∧ s'.shm.tail = s.shm.tail ∧
      s'.shm.capacity = s.shm.capacity := by
  cases h.getStep hs with
  | acquire hpc hshm hpcs => simp [hshm, hpcs]
  | read | writeHead | ret => simp

/-- A step of the coordinator leaves the call of the worker and the head. -/
theorem tick_coordinator_frame (h : Inv s) (hs : tick lockOf s .coordinator = some s') :
    s'.pc worker = s.pc worker ∧ s'.shm.head = s.shm.head ∧
      s'.shm.capacity = s.shm.capacity := by
  cases h.putStep hs with
  | acquire hpc hshm hpcs => simp [hshm, hpcs]
  | read | writeSlot | writeTail | ret => simp

theorem step_capacity (h : Inv s) {l : Label 1} (hs : step lockOf s l = some s') :
    s'.shm.capacity = s.shm.capacity := by
  cases l with
  | put addr =>
    rw [step] at hs
    split_ifs at hs
    obtain rfl := Option.some.inj hs
    rfl
  | get i =>
    rw [step] at hs
    split_ifs at hs
    obtain rfl := Option.some.inj hs
    rfl
  | tick p =>
    cases p with
    | coordinator => exact (tick_coordinator_frame h hs).2.2
    | worker i =>
      obtain rfl : i = 0 := Subsingleton.elim _ _
      exact (tick_worker_frame h hs).2.2

theorem exec_capacity (h : Inv s) {ls : List (Label 1)} (hs : exec lockOf ls s = some s') :
    s'.shm.capacity = s.shm.capacity := by
  have hinv : Inv s' ∧ s'.shm.capacity = s.shm.capacity := by
    refine exec_induction (P := fun s₁ => Inv s₁ ∧ s₁.shm.capacity = s.shm.capacity)
      (fun _ _ s₁ s₂ h₁ hs₁ => ?_) ⟨h, rfl⟩ hs
    exact ⟨h₁.1.step hs₁, (step_capacity h₁.1 hs₁).trans h₁.2⟩
  exact hinv.2

/-- A step that starts no call of the coordinator and is none of its call leaves its call and the
tail. -/
theorem step_frame_coordinator (h : Inv s) {l : Label 1} (hl : ¬ Calls .coordinator l)
    (ht : l ≠ .tick .coordinator) (hs : step lockOf s l = some s') :
    s'.pc .coordinator = s.pc .coordinator ∧ s'.shm.tail = s.shm.tail := by
  cases l with
  | put addr => exact absurd rfl hl
  | get i =>
    rw [step] at hs
    split_ifs at hs
    obtain rfl := Option.some.inj hs
    simp
  | tick p =>
    cases p with
    | coordinator => exact absurd rfl ht
    | worker i =>
      obtain rfl : i = 0 := Subsingleton.elim _ _
      exact ⟨(tick_worker_frame h hs).1, (tick_worker_frame h hs).2.1⟩

/-- A step that starts no call of the worker and is none of its call leaves its call and the head. -/
theorem step_frame_worker (h : Inv s) {l : Label 1} (hl : ¬ Calls worker l)
    (ht : l ≠ .tick worker) (hs : step lockOf s l = some s') :
    s'.pc worker = s.pc worker ∧ s'.shm.head = s.shm.head := by
  cases l with
  | put addr =>
    rw [step] at hs
    split_ifs at hs
    obtain rfl := Option.some.inj hs
    simp
  | get i =>
    obtain rfl : i = 0 := Subsingleton.elim _ _
    exact absurd rfl hl
  | tick p =>
    cases p with
    | coordinator => exact ⟨(tick_coordinator_frame h hs).1, (tick_coordinator_frame h hs).2.1⟩
    | worker i =>
      obtain rfl : i = 0 := Subsingleton.elim _ _
      exact absurd rfl ht

end Frame

/-! ### What a call has seen -/

section Seen

variable (lockOf : Party 1 → ℕ) (s₀ : State 1)

/-- What the coordinator has seen at a point of `put`: the indices it has read were the ring's at one
instant, and a `put` that is to return `False` has seen a full ring. -/
def PutSeen (ls : List (Label 1)) (m : Shm) : Pc → Prop
  | .putReadTail _ head => AtSomeInstant lockOf s₀ .coordinator ls fun s₁ =>
      s₁.shm.head = head ∧ s₁.shm.tail = m.tail
  | .putReadCap _ head tail => AtSomeInstant lockOf s₀ .coordinator ls fun s₁ =>
      s₁.shm.head = head ∧ s₁.shm.tail = tail
  | .putRelease _ false => AtSomeInstant lockOf s₀ .coordinator ls fun s₁ =>
      (queue s₁.shm).length + 1 = m.capacity
  | _ => True

/-- What the worker has seen at a point of `get`. -/
def GetSeen (ls : List (Label 1)) : Pc → Prop
  | .getReadCap head tail => AtSomeInstant lockOf s₀ worker ls fun s₁ =>
      s₁.shm.head = head ∧ s₁.shm.tail = tail
  | .getRelease none => AtSomeInstant lockOf s₀ worker ls fun s₁ => queue s₁.shm = []
  | _ => True

/-- **What holds after a schedule**, with what the calls in progress have seen. -/
structure Seen (ls : List (Label 1)) (s : State 1) : Prop where
  inv : Inv s
  capacity : s.shm.capacity = s₀.shm.capacity
  put : PutSeen lockOf s₀ ls s.shm (s.pc .coordinator)
  get : GetSeen lockOf s₀ ls (s.pc worker)

end Seen

section SeenStep

variable {lockOf : Party 1 → ℕ} {s₀ s s' : State 1} {ls : List (Label 1)} {l : Label 1}

theorem PutSeen.snoc {m m' : Shm} {pc : Pc} (h : PutSeen lockOf s₀ ls m pc)
    (hl : ¬ Calls .coordinator l) (htail : m'.tail = m.tail) (hcap : m'.capacity = m.capacity) :
    PutSeen lockOf s₀ (ls ++ [l]) m' pc := by
  cases pc <;> simp only [PutSeen, htail, hcap] at h ⊢
  case putReadTail | putReadCap => exact h.snoc hl
  case putRelease addr res =>
    cases res
    · exact h.snoc hl
    · trivial

theorem GetSeen.snoc {pc : Pc} (h : GetSeen lockOf s₀ ls pc) (hl : ¬ Calls worker l) :
    GetSeen lockOf s₀ (ls ++ [l]) pc := by
  cases pc <;> simp only [GetSeen] at h ⊢
  case getReadCap => exact h.snoc hl
  case getRelease res =>
    cases res
    · exact h.snoc hl
    · trivial

/-- **What a `put` has seen after its next step**: the head when it reads it, and the tail with it,
since no other step moves the tail. -/
theorem Seen.tick_coordinator (hinv₀ : Inv s₀) (h : Seen lockOf s₀ ls s)
    (hexec : exec lockOf ls s₀ = some s) (hs : tick lockOf s .coordinator = some s') :
    PutSeen lockOf s₀ (ls ++ [.tick .coordinator]) s'.shm (s'.pc .coordinator) := by
  have hp := h.inv.producer
  have hput := h.put
  have hcall : ¬ Calls (.coordinator : Party 1) (.tick .coordinator) := id
  unfold tick at hs
  cases hpc : s.pc .coordinator <;> rw [hpc] at hs hp hput <;> simp only [ProducerAt] at hp
  case idle => cases hs
  case putAcquire addr =>
    obtain ⟨s₁, -, rfl⟩ := Option.map_eq_some_iff.mp hs
    simp [PutSeen]
  case putReadHead addr =>
    obtain rfl := Option.some.inj hs
    rw [goto_pc, Function.update_self]
    exact (atSomeInstant_now hexec (by rw [hpc]; simp) ⟨rfl, rfl⟩).snoc hcall
  case putReadTail addr head =>
    obtain rfl := Option.some.inj hs
    rw [goto_pc, Function.update_self]
    exact AtSomeInstant.snoc hput hcall
  case putReadCap addr head tail =>
    obtain rfl := Option.some.inj hs
    rw [goto_pc, Function.update_self, goto_shm]
    split_ifs with hfull
    · refine (AtSomeInstant.snoc hput hcall).imp fun ls₁ s₁ hs₁ hseen => ?_
      have hcap : s₁.shm.capacity = s.shm.capacity :=
        (exec_capacity hinv₀ hs₁).trans h.capacity.symm
      obtain ⟨rfl, rfl⟩ := hseen
      rw [← hcap] at hfull ⊢
      rw [queue, length_contents]
      exact dist_of_full (hinv₀.exec hs₁).tail_lt hfull
    · trivial
  case putWriteSlot | putWriteTail | putRelease =>
    obtain rfl := Option.some.inj hs
    simp [PutSeen]

/-- **What a `get` has seen after its next step**: the tail when it reads it, and the head with it,
which no other step moves. -/
theorem Seen.tick_worker (h : Seen lockOf s₀ ls s) (hexec : exec lockOf ls s₀ = some s)
    (hs : tick lockOf s worker = some s') :
    GetSeen lockOf s₀ (ls ++ [.tick worker]) (s'.pc worker) := by
  have hc := h.inv.consumer
  have hget := h.get
  have hcall : ¬ Calls worker (.tick worker) := id
  unfold tick at hs
  cases hpc : s.pc worker <;> rw [hpc] at hs hc hget <;> simp only [ConsumerAt] at hc
  case idle => cases hs
  case getAcquire =>
    obtain ⟨s₁, -, rfl⟩ := Option.map_eq_some_iff.mp hs
    simp [GetSeen]
  case getReadTail head =>
    subst hc
    obtain rfl := Option.some.inj hs
    rw [goto_pc, Function.update_self]
    exact (atSomeInstant_now hexec (by rw [hpc]; simp) ⟨rfl, rfl⟩).snoc hcall
  case getReadCap head tail =>
    obtain rfl := Option.some.inj hs
    rw [goto_pc, Function.update_self]
    split_ifs with hempty
    · refine (AtSomeInstant.snoc hget hcall).imp fun ls₁ s₁ _ hseen => ?_
      rw [queue, hseen.1, hseen.2, hempty, contents_self]
    · trivial
  case getReadHead | getReadSlot | getWriteHead | getRelease =>
    obtain rfl := Option.some.inj hs
    simp [GetSeen]

/-- A call that starts has seen nothing. -/
theorem step_put {addr : UInt64} (hs : step lockOf s (.put addr) = some s') :
    s'.pc .coordinator = .putAcquire addr := by
  rw [step] at hs
  split_ifs at hs
  obtain rfl := Option.some.inj hs
  simp

theorem step_get {i : Fin 1} (hs : step lockOf s (.get i) = some s') :
    s'.pc (.worker i) = .getAcquire := by
  rw [step] at hs
  split_ifs at hs
  obtain rfl := Option.some.inj hs
  simp

theorem Seen.put_step (hinv₀ : Inv s₀) (h : Seen lockOf s₀ ls s)
    (hexec : exec lockOf ls s₀ = some s) (hs : step lockOf s l = some s') :
    PutSeen lockOf s₀ (ls ++ [l]) s'.shm (s'.pc .coordinator) := by
  by_cases hcall : Calls .coordinator l
  · cases l with
    | put addr => rw [step_put hs]; trivial
    | get i => cases hcall
    | tick p => cases hcall
  · by_cases htick : l = .tick .coordinator
    · subst htick
      exact h.tick_coordinator hinv₀ hexec hs
    · obtain ⟨hpc, htail⟩ := step_frame_coordinator h.inv hcall htick hs
      rw [hpc]
      exact h.put.snoc hcall htail (step_capacity h.inv hs)

theorem Seen.get_step (h : Seen lockOf s₀ ls s) (hexec : exec lockOf ls s₀ = some s)
    (hs : step lockOf s l = some s') : GetSeen lockOf s₀ (ls ++ [l]) (s'.pc worker) := by
  by_cases hcall : Calls worker l
  · cases l with
    | put addr => cases hcall
    | get i =>
      obtain rfl : i = 0 := Subsingleton.elim _ _
      rw [step_get hs]
      trivial
    | tick p => cases hcall
  · by_cases htick : l = .tick worker
    · subst htick
      exact h.tick_worker hexec hs
    · rw [(step_frame_worker h.inv hcall htick hs).1]
      exact h.get.snoc hcall

theorem Seen.step (hinv₀ : Inv s₀) (h : Seen lockOf s₀ ls s) (hexec : exec lockOf ls s₀ = some s)
    (hs : step lockOf s l = some s') : Seen lockOf s₀ (ls ++ [l]) s' where
  inv := h.inv.step hs
  capacity := (step_capacity h.inv hs).trans h.capacity
  put := h.put_step hinv₀ hexec hs
  get := h.get_step hexec hs

/-- **What the calls have seen, after every schedule** from a state in which no call is in
progress. -/
theorem seen_exec (hinv₀ : Inv s₀) (hidle : ∀ p, s₀.pc p = .idle) : ∀ {ls : List (Label 1)}
    {s : State 1}, exec lockOf ls s₀ = some s → Seen lockOf s₀ ls s := by
  intro ls
  induction ls using List.reverseRecOn with
  | nil =>
    intro s hs
    obtain rfl := Option.some.inj hs
    exact ⟨hinv₀, rfl, by rw [hidle]; trivial, by rw [hidle]; trivial⟩
  | append_singleton ls l ih =>
    intro s' hs
    rw [exec_snoc] at hs
    obtain ⟨s, hs, hstep⟩ := Option.bind_eq_some_iff.mp hs
    exact (ih hs).step hinv₀ hs hstep

end SeenStep

/-! ### The queue -/

section Queue

variable {lockOf : Party 1 → ℕ} {s s' : State 1}

theorem length_queue_lt (h : Inv s) : (queue s.shm).length < s.shm.capacity := by
  rw [queue, length_contents]
  exact dist_lt h.head_lt h.tail_lt

theorem fifoStep_tick_coordinator (h : Inv s) (hs : tick lockOf s .coordinator = some s') :
    FifoStep (s.shm.capacity - 1) (queue s.shm) (queue s'.shm) := by
  have hp := h.producer
  cases h.putStep hs with
  | acquire hpc hshm =>
    rw [goto_shm, hshm]
    exact .stay _
  | read | ret => exact .stay _
  | @writeSlot addr tail nextTail hpc =>
    rw [hpc] at hp
    obtain ⟨rfl, -, -⟩ := hp
    have hq := contents_update s.shm.data h.head_lt h.tail_lt addr
    simp only [goto_shm, queue, hq]
    exact .stay _
  | writeTail hpc =>
    rw [hpc] at hp
    obtain ⟨rfl, hroom, -⟩ := hp
    have hq := contents_push s.shm.data h.head_lt h.tail_lt hroom
    simp only [goto_shm, queue, hq]
    exact .push _ _ (by rw [length_contents]; omega)

theorem fifoStep_tick_worker (h : Inv s) (hs : tick lockOf s worker = some s') :
    FifoStep (s.shm.capacity - 1) (queue s.shm) (queue s'.shm) := by
  have hc := h.consumer
  cases h.getStep hs with
  | acquire hpc hshm =>
    rw [goto_shm, hshm]
    exact .stay _
  | read | ret => exact .stay _
  | writeHead hpc =>
    rw [hpc] at hc
    obtain ⟨rfl, hne, -⟩ := hc
    have hq := contents_pop s.shm.data h.head_lt h.tail_lt hne
    simp only [goto_shm, queue, hq]
    exact .pop _ _

/-- **A step of the two sides is a step of a queue** of one value less than the ring has slots. -/
theorem fifoStep_step (h : Inv s) {l : Label 1} (hs : step lockOf s l = some s') :
    FifoStep (s.shm.capacity - 1) (queue s.shm) (queue s'.shm) := by
  cases l with
  | put addr =>
    rw [step] at hs
    split_ifs at hs
    obtain rfl := Option.some.inj hs
    exact .stay _
  | get i =>
    rw [step] at hs
    split_ifs at hs
    obtain rfl := Option.some.inj hs
    exact .stay _
  | tick p =>
    cases p with
    | coordinator => exact fifoStep_tick_coordinator h hs
    | worker i =>
      obtain rfl : i = 0 := Subsingleton.elim _ _
      exact fifoStep_tick_worker h hs

end Queue

/-- **The two sides use the ring as a queue of at most `bound` values.** -/
structure RefinesFifo (bound : ℕ) (lockOf : Party 1 → ℕ) (shm : Shm) : Prop where
  /-- The indices stay in the ring. -/
  index_lt : ∀ ls s, exec lockOf ls (.init shm) = some s →
    s.shm.head < shm.capacity ∧ s.shm.tail < shm.capacity
  /-- In the queue are the values that have been put and not yet got, in order; a `put` that has moved
  the tail has put its value, and a `get` that has moved the head has got it. -/
  content : ∀ ls s, exec lockOf ls (.init shm) = some s →
    accepted s.trace ++ publishing (s.pc .coordinator) =
      delivered s.trace ++ taking (s.pc worker) ++ queue s.shm
  /-- Every step is a step of the queue. -/
  step : ∀ ls s l s', exec lockOf ls (.init shm) = some s → step lockOf s l = some s' →
    (queue s.shm).length ≤ bound ∧ FifoStep bound (queue s.shm) (queue s'.shm)
  /-- The values got are the first of those put, the one of a `put` that has moved the tail and is
  to return `True` included. -/
  fifo : ∀ ls s, exec lockOf ls (.init shm) = some s →
    delivered s.trace <+: accepted s.trace ++ publishing (s.pc .coordinator)
  /-- What has been got is at any time a prefix of what has been put when that `put` is over. -/
  fifo_idle : ∀ ls s ls' s', exec lockOf ls (.init shm) = some s → exec lockOf ls' s = some s' →
    s'.pc .coordinator = .idle → delivered s.trace <+: accepted s'.trace
  /-- A `put` returns `False` only if the queue was full at some instant of the call. -/
  put_false : ∀ ls s s' addr, exec lockOf ls (.init shm) = some s →
    RingBuffer.step lockOf s (.tick .coordinator) = some s' →
    s'.trace = s.trace ++ [.putRet addr false] →
    AtSomeInstant lockOf (.init shm) .coordinator ls fun s₁ => (queue s₁.shm).length = bound
  /-- A `get` returns `None` only if the queue was empty at some instant of the call. -/
  get_none : ∀ ls s s', exec lockOf ls (.init shm) = some s →
    RingBuffer.step lockOf s (.tick worker) = some s' →
    s'.trace = s.trace ++ [.getRet worker none] →
    AtSomeInstant lockOf (.init shm) worker ls fun s₁ => queue s₁.shm = []

/-! ### Two handles -/

section Handles

variable {lockOf : Party 1 → ℕ} {s s' : State 1}

/-- Only the last step of a `put` returns. -/
theorem pc_of_putRet (h : Inv s) {addr : UInt64} {res : Bool}
    (hs : tick lockOf s .coordinator = some s')
    (htr : s'.trace = s.trace ++ [.putRet addr res]) : s.pc .coordinator = .putRelease addr res := by
  cases h.putStep hs with
  | acquire hpc hshm hpcs htr₁ =>
    rw [goto_trace, htr₁] at htr
    simp at htr
  | read | writeSlot | writeTail => simp at htr
  | ret lock hpc =>
    obtain ⟨rfl, rfl⟩ : _ ∧ _ := by simpa using htr
    exact hpc

theorem pc_of_getRet (h : Inv s) {res : Option UInt64} (hs : tick lockOf s worker = some s')
    (htr : s'.trace = s.trace ++ [.getRet worker res]) : s.pc worker = .getRelease res := by
  cases h.getStep hs with
  | acquire hpc hshm hpcs htr₁ =>
    rw [goto_trace, htr₁] at htr
    simp at htr
  | read | writeHead => simp at htr
  | ret lock hpc =>
    obtain rfl : _ = _ := by simpa using htr
    exact hpc

theorem delivered_prefix_accepted (h : Inv s) :
    delivered s.trace <+: accepted s.trace ++ publishing (s.pc .coordinator) := by
  rw [h.fifo, List.append_assoc]
  exact List.prefix_append _ _

theorem trace_prefix_step {l : Label 1} (hs : step lockOf s l = some s') :
    s.trace <+: s'.trace := by
  cases l with
  | put addr | get i =>
    rw [step] at hs
    split_ifs at hs
    obtain rfl := Option.some.inj hs
    simp
  | tick p =>
    rw [step, tick] at hs
    cases hpc : s.pc p <;> rw [hpc] at hs
    case idle => cases hs
    case putAcquire | getAcquire =>
      obtain ⟨s₁, h₁, rfl⟩ := Option.map_eq_some_iff.mp hs
      rw [goto_trace, (acquire_eq_some _ _ h₁).2.2]
    all_goals
      obtain rfl := Option.some.inj hs
      simp

theorem trace_prefix_exec {ls : List (Label 1)} (hs : exec lockOf ls s = some s') :
    s.trace <+: s'.trace :=
  exec_induction (P := fun s₁ => s.trace <+: s₁.trace)
    (fun _ _ _ _ h₁ hs₁ => h₁.trans (trace_prefix_step hs₁)) (List.prefix_refl _) hs

end Handles

/-- **A ring that two handles share is a bounded queue**, whatever locks the handles hold. -/
theorem refinesFifo_init (lockOf : Party 1 → ℕ) {capacity : ℕ} (hc : 0 < capacity)
    (data : ℕ → UInt64) : RefinesFifo (capacity - 1) lockOf ⟨0, 0, capacity, data⟩ where
  index_lt ls s hs := by
    have h := (inv_init hc data).exec hs
    have hcap : s.shm.capacity = capacity := exec_capacity (inv_init hc data) hs
    exact ⟨hcap ▸ h.head_lt, hcap ▸ h.tail_lt⟩
  content ls s hs := ((inv_init hc data).exec hs).fifo
  step ls s l s' hs hstep := by
    have h := (inv_init hc data).exec hs
    have hcap : s.shm.capacity = capacity := exec_capacity (inv_init hc data) hs
    have hlt := length_queue_lt h
    refine ⟨by omega, ?_⟩
    rw [← hcap]
    exact fifoStep_step h hstep
  fifo ls s hs := delivered_prefix_accepted ((inv_init hc data).exec hs)
  fifo_idle ls s ls' s' hs hs' hidle := by
    have h := (inv_init hc data).exec hs
    have hdel : delivered s.trace <+: delivered s'.trace :=
      (trace_prefix_exec hs').filterMap _
    have hacc := delivered_prefix_accepted (h.exec hs')
    rw [hidle] at hacc
    exact hdel.trans (by simpa [publishing] using hacc)
  put_false ls s s' addr hs hstep htr := by
    have h := seen_exec (inv_init hc data) (fun _ => rfl) hs
    have hput := h.put
    rw [pc_of_putRet h.inv hstep htr] at hput
    refine AtSomeInstant.imp hput fun ls₁ s₁ _ hfull => ?_
    have hcap : s.shm.capacity = capacity := h.capacity
    omega
  get_none ls s s' hs hstep htr := by
    have h := seen_exec (inv_init hc data) (fun _ => rfl) hs
    have hget := h.get
    rw [pc_of_getRet h.inv hstep htr] at hget
    exact hget

theorem rings_obtainLock (w : World) (lock : Option ℕ) : (obtainLock w lock).2.rings = w.rings := by
  cases lock <;> rfl

theorem create_eq_some (w : World) {capacity : ℕ} (lock : Option ℕ) (hpos : 1 ≤ capacity)
    (hle : capacity ≤ hardCapacityLimit) : ∃ producer w', create w capacity lock =
      some (producer, w') ∧ w'.rings[producer.name]? = some ⟨0, 0, capacity, fun _ => 0⟩ := by
  have hcap : ¬ (capacity = 0 ∨ hardCapacityLimit < capacity) := by omega
  refine ⟨_, _, if_neg hcap, ?_⟩
  simp

theorem attach_eq_some (w : World) (lock : Option ℕ) {name : ℕ} {shm : Shm}
    (h : w.rings[name]? = some shm) : ∃ consumer w', attach w lock (some name) =
      some (consumer, w') ∧ w'.rings[consumer.name]? = some shm := by
  have hlt : name < (obtainLock w lock).2.rings.length := by
    rw [rings_obtainLock]
    exact (List.getElem?_eq_some_iff.mp h).1
  refine ⟨⟨(obtainLock w lock).1, name⟩, (obtainLock w lock).2, if_pos hlt, ?_⟩
  rw [rings_obtainLock]
  exact h

/-- **A producer and a consumer that attaches to its ring by name use it as a queue** of one value
less than it has slots, with whatever locks. -/
theorem refinesFifo (w : World) (capacity : ℕ) (lockP lockC : Option ℕ) (hpos : 1 ≤ capacity)
    (hle : capacity ≤ hardCapacityLimit) : ∃ producer w₁ consumer w₂ shm,
      create w capacity lockP = some (producer, w₁) ∧
      attach w₁ lockC (some producer.name) = some (consumer, w₂) ∧
      w₂.rings[consumer.name]? = some shm ∧ shm.capacity = capacity ∧
      RefinesFifo (capacity - 1) (RingBuffer.lockOf producer [consumer]) shm := by
  obtain ⟨producer, w₁, hcreate, hring⟩ := create_eq_some w lockP hpos hle
  obtain ⟨consumer, w₂, hattach, hring'⟩ := attach_eq_some w₁ lockC hring
  exact ⟨producer, w₁, consumer, w₂, _, hcreate, hattach, hring', rfl, refinesFifo_init _ hpos _⟩

/-- Two handles with a new lock each, on a ring of 256 slots. -/
theorem refinesFifo_256 : ∃ producer w₁ consumer w₂ shm,
    create ⟨0, []⟩ 256 none = some (producer, w₁) ∧
      attach w₁ none (some producer.name) = some (consumer, w₂) ∧
      w₂.rings[consumer.name]? = some shm ∧ shm.capacity = 256 ∧
      RefinesFifo (256 - 1) (RingBuffer.lockOf producer [consumer]) shm :=
  refinesFifo ⟨0, []⟩ 256 none none (by decide) (by decide)

end VantaCore.Core.Scanner.Fifo
