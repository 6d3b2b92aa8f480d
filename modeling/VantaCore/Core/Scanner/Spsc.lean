import VantaCore.Core.Scanner.RingBuffer
import VantaCore.Lib.RingQueue

/-! # One producer and one consumer

With a single worker the ring is a queue whether or not the two sides share a lock. Only the
coordinator writes the tail and only the worker the head, so an index a side has read of the other
is at worst behind, and the side sees less room, or fewer values, than there are (`ProducerAt`,
`ConsumerAt`). What has been put and what has been got differ by the contents of the ring at every
step of every schedule (`Inv`, `inv_exec`). -/

namespace VantaCore.Core.Scanner.Spsc

open VantaCore.Lib.RingQueue VantaCore.Core.Scanner.RingBuffer

/-! ### The parts of a state -/

section State

variable {n : ℕ} (s : State n) (p : Party n) (pc : Pc) (lock : ℕ) (e : Event n)

@[simp] theorem goto_shm : (s.goto p pc).shm = s.shm := rfl
@[simp] theorem goto_trace : (s.goto p pc).trace = s.trace := rfl
@[simp] theorem goto_pc : (s.goto p pc).pc = Function.update s.pc p pc := rfl
@[simp] theorem release_shm : (s.release lock).shm = s.shm := rfl
@[simp] theorem release_trace : (s.release lock).trace = s.trace := rfl
@[simp] theorem release_pc : (s.release lock).pc = s.pc := rfl
@[simp] theorem emit_shm : (s.emit e).shm = s.shm := rfl
@[simp] theorem emit_trace : (s.emit e).trace = s.trace ++ [e] := rfl
@[simp] theorem emit_pc : (s.emit e).pc = s.pc := rfl

theorem acquire_eq_some {s s' : State n} (h : s.acquire p lock = some s') :
    s'.shm = s.shm ∧ s'.pc = s.pc ∧ s'.trace = s.trace := by
  unfold State.acquire at h
  split_ifs at h
  rw [← Option.some.inj h]
  exact ⟨rfl, rfl, rfl⟩

end State

/-! ### The invariant -/

/-- The values in the ring. -/
def queue (m : Shm) : List UInt64 := contents m.capacity m.data m.head m.tail

/-- What the coordinator knows at a point of `put`. -/
def ProducerAt (m : Shm) : Pc → Prop
  | .idle | .putAcquire _ | .putReadHead _ | .putRelease _ _ => True
  | .putReadTail _ head =>
    head < m.capacity ∧ dist m.capacity m.head m.tail ≤ dist m.capacity head m.tail
  | .putReadCap _ head tail =>
    tail = m.tail ∧ head < m.capacity ∧
      dist m.capacity m.head m.tail ≤ dist m.capacity head m.tail
  | .putWriteSlot _ tail nextTail =>
    tail = m.tail ∧ nextTail = next m.capacity m.tail ∧
      dist m.capacity m.head m.tail + 1 < m.capacity
  | .putWriteTail addr nextTail =>
    nextTail = next m.capacity m.tail ∧ dist m.capacity m.head m.tail + 1 < m.capacity ∧
      m.data m.tail = addr
  | _ => False

/-- What the worker knows at a point of `get`. -/
def ConsumerAt (m : Shm) : Pc → Prop
  | .idle | .getAcquire | .getReadHead | .getRelease _ => True
  | .getReadTail head => head = m.head
  | .getReadCap head tail => head = m.head ∧ (head ≠ tail → m.head ≠ m.tail)
  | .getReadSlot head cap => head = m.head ∧ cap = m.capacity ∧ m.head ≠ m.tail
  | .getWriteHead addr nextHead =>
    nextHead = next m.capacity m.head ∧ m.head ≠ m.tail ∧ m.data m.head = addr
  | _ => False

/-- The address of a `put` that has moved the tail and not yet returned. -/
def publishing : Pc → List UInt64
  | .putRelease addr true => [addr]
  | _ => []

/-- The address of a `get` that has moved the head and not yet returned. -/
def taking : Pc → List UInt64
  | .getRelease (some addr) => [addr]
  | _ => []

/-- The worker. -/
abbrev worker : Party 1 := .worker 0

/-- **What holds at every step.** -/
structure Inv (s : State 1) : Prop where
  head_lt : s.shm.head < s.shm.capacity
  tail_lt : s.shm.tail < s.shm.capacity
  producer : ProducerAt s.shm (s.pc .coordinator)
  consumer : ConsumerAt s.shm (s.pc worker)
  fifo : accepted s.trace ++ publishing (s.pc .coordinator) =
    delivered s.trace ++ taking (s.pc worker) ++ queue s.shm

theorem inv_init {capacity : ℕ} (h : 0 < capacity) (data : ℕ → UInt64) :
    Inv (.init ⟨0, 0, capacity, data⟩) where
  head_lt := h
  tail_lt := h
  producer := trivial
  consumer := trivial
  fifo := by simp [State.init, accepted, delivered, publishing, taking, queue, contents_self]

/-- A step of the coordinator that changes neither the ring nor the trace. -/
theorem Inv.goto_coordinator {s : State 1} (h : Inv s) {pc : Pc} (hpc : ProducerAt s.shm pc)
    (hpub : publishing pc = publishing (s.pc .coordinator)) : Inv (s.goto .coordinator pc) where
  head_lt := h.head_lt
  tail_lt := h.tail_lt
  producer := by simpa using hpc
  consumer := by simpa using h.consumer
  fifo := by simpa [hpub] using h.fifo

/-- A step of the worker that changes neither the ring nor the trace. -/
theorem Inv.goto_worker {s : State 1} (h : Inv s) {pc : Pc} (hpc : ConsumerAt s.shm pc)
    (htake : taking pc = taking (s.pc worker)) : Inv (s.goto worker pc) where
  head_lt := h.head_lt
  tail_lt := h.tail_lt
  producer := by simpa using h.producer
  consumer := by simpa using hpc
  fifo := by simpa [htake] using h.fifo

theorem Inv.of_parts {s s' : State 1} (h : Inv s) (hshm : s'.shm = s.shm) (hpc : s'.pc = s.pc)
    (hacc : accepted s'.trace = accepted s.trace) (hdel : delivered s'.trace = delivered s.trace) :
    Inv s' where
  head_lt := by rw [hshm]; exact h.head_lt
  tail_lt := by rw [hshm]; exact h.tail_lt
  producer := by rw [hshm, hpc]; exact h.producer
  consumer := by rw [hshm, hpc]; exact h.consumer
  fifo := by rw [hshm, hpc, hacc, hdel]; exact h.fifo

/-! ### Steps -/

theorem accepted_append (t t' : List (Event 1)) :
    accepted (t ++ t') = accepted t ++ accepted t' := List.filterMap_append

theorem delivered_append (t t' : List (Event 1)) :
    delivered (t ++ t') = delivered t ++ delivered t' := List.filterMap_append

/-- The slot at the tail is written: it is no slot of the queue. -/
theorem Inv.writeSlot {s : State 1} (h : Inv s) {addr : UInt64} {tail nextTail : ℕ}
    (hpc : s.pc .coordinator = .putWriteSlot addr tail nextTail) :
    Inv ({ s with shm := { s.shm with data := Function.update s.shm.data tail addr } }.goto
      .coordinator (.putWriteTail addr nextTail)) := by
  have hp := h.producer
  rw [hpc] at hp
  obtain ⟨rfl, rfl, hroom⟩ := hp
  constructor
  · exact h.head_lt
  · exact h.tail_lt
  · simp [ProducerAt, hroom]
  · have hc := h.consumer
    simp only [goto_shm, goto_pc, ne_eq, reduceCtorEq, not_false_eq_true, Function.update_of_ne]
    revert hc
    cases s.pc worker <;> simp only [ConsumerAt, imp_self]
    rintro ⟨rfl, hne, rfl⟩
    exact ⟨rfl, hne, Function.update_of_ne hne _ _⟩
  · have hq := contents_update s.shm.data h.head_lt h.tail_lt addr
    have hf := h.fifo
    rw [hpc] at hf
    simpa [queue, hq, publishing] using hf

/-- The tail moves over the slot written: its address is in the queue. -/
theorem Inv.writeTail {s : State 1} (h : Inv s) {addr : UInt64} {nextTail : ℕ}
    (hpc : s.pc .coordinator = .putWriteTail addr nextTail) :
    Inv ({ s with shm := { s.shm with tail := nextTail } }.goto
      .coordinator (.putRelease addr true)) := by
  have hp := h.producer
  rw [hpc] at hp
  obtain ⟨rfl, hroom, hslot⟩ := hp
  have hne : s.shm.head ≠ next s.shm.capacity s.shm.tail := by
    intro he
    have := dist_next_right h.head_lt h.tail_lt hroom
    rw [← he, dist_self] at this
    omega
  constructor
  · exact h.head_lt
  · exact next_lt (Nat.lt_of_le_of_lt (Nat.zero_le _) h.head_lt) _
  · simp [ProducerAt]
  · have hc := h.consumer
    simp only [goto_shm, goto_pc, ne_eq, reduceCtorEq, not_false_eq_true, Function.update_of_ne]
    revert hc
    cases s.pc worker <;> simp only [ConsumerAt, imp_self]
    · rintro ⟨rfl, -⟩; exact ⟨rfl, fun _ => hne⟩
    · rintro ⟨rfl, rfl, -⟩; exact ⟨rfl, rfl, hne⟩
    · rintro ⟨rfl, -, rfl⟩; exact ⟨rfl, hne, rfl⟩
  · have hq := contents_push s.shm.data h.head_lt h.tail_lt hroom
    have hf := h.fifo
    simp only [hpc, publishing, List.append_nil] at hf
    simp [queue, hq, publishing, hslot, hf]

/-- The head moves over the slot read: its address has left the queue. -/
theorem Inv.writeHead {s : State 1} (h : Inv s) {addr : UInt64} {nextHead : ℕ}
    (hpc : s.pc worker = .getWriteHead addr nextHead) :
    Inv ({ s with shm := { s.shm with head := nextHead } }.goto
      worker (.getRelease (some addr))) := by
  have hc := h.consumer
  rw [hpc] at hc
  obtain ⟨rfl, hne, hslot⟩ := hc
  have hdist := dist_next_left h.head_lt h.tail_lt hne
  constructor
  · exact next_lt (Nat.lt_of_le_of_lt (Nat.zero_le _) h.head_lt) _
  · exact h.tail_lt
  · have hp := h.producer
    simp only [goto_shm, goto_pc, ne_eq, reduceCtorEq, not_false_eq_true, Function.update_of_ne]
    revert hp
    cases s.pc .coordinator <;> simp only [ProducerAt, imp_self]
    · rintro ⟨hlt, hle⟩; exact ⟨hlt, by omega⟩
    · rintro ⟨rfl, hlt, hle⟩; exact ⟨rfl, hlt, by omega⟩
    · rintro ⟨rfl, rfl, hroom⟩; exact ⟨rfl, rfl, by omega⟩
    · rintro ⟨rfl, hroom, rfl⟩; exact ⟨rfl, by omega, rfl⟩
  · simp [ConsumerAt]
  · have hq := contents_pop s.shm.data h.head_lt h.tail_lt hne
    have hf := h.fifo
    simp only [hpc, taking, List.append_nil, queue, hq, hslot] at hf
    simp [queue, taking, hf]

/-- What a step of the coordinator does: it takes the lock, reads and computes what it knows, writes
the slot, writes the tail, or returns. -/
inductive PutStep (s : State 1) : State 1 → Prop where
  | acquire {addr : UInt64} {s₁ : State 1} (hpc : s.pc .coordinator = .putAcquire addr)
      (hshm : s₁.shm = s.shm) (hpcs : s₁.pc = s.pc) (htr : s₁.trace = s.trace) :
      PutStep s (s₁.goto .coordinator (.putReadHead addr))
  | read {pc : Pc} (hpc : ProducerAt s.shm pc)
      (hpub : publishing pc = publishing (s.pc .coordinator)) :
      PutStep s (s.goto .coordinator pc)
  | writeSlot {addr : UInt64} {tail nextTail : ℕ}
      (hpc : s.pc .coordinator = .putWriteSlot addr tail nextTail) :
      PutStep s ({ s with shm := { s.shm with data := Function.update s.shm.data tail addr } }.goto
        .coordinator (.putWriteTail addr nextTail))
  | writeTail {addr : UInt64} {nextTail : ℕ} (hpc : s.pc .coordinator = .putWriteTail addr nextTail) :
      PutStep s ({ s with shm := { s.shm with tail := nextTail } }.goto
        .coordinator (.putRelease addr true))
  | ret {addr : UInt64} {res : Bool} (lock : ℕ) (hpc : s.pc .coordinator = .putRelease addr res) :
      PutStep s (((s.release lock).emit (.putRet addr res)).goto .coordinator .idle)

theorem Inv.putStep {lockOf : Party 1 → ℕ} {s s' : State 1} (h : Inv s)
    (hs : tick lockOf s .coordinator = some s') : PutStep s s' := by
  have hp := h.producer
  unfold tick at hs
  cases hpc : s.pc .coordinator <;> rw [hpc] at hs hp <;> simp only [ProducerAt] at hp
  case idle => cases hs
  case putAcquire addr =>
    obtain ⟨s₁, h₁, rfl⟩ := Option.map_eq_some_iff.mp hs
    obtain ⟨hshm, hpcs, htr⟩ := acquire_eq_some _ _ h₁
    exact .acquire hpc hshm hpcs htr
  case putReadHead addr =>
    obtain rfl := Option.some.inj hs
    exact .read ⟨h.head_lt, le_rfl⟩ (by rw [hpc]; rfl)
  case putReadTail addr head =>
    obtain rfl := Option.some.inj hs
    exact .read ⟨rfl, hp⟩ (by rw [hpc]; rfl)
  case putReadCap addr head tail =>
    obtain ⟨rfl, hlt, hle⟩ := hp
    obtain rfl := Option.some.inj hs
    split_ifs with hfull
    · exact .read trivial (by rw [hpc]; rfl)
    · refine .read ⟨rfl, rfl, ?_⟩ (by rw [hpc]; rfl)
      have := dist_succ_lt hlt h.tail_lt hfull
      omega
  case putWriteSlot addr tail nextTail =>
    obtain rfl := Option.some.inj hs
    exact .writeSlot hpc
  case putWriteTail addr nextTail =>
    obtain rfl := Option.some.inj hs
    exact .writeTail hpc
  case putRelease addr res =>
    obtain rfl := Option.some.inj hs
    exact .ret _ hpc

/-- What a step of the worker does: it takes the lock, reads and computes what it knows, writes the
head, or returns. -/
inductive GetStep (s : State 1) : State 1 → Prop where
  | acquire {s₁ : State 1} (hpc : s.pc worker = .getAcquire)
      (hshm : s₁.shm = s.shm) (hpcs : s₁.pc = s.pc) (htr : s₁.trace = s.trace) :
      GetStep s (s₁.goto worker .getReadHead)
  | read {pc : Pc} (hpc : ConsumerAt s.shm pc) (htake : taking pc = taking (s.pc worker)) :
      GetStep s (s.goto worker pc)
  | writeHead {addr : UInt64} {nextHead : ℕ} (hpc : s.pc worker = .getWriteHead addr nextHead) :
      GetStep s ({ s with shm := { s.shm with head := nextHead } }.goto
        worker (.getRelease (some addr)))
  | ret {res : Option UInt64} (lock : ℕ) (hpc : s.pc worker = .getRelease res) :
      GetStep s (((s.release lock).emit (.getRet worker res)).goto worker .idle)

theorem Inv.getStep {lockOf : Party 1 → ℕ} {s s' : State 1} (h : Inv s)
    (hs : tick lockOf s worker = some s') : GetStep s s' := by
  have hc := h.consumer
  unfold tick at hs
  cases hpc : s.pc worker <;> rw [hpc] at hs hc <;> simp only [ConsumerAt] at hc
  case idle => cases hs
  case getAcquire =>
    obtain ⟨s₁, h₁, rfl⟩ := Option.map_eq_some_iff.mp hs
    obtain ⟨hshm, hpcs, htr⟩ := acquire_eq_some _ _ h₁
    exact .acquire hpc hshm hpcs htr
  case getReadHead =>
    obtain rfl := Option.some.inj hs
    exact .read rfl (by rw [hpc]; rfl)
  case getReadTail head =>
    subst hc
    obtain rfl := Option.some.inj hs
    exact .read ⟨rfl, id⟩ (by rw [hpc]; rfl)
  case getReadCap head tail =>
    obtain ⟨rfl, hne⟩ := hc
    obtain rfl := Option.some.inj hs
    split_ifs with hempty
    · exact .read trivial (by rw [hpc]; rfl)
    · exact .read ⟨rfl, rfl, hne hempty⟩ (by rw [hpc]; rfl)
  case getReadSlot head cap =>
    obtain ⟨rfl, rfl, hne⟩ := hc
    obtain rfl := Option.some.inj hs
    exact .read ⟨rfl, hne, rfl⟩ (by rw [hpc]; rfl)
  case getWriteHead addr nextHead =>
    obtain rfl := Option.some.inj hs
    exact .writeHead hpc
  case getRelease res =>
    obtain rfl := Option.some.inj hs
    exact .ret _ hpc

theorem Inv.tick_coordinator {lockOf : Party 1 → ℕ} {s s' : State 1} (h : Inv s)
    (hs : tick lockOf s .coordinator = some s') : Inv s' := by
  cases h.putStep hs with
  | acquire hpc hshm hpcs htr =>
    have h' := h.of_parts hshm hpcs (by rw [htr]) (by rw [htr])
    exact h'.goto_coordinator trivial (by rw [hpcs, hpc]; rfl)
  | read hpc hpub => exact h.goto_coordinator hpc hpub
  | writeSlot hpc => exact h.writeSlot hpc
  | writeTail hpc => exact h.writeTail hpc
  | @ret addr res lock hpc =>
    have hf := h.fifo
    rw [hpc] at hf
    constructor
    · exact h.head_lt
    · exact h.tail_lt
    · simp [ProducerAt]
    · simpa using h.consumer
    · cases res <;> simpa [accepted_append, delivered_append, accepted, delivered, publishing]
        using hf

theorem Inv.tick_worker {lockOf : Party 1 → ℕ} {s s' : State 1} (h : Inv s)
    (hs : tick lockOf s worker = some s') : Inv s' := by
  cases h.getStep hs with
  | acquire hpc hshm hpcs htr =>
    have h' := h.of_parts hshm hpcs (by rw [htr]) (by rw [htr])
    exact h'.goto_worker trivial (by rw [hpcs, hpc]; rfl)
  | read hpc htake => exact h.goto_worker hpc htake
  | writeHead hpc => exact h.writeHead hpc
  | @ret res lock hpc =>
    have hf := h.fifo
    rw [hpc] at hf
    constructor
    · exact h.head_lt
    · exact h.tail_lt
    · simpa using h.producer
    · simp [ConsumerAt]
    · cases res <;> simpa [accepted_append, delivered_append, accepted, delivered, taking] using hf

/-- **A step keeps the invariant.** -/
theorem Inv.step {lockOf : Party 1 → ℕ} {s s' : State 1} {l : Label 1} (h : Inv s)
    (hs : step lockOf s l = some s') : Inv s' := by
  cases l with
  | put addr =>
    rw [RingBuffer.step] at hs
    split_ifs at hs with hidle
    obtain rfl := Option.some.inj hs
    have h' : Inv (s.emit (.putCall addr)) := h.of_parts rfl rfl
      (by simp [accepted]) (by simp [delivered])
    exact h'.goto_coordinator trivial (by rw [emit_pc, hidle]; rfl)
  | get i =>
    obtain rfl : i = 0 := Subsingleton.elim _ _
    rw [RingBuffer.step] at hs
    split_ifs at hs with hidle
    obtain rfl := Option.some.inj hs
    have h' : Inv (s.emit (.getCall worker)) := h.of_parts rfl rfl
      (by simp [accepted]) (by simp [delivered])
    exact h'.goto_worker trivial (by rw [emit_pc, hidle]; rfl)
  | tick p =>
    cases p with
    | coordinator => exact h.tick_coordinator hs
    | worker i =>
      obtain rfl : i = 0 := Subsingleton.elim _ _
      exact h.tick_worker hs

/-- **The invariant holds along every schedule.** -/
theorem Inv.exec {lockOf : Party 1 → ℕ} {ls : List (Label 1)} {s s' : State 1} (h : Inv s)
    (hs : exec lockOf ls s = some s') : Inv s' :=
  exec_induction (fun _ _ _ _ h hs => h.step hs) h hs

end VantaCore.Core.Scanner.Spsc
