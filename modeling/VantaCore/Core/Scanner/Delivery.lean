import VantaCore.Core.Scanner.Spsc

/-! # Is every address delivered once?

The coordinator makes its ring without a lock, and so does every worker that attaches to it: each
handle has a lock of its own (`start_eq_some`). So the workers do not exclude each other, and two of
them that read the same head return the same address. The ring delivers every address once exactly
if there is one worker, or no slot to put an address in (`deliversOnce_iff`). -/

namespace VantaCore.Core.Scanner.Delivery

open VantaCore.Lib.RingQueue VantaCore.Core.Scanner.RingBuffer VantaCore.Core.Scanner.Spsc

/-! ### The locks of the handles -/

theorem attach_eq (w : World) (name : ℕ) (h : name < w.rings.length) :
    attach w none (some name) = some (⟨w.locks, name⟩, ⟨w.locks + 1, w.rings⟩) := by
  simp [attach, obtainLock, h]

theorem attachWorkers_eq (name : ℕ) : ∀ (n : ℕ) (w : World), name < w.rings.length →
    attachWorkers name n w =
      some ((List.range n).map fun i => ⟨w.locks + i, name⟩, ⟨w.locks + n, w.rings⟩)
  | 0, w, _ => rfl
  | n + 1, w, h => by
    have ih := attachWorkers_eq name n ⟨w.locks + 1, w.rings⟩ h
    simp only [attachWorkers, attach_eq w name h, Option.bind_eq_bind, Option.bind_some, ih,
      List.range_succ_eq_map, List.map_cons, List.map_map]
    congr 2
    · congr 1
      refine List.map_congr_left fun i _ => ?_
      simp only [Function.comp_apply, Nat.succ_eq_add_one, Handle.mk.injEq, and_true]
      omega
    · congr 1
      omega

/-- **Every handle has a lock of its own**: the coordinator the first new one, the workers those
after it. -/
theorem start_eq_some {w w' : World} {capacity n : ℕ} {coordinator : Handle} {workers : List Handle}
    (h : start w capacity n = some (coordinator, workers, w')) :
    0 < capacity ∧ coordinator = ⟨w.locks, w.rings.length⟩ ∧
      workers = ((List.range n).map fun i => ⟨w.locks + 1 + i, w.rings.length⟩) ∧
      w'.rings[coordinator.name]? = some ⟨0, 0, capacity, fun _ => 0⟩ := by
  simp only [start, create, obtainLock, Option.bind_eq_bind] at h
  split_ifs at h with hcap
  · simp at h
  · rw [Option.bind_some, attachWorkers_eq _ _ _ (by simp), Option.bind_some] at h
    obtain ⟨rfl, rfl, rfl⟩ : _ ∧ _ ∧ _ := by simpa using h
    exact ⟨by omega, rfl, rfl, by simp⟩

theorem lockOf_injective {w w' : World} {capacity n : ℕ} {coordinator : Handle}
    {workers : List Handle} (h : start w capacity n = some (coordinator, workers, w')) :
    Function.Injective (lockOf coordinator workers) := by
  obtain ⟨-, rfl, rfl, -⟩ := start_eq_some h
  rintro (_ | i) (_ | j) hij
  · rfl
  · simp [lockOf] at hij
    omega
  · simp [lockOf] at hij
    omega
  · simp only [lockOf, Fin.getElem_fin, List.getElem_map, List.getElem_range] at hij
    exact congrArg _ (Fin.ext (by omega))

/-! ### The property -/

variable {n : ℕ}

/-- The address of a `put` in progress. -/
def putting : Pc → Option UInt64
  | .putAcquire addr | .putReadHead addr | .putReadTail addr _ | .putReadCap addr _ _
  | .putWriteSlot addr _ _ | .putWriteTail addr _ | .putRelease addr _ => some addr
  | _ => none

/-- The number of calls of `put` with the address that are in progress. -/
def pending (s : State n) (addr : UInt64) : ℕ :=
  if putting (s.pc .coordinator) = some addr then 1 else 0

/-- No call is in progress. -/
def Idle (s : State n) : Prop := ∀ p, s.pc p = .idle

/-- A call of `get` of the worker that no other party interrupts returns `None`. -/
def GetReturnsNone (lockOf : Party n → ℕ) (s : State n) (i : Fin n) : Prop :=
  ∃ k s', exec lockOf (.get i :: List.replicate k (.tick (.worker i))) s = some s' ∧
    s'.trace = s.trace ++ [.getCall (.worker i), .getRet (.worker i) none]

/-- **Every address is delivered once**: along every schedule, an address that was put is returned
by no more calls of `get` than there are calls of `put` of it, and when no call is in progress and
a further `get` returns `None`, by as many. -/
structure DeliversOnce (lockOf : Party n → ℕ) (shm : Shm) : Prop where
  atMostOnce : ∀ ls s, exec lockOf ls (.init shm) = some s → ∀ addr ∈ accepted s.trace,
    (delivered s.trace).count addr ≤ (accepted s.trace).count addr + pending s addr
  exactlyOnce : ∀ ls s, exec lockOf ls (.init shm) = some s → Idle s →
    ∀ i, GetReturnsNone lockOf s i → ∀ addr ∈ accepted s.trace,
      (delivered s.trace).count addr = (accepted s.trace).count addr

theorem exec_trans {lockOf : Party n → ℕ} {ls' : List (Label n)} {s' s'' : State n}
    (h' : exec lockOf ls' s' = some s'') : ∀ {ls : List (Label n)} {s : State n},
      exec lockOf ls s = some s' → exec lockOf (ls ++ ls') s = some s''
  | [], s, h => by
    obtain rfl := Option.some.inj h
    exact h'
  | l :: ls, s, h => by
    obtain ⟨s₁, h₁, h₂⟩ := Option.bind_eq_some_iff.mp h
    rw [List.cons_append, exec, h₁, Option.bind_some]
    exact exec_trans h' h₂

/-! ### A further `get` -/

/-- The points of a `get` on a ring that is not empty, before it moves the head. -/
def Takes (shm : Shm) : Pc → Prop
  | .getAcquire | .getReadHead | .getReadSlot _ _ | .getWriteHead _ _ => True
  | .getReadTail head => head = shm.head
  | .getReadCap head tail => head = shm.head ∧ tail = shm.tail
  | _ => False

/-- Where a worker is in a call that it makes alone; `s₀` is the state the call started in. -/
inductive Solo (s₀ : State n) (i : Fin n) (s : State n) : Prop
  | taking (trace : s.trace = s₀.trace ++ [.getCall (.worker i)]) (shm : s.shm = s₀.shm)
      (pc : Takes s₀.shm (s.pc (.worker i)))
  | taken (trace : s.trace = s₀.trace ++ [.getCall (.worker i)]) (addr : UInt64)
      (pc : s.pc (.worker i) = .getRelease (some addr))
  | returned (addr : UInt64)
      (trace : s.trace = s₀.trace ++ [.getCall (.worker i), .getRet (.worker i) (some addr)])
      (pc : s.pc (.worker i) = .idle)

theorem Solo.tick {lockOf : Party n → ℕ} {s₀ s s' : State n} {i : Fin n} (h : Solo s₀ i s)
    (hne : s₀.shm.head ≠ s₀.shm.tail) (hs : tick lockOf s (.worker i) = some s') :
    Solo s₀ i s' := by
  unfold RingBuffer.tick at hs
  cases h with
  | returned addr htr hpc =>
    rw [hpc] at hs
    cases hs
  | taken htr addr hpc =>
    rw [hpc] at hs
    obtain rfl := Option.some.inj hs
    exact .returned addr (by simp [htr]) (by simp)
  | taking htr hshm hpc =>
    cases hp : s.pc (.worker i) <;> rw [hp] at hs hpc <;> simp only [Takes] at hpc
    case getAcquire =>
      obtain ⟨s₁, h₁, rfl⟩ := Option.map_eq_some_iff.mp hs
      obtain ⟨hshm₁, -, htr₁⟩ := acquire_eq_some _ _ h₁
      exact .taking (by simp [htr₁, htr]) (by simp [hshm₁, hshm]) (by simp [Takes])
    case getReadHead =>
      obtain rfl := Option.some.inj hs
      exact .taking (by simp [htr]) hshm (by simp [Takes, hshm])
    case getReadTail head =>
      obtain rfl := Option.some.inj hs
      exact .taking (by simp [htr]) hshm (by simp [Takes, hshm, hpc])
    case getReadCap head tail =>
      obtain ⟨rfl, rfl⟩ := hpc
      obtain rfl := Option.some.inj hs
      rw [if_neg hne]
      exact .taking (by simp [htr]) hshm (by simp [Takes])
    case getReadSlot head cap =>
      obtain rfl := Option.some.inj hs
      exact .taking (by simp [htr]) hshm (by simp [Takes])
    case getWriteHead addr nextHead =>
      obtain rfl := Option.some.inj hs
      exact .taken (by simp [htr]) addr (by simp)

/-- **A `get` returns `None` only on an empty ring**, if no other party interrupts it. -/
theorem GetReturnsNone.empty {lockOf : Party n → ℕ} {s : State n} {i : Fin n}
    (h : GetReturnsNone lockOf s i) : s.shm.head = s.shm.tail := by
  obtain ⟨k, s', hs, htr⟩ := h
  by_contra hne
  obtain ⟨s₁, h₁, h₂⟩ := Option.bind_eq_some_iff.mp hs
  have hsolo : Solo s i s₁ := by
    rw [step] at h₁
    split_ifs at h₁
    obtain rfl := Option.some.inj h₁
    exact .taking (by simp) rfl (by simp [Takes])
  have hsolo' : Solo s i s' := by
    refine exec_induction (fun l hl s₂ s₃ h₂ h₃ => ?_) hsolo h₂
    rw [List.eq_of_mem_replicate hl] at h₃
    exact h₂.tick hne h₃
  cases hsolo' with
  | taking htr' _ _ => rw [htr] at htr'; simp at htr'
  | taken htr' _ _ => rw [htr] at htr'; simp at htr'
  | returned addr htr' _ => rw [htr] at htr'; simp at htr'

/-! ### One worker -/

theorem count_publishing_le (s : State n) (addr : UInt64) :
    (publishing (s.pc .coordinator)).count addr ≤ pending s addr := by
  unfold pending
  cases s.pc .coordinator <;> simp only [publishing, List.count_nil, Nat.zero_le]
  case putRelease a res =>
    cases res
    · simp
    · simp [putting, List.count_singleton]

theorem deliversOnce_one (lockOf : Party 1 → ℕ) {capacity : ℕ} (hc : 0 < capacity)
    (data : ℕ → UInt64) : DeliversOnce lockOf ⟨0, 0, capacity, data⟩ where
  atMostOnce ls s hs addr _ := by
    have hcount := congrArg (List.count addr) ((inv_init hc data).exec hs).fifo
    simp only [List.count_append] at hcount
    have hpub := count_publishing_le s addr
    omega
  exactlyOnce ls s hs hidle i hnone addr _ := by
    have hfifo := ((inv_init hc data).exec hs).fifo
    rw [hidle .coordinator, hidle worker, queue, hnone.empty, contents_self] at hfifo
    have : accepted s.trace = delivered s.trace := by simpa [publishing, taking] using hfifo
    rw [this]

/-! ### One slot -/

/-- The points of a call on a ring of one slot. -/
def OneSlotAt : Pc → Prop
  | .idle | .putAcquire _ | .putReadHead _ | .getAcquire | .getReadHead => True
  | .putReadTail _ head | .getReadTail head => head = 0
  | .putReadCap _ head tail | .getReadCap head tail => head = 0 ∧ tail = 0
  | .putRelease _ res => res = false
  | .getRelease res => res = none
  | _ => False

/-- A ring of one slot is always empty and full. -/
structure OneSlot (s : State n) : Prop where
  head : s.shm.head = 0
  tail : s.shm.tail = 0
  capacity : s.shm.capacity = 1
  pc : ∀ p, OneSlotAt (s.pc p)
  trace : accepted s.trace = []

theorem OneSlot.goto {s : State n} (h : OneSlot s) (p : Party n) {pc : Pc} (hpc : OneSlotAt pc) :
    OneSlot (s.goto p pc) where
  head := h.head
  tail := h.tail
  capacity := h.capacity
  pc q := by
    rw [goto_pc]
    by_cases hq : q = p
    · rw [hq, Function.update_self]; exact hpc
    · rw [Function.update_of_ne hq]; exact h.pc q
  trace := h.trace

theorem OneSlot.of_parts {s s' : State n} (h : OneSlot s) (hshm : s'.shm = s.shm)
    (hpc : s'.pc = s.pc) (htr : accepted s'.trace = accepted s.trace) : OneSlot s' where
  head := by rw [hshm]; exact h.head
  tail := by rw [hshm]; exact h.tail
  capacity := by rw [hshm]; exact h.capacity
  pc := by rw [hpc]; exact h.pc
  trace := by rw [htr]; exact h.trace

theorem OneSlot.tick {lockOf : Party n → ℕ} {s s' : State n} {p : Party n} (h : OneSlot s)
    (hs : tick lockOf s p = some s') : OneSlot s' := by
  have hp := h.pc p
  unfold RingBuffer.tick at hs
  cases hpc : s.pc p <;> rw [hpc] at hs hp <;> try exact False.elim hp
  case idle => cases hs
  case putAcquire | getAcquire =>
    obtain ⟨s₁, h₁, rfl⟩ := Option.map_eq_some_iff.mp hs
    obtain ⟨hshm, hpcs, htr⟩ := acquire_eq_some _ _ h₁
    exact (h.of_parts hshm hpcs (by rw [htr])).goto p trivial
  case putReadHead | getReadHead =>
    obtain rfl := Option.some.inj hs
    exact h.goto p h.head
  case putReadTail | getReadTail =>
    obtain rfl := Option.some.inj hs
    exact h.goto p ⟨hp, h.tail⟩
  case putReadCap addr head tail =>
    obtain ⟨rfl, rfl⟩ := hp
    have hfull : (0 + 1) % s.shm.capacity = 0 := by rw [h.capacity]
    obtain rfl := Option.some.inj hs
    simp only [hfull, ↓reduceIte]
    exact h.goto p rfl
  case getReadCap head tail =>
    obtain ⟨rfl, rfl⟩ := hp
    obtain rfl := Option.some.inj hs
    exact h.goto p rfl
  case putRelease addr res =>
    obtain rfl := Option.some.inj hs
    have h' : OneSlot ((s.release (lockOf p)).emit (.putRet addr res)) :=
      h.of_parts rfl rfl (by simp [accepted, show res = false from hp])
    exact h'.goto p trivial
  case getRelease res =>
    obtain rfl := Option.some.inj hs
    have h' : OneSlot ((s.release (lockOf p)).emit (.getRet p res)) :=
      h.of_parts rfl rfl (by simp [accepted])
    exact h'.goto p trivial

theorem OneSlot.step {lockOf : Party n → ℕ} {s s' : State n} {l : Label n} (h : OneSlot s)
    (hs : step lockOf s l = some s') : OneSlot s' := by
  cases l with
  | put addr =>
    rw [RingBuffer.step] at hs
    split_ifs at hs
    obtain rfl := Option.some.inj hs
    have h' : OneSlot (s.emit (.putCall addr)) := h.of_parts rfl rfl (by simp [accepted])
    exact h'.goto _ trivial
  | get i =>
    rw [RingBuffer.step] at hs
    split_ifs at hs
    obtain rfl := Option.some.inj hs
    have h' : OneSlot (s.emit (.getCall (.worker i))) := h.of_parts rfl rfl (by simp [accepted])
    exact h'.goto _ trivial
  | tick p => exact h.tick hs

/-- No `put` returns `True` on a ring of one slot. -/
theorem accepted_oneSlot {lockOf : Party n → ℕ} {ls : List (Label n)} {s : State n}
    {data : ℕ → UInt64} (hs : exec lockOf ls (.init ⟨0, 0, 1, data⟩) = some s) :
    accepted s.trace = [] := by
  have h : OneSlot (.init ⟨0, 0, 1, data⟩ : State n) :=
    ⟨rfl, rfl, rfl, fun _ => trivial, rfl⟩
  exact (exec_induction (fun _ _ _ _ h hs => h.step hs) h hs).trace

theorem deliversOnce_oneSlot (lockOf : Party n → ℕ) (data : ℕ → UInt64) :
    DeliversOnce lockOf ⟨0, 0, 1, data⟩ where
  atMostOnce ls s hs addr ha := by rw [accepted_oneSlot hs] at ha; cases ha
  exactlyOnce ls s hs _ _ _ addr ha := by rw [accepted_oneSlot hs] at ha; cases ha

/-! ### Two workers -/

section Runs

variable {lockOf : Party n → ℕ} {s : State n}

/-- A `put` that no other party interrupts, on a ring with room. -/
theorem exec_put (addr : UInt64) (hidle : s.pc .coordinator = .idle)
    (hfree : s.holder (lockOf .coordinator) = none)
    (hroom : (s.shm.tail + 1) % s.shm.capacity ≠ s.shm.head) :
    exec lockOf (.put addr :: List.replicate 7 (.tick .coordinator)) s = some
      { shm := { s.shm with
          data := Function.update s.shm.data s.shm.tail addr
          tail := (s.shm.tail + 1) % s.shm.capacity }
        holder := s.holder
        pc := s.pc
        trace := s.trace ++ [.putCall addr, .putRet addr true] } := by
  simp [List.replicate, exec, step, tick, hidle, hfree, hroom, State.goto, State.acquire,
    State.release, State.emit]

/-- A `get` up to the point where it has read the slot. -/
theorem exec_get_read (i : Fin n) (hidle : s.pc (.worker i) = .idle)
    (hfree : s.holder (lockOf (.worker i)) = none) (hne : s.shm.head ≠ s.shm.tail) :
    exec lockOf (.get i :: List.replicate 5 (.tick (.worker i))) s = some
      { shm := s.shm
        holder := Function.update s.holder (lockOf (.worker i)) (some (.worker i))
        pc := Function.update s.pc (.worker i)
          (.getWriteHead (s.shm.data s.shm.head) ((s.shm.head + 1) % s.shm.capacity))
        trace := s.trace ++ [.getCall (.worker i)] } := by
  simp [List.replicate, exec, step, tick, hidle, hfree, hne, State.goto, State.acquire, State.emit]

/-- The rest of a `get` that has read the slot. -/
theorem exec_get_write (i : Fin n) {addr : UInt64} {nextHead : ℕ}
    (hpc : s.pc (.worker i) = .getWriteHead addr nextHead) :
    exec lockOf (List.replicate 2 (.tick (.worker i))) s = some
      { shm := { s.shm with head := nextHead }
        holder := Function.update s.holder (lockOf (.worker i)) none
        pc := Function.update s.pc (.worker i) .idle
        trace := s.trace ++ [.getRet (.worker i) (some addr)] } := by
  simp [List.replicate, exec, step, tick, hpc, State.goto, State.release, State.emit]

end Runs

/-- **Two workers with different locks get one address twice**: both read the head before either
moves it. -/
theorem exec_get_twice_of_ne {lockOf : Party n → ℕ} {i j : Fin n}
    (hlock : lockOf (.worker j) ≠ lockOf (.worker i)) {capacity : ℕ} (hc : 1 < capacity)
    (data : ℕ → UInt64) :
    ∃ ls s, exec lockOf ls (.init ⟨0, 0, capacity, data⟩) = some s ∧ accepted s.trace = [7] ∧
      delivered s.trace = [7, 7] ∧ Idle s := by
  have hji : Party.worker j ≠ Party.worker i := fun he => hlock (congrArg lockOf he)
  have hmod : (0 + 1) % capacity = 1 := Nat.mod_eq_of_lt hc
  obtain ⟨s₁, h₁, hshm₁, hfree₁, hpc₁, htr₁⟩ : ∃ s₁ : State n,
      exec lockOf (.put 7 :: List.replicate 7 (.tick .coordinator))
        (.init ⟨0, 0, capacity, data⟩) = some s₁ ∧
      s₁.shm = ⟨0, 1, capacity, Function.update data 0 7⟩ ∧ (∀ lock, s₁.holder lock = none) ∧
      (∀ p, s₁.pc p = .idle) ∧ s₁.trace = [.putCall 7, .putRet 7 true] := by
    refine ⟨_, exec_put 7 rfl rfl (by simp [State.init, Nat.mod_eq_of_lt hc]), ?_,
      fun _ => rfl, fun _ => rfl, rfl⟩
    simp [State.init, Nat.mod_eq_of_lt hc]
  obtain ⟨s₂, h₂, hshm₂, hfree₂, hpc₂, htr₂⟩ : ∃ s₂ : State n,
      exec lockOf (.get i :: List.replicate 5 (.tick (.worker i))) s₁ = some s₂ ∧
      s₂.shm = s₁.shm ∧ (∀ lock ≠ lockOf (.worker i), s₂.holder lock = none) ∧
      s₂.pc = Function.update s₁.pc (.worker i) (.getWriteHead 7 1) ∧
      s₂.trace = s₁.trace ++ [.getCall (.worker i)] := by
    refine ⟨_, exec_get_read i (hpc₁ _) (hfree₁ _) (by simp [hshm₁]), rfl, fun lock hl => ?_, ?_,
      rfl⟩
    · exact (Function.update_of_ne hl _ _).trans (hfree₁ lock)
    · simp [hshm₁, hmod]
  obtain ⟨s₃, h₃, hpc₃, htr₃⟩ : ∃ s₃ : State n,
      exec lockOf (.get j :: List.replicate 5 (.tick (.worker j))) s₂ = some s₃ ∧
      s₃.pc = Function.update s₂.pc (.worker j) (.getWriteHead 7 1) ∧
      s₃.trace = s₂.trace ++ [.getCall (.worker j)] := by
    refine ⟨_, exec_get_read j ?_ (hfree₂ _ hlock) (by simp [hshm₂, hshm₁]), ?_, rfl⟩
    · rw [hpc₂, Function.update_of_ne hji, hpc₁]
    · simp [hshm₂, hshm₁, hmod]
  have hj : s₃.pc (.worker j) = .getWriteHead 7 1 := by rw [hpc₃, Function.update_self]
  obtain ⟨s₄, h₄, hpc₄, htr₄⟩ : ∃ s₄ : State n,
      exec lockOf (List.replicate 2 (.tick (.worker j))) s₃ = some s₄ ∧
      s₄.pc = Function.update s₃.pc (.worker j) .idle ∧
      s₄.trace = s₃.trace ++ [.getRet (.worker j) (some 7)] :=
    ⟨_, exec_get_write j hj, rfl, rfl⟩
  have hi : s₄.pc (.worker i) = .getWriteHead 7 1 := by
    rw [hpc₄, Function.update_of_ne hji.symm, hpc₃, Function.update_of_ne hji.symm, hpc₂,
      Function.update_self]
  obtain ⟨s₅, h₅, hpc₅, htr₅⟩ : ∃ s₅ : State n,
      exec lockOf (List.replicate 2 (.tick (.worker i))) s₄ = some s₅ ∧
      s₅.pc = Function.update s₄.pc (.worker i) .idle ∧
      s₅.trace = s₄.trace ++ [.getRet (.worker i) (some 7)] :=
    ⟨_, exec_get_write i hi, rfl, rfl⟩
  have htr : s₅.trace = [.putCall 7, .putRet 7 true, .getCall (.worker i), .getCall (.worker j),
      .getRet (.worker j) (some 7), .getRet (.worker i) (some 7)] := by
    rw [htr₅, htr₄, htr₃, htr₂, htr₁]
    rfl
  refine ⟨_, s₅, exec_trans h₅ (exec_trans h₄ (exec_trans h₃ (exec_trans h₂ h₁))),
    by rw [htr]; rfl, by rw [htr]; rfl, fun p => ?_⟩
  by_cases hpi : p = .worker i
  · rw [hpc₅, hpi, Function.update_self]
  · rw [hpc₅, Function.update_of_ne hpi, hpc₄]
    by_cases hpj : p = .worker j
    · rw [hpj, Function.update_self]
    · rw [Function.update_of_ne hpj, hpc₃, Function.update_of_ne hpj, hpc₂,
        Function.update_of_ne hpi, hpc₁]

/-- Two workers with a lock each. -/
theorem exec_get_twice {lockOf : Party n → ℕ} (hinj : Function.Injective lockOf) (hn : 1 < n)
    {capacity : ℕ} (hc : 1 < capacity) (data : ℕ → UInt64) :
    ∃ ls s, exec lockOf ls (.init ⟨0, 0, capacity, data⟩) = some s ∧ accepted s.trace = [7] ∧
      delivered s.trace = [7, 7] ∧ Idle s := by
  have hji : (Party.worker ⟨1, hn⟩ : Party n) ≠ .worker ⟨0, by omega⟩ := by simp
  exact exec_get_twice_of_ne (fun he => hji (hinj he)) hc data

theorem not_deliversOnce {lockOf : Party n → ℕ} (hinj : Function.Injective lockOf) (hn : 1 < n)
    {capacity : ℕ} (hc : 1 < capacity) (data : ℕ → UInt64) :
    ¬ DeliversOnce lockOf ⟨0, 0, capacity, data⟩ := by
  intro h
  obtain ⟨ls, s, hs, hacc, hdel, hidle⟩ := exec_get_twice hinj hn hc data
  have h2 := h.atMostOnce ls s hs 7 (by rw [hacc]; decide)
  rw [hacc, hdel, pending, hidle .coordinator] at h2
  revert h2
  decide

/-- **When every address is delivered once.** -/
theorem deliversOnce_iff (w w' : World) (capacity n : ℕ) (coordinator : Handle)
    (workers : List Handle) (hn : 1 ≤ n)
    (hstart : start w capacity n = some (coordinator, workers, w')) :
    (∀ shm, w'.rings[coordinator.name]? = some shm →
      DeliversOnce (lockOf coordinator workers) shm) ↔ n = 1 ∨ capacity = 1 := by
  have hinj := lockOf_injective hstart
  obtain ⟨hpos, -, hworkers, hring⟩ := start_eq_some hstart
  obtain rfl : workers.length = n := by rw [hworkers]; simp
  rw [hring]
  clear hstart hworkers hring
  generalize lockOf coordinator workers = locks at hinj ⊢
  generalize workers.length = n at *
  constructor
  · intro h
    by_contra hno
    rw [not_or] at hno
    exact not_deliversOnce hinj (by omega) (by omega) _ (h _ rfl)
  · rintro (rfl | rfl) shm hshm
    · rw [← Option.some.inj hshm]
      exact deliversOnce_one locks hpos _
    · rw [← Option.some.inj hshm]
      exact deliversOnce_oneSlot locks _

/-- Two workers on a ring of 256 slots. -/
theorem not_deliversOnce_two_workers : ∃ coordinator workers w' shm,
    start ⟨0, []⟩ 256 2 = some (coordinator, workers, w') ∧
      w'.rings[coordinator.name]? = some shm ∧ ¬ DeliversOnce (lockOf coordinator workers) shm := by
  have hstart : start ⟨0, []⟩ 256 2 =
      some (⟨0, 0⟩, [⟨1, 0⟩, ⟨2, 0⟩], ⟨3, [⟨0, 0, 256, fun _ => 0⟩]⟩) := rfl
  exact ⟨_, _, _, _, hstart, rfl,
    not_deliversOnce (lockOf_injective hstart) (by decide) (by decide) _⟩

theorem deliversOnce_one_worker :
    DeliversOnce (lockOf ⟨0, 0⟩ [⟨1, 0⟩]) ⟨0, 0, 256, fun _ => 0⟩ :=
  (deliversOnce_iff ⟨0, []⟩ ⟨2, [⟨0, 0, 256, fun _ => 0⟩]⟩ 256 1 ⟨0, 0⟩ [⟨1, 0⟩] (by decide)
    rfl).mpr (Or.inl rfl) _ rfl

end VantaCore.Core.Scanner.Delivery
