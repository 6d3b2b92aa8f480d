import VantaCore.Core.Scanner.Coordinator

/-! # Replacing workers

What `_check_workers` does in a slot is settled when the pass begins (`action`), and the pass does it
slot by slot up to a process that cannot be started (`checkLoop_passed`). Which workers it starts,
and with the stop event set or not, is a matter of the actions alone (`respawn_mem_pass_iff`). The
slots of a started coordinator hold different processes in every run (`inv_run`). -/

namespace VantaCore.Core.Scanner.Respawn

open VantaCore.Core.Scanner.RingBuffer (hardCapacityLimit)
open VantaCore.Core.Scanner.Worker VantaCore.Core.Scanner.Coordinator

/-! ### The slots -/

/-- The slots hold different processes. -/
structure Valid (s : State) : Prop where
  nodup : s.workers.Nodup
  lt : ∀ pid ∈ s.workers, pid < s.processes.length

section State

variable (s : State) (pid : ℕ) (code : Option ℤ) (e : Event)

@[simp] theorem workers_exit : (s.exit pid code).workers = s.workers := rfl
@[simp] theorem respawnCounts_exit : (s.exit pid code).respawnCounts = s.respawnCounts := rfl
@[simp] theorem stopEvent_exit : (s.exit pid code).stopEvent = s.stopEvent := rfl
@[simp] theorem started_exit : (s.exit pid code).started = s.started := rfl
@[simp] theorem trace_exit : (s.exit pid code).trace = s.trace := rfl
@[simp] theorem ringBuffer_exit : (s.exit pid code).ringBuffer = s.ringBuffer := rfl
@[simp] theorem segments_exit : (s.exit pid code).segments = s.segments := rfl
@[simp] theorem rings_exit : (s.exit pid code).rings = s.rings := rfl
@[simp] theorem length_processes_exit :
    (s.exit pid code).processes.length = s.processes.length := List.length_modify ..
@[simp] theorem stopSet_exit : (s.exit pid code).stopSet = s.stopSet := rfl
@[simp] theorem workers_setStop : s.setStop.workers = s.workers := rfl
@[simp] theorem respawnCounts_setStop : s.setStop.respawnCounts = s.respawnCounts := rfl
@[simp] theorem processes_setStop : s.setStop.processes = s.processes := rfl
@[simp] theorem started_setStop : s.setStop.started = s.started := rfl
@[simp] theorem trace_setStop : s.setStop.trace = s.trace := rfl
@[simp] theorem ringBuffer_setStop : s.setStop.ringBuffer = s.ringBuffer := rfl
@[simp] theorem segments_setStop : s.setStop.segments = s.segments := rfl
@[simp] theorem rings_setStop : s.setStop.rings = s.rings := rfl

theorem exitcode_exit (hlt : pid < s.processes.length) (pid' : ℕ) :
    (s.exit pid code).exitcode pid' =
      if pid' = pid then (s.exitcode pid).or code else s.exitcode pid' := by
  unfold State.exit State.exitcode
  rw [List.getD_eq_getElem?_getD, List.getD_eq_getElem?_getD, List.getD_eq_getElem?_getD,
    List.getElem?_modify]
  by_cases h : pid' = pid
  · subst h
    simp [List.getElem?_eq_getElem hlt]
  · simp [h, Ne.symm h]

theorem stopSet_setStop (h : s.stopEvent.isSome = true) : s.setStop.stopSet = true := by
  obtain ⟨b, hb⟩ := Option.isSome_iff_exists.mp h
  simp [State.stopSet, State.setStop, hb]

end State

/-! ### What a pass does -/

/-- What `_check_workers` does in a slot. -/
inductive Action where
  | keep
  | setStop
  | replace
  | fail
deriving DecidableEq

section Action

variable (polled : ℕ → Option ℤ) (raises : ℕ → Bool)

/-- The exit code a slot shows when it is polled. -/
def code (s : State) (i : ℕ) : Option ℤ :=
  s.workers[i]?.bind fun pid => (s.exitcode pid).or (polled i)

/-- The worker in the slot has crashed. -/
def Crashed (s : State) (i : ℕ) : Prop := ∃ c, code polled s i = some c ∧ c ≠ 0

instance (s : State) (i : ℕ) : Decidable (Crashed polled s i) :=
  match h : code polled s i with
  | none => isFalse (by rintro ⟨c, hc, -⟩; rw [h] at hc; cases hc)
  | some c =>
    decidable_of_iff (c ≠ 0)
      ⟨fun hc => ⟨c, h, hc⟩, by rintro ⟨c', hc', hne⟩; rw [h] at hc'; cases hc'; exact hne⟩

/-- What the pass does in a slot, by the state it begins in. -/
def action (s : State) (i : ℕ) : Action :=
  if Crashed polled s i then
    if 1 ≤ s.respawnCounts i then .setStop else if raises i then .fail else .replace
  else .keep

/-- The workers that a pass starts, and whether the stop event is set behind it. -/
def pass (act : ℕ → Action) : List ℕ → Bool → List Event × Bool
  | [], stop => ([], stop)
  | i :: is, stop =>
    match act i with
    | .keep => pass act is stop
    | .setStop => pass act is true
    | .replace => (.respawn i stop :: (pass act is stop).1, (pass act is stop).2)
    | .fail => ([], stop)

end Action

section Pass

variable {act : ℕ → Action} {i : ℕ} {is : List ℕ} {stop : Bool}

/-- The pass gets to a slot: no process before it fails to start. -/
def Reaches (act : ℕ → Action) (is : List ℕ) (i : ℕ) : Prop :=
  i ∈ is ∧ ∀ k ∈ is, k < i → act k ≠ .fail

theorem reaches_cons {k : ℕ} (hk : ∀ j ∈ is, k < j) :
    Reaches act (k :: is) i ↔ i = k ∨ act k ≠ .fail ∧ Reaches act is i := by
  constructor
  · rintro ⟨hi, hreach⟩
    rcases List.mem_cons.mp hi with rfl | hi
    · exact Or.inl rfl
    · exact Or.inr ⟨hreach k List.mem_cons_self (hk i hi), hi,
        fun j hj => hreach j (List.mem_cons_of_mem _ hj)⟩
  · rintro (rfl | ⟨hne, hi, hreach⟩)
    · refine ⟨List.mem_cons_self, fun j hj hlt => ?_⟩
      rcases List.mem_cons.mp hj with rfl | hj
      · omega
      · have := hk j hj
        omega
    · refine ⟨List.mem_cons_of_mem _ hi, fun j hj hlt => ?_⟩
      rcases List.mem_cons.mp hj with rfl | hj
      · exact hne
      · exact hreach j hj hlt

theorem pass_cons (k : ℕ) (is : List ℕ) (stop : Bool) :
    act k = .keep ∧ pass act (k :: is) stop = pass act is stop ∨
    act k = .setStop ∧ pass act (k :: is) stop = pass act is true ∨
    act k = .replace ∧ pass act (k :: is) stop =
      (.respawn k stop :: (pass act is stop).1, (pass act is stop).2) ∨
    act k = .fail ∧ pass act (k :: is) stop = ([], stop) := by
  rw [pass]
  cases act k <;> simp

theorem pass_congr {act' : ℕ → Action} : ∀ {is : List ℕ} {stop : Bool},
    (∀ i ∈ is, act i = act' i) → pass act is stop = pass act' is stop
  | [], _, _ => rfl
  | k :: is, stop, h => by
    have ih : ∀ stop, pass act is stop = pass act' is stop := fun _ =>
      pass_congr fun i hi => h i (List.mem_cons_of_mem k hi)
    rw [pass, pass, h k List.mem_cons_self]
    simp only [ih]

theorem pass_cons_fail (h : act i = .fail) :
    pass act (i :: is) stop = pass act [i] stop := by simp only [pass, h]

theorem pass_cons_ne (h : act i ≠ .fail) : pass act (i :: is) stop =
    ((pass act [i] stop).1 ++ (pass act is (pass act [i] stop).2).1,
      (pass act is (pass act [i] stop).2).2) := by
  cases hact : act i with
  | keep | setStop | replace => simp [pass, hact]
  | fail => exact absurd hact h

/-- **The stop event behind a pass.** -/
theorem pass_snd_iff : ∀ {is : List ℕ} {stop : Bool}, is.Pairwise (· < ·) →
    ((pass act is stop).2 = true ↔ stop = true ∨ ∃ j, Reaches act is j ∧ act j = .setStop)
  | [], stop, _ => by simp [pass, Reaches]
  | k :: is, stop, hsorted => by
    obtain ⟨hk, hsorted⟩ := List.pairwise_cons.mp hsorted
    have ih : ∀ stop, (pass act is stop).2 = true ↔
        stop = true ∨ ∃ j, Reaches act is j ∧ act j = .setStop := fun _ => pass_snd_iff hsorted
    simp only [reaches_cons hk, or_and_right, exists_or, exists_eq_left]
    rcases @pass_cons act k is stop with ⟨hact, h⟩ | ⟨hact, h⟩ | ⟨hact, h⟩ | ⟨hact, h⟩ <;>
      simp [h, hact, ih]

/-- **The workers a pass starts**: each slot it gets to and is to replace, with the stop event set if
it was or an earlier slot of the pass has set it. -/
theorem respawn_mem_pass_iff {b : Bool} : ∀ {is : List ℕ} {stop : Bool}, is.Pairwise (· < ·) →
    (Event.respawn i b ∈ (pass act is stop).1 ↔ Reaches act is i ∧ act i = .replace ∧
      (b = true ↔ stop = true ∨ ∃ j ∈ is, j < i ∧ act j = .setStop))
  | [], stop, _ => by simp [pass, Reaches]
  | k :: is, stop, hsorted => by
    obtain ⟨hk, hsorted⟩ := List.pairwise_cons.mp hsorted
    have ih : ∀ stop, Event.respawn i b ∈ (pass act is stop).1 ↔ Reaches act is i ∧ act i = .replace ∧
        (b = true ↔ stop = true ∨ ∃ j ∈ is, j < i ∧ act j = .setStop) := fun _ =>
      respawn_mem_pass_iff hsorted
    rw [reaches_cons hk]
    by_cases hi : i = k
    · subst hi
      have hself : ¬ Reaches act is i := fun h => lt_irrefl i (hk i h.1)
      have hfirst : ¬ ∃ j ∈ i :: is, j < i ∧ act j = .setStop := by
        rintro ⟨j, hj, hlt, -⟩
        rcases List.mem_cons.mp hj with rfl | hj
        · omega
        · have := hk j hj
          omega
      rw [eq_false hfirst]
      rcases @pass_cons act i is stop with ⟨hact, h⟩ | ⟨hact, h⟩ | ⟨hact, h⟩ | ⟨hact, h⟩ <;>
        simp only [h, hact, ih, hself, List.mem_cons, false_and, or_false, true_or, and_false,
          reduceCtorEq, true_and, List.not_mem_nil]
      cases b <;> cases stop <;> simp
    · have hcons : ∀ stop', (stop' = true ↔ stop = true ∨ act k = .setStop) →
          (Reaches act is i ∧ act i = .replace ∧
            (b = true ↔ stop' = true ∨ ∃ j ∈ is, j < i ∧ act j = .setStop) ↔
          Reaches act is i ∧ act i = .replace ∧
            (b = true ↔ stop = true ∨ ∃ j ∈ k :: is, j < i ∧ act j = .setStop)) := by
        intro stop' hstop'
        refine and_congr_right fun hreach => and_congr_right fun _ => ?_
        simp only [List.mem_cons, or_and_right, exists_or, exists_eq_left, hk i hreach.1, true_and,
          hstop', or_assoc]
      have hor : act k ≠ .fail → ((i = k ∨ act k ≠ .fail ∧ Reaches act is i) ↔
          Reaches act is i) := fun h => by simp [hi, h]
      rcases @pass_cons act k is stop with ⟨hact, h⟩ | ⟨hact, h⟩ | ⟨hact, h⟩ | ⟨hact, h⟩
      · rw [h, hor (by simp [hact]), ← hcons stop (by simp [hact])]
        exact ih stop
      · rw [h, hor (by simp [hact]), ← hcons true (by simp [hact])]
        exact ih true
      · rw [h, hor (by simp [hact]), ← hcons stop (by simp [hact]), ← ih stop]
        simp [hi]
      · simp [h, hi, hact]

end Pass

/-! ### One slot -/

section CheckWorker

variable {polled : ℕ → Option ℤ} {raises : ℕ → Bool} {s s' : State} {i pid : ℕ}

/-- **What the pass does in a slot is what its action says.** -/
theorem checkWorker_eq (hv : Valid s) (hst : s.started = true) (hi : s.workers[i]? = some pid) :
    checkWorker polled raises s i =
      match action polled raises s i with
      | .keep => (s.exit pid (polled i), false)
      | .setStop => ((s.exit pid (polled i)).setStop, false)
      | .fail => (s.exit pid (polled i), true)
      | .replace => (((s.exit pid (polled i)).spawned (.respawn i s.stopSet)).replace i
          s.processes.length, false) := by
  have hlt : pid < s.processes.length := hv.lt pid (List.mem_of_getElem? hi)
  have hcode : (s.exit pid (polled i)).exitcode pid = code polled s i := by
    rw [exitcode_exit s pid _ hlt, if_pos rfl, code, hi]
    rfl
  unfold checkWorker action
  rw [hi]
  simp only [hcode]
  cases hc : code polled s i with
  | none =>
    have : ¬ Crashed polled s i := by rintro ⟨c, h, -⟩; rw [hc] at h; cases h
    rw [if_neg this]
  | some c =>
    by_cases hzero : c = 0
    · have : ¬ Crashed polled s i := by
        rintro ⟨c', h, hne⟩
        rw [hc] at h
        cases h
        exact hne hzero
      rw [if_neg this]
      simp [hzero]
    · rw [if_pos (show Crashed polled s i from ⟨c, hc, hzero⟩)]
      simp only [ne_eq, hzero, not_false_eq_true, if_true, started_exit, hst, respawnWorker,
        respawnCounts_exit, stopSet_exit, length_processes_exit]
      split_ifs <;> rfl

/-- A started coordinator, as the pass finds and leaves it. -/
structure Ready (s : State) : Prop extends Valid s where
  started : s.started = true
  event : s.stopEvent.isSome = true

theorem Ready.exit (h : Ready s) (pid : ℕ) (c : Option ℤ) : Ready (s.exit pid c) where
  nodup := h.nodup
  lt := by simpa using h.lt
  started := h.started
  event := h.event

theorem Ready.setStop (h : Ready s) : Ready s.setStop where
  nodup := h.nodup
  lt := h.lt
  started := h.started
  event := by
    obtain ⟨b, hb⟩ := Option.isSome_iff_exists.mp h.event
    simp [State.setStop, hb]

theorem Ready.respawned (h : Ready s) (e : Event) (i : ℕ) :
    Ready ((s.spawned e).replace i s.processes.length) where
  nodup := by
    have hfresh : s.processes.length ∉ s.workers := fun hm => lt_irrefl _ (h.lt _ hm)
    exact List.Nodup.set h.nodup hfresh
  lt pid hpid := by
    simp only [State.replace, State.spawned] at hpid ⊢
    rw [List.length_append, List.length_singleton]
    rcases List.mem_or_eq_of_mem_set hpid with hm | rfl
    · have := h.lt pid hm
      omega
    · omega
  started := h.started
  event := h.event

/-- What a pass on one slot leaves of another. -/
structure SameSlot (s s' : State) (j : ℕ) : Prop where
  worker : s'.workers[j]? = s.workers[j]?
  exitcode : ∀ pid, s.workers[j]? = some pid → s'.exitcode pid = s.exitcode pid
  count : s'.respawnCounts j = s.respawnCounts j

theorem SameSlot.action {j : ℕ} (h : SameSlot s s' j) :
    action polled raises s' j = action polled raises s j := by
  have hcode : code polled s' j = code polled s j := by
    unfold code
    rw [h.worker]
    cases hj : s.workers[j]? with
    | none => rfl
    | some pid => rw [Option.bind_some, Option.bind_some, h.exitcode pid hj]
  have hcrash : Crashed polled s' j ↔ Crashed polled s j := by unfold Crashed; rw [hcode]
  unfold Respawn.action
  rw [h.count]
  by_cases hc : Crashed polled s j
  · rw [if_pos hc, if_pos (hcrash.mpr hc)]
  · rw [if_neg hc, if_neg fun h => hc (hcrash.mp h)]

theorem sameSlot_exit (h : Valid s) (hi : s.workers[i]? = some pid) (c : Option ℤ) {j : ℕ}
    (hj : j ≠ i) : SameSlot s (s.exit pid c) j where
  worker := rfl
  exitcode pid' hpid' := by
    rw [exitcode_exit s pid c (h.lt pid (List.mem_of_getElem? hi)), if_neg]
    rintro rfl
    obtain ⟨hlt, hi⟩ := List.getElem?_eq_some_iff.mp hi
    obtain ⟨hlt', hj'⟩ := List.getElem?_eq_some_iff.mp hpid'
    exact hj ((List.Nodup.getElem_inj_iff h.nodup).mp (hj'.trans hi.symm))
  count := rfl

theorem SameSlot.setStop {j : ℕ} (h : SameSlot s s' j) : SameSlot s s'.setStop j :=
  ⟨h.worker, h.exitcode, h.count⟩

theorem SameSlot.respawned {j : ℕ} (h : SameSlot s s' j) (hv : Valid s')
    (e : Event) (hj : j ≠ i) :
    SameSlot s ((s'.spawned e).replace i s'.processes.length) j where
  worker := by
    rw [← h.worker]
    exact List.getElem?_set_ne (Ne.symm hj)
  exitcode pid' hpid' := by
    have hlt : pid' < s'.processes.length :=
      hv.lt pid' (List.mem_of_getElem? (h.worker.trans hpid'))
    rw [← h.exitcode pid' hpid']
    simp [State.exitcode, State.replace, State.spawned, List.getD_eq_getElem?_getD,
      List.getElem?_append_left hlt]
  count := by
    rw [← h.count]
    exact Function.update_of_ne hj _ _

end CheckWorker

/-! ### A pass -/

section CheckLoop

variable {polled : ℕ → Option ℤ} {raises : ℕ → Bool} {s s' : State}

/-- The event replaces the worker in the slot. -/
def Replaces (i : ℕ) : Event → Bool
  | .respawn j _ => j = i
  | _ => false

/-- How a pass over the slots `is` that begins in `s` ends in `s'`: the workers it starts, the stop
event, and the slots it replaces. -/
structure Passed (s s' : State) (is : List ℕ) (events : List Event) (stop : Bool) : Prop where
  ready : Ready s'
  trace : s'.trace = s.trace ++ events
  stopSet : s'.stopSet = stop
  length : s'.workers.length = s.workers.length
  processes_le : s.processes.length ≤ s'.processes.length
  mem : ∀ e ∈ events, ∃ i ∈ is, ∃ b, e = .respawn i b
  counts : ∀ i, s'.respawnCounts i = s.respawnCounts i + events.countP (Replaces i)
  counts_le : (∀ i, s.respawnCounts i ≤ 1) → ∀ i, s'.respawnCounts i ≤ 1
  other : ∀ i, (∀ b, Event.respawn i b ∉ events) → s'.workers[i]? = s.workers[i]?
  replaced : ∀ i b, Event.respawn i b ∈ events →
    ∃ pid, s'.workers[i]? = some pid ∧ s.processes.length ≤ pid

theorem Passed.of_step {s : State} {k : ℕ} (hs : Ready s') (htrace : s'.trace = s.trace)
    (hworkers : s'.workers = s.workers) (hcounts : s'.respawnCounts = s.respawnCounts)
    (hle : s'.processes.length = s.processes.length) : Passed s s' [k] [] s'.stopSet where
  ready := hs
  trace := by rw [htrace, List.append_nil]
  stopSet := rfl
  length := by rw [hworkers]
  processes_le := hle.ge
  mem := by simp
  counts i := by rw [hcounts]; rfl
  counts_le h := by rw [hcounts]; exact h
  other i _ := by rw [hworkers]
  replaced := by simp

theorem Passed.respawned {s : State} {k : ℕ} (hs : Ready s') (htrace : s'.trace = s.trace)
    (hworkers : s'.workers = s.workers) (hcounts : s'.respawnCounts = s.respawnCounts)
    (hle : s'.processes.length = s.processes.length) (hstop : s'.stopSet = s.stopSet)
    (hk : k < s.workers.length) (hzero : s.respawnCounts k = 0) :
    Passed s ((s'.spawned (.respawn k s.stopSet)).replace k s.processes.length) [k]
      [.respawn k s.stopSet] s.stopSet where
  ready := hle ▸ hs.respawned (.respawn k s.stopSet) k
  trace := by simp [State.replace, State.spawned, htrace]
  stopSet := hstop
  length := by simp [State.replace, State.spawned, hworkers]
  processes_le := by simp [State.replace, State.spawned, hle]
  mem e he := ⟨k, List.mem_cons_self, s.stopSet, List.mem_singleton.mp he⟩
  counts i := by
    simp only [State.replace, State.spawned, hcounts]
    by_cases hik : i = k
    · subst hik
      simp [Replaces]
    · simp [Replaces, hik, Ne.symm hik]
  counts_le h i := by
    simp only [State.replace, State.spawned, hcounts]
    by_cases hik : i = k
    · subst hik
      simp [hzero]
    · rw [Function.update_of_ne hik]
      exact h i
  other i hi := by
    have hik : i ≠ k := by rintro rfl; exact hi s.stopSet List.mem_cons_self
    simp only [State.replace, State.spawned, hworkers]
    exact List.getElem?_set_ne hik.symm
  replaced i b hb := by
    obtain rfl : i = k := (Event.respawn.inj (List.mem_singleton.mp hb)).1
    simp only [State.replace, State.spawned, hworkers]
    exact ⟨_, List.getElem?_set_self hk, le_rfl⟩

theorem Passed.mono {s : State} {is js : List ℕ} {events : List Event} {stop : Bool}
    (h : Passed s s' is events stop) (hsub : is ⊆ js) : Passed s s' js events stop :=
  { h with
    mem := fun e he => by
      obtain ⟨i, hi, b, rfl⟩ := h.mem e he
      exact ⟨i, hsub hi, b, rfl⟩ }

/-- One slot, then the others. -/
theorem Passed.cons {s s₁ : State} {k : ℕ} {is : List ℕ} {events events' : List Event}
    {stop stop' : Bool} (h : Passed s s₁ [k] events stop) (h' : Passed s₁ s' is events' stop')
    (hk : k ∉ is) : Passed s s' (k :: is) (events ++ events') stop' where
  ready := h'.ready
  trace := by rw [h'.trace, h.trace, List.append_assoc]
  stopSet := h'.stopSet
  length := h'.length.trans h.length
  processes_le := h.processes_le.trans h'.processes_le
  mem e he := by
    rcases List.mem_append.mp he with he | he
    · obtain ⟨i, hi, b, rfl⟩ := h.mem e he
      exact ⟨i, by rw [List.mem_singleton.mp hi]; exact List.mem_cons_self, b, rfl⟩
    · obtain ⟨i, hi, b, rfl⟩ := h'.mem e he
      exact ⟨i, List.mem_cons_of_mem _ hi, b, rfl⟩
  counts i := by rw [h'.counts, h.counts, List.countP_append, Nat.add_assoc]
  counts_le hle := h'.counts_le (h.counts_le hle)
  other i hi :=
    (h'.other i fun b hb => hi b (List.mem_append_right _ hb)).trans
      (h.other i fun b hb => hi b (List.mem_append_left _ hb))
  replaced i b hb := by
    rcases List.mem_append.mp hb with he | he
    · obtain ⟨j, hj, b', hj'⟩ := h.mem _ he
      obtain rfl : i = j := (Event.respawn.inj hj').1
      obtain rfl := List.mem_singleton.mp hj
      obtain ⟨pid, hpid, hle⟩ := h.replaced i b he
      have hother := h'.other i fun b' hb' => by
        obtain ⟨j, hj, b'', hj'⟩ := h'.mem _ hb'
        rw [(Event.respawn.inj hj').1] at hk
        exact hk hj
      exact ⟨pid, hother.trans hpid, hle⟩
    · obtain ⟨pid, hpid, hle⟩ := h'.replaced i b he
      exact ⟨pid, hpid, h.processes_le.trans hle⟩

theorem respawnCounts_of_replace {s : State} {k : ℕ} (h : action polled raises s k = .replace) :
    s.respawnCounts k = 0 := by
  unfold action at h
  split_ifs at h
  omega

/-- **One slot of a pass**: what its action says, and the other slots as they were. -/
theorem checkWorker_passed {k : ℕ} (hs : Ready s) (hk : k < s.workers.length) :
    (checkWorker polled raises s k).2 = decide (action polled raises s k = .fail) ∧
      Passed s (checkWorker polled raises s k).1 [k] (pass (action polled raises s) [k] s.stopSet).1
        (pass (action polled raises s) [k] s.stopSet).2 ∧
      ∀ j, j ≠ k → SameSlot s (checkWorker polled raises s k).1 j := by
  obtain ⟨pid, hpid⟩ : ∃ pid, s.workers[k]? = some pid := ⟨_, List.getElem?_eq_getElem hk⟩
  have hcheck := @checkWorker_eq polled raises _ _ _ hs.toValid hs.started hpid
  have hexit := hs.exit pid (polled k)
  have hsame : ∀ j, j ≠ k → SameSlot s (s.exit pid (polled k)) j :=
    fun j hj => sameSlot_exit hs.toValid hpid _ hj
  cases hact : action polled raises s k with
  | keep | fail =>
    rw [hact] at hcheck
    simp only [hcheck, pass, hact]
    exact ⟨rfl, .of_step hexit rfl rfl rfl (by simp), hsame⟩
  | setStop =>
    have hpassed := Passed.of_step (k := k) (s := s) hexit.setStop rfl rfl rfl (by simp)
    rw [stopSet_setStop _ hexit.event] at hpassed
    rw [hact] at hcheck
    simp only [hcheck, pass, hact]
    exact ⟨rfl, hpassed, fun j hj => (hsame j hj).setStop⟩
  | replace =>
    rw [hact] at hcheck
    simp only [hcheck, pass, hact]
    refine ⟨rfl, ?_, fun j hj => ?_⟩
    · exact Passed.respawned hexit (trace_exit s pid (polled k)) rfl rfl (by simp) rfl hk
        (respawnCounts_of_replace hact)
    · have := (hsame j hj).respawned hexit.toValid (.respawn k s.stopSet) hj
      rwa [length_processes_exit] at this

/-- **A pass does in every slot what the slot's action says**, up to a process that cannot be
started. -/
theorem checkLoop_passed : ∀ {is : List ℕ} {s : State}, Ready s → is.Pairwise (· < ·) →
    (∀ i ∈ is, i < s.workers.length) →
    ((checkLoop polled raises is s).2 = true ↔ ∃ i ∈ is, action polled raises s i = .fail) ∧
      Passed s (checkLoop polled raises is s).1 is
        (pass (action polled raises s) is s.stopSet).1
        (pass (action polled raises s) is s.stopSet).2
  | [], s, hs, _, _ => by
    refine ⟨by simp [checkLoop], hs, (List.append_nil _).symm, rfl, rfl, le_rfl, ?_, fun _ => rfl, id,
      fun _ _ => rfl, ?_⟩ <;> simp [pass]
  | k :: is, s, hs, hsorted, hlt => by
    obtain ⟨hk, hsorted⟩ := List.pairwise_cons.mp hsorted
    have hmem : k ∉ is := fun h => lt_irrefl k (hk k h)
    obtain ⟨hraised, hpassed, hslots⟩ :=
      @checkWorker_passed polled raises _ _ hs (hlt k List.mem_cons_self)
    rw [checkLoop]
    cases hcheck : checkWorker polled raises s k with
    | mk s₁ raised =>
      rw [hcheck] at hraised hpassed hslots
      -- the slots behind this one are as the pass found them
      have hsame : ∀ i ∈ is, action polled raises s₁ i = action polled raises s i :=
        fun i hi => (hslots i (hk i hi).ne').action
      have ih := @checkLoop_passed is _ hpassed.ready hsorted fun i hi => by
        rw [hpassed.length]
        exact hlt i (List.mem_cons_of_mem _ hi)
      by_cases hfail : action polled raises s k = .fail
      · rw [decide_eq_true hfail] at hraised
        obtain rfl : raised = true := hraised
        rw [pass_cons_fail hfail]
        refine ⟨iff_of_true rfl ⟨k, List.mem_cons_self, hfail⟩, ?_⟩
        exact hpassed.mono fun i hi => by
          rw [List.mem_singleton.mp hi]
          exact List.mem_cons_self
      · rw [decide_eq_false hfail] at hraised
        obtain rfl : raised = false := hraised
        rw [pass_cons_ne hfail]
        rw [pass_congr hsame, hpassed.stopSet] at ih
        refine ⟨?_, hpassed.cons ih.2 hmem⟩
        rw [List.exists_mem_cons_iff, or_iff_right hfail]
        refine ih.1.trans (exists_congr fun i => and_congr_right fun hi => ?_)
        rw [hsame i hi]

/-- A coordinator that is not started replaces nothing. -/
theorem checkLoop_of_not_started : ∀ {is : List ℕ} {s : State}, s.started = false →
    (checkLoop polled raises is s).1.started = false ∧
      (checkLoop polled raises is s).1.trace = s.trace ∧
      (checkLoop polled raises is s).1.workers = s.workers ∧
      (checkLoop polled raises is s).1.segments = s.segments
  | [], s, h => ⟨h, rfl, rfl, rfl⟩
  | k :: is, s, h => by
    have hcheck : ∃ s₁ : State, checkWorker polled raises s k = (s₁, false) ∧ s₁.started = false ∧
        s₁.trace = s.trace ∧ s₁.workers = s.workers ∧ s₁.segments = s.segments := by
      unfold checkWorker
      cases s.workers[k]? with
      | none => exact ⟨s, rfl, h, rfl, rfl, rfl⟩
      | some pid =>
        refine ⟨s.exit pid (polled k), ?_, h, rfl, rfl, rfl⟩
        simp only [started_exit, h, Bool.false_eq_true, if_false, ite_self]
        cases (s.exit pid (polled k)).exitcode pid <;> rfl
    obtain ⟨s₁, hs₁, hst, htr, hw, hseg⟩ := hcheck
    have ih := @checkLoop_of_not_started is _ hst
    rw [checkLoop, hs₁]
    exact ⟨ih.1, ih.2.1.trans htr, ih.2.2.1.trans hw, ih.2.2.2.trans hseg⟩

end CheckLoop

/-! ### Runs -/

section Terminate

/-- What `terminate` leaves of a state. -/
structure Exited (s s' : State) (pids : List ℕ) : Prop where
  workers : s'.workers = s.workers
  trace : s'.trace = s.trace
  ringBuffer : s'.ringBuffer = s.ringBuffer
  segments : s'.segments = s.segments
  rings : s'.rings = s.rings
  length : s'.processes.length = s.processes.length
  exitcode : ∀ pid < s.processes.length, s'.exitcode pid = none →
    s.exitcode pid = none ∧ pid ∉ pids

theorem exited_foldl (c : ℤ) : ∀ (pids : List ℕ) {s : State}, (∀ pid ∈ pids,
    pid < s.processes.length) → Exited s (pids.foldl (fun s pid => s.exit pid (some c)) s) pids
  | [], s, _ => ⟨rfl, rfl, rfl, rfl, rfl, rfl, fun _ _ h => ⟨h, List.not_mem_nil⟩⟩
  | pid :: pids, s, hlt => by
    have ih := exited_foldl c pids (s := s.exit pid (some c)) fun p hp => by
      rw [length_processes_exit]
      exact hlt p (List.mem_cons_of_mem _ hp)
    have hpid := hlt pid List.mem_cons_self
    refine ⟨ih.workers, ih.trace, ih.ringBuffer, ih.segments, ih.rings,
      ih.length.trans (length_processes_exit ..), fun p hp hrun => ?_⟩
    obtain ⟨hrun, hnot⟩ := ih.exitcode p (by rwa [length_processes_exit]) hrun
    rw [exitcode_exit s pid _ hpid] at hrun
    by_cases h : p = pid
    · rw [if_pos h] at hrun
      cases hc : s.exitcode pid <;> rw [hc] at hrun <;> cases hrun
    · rw [if_neg h] at hrun
      refine ⟨hrun, fun hm => ?_⟩
      rcases List.mem_cons.mp hm with h' | h'
      · exact h h'
      · exact hnot h'

theorem Valid.terminate {s : State} (h : Valid s) : Exited s s.terminate s.workers :=
  exited_foldl _ _ h.lt

end Terminate

section Runs

variable {cfg : Settings} {s s' : State}

/-- What the loop of `start` leaves. -/
structure SpawnedFrom (s s' : State) : Prop where
  valid : Valid s'
  stopEvent : s'.stopEvent = s.stopEvent
  started : s'.started = s.started
  ringBuffer : s'.ringBuffer = s.ringBuffer
  segments : s'.segments = s.segments
  rings : s'.rings = s.rings
  trace : ∃ events, s'.trace = s.trace ++ events ∧ ∀ e ∈ events, ∃ k, e = .spawn k s.stopSet
  workers : s.workers ⊆ s'.workers
  running : ∀ pid, pid < s'.processes.length → s'.exitcode pid = none →
    pid ∈ s'.workers ∨ pid < s.processes.length ∧ s.exitcode pid = none

theorem SpawnedFrom.refl (hv : Valid s) : SpawnedFrom s s :=
  ⟨hv, rfl, rfl, rfl, rfl, rfl, ⟨[], (List.append_nil _).symm, by simp⟩, List.Subset.refl _,
    fun _ hlt hrun => Or.inr ⟨hlt, hrun⟩⟩

theorem exitcode_spawned {pid : ℕ} (h : pid < s.processes.length) (e : Event) :
    (s.spawned e).exitcode pid = s.exitcode pid := by
  simp [State.exitcode, State.spawned, List.getD_eq_getElem?_getD, List.getElem?_append_left h]

theorem length_processes_spawned (s : State) (e : Event) :
    (s.spawned e).processes.length = s.processes.length + 1 := by simp [State.spawned]

/-- One worker started. -/
theorem Valid.add (hv : Valid s) (e : Event) : Valid ((s.spawned e).add s.processes.length) where
  nodup := by
    refine List.nodup_append.mpr ⟨hv.nodup, List.nodup_singleton _, fun a ha b hb => ?_⟩
    rw [List.mem_singleton.mp hb]
    exact (hv.lt a ha).ne
  lt pid hpid := by
    have hlen : ((s.spawned e).add s.processes.length).processes.length =
        s.processes.length + 1 := length_processes_spawned s e
    rcases List.mem_append.mp hpid with h | h
    · have := hv.lt pid h
      omega
    · rw [List.mem_singleton.mp h]
      omega

theorem spawnLoop_spawnedFrom (raises : ℕ → Bool) : ∀ (ks : List ℕ) {s : State}, Valid s →
    SpawnedFrom s (spawnLoop raises ks s).1
  | [], s, hv => .refl hv
  | k :: ks, s, hv => by
    rw [spawnLoop]
    split_ifs
    · exact .refl hv
    · have ih := spawnLoop_spawnedFrom raises ks (hv.add (.spawn k s.stopSet))
      obtain ⟨events, htrace, hevents⟩ := ih.trace
      refine ⟨ih.valid, ih.stopEvent, ih.started, ih.ringBuffer, ih.segments, ih.rings,
        ⟨.spawn k s.stopSet :: events, ?_, ?_⟩, List.Subset.trans (List.subset_append_left _ _) ih.workers,
        fun pid hlt hrun => ?_⟩
      · rw [htrace]
        simp [State.add, State.spawned]
      · intro e he
        rcases List.mem_cons.mp he with rfl | he
        · exact ⟨k, rfl⟩
        · exact hevents e he
      · rcases ih.running pid hlt hrun with h | ⟨h, hrun₁⟩
        · exact Or.inl h
        · have hlen := length_processes_spawned s (.spawn k s.stopSet)
          rcases Nat.lt_or_ge pid s.processes.length with hpid | hpid
          · exact Or.inr ⟨hpid, (exitcode_spawned hpid (.spawn k s.stopSet)).symm.trans hrun₁⟩
          · have hpid' : pid = s.processes.length := by
              have : pid < (s.spawned (.spawn k s.stopSet)).processes.length := h
              omega
            exact Or.inl (ih.workers (by simp [State.add, hpid']))

/-- The loop of `start` begins without workers. -/
theorem start_spawnedFrom (cfg : Settings) (raises : ℕ → Bool) (s : State) :
    SpawnedFrom s.began (spawnLoop raises (List.range cfg.numWorkers) s.began).1 :=
  spawnLoop_spawnedFrom raises _ ⟨List.nodup_nil, fun _ hp => by cases hp⟩

theorem spawnLoop_snd (raises : ℕ → Bool) : ∀ (ks : List ℕ) (s : State),
    (spawnLoop raises ks s).2 = ks.any raises
  | [], _ => rfl
  | k :: ks, s => by
    rw [spawnLoop, List.any_cons]
    by_cases h : raises k = true
    · simp [h]
    · rw [if_neg h, spawnLoop_snd raises ks, Bool.eq_false_iff.mpr h, Bool.false_or]

/-- `start` gets to its loop. -/
def Begins (cfg : Settings) (sizeRaises : Bool) (s : State) : Prop :=
  s.started = false ∧ sizeRaises = false ∧
    ¬ (cfg.ringBufferCapacity = 0 ∨ hardCapacityLimit < cfg.ringBufferCapacity)

/-- **A call of `start`**: it raises before it makes anything, or it makes a ring and starts the
workers, all of them or up to one that cannot be started. -/
theorem start_cases (cfg : Settings) (sizeRaises : Bool) (raises : ℕ → Bool) (s : State) :
    ¬ Begins cfg sizeRaises s ∧ start cfg sizeRaises raises s = (s, true) ∨
    Begins cfg sizeRaises s ∧
      ((∃ k < cfg.numWorkers, raises k = true) ∧ start cfg sizeRaises raises s =
          ((spawnLoop raises (List.range cfg.numWorkers) s.began).1, true) ∨
      (∀ k < cfg.numWorkers, raises k = false) ∧ start cfg sizeRaises raises s =
          ({ (spawnLoop raises (List.range cfg.numWorkers) s.began).1 with
            respawnCounts := fun _ => 0, started := true }, false)) := by
  unfold start
  by_cases hst : s.started = true
  · exact Or.inl ⟨fun h => by simp [h.1] at hst, if_pos hst⟩
  rw [if_neg hst]
  by_cases hsize : sizeRaises = true
  · exact Or.inl ⟨fun h => by simp [h.2.1] at hsize, if_pos hsize⟩
  rw [if_neg hsize]
  split_ifs with hcap
  · exact Or.inl ⟨fun h => h.2.2 hcap, rfl⟩
  refine Or.inr ⟨⟨Bool.eq_false_iff.mpr hst, Bool.eq_false_iff.mpr hsize, hcap⟩, ?_⟩
  have hsnd := spawnLoop_snd raises (List.range cfg.numWorkers) s.began
  cases hloop : spawnLoop raises (List.range cfg.numWorkers) s.began with
  | mk s' raised =>
    rw [hloop] at hsnd
    cases raised with
    | true => exact Or.inl ⟨by simpa using hsnd.symm, rfl⟩
    | false => exact Or.inr ⟨by simpa using hsnd.symm, rfl⟩

theorem stop_cases (polled : ℕ → Option ℤ) (raises : ℕ → Bool) (s : State) :
    s.started = false ∧ stop polled raises s = (s, false) ∨
    s.started = true ∧
      (stop polled raises s = ((checkWorkers polled raises s.setStop).1, true) ∨
      stop polled raises s = ((checkWorkers polled raises s.setStop).1.terminate.closed, false)) := by
  unfold stop
  by_cases hst : s.started = true
  · rw [if_pos hst]
    refine Or.inr ⟨hst, ?_⟩
    cases hcheck : checkWorkers polled raises s.setStop with
    | mk s' raised => cases raised <;> simp
  · rw [if_neg hst]
    exact Or.inl ⟨Bool.eq_false_iff.mpr hst, rfl⟩

/-- A started coordinator is ready to check its workers. -/
def Inv (s : State) : Prop := s.started = true → Ready s

theorem Ready.checkWorkers (h : Ready s) (polled : ℕ → Option ℤ) (raises : ℕ → Bool) :
    Passed s (checkWorkers polled raises s).1 (List.range s.workers.length)
      (pass (action polled raises s) (List.range s.workers.length) s.stopSet).1
      (pass (action polled raises s) (List.range s.workers.length) s.stopSet).2 :=
  (checkLoop_passed h List.pairwise_lt_range fun _ hi => List.mem_range.mp hi).2

/-- `_check_workers` raises where a process cannot be started. -/
theorem Ready.checkWorkers_snd_iff (h : Ready s) (polled : ℕ → Option ℤ) (raises : ℕ → Bool) :
    (Coordinator.checkWorkers polled raises s).2 = true ↔
      ∃ i < s.workers.length, action polled raises s i = .fail := by
  refine (checkLoop_passed h List.pairwise_lt_range fun _ hi => List.mem_range.mp hi).1.trans ?_
  simp only [List.mem_range]

theorem inv_step (h : Inv s) (l : Label) : Inv (step cfg s l) := by
  cases l with
  | start sizeRaises raises =>
    have hloop := start_spawnedFrom cfg raises s
    rcases start_cases cfg sizeRaises raises s with ⟨-, heq⟩ | ⟨⟨hst, -⟩, ⟨-, heq⟩ | ⟨-, heq⟩⟩ <;>
      rw [step, heq]
    · exact h
    · intro hst'
      rw [hloop.started] at hst'
      exact absurd hst' (by rw [show s.began.started = s.started from rfl, hst]; simp)
    · exact fun _ => ⟨⟨hloop.valid.nodup, hloop.valid.lt⟩, rfl, by
        rw [show _ = _ from hloop.stopEvent]; rfl⟩
  | submit | drainResults => exact h
  | checkWorkers polled raises =>
    intro hst
    by_cases hs : s.started = true
    · exact ((h hs).checkWorkers polled raises).ready
    · have hnot := (@checkLoop_of_not_started polled raises (List.range s.workers.length) _
        (Bool.eq_false_iff.mpr hs)).1
      exact absurd hst (Bool.eq_false_iff.mp hnot)
  | stop polled raises =>
    rcases stop_cases polled raises s with ⟨hs, heq⟩ | ⟨hs, heq | heq⟩ <;> rw [step, heq]
    · exact h
    · exact fun _ => ((h hs).setStop.checkWorkers polled raises).ready
    · rintro ⟨⟩
  | exit pid code => exact fun hst => (h hst).exit pid (some code)

theorem inv_run (cfg : Settings) (ls : List Label) : Inv (run cfg ls .init) :=
  run_induction (P := Inv) (fun _ l h => inv_step h l) ls (by rintro ⟨⟩)

end Runs

end VantaCore.Core.Scanner.Respawn
