import VantaCore.Core.Scanner.Respawn

/-! # No workers while the stop event is set?

`stop` sets the stop event and then checks the workers, while the coordinator still counts as
started; and a pass that sets the event goes on to the slots behind. So a crashed worker that is found
then is replaced although the event is set (`respawn_in_stop`). These are the only ways
(`noSpawnWhileStopped_iff`), and a slot is replaced at most once after every `start`
(`replacedOnce_run`). -/

namespace VantaCore.Core.Scanner.StopEvent

open VantaCore.Core.Scanner.Coordinator VantaCore.Core.Scanner.Respawn

/-! ### What a trace says -/

/-- No worker is started while the stop event is set. -/
def NoSpawnWhileStopped (t : List Event) : Prop :=
  ∀ i, Event.spawn i true ∉ t ∧ Event.respawn i true ∉ t

/-- How often a slot has been replaced since the last `start`. -/
def replacements (i : ℕ) (t : List Event) : ℕ :=
  (t.reverse.takeWhile fun e => e ≠ .start).countP (Replaces i)

/-- At no time a slot has been replaced twice since the last `start`. -/
def ReplacedOnce (t : List Event) : Prop := ∀ t₁ t₂, t = t₁ ++ t₂ → ∀ i, replacements i t₁ ≤ 1

/-! ### When a step starts no worker while the event is set -/

/-- The pass over `n` slots finds no worker to replace when the event is set, neither by an earlier
slot nor before. -/
def PassOk (act : ℕ → Action) (n : ℕ) (stop : Bool) : Prop :=
  ∀ i, Reaches act (List.range n) i → act i = .replace → stop = false ∧ ∀ j < i, act j ≠ .setStop

/-- The condition on a step: a pass of `_check_workers`, that of `stop` included, with the event set
there, finds no worker to replace when the event is set. -/
def StepOk (s : State) : Label → Prop
  | .checkWorkers polled raises =>
    s.started = true → PassOk (action polled raises s) s.workers.length s.stopSet
  | .stop polled raises => s.started = true → PassOk (action polled raises s) s.workers.length true
  | _ => True

theorem mem_pass {act : ℕ → Action} {e : Event} : ∀ {is : List ℕ} {stop : Bool},
    e ∈ (pass act is stop).1 → ∃ i b, e = .respawn i b
  | k :: is, stop, he => by
    rcases @pass_cons act k is stop with ⟨-, h⟩ | ⟨-, h⟩ | ⟨-, h⟩ | ⟨-, h⟩ <;> rw [h] at he
    · exact mem_pass he
    · exact mem_pass he
    · rcases List.mem_cons.mp he with rfl | he
      · exact ⟨k, stop, rfl⟩
      · exact mem_pass he
    · cases he

theorem noSpawn_pass_iff {act : ℕ → Action} {n : ℕ} {stop : Bool} :
    NoSpawnWhileStopped (pass act (List.range n) stop).1 ↔ PassOk act n stop := by
  have hspawn : ∀ i, Event.spawn i true ∉ (pass act (List.range n) stop).1 := fun i hi => by
    obtain ⟨j, b, h⟩ := mem_pass hi
    cases h
  simp only [NoSpawnWhileStopped, hspawn, not_false_eq_true, true_and,
    respawn_mem_pass_iff List.pairwise_lt_range, true_iff]
  refine forall_congr' fun i => ?_
  constructor
  · intro h hreach hact
    have hnot := fun h' => h ⟨hreach, hact, h'⟩
    refine ⟨Bool.eq_false_iff.mpr fun hs => hnot (Or.inl hs), fun j hj hset => ?_⟩
    have hi := List.mem_range.mp hreach.1
    exact hnot (Or.inr ⟨j, List.mem_range.mpr (hj.trans hi), hj, hset⟩)
  · rintro h ⟨hreach, hact, hs⟩
    obtain ⟨hstop, hset⟩ := h hreach hact
    rcases hs with hs | ⟨j, -, hj, hset'⟩
    · rw [hstop] at hs
      cases hs
    · exact hset j hj hset'

theorem noSpawn_append {t t' : List Event} :
    NoSpawnWhileStopped (t ++ t') ↔ NoSpawnWhileStopped t ∧ NoSpawnWhileStopped t' := by
  simp only [NoSpawnWhileStopped, List.mem_append, not_or]
  constructor
  · exact fun h => ⟨fun i => ⟨(h i).1.1, (h i).2.1⟩, fun i => ⟨(h i).1.2, (h i).2.2⟩⟩
  · exact fun h i => ⟨⟨(h.1 i).1, (h.2 i).1⟩, (h.1 i).2, (h.2 i).2⟩

/-! ### Replacements -/

theorem replacements_append (i : ℕ) {t t' : List Event} (h : Event.start ∉ t') :
    replacements i (t ++ t') = replacements i t + t'.countP (Replaces i) := by
  have hall : ∀ e ∈ t'.reverse, decide (e ≠ Event.start) = true := fun e he => by
    have hne : e ≠ .start := fun he' => h (by rw [← he']; exact List.mem_reverse.mp he)
    simpa using hne
  rw [replacements, List.reverse_append, List.takeWhile_append_of_pos hall, List.countP_append,
    List.countP_reverse, Nat.add_comm]
  rfl

theorem replacements_start (i : ℕ) (t : List Event) : replacements i (t ++ [.start]) = 0 := by
  simp [replacements]

/-- More events, none a `start`: it is enough that no slot has been replaced twice in the end. -/
theorem ReplacedOnce.append {t t' : List Event} (h : ReplacedOnce t) (hno : Event.start ∉ t')
    (hle : ∀ i, replacements i (t ++ t') ≤ 1) : ReplacedOnce (t ++ t') := by
  intro t₁ t₂ heq i
  rcases List.append_eq_append_iff.mp heq with ⟨x, rfl, rfl⟩ | ⟨x, rfl, rfl⟩
  · have hx : Event.start ∉ x := fun hx => hno (List.mem_append_left _ hx)
    have := hle i
    rw [replacements_append i hno, List.countP_append] at this
    rw [replacements_append i hx]
    omega
  · exact h t₁ x rfl i

theorem ReplacedOnce.start {t : List Event} (h : ReplacedOnce t) :
    ReplacedOnce (t ++ [.start]) := by
  intro t₁ t₂ heq i
  rcases List.append_eq_append_iff.mp heq with ⟨x, rfl, hx⟩ | ⟨x, rfl, hx⟩
  · cases x with
    | nil =>
      rw [List.append_nil]
      exact h t [] (List.append_nil t).symm i
    | cons e x =>
      rw [List.cons_append] at hx
      obtain ⟨rfl, hx'⟩ := List.cons.inj hx
      rw [(List.append_eq_nil_iff.mp hx'.symm).1, replacements_start]
      omega
  · exact h t₁ x rfl i

/-- The counts of a started coordinator are those of the trace. -/
structure Counted (s : State) : Prop where
  once : ReplacedOnce s.trace
  count : s.started = true → ∀ i, replacements i s.trace = s.respawnCounts i
  le : s.started = true → ∀ i, s.respawnCounts i ≤ 1

/-! ### Steps -/

section Steps

variable {cfg : Settings} {s s' : State}

theorem start_not_mem_pass {act : ℕ → Action} {is : List ℕ} {stop : Bool} :
    Event.start ∉ (pass act is stop).1 := fun h => by
  obtain ⟨i, b, h⟩ := mem_pass h
  cases h

theorem Counted.passed {is : List ℕ} {act : ℕ → Action} {stop : Bool} (h : Counted s)
    (hst : s.started = true)
    (hp : Passed s s' is (pass act is stop).1 (pass act is stop).2) : Counted s' := by
  have hcount : ∀ i, replacements i s'.trace = s'.respawnCounts i := fun i => by
    rw [hp.trace, replacements_append i start_not_mem_pass, h.count hst, hp.counts]
  have hle := hp.counts_le (h.le hst)
  refine ⟨?_, fun _ => hcount, fun _ => hle⟩
  rw [hp.trace]
  refine h.once.append start_not_mem_pass fun i => ?_
  rw [← hp.trace, hcount]
  exact hle i

theorem Counted.not_started (h : ReplacedOnce s'.trace) (hst : s'.started = false) :
    Counted s' :=
  ⟨h, fun h' => by simp [hst] at h', fun h' => by simp [hst] at h'⟩

theorem countP_spawns {events : List Event} {b : Bool}
    (h : ∀ e ∈ events, ∃ k, e = .spawn k b) (i : ℕ) : events.countP (Replaces i) = 0 := by
  rw [List.countP_eq_zero]
  intro e he
  obtain ⟨k, rfl⟩ := h e he
  simp [Replaces]

/-- The loop of `start` replaces nothing. -/
theorem Counted.spawned (h : Counted s) (hs : SpawnedFrom s.began s') :
    ReplacedOnce s'.trace ∧ ∀ i, replacements i s'.trace = 0 := by
  obtain ⟨events, htrace, hevents⟩ := hs.trace
  have hno : Event.start ∉ events := fun he => by
    obtain ⟨k, hk⟩ := hevents _ he
    cases hk
  have hzero : ∀ i, replacements i s'.trace = 0 := fun i => by
    rw [htrace, replacements_append i hno, countP_spawns hevents]
    exact replacements_start i s.trace
  refine ⟨?_, hzero⟩
  rw [htrace]
  refine ReplacedOnce.append h.once.start hno fun i => ?_
  have := hzero i
  rw [htrace] at this
  omega

theorem replacedOnce_closed (h : Counted s') (hv : Valid s') :
    ReplacedOnce s'.terminate.closed.trace := by
  have htrace : s'.terminate.closed.trace = s'.trace ++ [.stop] :=
    congrArg (· ++ [Event.stop]) hv.terminate.trace
  rw [htrace]
  refine h.once.append (by simp) fun i => ?_
  rw [replacements_append i (by simp)]
  have := h.once s'.trace [] (List.append_nil _).symm i
  simpa [Replaces] using this

theorem Counted.setStop (h : Counted s) : Counted s.setStop := ⟨h.once, h.count, h.le⟩

theorem Counted.step (hinv : Inv s) (h : Counted s) (l : Label) : Counted (step cfg s l) := by
  cases l with
  | start sizeRaises raises =>
    have hloop := start_spawnedFrom cfg raises s
    obtain ⟨honce, hzero⟩ := h.spawned hloop
    rcases start_cases cfg sizeRaises raises s with ⟨-, heq⟩ | ⟨⟨hst, -⟩, ⟨-, heq⟩ | ⟨-, heq⟩⟩ <;>
      rw [Coordinator.step, heq]
    · exact h
    · exact .not_started honce (hloop.started.trans hst)
    · exact ⟨honce, fun _ => hzero, fun _ _ => Nat.zero_le 1⟩
  | submit | drainResults => exact h
  | checkWorkers polled raises =>
    by_cases hst : s.started = true
    · exact h.passed hst ((hinv hst).checkWorkers polled raises)
    · have hnot := @checkLoop_of_not_started polled raises (List.range s.workers.length) _
        (Bool.eq_false_iff.mpr hst)
      have htrace : (Coordinator.step cfg s (.checkWorkers polled raises)).trace = s.trace :=
        hnot.2.1
      exact .not_started (by rw [htrace]; exact h.once) hnot.1
  | stop polled raises =>
    rcases stop_cases polled raises s with ⟨hst, heq⟩ | ⟨hst, heq | heq⟩ <;>
      rw [Coordinator.step, heq]
    · exact h
    · exact h.setStop.passed hst ((hinv hst).setStop.checkWorkers polled raises)
    · have hp := (hinv hst).setStop.checkWorkers polled raises
      exact .not_started (replacedOnce_closed (h.setStop.passed hst hp) hp.ready.toValid) rfl
  | exit pid code => exact ⟨h.once, h.count, h.le⟩

/-- **What a step adds to the trace**, and when it starts no worker while the event is set. -/
theorem trace_step (hinv : Inv s) (l : Label) : ∃ events,
    (step cfg s l).trace = s.trace ++ events ∧ (NoSpawnWhileStopped events ↔ StepOk s l) := by
  have hnil : NoSpawnWhileStopped [] := fun i => ⟨List.not_mem_nil, List.not_mem_nil⟩
  cases l with
  | start sizeRaises raises =>
    have hloop := start_spawnedFrom cfg raises s
    obtain ⟨events, htrace, hevents⟩ := hloop.trace
    have hno : NoSpawnWhileStopped (.start :: events) := fun i => by
      have hstop : s.began.stopSet = false := rfl
      constructor <;> intro hi
      all_goals
        obtain ⟨k, hk⟩ := hevents _ ((List.mem_cons.mp hi).resolve_left (by simp))
        rw [hstop] at hk
        cases hk
    have hloop' : (spawnLoop raises (List.range cfg.numWorkers) s.began).1.trace =
        s.trace ++ .start :: events := by
      rw [htrace]
      exact List.append_assoc s.trace [.start] events
    rcases start_cases cfg sizeRaises raises s with ⟨-, heq⟩ | ⟨-, ⟨-, heq⟩ | ⟨-, heq⟩⟩ <;>
      rw [Coordinator.step, heq]
    · exact ⟨[], (List.append_nil _).symm, iff_of_true hnil trivial⟩
    · exact ⟨_, hloop', iff_of_true hno trivial⟩
    · exact ⟨_, hloop', iff_of_true hno trivial⟩
  | submit | drainResults | exit =>
    exact ⟨[], (List.append_nil _).symm, iff_of_true hnil trivial⟩
  | checkWorkers polled raises =>
    by_cases hst : s.started = true
    · have hp := (hinv hst).checkWorkers polled raises
      exact ⟨_, hp.trace, noSpawn_pass_iff.trans ⟨fun h _ => h, fun h => h hst⟩⟩
    · have hnot := @checkLoop_of_not_started polled raises (List.range s.workers.length) _
        (Bool.eq_false_iff.mpr hst)
      exact ⟨[], hnot.2.1.trans (List.append_nil _).symm,
        iff_of_true hnil fun h => absurd h hst⟩
  | stop polled raises =>
    rcases stop_cases polled raises s with ⟨hst, heq⟩ | ⟨hst, heq⟩
    · rw [Coordinator.step, heq]
      exact ⟨[], (List.append_nil _).symm, iff_of_true hnil fun h => by simp [hst] at h⟩
    · have hp := (hinv hst).setStop.checkWorkers polled raises
      have hset : s.setStop.stopSet = true := stopSet_setStop s (hinv hst).event
      have hok : NoSpawnWhileStopped (pass (action polled raises s.setStop)
          (List.range s.setStop.workers.length) s.setStop.stopSet).1 ↔
          StepOk s (.stop polled raises) := by
        rw [noSpawn_pass_iff, hset]
        exact ⟨fun h _ => h, fun h => h hst⟩
      rcases heq with heq | heq <;> rw [Coordinator.step, heq]
      · exact ⟨_, hp.trace, hok⟩
      · refine ⟨_ ++ [.stop], ?_, noSpawn_append.trans ((and_iff_left ?_).trans hok)⟩
        · rw [← List.append_assoc]
          refine congrArg (· ++ [Event.stop]) (hp.ready.toValid.terminate.trace.trans hp.trace)
        · exact fun i => by simp

end Steps

/-! ### Runs -/

theorem trace_prefix_run (cfg : Settings) (ls : List Label) {s : State} (hinv : Inv s) :
    s.trace <+: (run cfg ls s).trace := by
  have h : Inv (run cfg ls s) ∧ s.trace <+: (run cfg ls s).trace := by
    refine run_induction (P := fun s' => Inv s' ∧ s.trace <+: s'.trace) (fun s' l h' => ?_) ls
      ⟨hinv, List.prefix_refl _⟩
    obtain ⟨events, htrace, -⟩ := @trace_step cfg _ h'.1 l
    exact ⟨inv_step h'.1 l, h'.2.trans (htrace ▸ List.prefix_append _ _)⟩
  exact h.2

theorem noSpawn_run_iff (cfg : Settings) : ∀ (ls : List Label) {s : State}, Inv s →
    NoSpawnWhileStopped s.trace →
    (NoSpawnWhileStopped (run cfg ls s).trace ↔ AllSteps cfg StepOk ls s)
  | [], _, _, h => iff_of_true h trivial
  | l :: ls, s, hinv, h => by
    obtain ⟨events, htrace, hok⟩ := @trace_step cfg _ hinv l
    have hinv' : Inv (step cfg s l) := inv_step hinv l
    rw [AllSteps, ← hok]
    by_cases hevents : NoSpawnWhileStopped events
    · have hstep : NoSpawnWhileStopped (step cfg s l).trace := by
        rw [htrace]
        exact noSpawn_append.mpr ⟨h, hevents⟩
      exact (noSpawn_run_iff cfg ls hinv' hstep).trans (and_iff_right hevents).symm
    · refine iff_of_false (fun hrun => hevents ?_) fun h' => hevents h'.1
      obtain ⟨t, ht⟩ := trace_prefix_run cfg ls hinv'
      have hrun' : NoSpawnWhileStopped (s.trace ++ events ++ t) := by
        rw [← htrace, ht]
        exact hrun
      exact (noSpawn_append.mp (noSpawn_append.mp hrun').1).2

theorem replacedOnce_run (cfg : Settings) (ls : List Label) :
    ReplacedOnce (run cfg ls .init).trace := by
  have hinit : ReplacedOnce State.init.trace := fun t₁ t₂ h i => by
    rw [(List.append_eq_nil_iff.mp h.symm).1]
    exact Nat.zero_le 1
  have h : Inv (run cfg ls .init) ∧ Counted (run cfg ls .init) :=
    run_induction (P := fun s => Inv s ∧ Counted s)
      (fun _ l h => ⟨inv_step h.1 l, h.2.step h.1 l⟩) ls ⟨by rintro ⟨⟩, .not_started hinit rfl⟩
  exact h.2.once

/-- **When no worker is started while the stop event is set**, over whole runs; a slot is replaced at
most once after each `start` in any case. -/
theorem noSpawnWhileStopped_iff (cfg : Settings) (ls : List Label) :
    (NoSpawnWhileStopped (run cfg ls .init).trace ∧ ReplacedOnce (run cfg ls .init).trace) ↔
      AllSteps cfg StepOk ls .init := by
  have hinit : NoSpawnWhileStopped State.init.trace :=
    fun i => ⟨List.not_mem_nil, List.not_mem_nil⟩
  rw [and_iff_left (replacedOnce_run cfg ls)]
  exact noSpawn_run_iff cfg ls (by rintro ⟨⟩) hinit

/-- A worker crashes, and then `stop` is called. -/
def crashThenStop : List Label :=
  [.start false fun _ => false, .exit 0 1, .stop (fun _ => none) fun _ => false]

/-- The worker is replaced in the pass of `stop`, with the event set. -/
theorem respawn_in_stop : ¬ ∀ (cfg : Settings) (ls : List Label),
    NoSpawnWhileStopped (run cfg ls .init).trace ∧ ReplacedOnce (run cfg ls .init).trace := by
  intro h
  have htrace : (run ⟨1, 256⟩ crashThenStop .init).trace =
      [.start, .spawn 0 false, .respawn 0 true, .stop] := by decide
  have hno := (h ⟨1, 256⟩ crashThenStop).1 0
  rw [htrace] at hno
  exact hno.2 (by decide)

end VantaCore.Core.Scanner.StopEvent
