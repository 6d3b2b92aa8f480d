import VantaCore.Core.Scanner.Respawn

/-! # What is left after `stop`

`start` counts as done only when its last worker runs, and `stop` returns at once before that: the
ring of a `start` that fails to start a worker keeps its segment (`Leaked`), whatever is called
afterwards. Where every `start` that gets to its loop starts all its workers, a coordinator that is
not started has nothing (`Held`). -/

namespace VantaCore.Core.Scanner.Cleanup

open VantaCore.Core.Scanner.Coordinator VantaCore.Core.Scanner.Respawn

/-- No process runs that is not in a slot. -/
def RunningHeld (s : State) : Prop :=
  ∀ pid < s.processes.length, s.exitcode pid = none → pid ∈ s.workers

/-- The coordinator holds no running worker and no shared-memory segment. -/
structure Clean (s : State) : Prop where
  exited : ∀ pid < s.processes.length, s.exitcode pid ≠ none
  segments : s.segments = []
  workers : s.workers = []
  ringBuffer : s.ringBuffer = none

/-- What a coordinator holds: started, its ring and the workers in its slots; else nothing. -/
structure Held (s : State) : Prop where
  ring : s.started = true → ∃ ring, s.segments = [ring] ∧ s.ringBuffer = some ring
  running : RunningHeld s
  clean : s.started = false → Clean s

/-- A segment that no call will unlink. -/
def Leaked (s : State) : Prop :=
  ∃ ring ∈ s.segments, ring < s.rings ∧ (s.started = true → s.ringBuffer ≠ some ring)

theorem Leaked.not_clean {s : State} (h : Leaked s) : ¬ Clean s := fun hc => by
  obtain ⟨ring, hring, -⟩ := h
  rw [hc.segments] at hring
  cases hring

/-! ### A pass -/

section Pass

variable {s s' s'' : State} {polled : ℕ → Option ℤ} {raises : ℕ → Bool}

/-- What checking the workers leaves of a state. -/
structure Kept (s s' : State) : Prop where
  ringBuffer : s'.ringBuffer = s.ringBuffer
  segments : s'.segments = s.segments
  rings : s'.rings = s.rings
  started : s'.started = s.started
  running : RunningHeld s → RunningHeld s'

theorem Kept.refl (s : State) : Kept s s := ⟨rfl, rfl, rfl, rfl, id⟩

theorem Kept.trans (h : Kept s s') (h' : Kept s' s'') : Kept s s'' where
  ringBuffer := h'.ringBuffer.trans h.ringBuffer
  segments := h'.segments.trans h.segments
  rings := h'.rings.trans h.rings
  started := h'.started.trans h.started
  running hs := h'.running (h.running hs)

theorem kept_setStop (s : State) : Kept s s.setStop := ⟨rfl, rfl, rfl, rfl, id⟩

theorem exitcode_of_exit {pid pid' : ℕ} {c : Option ℤ}
    (h : (s.exit pid c).exitcode pid' = none) : s.exitcode pid' = none := by
  by_cases hpid : pid < s.processes.length
  · rw [exitcode_exit s pid c hpid] at h
    split_ifs at h with heq
    · rw [heq]
      exact (Option.or_eq_none_iff.mp h).1
    · exact h
  · have hsame : s.exit pid c = s := by
      rw [State.exit, List.modify_eq_self (by omega)]
    rwa [hsame] at h

theorem kept_exit (s : State) (pid : ℕ) (c : Option ℤ) : Kept s (s.exit pid c) := by
  refine ⟨rfl, rfl, rfl, rfl, fun h pid' hlt hrun => ?_⟩
  rw [length_processes_exit] at hlt
  exact h pid' hlt (exitcode_of_exit hrun)

/-- The worker that is replaced has exited. -/
theorem kept_replace {i pid : ℕ} (hi : s.workers[i]? = some pid) (hexit : s.exitcode pid ≠ none)
    (e : Event) : Kept s ((s.spawned e).replace i s.processes.length) := by
  refine ⟨rfl, rfl, rfl, rfl, fun h pid' hlt hrun => ?_⟩
  obtain ⟨hlen, hget⟩ := List.getElem?_eq_some_iff.mp hi
  have hworkers : ((s.spawned e).replace i s.processes.length).workers =
      s.workers.set i s.processes.length := rfl
  rw [hworkers]
  rcases Nat.lt_or_ge pid' s.processes.length with hold | hnew
  · have hrun' : s.exitcode pid' = none := by
      rw [← exitcode_spawned hold e]
      exact hrun
    obtain ⟨j, hj, hjpid⟩ := List.getElem_of_mem (h pid' hold hrun')
    have hne : i ≠ j := by
      rintro rfl
      exact hexit (by rw [← hget, hjpid, hrun'])
    refine List.mem_of_getElem? (i := j) ?_
    rw [List.getElem?_set_ne hne, List.getElem?_eq_getElem hj, hjpid]
  · have hlt' : pid' < (s.spawned e).processes.length := hlt
    have : pid' = s.processes.length := by
      rw [length_processes_spawned] at hlt'
      omega
    rw [this]
    exact List.mem_of_getElem? (List.getElem?_set_self hlen)

theorem kept_respawnWorker {i pid : ℕ} (hi : s.workers[i]? = some pid)
    (hexit : s.exitcode pid ≠ none) : Kept s (respawnWorker raises s i).1 := by
  unfold respawnWorker
  split_ifs
  · exact kept_setStop s
  · exact .refl s
  · exact kept_replace hi hexit _

theorem kept_checkWorker (s : State) (i : ℕ) : Kept s (checkWorker polled raises s i).1 := by
  unfold checkWorker
  cases hi : s.workers[i]? with
  | none => exact .refl s
  | some pid =>
    have hexit := kept_exit s pid (polled i)
    dsimp only
    cases hcode : (s.exit pid (polled i)).exitcode pid with
    | none => exact hexit
    | some code =>
      dsimp only
      split_ifs
      · exact hexit.trans (kept_respawnWorker hi (by rw [hcode]; simp))
      · exact hexit
      · exact hexit

theorem kept_checkLoop : ∀ (is : List ℕ) (s : State), Kept s (checkLoop polled raises is s).1
  | [], s => .refl s
  | i :: is, s => by
    have hstep := @kept_checkWorker polled raises s i
    rw [checkLoop]
    cases hcheck : checkWorker polled raises s i with
    | mk s' raised =>
      rw [hcheck] at hstep
      cases raised with
      | true => exact hstep
      | false => exact hstep.trans (kept_checkLoop is s')

end Pass

/-! ### Steps -/

section Steps

variable {cfg : Settings} {s s' : State}

/-- The condition on a step: a `start` that gets to its loop can start all its workers. -/
def StartsAll (cfg : Settings) (s : State) : Label → Prop
  | .start sizeRaises raises =>
    Begins cfg sizeRaises s → ∀ k < cfg.numWorkers, raises k = false
  | _ => True

theorem Held.kept (h : Held s) (hst : s.started = true) (hk : Kept s s') : Held s' where
  ring _ := by
    rw [hk.segments, hk.ringBuffer]
    exact h.ring hst
  running := hk.running h.running
  clean hst' := by simp [hk.started, hst] at hst'

theorem Held.closed (h : Held s) (hv : Valid s) (hst : s.started = true) :
    Clean s.terminate.closed := by
  have hexited := hv.terminate
  obtain ⟨ring, hsegments, hring⟩ := h.ring hst
  refine ⟨fun pid hlt hrun => ?_, ?_, rfl, rfl⟩
  · have hlt' : pid < s.processes.length := hexited.length ▸ hlt
    obtain ⟨hrun', hnot⟩ := hexited.exitcode pid hlt' hrun
    exact hnot (h.running pid hlt' hrun')
  · have hfilter : s.terminate.closed.segments =
        s.terminate.segments.filter fun ring => s.terminate.ringBuffer ≠ some ring := rfl
    rw [hfilter, hexited.segments, hexited.ringBuffer, hsegments, hring]
    simp

theorem Clean.held (h : Clean s) (hst : s.started = false) : Held s where
  ring hst' := by simp [hst] at hst'
  running pid hlt hrun := absurd hrun (h.exited pid hlt)
  clean _ := h

/-- **One step keeps what a coordinator holds in order**, if its `start` starts all workers. -/
theorem Held.step (hinv : Inv s) (h : Held s) {l : Label} (hl : StartsAll cfg s l) :
    Held (step cfg s l) := by
  cases l with
  | start sizeRaises raises =>
    have hloop := start_spawnedFrom cfg raises s
    rcases start_cases cfg sizeRaises raises s with
      ⟨-, heq⟩ | ⟨hbegins, ⟨⟨k, hk, hraises⟩, -⟩ | ⟨-, heq⟩⟩
    · rw [Coordinator.step, heq]
      exact h
    · rw [hl hbegins k hk] at hraises
      cases hraises
    · have hclean := h.clean hbegins.1
      rw [Coordinator.step, heq]
      refine ⟨fun _ => ⟨s.rings, hloop.segments.trans ?_, hloop.ringBuffer⟩,
        fun pid hlt hrun => ?_, fun hst => by cases hst⟩
      · show s.segments ++ [s.rings] = [s.rings]
        rw [hclean.segments, List.nil_append]
      · rcases hloop.running pid hlt hrun with hmem | ⟨hlt', hrun'⟩
        · exact hmem
        · exact absurd hrun' (hclean.exited pid hlt')
  | submit | drainResults => exact h
  | checkWorkers polled raises =>
    have hk := @kept_checkLoop polled raises (List.range s.workers.length) s
    by_cases hst : s.started = true
    · exact h.kept hst hk
    · have hst' : s.started = false := Bool.eq_false_iff.mpr hst
      have hclean := h.clean hst'
      have hnil : (Coordinator.checkWorkers polled raises s).1 = s := by
        rw [Coordinator.checkWorkers, hclean.workers]
        rfl
      rw [Coordinator.step, hnil]
      exact h
  | stop polled raises =>
    rcases stop_cases polled raises s with ⟨-, heq⟩ | ⟨hst, heq⟩
    · rw [Coordinator.step, heq]
      exact h
    · have hk := (kept_setStop s).trans (@kept_checkLoop polled raises
        (List.range s.setStop.workers.length) s.setStop)
      have hready := ((hinv hst).setStop.checkWorkers polled raises).ready
      have hheld := h.kept hst hk
      rcases heq with heq | heq <;> rw [Coordinator.step, heq]
      · exact hheld
      · exact (hheld.closed hready.toValid hready.started).held rfl
  | exit pid code =>
    have hk := kept_exit s pid (some code)
    refine ⟨h.ring, hk.running h.running, fun hst => ?_⟩
    have hclean := h.clean hst
    refine ⟨fun pid' hlt hrun => ?_, hclean.segments, hclean.workers, hclean.ringBuffer⟩
    have hlt' : pid' < s.processes.length := length_processes_exit s pid (some code) ▸ hlt
    exact hclean.exited pid' hlt' (exitcode_of_exit hrun)

theorem Leaked.kept (h : Leaked s) (hk : Kept s s') : Leaked s' := by
  obtain ⟨ring, hmem, hlt, hne⟩ := h
  refine ⟨ring, ?_, ?_, fun hst => ?_⟩
  · rwa [hk.segments]
  · rwa [hk.rings]
  · rw [hk.ringBuffer]
    exact hne (hk.started ▸ hst)

/-- **No step unlinks a leaked segment.** -/
theorem Leaked.step (hinv : Inv s) (h : Leaked s) (l : Label) : Leaked (step cfg s l) := by
  cases l with
  | start sizeRaises raises =>
    have hloop := start_spawnedFrom cfg raises s
    obtain ⟨ring, hmem, hlt, hne⟩ := h
    have hmem' : ring ∈ (spawnLoop raises (List.range cfg.numWorkers) s.began).1.segments := by
      rw [hloop.segments]
      exact List.mem_append_left [s.rings] hmem
    have hlt' : ring < (spawnLoop raises (List.range cfg.numWorkers) s.began).1.rings := by
      rw [hloop.rings]
      exact Nat.lt_succ_of_lt hlt
    have hne' : (spawnLoop raises (List.range cfg.numWorkers) s.began).1.ringBuffer ≠ some ring := by
      rw [hloop.ringBuffer]
      exact fun heq => hlt.ne' (Option.some.inj heq)
    rcases start_cases cfg sizeRaises raises s with ⟨-, heq⟩ | ⟨-, ⟨-, heq⟩ | ⟨-, heq⟩⟩ <;>
      rw [Coordinator.step, heq]
    · exact ⟨ring, hmem, hlt, hne⟩
    · exact ⟨ring, hmem', hlt', fun _ => hne'⟩
    · exact ⟨ring, hmem', hlt', fun _ => hne'⟩
  | submit | drainResults => exact h
  | checkWorkers polled raises => exact h.kept (kept_checkLoop _ s)
  | stop polled raises =>
    have hk := (kept_setStop s).trans (@kept_checkLoop polled raises
      (List.range s.setStop.workers.length) s.setStop)
    rcases stop_cases polled raises s with ⟨-, heq⟩ | ⟨hst, heq | heq⟩ <;> rw [Coordinator.step, heq]
    · exact h
    · exact h.kept hk
    · have hready := ((hinv hst).setStop.checkWorkers polled raises).ready
      have hexited := hready.toValid.terminate
      obtain ⟨ring, hmem, hlt, hne⟩ := h.kept hk
      refine ⟨ring, List.mem_filter.mpr ⟨?_, ?_⟩, ?_, fun hst' => by cases hst'⟩
      · rw [hexited.segments]
        exact hmem
      · rw [hexited.ringBuffer]
        exact decide_eq_true (hne hready.started)
      · show ring < State.rings (State.terminate _)
        rw [hexited.rings]
        exact hlt
  | exit pid code => exact h.kept (kept_exit s pid (some code))

/-- A `start` that cannot start one of its workers. -/
theorem leaked_of_not_startsAll {l : Label} (hl : ¬ StartsAll cfg s l) :
    Leaked (step cfg s l) := by
  cases l with
  | start sizeRaises raises =>
    have hloop := start_spawnedFrom cfg raises s
    rcases start_cases cfg sizeRaises raises s with ⟨hnot, -⟩ | ⟨hbegins, ⟨-, heq⟩ | ⟨hall, -⟩⟩
    · exact absurd (fun h => absurd h hnot) hl
    · rw [Coordinator.step, heq]
      refine ⟨s.rings, ?_, ?_, fun hst => ?_⟩
      · rw [hloop.segments]
        exact List.mem_append_right s.segments List.mem_cons_self
      · rw [hloop.rings]
        exact Nat.lt_succ_self s.rings
      · have hstarted : s.started = true := hloop.started ▸ hst
        rw [hbegins.1] at hstarted
        cases hstarted
    · exact absurd (fun _ => hall) hl
  | submit | drainResults | checkWorkers | stop | exit => exact absurd trivial hl

end Steps

/-! ### Runs -/

/-- **A run leaves a leak behind, or the coordinator holds what it should.** -/
theorem held_or_leaked_run (cfg : Settings) : ∀ (ls : List Label) {s : State}, Inv s → Held s →
    (AllSteps cfg (StartsAll cfg) ls s ∧ Held (run cfg ls s)) ∨
      (¬ AllSteps cfg (StartsAll cfg) ls s ∧ Leaked (run cfg ls s))
  | [], _, _, h => Or.inl ⟨trivial, h⟩
  | l :: ls, s, hinv, h => by
    have hinv' : Inv (step cfg s l) := inv_step hinv l
    by_cases hl : StartsAll cfg s l
    · rcases held_or_leaked_run cfg ls hinv' (h.step hinv hl) with ⟨hall, hheld⟩ | ⟨hall, hleaked⟩
      · exact Or.inl ⟨⟨hl, hall⟩, hheld⟩
      · exact Or.inr ⟨fun h' => hall h'.2, hleaked⟩
    · refine Or.inr ⟨fun h' => hl h'.1, ?_⟩
      exact (run_induction (P := fun s => Inv s ∧ Leaked s)
        (fun _ l h' => ⟨inv_step h'.1 l, h'.2.step h'.1 l⟩) ls
        ⟨hinv', leaked_of_not_startsAll hl⟩).2

theorem held_init : Held .init :=
  Clean.held ⟨fun _ h => absurd h (Nat.not_lt_zero _), rfl, rfl, rfl⟩ rfl

/-- The pass of `stop` can start the workers it replaces. -/
def StopReturns (polled : ℕ → Option ℤ) (raises : ℕ → Bool) (s : State) : Prop :=
  s.started = true → ∀ i < s.workers.length, action polled raises s i ≠ .fail

theorem stop_snd_iff {s : State} (hinv : Inv s) (polled : ℕ → Option ℤ) (raises : ℕ → Bool) :
    (stop polled raises s).2 = false ↔ StopReturns polled raises s := by
  unfold stop StopReturns
  by_cases hst : s.started = true
  · have hraised := (hinv hst).setStop.checkWorkers_snd_iff polled raises
    rw [if_pos hst]
    cases hcheck : checkWorkers polled raises s.setStop with
    | mk s' raised =>
      rw [hcheck] at hraised
      cases raised with
      | true =>
        obtain ⟨i, hi, hfail⟩ := hraised.mp rfl
        exact iff_of_false (by simp) fun h => h hst i hi hfail
      | false => exact iff_of_true rfl fun _ i hi hfail => by simpa using hraised.mpr ⟨i, hi, hfail⟩
  · rw [if_neg hst]
    exact iff_of_true rfl fun h => absurd h hst

/-- **When nothing is left behind**, whatever has been called before `stop`. -/
theorem clean_stop_iff (cfg : Settings) (ls : List Label) (polled : ℕ → Option ℤ)
    (raises : ℕ → Bool) :
    Clean (stop polled raises (run cfg ls .init)).1 ↔
      AllSteps cfg (StartsAll cfg) ls .init ∧ StopReturns polled raises (run cfg ls .init) := by
  have hinv := inv_run cfg ls
  rw [← stop_snd_iff hinv]
  rcases held_or_leaked_run cfg ls (by rintro ⟨⟩) held_init with ⟨hall, hheld⟩ | ⟨hall, hleaked⟩
  · rw [and_iff_right hall]
    have hheld' : Held (stop polled raises (run cfg ls .init)).1 :=
      @Held.step cfg _ hinv hheld (.stop polled raises) trivial
    rcases stop_cases polled raises (run cfg ls .init) with ⟨hst, heq⟩ | ⟨hst, heq | heq⟩
    · rw [heq] at hheld' ⊢
      exact iff_of_true (hheld'.clean hst) rfl
    · have hstarted := ((hinv hst).setStop.checkWorkers polled raises).ready.started
      rw [heq] at hheld' ⊢
      obtain ⟨ring, hsegments, -⟩ := hheld'.ring hstarted
      refine iff_of_false (fun h => ?_) (by simp)
      cases hsegments.symm.trans h.segments
    · rw [heq] at hheld' ⊢
      exact iff_of_true (hheld'.clean rfl) rfl
  · exact iff_of_false (@Leaked.step cfg _ hinv hleaked (.stop polled raises)).not_clean
      fun h => hall h.1

/-- The step is a call of `start` or `stop`. -/
def StartOrStop : Label → Prop
  | .start _ _ | .stop _ _ => True
  | _ => False

/-- The only worker cannot be started, and `stop` leaves the ring's segment. -/
theorem segment_left : ¬ ∀ (cfg : Settings) (ls : List Label) (polled : ℕ → Option ℤ)
    (raises : ℕ → Bool), (∀ l ∈ ls, StartOrStop l) →
    (stop polled raises (run cfg ls .init)).2 = false →
    Clean (stop polled raises (run cfg ls .init)).1 := by
  intro h
  have hclean := h ⟨1, 256⟩ [.start false fun _ => true] (fun _ => none) (fun _ => false)
    (by simp [StartOrStop]) (by decide)
  have hsegments : (stop (fun _ => none) (fun _ => false)
      (run ⟨1, 256⟩ [.start false fun _ => true] .init)).1.segments = [0] := by decide
  cases hsegments.symm.trans hclean.segments

end VantaCore.Core.Scanner.Cleanup
