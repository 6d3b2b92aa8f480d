import VantaCore.Core.Scanner.Respawn

/-! # Is a worker that dies early noticed?

`scanner_worker_main` catches every `Exception`, when it attaches to the ring, opens the dump and
processes addresses, and returns: the process ends with the exit code 0, and `_check_workers` passes
it over. So the worker is noticed only if something else has ended it, or the pass finds the worker
of another slot crashed for a second time (`noticed_iff`). -/

namespace VantaCore.Core.Scanner.EarlyExit

open VantaCore.Core.Scanner.Worker VantaCore.Core.Scanner.Coordinator
open VantaCore.Core.Scanner.Respawn

/-! ### Exit codes -/

/-- The exception ends the process with an exit code other than 0: it is no `Exception`, and no
`SystemExit` whose code is a multiple of 256. -/
def Crashes : Exc → Prop
  | .exception => False
  | .keyboardInterrupt => True
  | .systemExit code => code % 256 ≠ 0

theorem exitCode_raiseIn {e : Exc} {pc : WorkerPc} {how : Except Exc Unit}
    (h : raiseIn e pc = some how) : exitCode how ≠ 0 ↔ Crashes e := by
  obtain rfl : how = exceptException e := by
    cases pc <;> simp [raiseIn] at h <;> exact h.symm
  cases e <;> simp [exceptException, exitCode, Crashes]

/-! ### Between two passes -/

/-- The step checks no workers. -/
def Unchecked : Label → Prop
  | .checkWorkers _ _ | .stop _ _ => False
  | _ => True

/-- What steps that check no workers leave of a started coordinator; the process has exited. -/
structure Unnoticed (s : State) (pid : ℕ) (code : ℤ) (s' : State) : Prop where
  workers : s'.workers = s.workers
  respawnCounts : s'.respawnCounts = s.respawnCounts
  started : s'.started = true
  stopSet : s'.stopSet = s.stopSet
  lt : pid < s'.processes.length
  exitcode : s'.exitcode pid = some code

theorem Unnoticed.step {cfg : Settings} {s s' : State} {pid : ℕ} {code : ℤ}
    (h : Unnoticed s pid code s') {l : Label} (hl : Unchecked l) :
    Unnoticed s pid code (step cfg s' l) := by
  cases l with
  | start sizeRaises raises =>
    have heq : start cfg sizeRaises raises s' = (s', true) := if_pos h.started
    rw [Coordinator.step, heq]
    exact h
  | submit | drainResults => exact h
  | checkWorkers | stop => cases hl
  | exit pid' c =>
    refine ⟨h.workers, h.respawnCounts, h.started, h.stopSet, ?_, ?_⟩
    · simpa [Coordinator.step] using h.lt
    · rw [Coordinator.step]
      by_cases hlt : pid' < s'.processes.length
      · rw [exitcode_exit s' pid' _ hlt]
        by_cases hpid : pid = pid'
        · rw [if_pos hpid, ← hpid, h.exitcode]
          rfl
        · rw [if_neg hpid, h.exitcode]
      · have hsame : s'.exit pid' (some c) = s' := by
          rw [State.exit, List.modify_eq_self (by omega)]
        rw [hsame, h.exitcode]

theorem Unnoticed.run {cfg : Settings} {s : State} {pid : ℕ} {code : ℤ} :
    ∀ (ls : List Label) {s' : State}, Unnoticed s pid code s' → (∀ l ∈ ls, Unchecked l) →
      Unnoticed s pid code (run cfg ls s')
  | [], _, h, _ => h
  | l :: ls, _, h, hl => Unnoticed.run ls (h.step (hl l List.mem_cons_self)) fun l' hl' =>
      hl l' (List.mem_cons_of_mem _ hl')

/-! ### The next pass -/

/-- The worker of the slot has been replaced, or the stop event is set. -/
def Noticed (s : State) (i pid : ℕ) : Prop := s.workers[i]? ≠ some pid ∨ s.stopSet = true

/-- A pass, by what it does in the slots. -/
theorem noticed_checkWorkers_iff {s : State} (hs : Ready s) (hstop : s.stopSet = false)
    (polled : ℕ → Option ℤ) (raises : ℕ → Bool) {i pid : ℕ} (hi : s.workers[i]? = some pid) :
    Noticed (checkWorkers polled raises s).1 i pid ↔
      (∃ j, Reaches (action polled raises s) (List.range s.workers.length) j ∧
        action polled raises s j = .setStop) ∨
      Reaches (action polled raises s) (List.range s.workers.length) i ∧
        action polled raises s i = .replace := by
  have hp := hs.checkWorkers polled raises
  have hmem := fun b => @respawn_mem_pass_iff (action polled raises s) i b
    (List.range s.workers.length) s.stopSet List.pairwise_lt_range
  have hreplaced : (checkWorkers polled raises s).1.workers[i]? ≠ some pid ↔
      Reaches (action polled raises s) (List.range s.workers.length) i ∧
        action polled raises s i = .replace := by
    constructor
    · intro hne
      by_contra hno
      refine hne ((hp.other i fun b hb => ?_).trans hi)
      obtain ⟨hreach, hact, -⟩ := (hmem b).mp hb
      exact hno ⟨hreach, hact⟩
    · rintro ⟨hreach, hact⟩ heq
      obtain ⟨b, hb⟩ : ∃ b : Bool, b = true ↔ s.stopSet = true ∨
          ∃ j ∈ List.range s.workers.length, j < i ∧ action polled raises s j = .setStop :=
        ⟨_, @decide_eq_true_iff _ (Classical.propDecidable _)⟩
      obtain ⟨pid', hpid', hle⟩ := hp.replaced i b ((hmem b).mpr ⟨hreach, hact, hb⟩)
      obtain rfl : pid = pid' := Option.some.inj (heq.symm.trans hpid')
      have := hs.lt pid (List.mem_of_getElem? hi)
      omega
  rw [Noticed, hreplaced, hp.stopSet, pass_snd_iff List.pairwise_lt_range, hstop, or_comm]
  simp

theorem action_eq_setStop_iff {polled : ℕ → Option ℤ} {raises : ℕ → Bool} {s : State} {i : ℕ} :
    action polled raises s i = .setStop ↔ Crashed polled s i ∧ 1 ≤ s.respawnCounts i := by
  unfold action
  split_ifs <;> simp_all

theorem action_eq_replace_iff {polled : ℕ → Option ℤ} {raises : ℕ → Bool} {s : State} {i : ℕ} :
    action polled raises s i = .replace ↔
      Crashed polled s i ∧ s.respawnCounts i = 0 ∧ raises i = false := by
  unfold action
  split_ifs <;> simp_all
  omega

/-- **When a worker that dies early is noticed**: in the run `ls` a worker is started in slot `i` and
dies of the exception `e` at `pc` before the stop event is set; after the steps `ls'` the workers are
checked. -/
theorem noticed_iff (cfg : Settings) (ls ls' : List Label) (i pid : ℕ) (pc : WorkerPc) (e : Exc)
    (how : Except Exc Unit) (polled : ℕ → Option ℤ) (raises : ℕ → Bool)
    (hstarted : (run cfg ls .init).started = true) (hstop : (run cfg ls .init).stopSet = false)
    (hslot : (run cfg ls .init).workers[i]? = some pid)
    (hruns : (run cfg ls .init).exitcode pid = none) (hraise : raiseIn e pc = some how)
    (hnext : ∀ l ∈ ls', Unchecked l) :
    let s := run cfg (ls ++ .exit pid (exitCode how) :: ls') .init
    let gets := Reaches (action polled raises s) (List.range s.workers.length)
    Noticed (checkWorkers polled raises s).1 i pid ↔
      (∃ j, gets j ∧ Crashed polled s j ∧ 1 ≤ s.respawnCounts j) ∨
      gets i ∧ Crashes e ∧ raises i = false := by
  intro s gets
  have hready : Ready (run cfg ls .init) := inv_run cfg ls hstarted
  have hpid : pid < (run cfg ls .init).processes.length :=
    hready.lt pid (List.mem_of_getElem? hslot)
  have hexit : Unnoticed (run cfg ls .init) pid (exitCode how)
      ((run cfg ls .init).exit pid (some (exitCode how))) := by
    refine ⟨rfl, rfl, hstarted, rfl, by simpa using hpid, ?_⟩
    rw [exitcode_exit _ _ _ hpid, if_pos rfl, hruns]
    rfl
  have hs : Unnoticed (run cfg ls .init) pid (exitCode how) s := by
    have hrun : s = run cfg ls' ((run cfg ls .init).exit pid (some (exitCode how))) := by
      simp [s, run, step]
    rw [hrun]
    exact hexit.run ls' hnext
  have hi : s.workers[i]? = some pid := by rw [hs.workers]; exact hslot
  have hcrashed : Crashed polled s i ↔ Crashes e := by
    rw [← exitCode_raiseIn hraise, Crashed, code, hi, Option.bind_some, hs.exitcode]
    simp
  have hsready : Ready s := inv_run cfg _ hs.started
  rw [noticed_checkWorkers_iff hsready (hs.stopSet.trans hstop) polled raises hi]
  simp only [action_eq_setStop_iff, action_eq_replace_iff, hcrashed]
  constructor
  · rintro (⟨j, hj, hcj, hle⟩ | ⟨hi', he, -, hr⟩)
    · exact Or.inl ⟨j, hj, hcj, hle⟩
    · exact Or.inr ⟨hi', he, hr⟩
  · rintro (⟨j, hj, hcj, hle⟩ | ⟨hi', he, hr⟩)
    · exact Or.inl ⟨j, hj, hcj, hle⟩
    · rcases Nat.eq_zero_or_pos (s.respawnCounts i) with h0 | h1
      · exact Or.inr ⟨hi', he, h0, hr⟩
      · exact Or.inl ⟨i, hi', hcrashed.mpr he, h1⟩

/-- A worker of one is interrupted while it processes an address, and replaced. -/
theorem noticed_iff_interrupted :
    let s := run ⟨1, 256⟩ ([.start false fun _ => false] ++
      .exit 0 (exitCode (.error .keyboardInterrupt)) :: []) .init
    let gets := Reaches (action (fun _ => none) (fun _ => false) s) (List.range s.workers.length)
    Noticed (checkWorkers (fun _ => none) (fun _ => false) s).1 0 0 ↔
      (∃ j, gets j ∧ Crashed (fun _ => none) s j ∧ 1 ≤ s.respawnCounts j) ∨
      gets 0 ∧ Crashes .keyboardInterrupt ∧ (fun _ => false) 0 = false :=
  noticed_iff ⟨1, 256⟩ [.start false fun _ => false] [] 0 0 (.mainProcess []) .keyboardInterrupt _
    (fun _ => none) (fun _ => false) (by decide) (by decide) (by decide) (by decide) rfl (by simp)

/-- The only worker cannot attach to the ring; nothing is done about it. -/
theorem not_noticed : ¬ ∀ (cfg : Settings) (ls ls' : List Label) (i pid : ℕ) (pc : WorkerPc)
    (e : Exc) (how : Except Exc Unit) (polled : ℕ → Option ℤ) (raises : ℕ → Bool),
    (run cfg ls .init).started = true → (run cfg ls .init).stopSet = false →
    (run cfg ls .init).workers[i]? = some pid → (run cfg ls .init).exitcode pid = none →
    raiseIn e pc = some how → (∀ l ∈ ls', Unchecked l) →
    Noticed (checkWorkers polled raises
      (run cfg (ls ++ .exit pid (exitCode how) :: ls') .init)).1 i pid := by
  intro h
  have h' := h ⟨1, 256⟩ [.start false fun _ => false] [] 0 0 .attach .exception (.ok ())
    (fun _ => none) (fun _ => false) (by decide) (by decide) (by decide) (by decide) rfl (by simp)
  rcases h' with h' | h'
  · exact h' (by decide)
  · revert h'
    decide

end VantaCore.Core.Scanner.EarlyExit
