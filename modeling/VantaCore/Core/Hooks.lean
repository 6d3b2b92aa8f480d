import Mathlib.Data.List.Basic
import Mathlib.Logic.Function.Basic
import Mathlib.Tactic

/-! # Hooks

`HookFramework`. `emit` goes through the list of the callbacks of an event while they run, and a callback
may register callbacks and emit events itself. So an emission that ends has called every callback that
is registered for its event in the end, each once and in order (`calls_of_emit`); it ends if the events
have layers and the callbacks of an event stay below it (`exists_emit`). -/

namespace VantaCore.Core.Hooks

variable {E C : Type*} [DecidableEq E]

/-- What a callback does with the framework. -/
inductive Action (E C : Type*) where
  | register (eventName : E) (callback : C)
  | emit (eventName : E)

/-- The event an action is about. -/
def Action.event : Action E C → E
  | .register eventName _ => eventName
  | .emit eventName => eventName

/-- A call of a callback, by an emission within `depth` other ones. -/
structure Call (E C : Type*) where
  depth : ℕ
  eventName : E
  callback : C
deriving DecidableEq

/-- The callbacks of every event, and the calls that were made. -/
structure HookFramework (E C : Type*) where
  callbacks : E → List C
  calls : List (Call E C)

/-- `register` -/
def register (eventName : E) (callback : C) (s : HookFramework E C) : HookFramework E C :=
  { s with callbacks := Function.update s.callbacks eventName (s.callbacks eventName ++ [callback]) }

/-- One action, by what `emit` does. -/
def act (emit : E → HookFramework E C → Option (HookFramework E C)) (s : HookFramework E C) :
    Action E C → Option (HookFramework E C)
  | .register eventName callback => some (register eventName callback s)
  | .emit eventName => emit eventName s

/-- The call is noted. -/
def HookFramework.note (s : HookFramework E C) (depth : ℕ) (eventName : E) (cb : C) :
    HookFramework E C := { s with calls := s.calls ++ [⟨depth, eventName, cb⟩] }

variable (body : List (Call E C) → C → List (Action E C))

/-- The loop of `emit` from the `i`-th callback on. `body` says what a callback does until it returns or
raises, by the calls so far; an exception ends the callback and nothing else. -/
def emitLoop : ℕ → ℕ → E → ℕ → HookFramework E C → Option (HookFramework E C)
  | 0, _, _, _, _ => none
  | fuel + 1, depth, eventName, i, s =>
    match (s.callbacks eventName)[i]? with
    | none => some s
    | some cb =>
      let called := s.note depth eventName cb
      ((body called.calls cb).foldlM (act fun e s => emitLoop fuel (depth + 1) e 0 s) called).bind
        (emitLoop fuel depth eventName (i + 1))

/-- `emit`, within `depth` other emissions; `none` where the fuel does not suffice. -/
def emit (fuel depth : ℕ) (eventName : E) (s : HookFramework E C) : Option (HookFramework E C) :=
  emitLoop body fuel depth eventName 0 s

variable {body} {fuel depth i : ℕ} {eventName e : E} {s s' t : HookFramework E C} {cb : C}
  {actions : List (Action E C)}

/-! ### What an emission leaves -/

/-- Nothing is unregistered, and the calls that are added are at least as deep as `depth`. -/
structure Extends (depth : ℕ) (s s' : HookFramework E C) : Prop where
  callbacks : ∀ e, s.callbacks e <+: s'.callbacks e
  calls : ∃ added, s'.calls = s.calls ++ added ∧ ∀ c ∈ added, depth ≤ c.depth

omit [DecidableEq E] in
theorem Extends.refl (depth : ℕ) (s : HookFramework E C) : Extends depth s s :=
  ⟨fun _ => List.prefix_rfl, [], (List.append_nil _).symm, fun _ h => by cases h⟩

omit [DecidableEq E] in
theorem Extends.trans (h : Extends depth s s') (h' : Extends depth s' t) : Extends depth s t where
  callbacks e := (h.callbacks e).trans (h'.callbacks e)
  calls := by
    obtain ⟨added, hcalls, hdepth⟩ := h.calls
    obtain ⟨added', hcalls', hdepth'⟩ := h'.calls
    refine ⟨added ++ added', by rw [hcalls', hcalls, List.append_assoc], fun c hc => ?_⟩
    rcases List.mem_append.mp hc with hc | hc
    exacts [hdepth c hc, hdepth' c hc]

omit [DecidableEq E] in
theorem Extends.mono {depth' : ℕ} (h : Extends depth s s') (hle : depth' ≤ depth) :
    Extends depth' s s' where
  callbacks := h.callbacks
  calls := by
    obtain ⟨added, hcalls, hdepth⟩ := h.calls
    exact ⟨added, hcalls, fun c hc => hle.trans (hdepth c hc)⟩

omit [DecidableEq E] in
theorem extends_note : Extends depth s (s.note depth e cb) where
  callbacks _ := List.prefix_rfl
  calls := ⟨[⟨depth, e, cb⟩], rfl, fun c hc => by rw [List.mem_singleton.mp hc]⟩

theorem extends_register : Extends depth s (register eventName cb s) where
  callbacks e := by
    unfold register
    by_cases h : e = eventName
    · subst h
      exact ⟨[cb], (Function.update_self e _ s.callbacks).symm⟩
    · exact ⟨[], by rw [List.append_nil]; exact (Function.update_of_ne h _ _).symm⟩
  calls := ⟨[], (List.append_nil _).symm, fun _ h => by cases h⟩

theorem extends_foldlM {emit : E → HookFramework E C → Option (HookFramework E C)}
    (hemit : ∀ e s s', emit e s = some s' → Extends depth s s') :
    ∀ (actions : List (Action E C)) (s s' : HookFramework E C),
      actions.foldlM (act emit) s = some s' → Extends depth s s'
  | [], s, s', h => by
    cases h
    exact Extends.refl depth s
  | a :: actions, s, s', h => by
    rw [List.foldlM_cons] at h
    obtain ⟨t, hact, hrest⟩ := Option.bind_eq_some_iff.mp h
    refine Extends.trans ?_ (extends_foldlM hemit actions t s' hrest)
    cases a with
    | register eventName callback =>
      cases hact
      exact extends_register
    | emit eventName => exact hemit eventName s t hact

/-- One turn of the loop. -/
theorem emitLoop_succ (h : emitLoop body (fuel + 1) depth e i s = some s') :
    (s.callbacks e)[i]? = none ∧ s' = s ∨
      ∃ cb t, (s.callbacks e)[i]? = some cb ∧
        (body (s.note depth e cb).calls cb).foldlM
          (act fun e s => emitLoop body fuel (depth + 1) e 0 s) (s.note depth e cb) = some t ∧
        emitLoop body fuel depth e (i + 1) t = some s' := by
  rw [emitLoop] at h
  cases hcb : (s.callbacks e)[i]? with
  | none =>
    rw [hcb] at h
    exact Or.inl ⟨rfl, (Option.some.inj h).symm⟩
  | some cb =>
    rw [hcb] at h
    obtain ⟨t, hbody, hrest⟩ := Option.bind_eq_some_iff.mp h
    exact Or.inr ⟨cb, t, rfl, hbody, hrest⟩

theorem extends_emitLoop : ∀ (fuel depth : ℕ) (e : E) (i : ℕ) (s s' : HookFramework E C),
    emitLoop body fuel depth e i s = some s' → Extends depth s s'
  | 0, _, _, _, _, _, h => by cases h
  | fuel + 1, depth, e, i, s, s', h => by
    obtain ⟨-, rfl⟩ | ⟨cb, t, -, hbody, hrest⟩ := emitLoop_succ h
    · exact Extends.refl depth s'
    · have hinner : Extends (depth + 1) (s.note depth e cb) t :=
        extends_foldlM (fun e s s' h => extends_emitLoop fuel (depth + 1) e 0 s s' h) _ _ t hbody
      exact (extends_note.trans (hinner.mono (Nat.le_succ depth))).trans
        (extends_emitLoop fuel depth e (i + 1) t s' hrest)

/-- The calls of an emission itself. -/
def direct (depth : ℕ) (calls : List (Call E C)) : List (Call E C) :=
  calls.filter fun c => c.depth = depth

omit [DecidableEq E] in
theorem direct_of_deeper {calls : List (Call E C)} (h : ∀ c ∈ calls, depth + 1 ≤ c.depth) :
    direct depth calls = [] := by
  refine List.filter_eq_nil_iff.mpr fun c hc => ?_
  have hlt := h c hc
  simp only [decide_eq_true_eq]
  omega

omit [DecidableEq E] in
theorem getElem?_of_prefix {l l' : List C} (h : l <+: l') (hcb : l[i]? = some cb) :
    l'[i]? = some cb := by
  obtain ⟨rest, rfl⟩ := h
  rw [List.getElem?_append_left (List.getElem?_eq_some_iff.mp hcb).1]
  exact hcb

/-- The loop calls what is registered in the end from its position on. -/
theorem direct_emitLoop : ∀ (fuel depth : ℕ) (e : E) (i : ℕ) (s s' : HookFramework E C),
    emitLoop body fuel depth e i s = some s' → ∃ added, s'.calls = s.calls ++ added ∧
      direct depth added = ((s'.callbacks e).drop i).map (Call.mk depth e)
  | 0, _, _, _, _, _, h => by cases h
  | fuel + 1, depth, e, i, s, s', h => by
    obtain ⟨hnone, rfl⟩ | ⟨cb, t, hcb, hbody, hrest⟩ := emitLoop_succ h
    · refine ⟨[], (List.append_nil _).symm, ?_⟩
      rw [List.drop_eq_nil_of_le (List.getElem?_eq_none_iff.mp hnone)]
      rfl
    · have hinner : Extends (depth + 1) (s.note depth e cb) t :=
        extends_foldlM (fun e s s' h => extends_emitLoop fuel (depth + 1) e 0 s s' h) _ _ t hbody
      obtain ⟨nested, hnested, hdeeper⟩ := hinner.calls
      obtain ⟨rest, hcalls, hdirect⟩ := direct_emitLoop fuel depth e (i + 1) t s' hrest
      -- the callback stays where it is while the list grows
      have hstays : (s'.callbacks e)[i]? = some cb :=
        getElem?_of_prefix ((hinner.callbacks e).trans
          ((extends_emitLoop fuel depth e (i + 1) t s' hrest).callbacks e)) hcb
      obtain ⟨hlt, hget⟩ := List.getElem?_eq_some_iff.mp hstays
      refine ⟨⟨depth, e, cb⟩ :: (nested ++ rest), ?_, ?_⟩
      · rw [hcalls, hnested, HookFramework.note, List.append_assoc, List.append_assoc,
          List.singleton_append]
      · have hfirst : direct depth (⟨depth, e, cb⟩ :: (nested ++ rest)) =
            ⟨depth, e, cb⟩ :: (direct depth nested ++ direct depth rest) := by
          unfold direct
          rw [List.filter_cons, if_pos (decide_eq_true rfl), List.filter_append]
        rw [hfirst, direct_of_deeper hdeeper, List.nil_append, hdirect,
          List.drop_eq_getElem_cons hlt, List.map_cons, hget]

/-- **An emission that ends** has called what is registered for its event in the end, each once and in
order, whatever the callbacks registered, emitted or raised on the way. -/
theorem calls_of_emit (h : emit body fuel depth e s = some s') :
    Extends depth s s' ∧ ∃ added, s'.calls = s.calls ++ added ∧
      direct depth added = (s'.callbacks e).map (Call.mk depth e) := by
  refine ⟨extends_emitLoop fuel depth e 0 s s' h, ?_⟩
  obtain ⟨added, hcalls, hdirect⟩ := direct_emitLoop fuel depth e 0 s s' h
  exact ⟨added, hcalls, by rw [hdirect, List.drop_zero]⟩

/-- Callback 0 registers callback 1 for the event it is called for, and raises. -/
def lateBody : List (Call Bool ℕ) → ℕ → List (Action Bool ℕ)
  | _, 0 => [.register true 1]
  | _, _ => []

/-- Callback 0 is registered for both events. -/
def start : HookFramework Bool ℕ := ⟨fun _ => [0], []⟩

theorem calls_of_emit_late : ∃ s', emit lateBody 3 0 true start = some s' ∧
    s'.calls = [⟨0, true, 0⟩, ⟨0, true, 1⟩] ∧ Extends 0 start s' ∧
      ∃ added, s'.calls = start.calls ++ added ∧
        direct 0 added = (s'.callbacks true).map (Call.mk 0 true) := by
  have hemit : emit lateBody 3 0 true start =
      some ((register true 1 (start.note 0 true 0)).note 0 true 1) := rfl
  exact ⟨_, hemit, rfl, calls_of_emit hemit⟩

/-! ### When an emission ends -/

/-- More fuel changes nothing. -/
theorem foldlM_mono {emit emit' : E → HookFramework E C → Option (HookFramework E C)}
    (hemit : ∀ e s s', emit e s = some s' → emit' e s = some s') :
    ∀ (actions : List (Action E C)) (s s' : HookFramework E C),
      actions.foldlM (act emit) s = some s' → actions.foldlM (act emit') s = some s'
  | [], _, _, h => h
  | a :: actions, s, s', h => by
    rw [List.foldlM_cons] at h ⊢
    obtain ⟨t, hact, hrest⟩ := Option.bind_eq_some_iff.mp h
    refine Option.bind_eq_some_iff.mpr ⟨t, ?_, foldlM_mono hemit actions t s' hrest⟩
    cases a with
    | register eventName callback => exact hact
    | emit eventName => exact hemit eventName s t hact

theorem emitLoop_mono : ∀ {fuel fuel' depth : ℕ} {e : E} {i : ℕ} {s s' : HookFramework E C},
    emitLoop body fuel depth e i s = some s' → fuel ≤ fuel' →
    emitLoop body fuel' depth e i s = some s'
  | 0, _, _, _, _, _, _, h, _ => by cases h
  | fuel + 1, 0, _, _, _, _, _, _, hle => absurd hle (Nat.not_succ_le_zero fuel)
  | fuel + 1, fuel' + 1, depth, e, i, s, s', h, hle => by
    have hle' : fuel ≤ fuel' := Nat.le_of_succ_le_succ hle
    obtain ⟨hnone, rfl⟩ | ⟨cb, t, hcb, hbody, hrest⟩ := emitLoop_succ h
    · rw [emitLoop, hnone]
    · rw [emitLoop, hcb]
      refine Option.bind_eq_some_iff.mpr ⟨t, ?_, emitLoop_mono hrest hle'⟩
      exact foldlM_mono (fun e s s' h => emitLoop_mono h hle') _ _ _ hbody

/-- The events have layers: a callback that may be registered for an event registers and emits below
it, and registers nothing but what may be registered. -/
def Layered (rank : E → ℕ) (allowed : E → C → Prop) (body : List (Call E C) → C → List (Action E C)) :
    Prop :=
  ∀ e cb, allowed e cb → ∀ calls, ∀ a ∈ body calls cb, rank a.event < rank e ∧
    ∀ e' c', a = .register e' c' → allowed e' c'

/-- Nothing is registered but what may be. -/
def Registered (allowed : E → C → Prop) (s : HookFramework E C) : Prop :=
  ∀ e, ∀ cb ∈ s.callbacks e, allowed e cb

/-- What is registered may be, and no callback was added from the layer `k` on. -/
structure Below (rank : E → ℕ) (allowed : E → C → Prop) (k : ℕ) (s s' : HookFramework E C) : Prop where
  registered : Registered allowed s'
  above : ∀ e, k ≤ rank e → s'.callbacks e = s.callbacks e

variable {rank : E → ℕ} {allowed : E → C → Prop} {k : ℕ}

omit [DecidableEq E] in
theorem Below.trans (h : Below rank allowed k s s') (h' : Below rank allowed k s' t) :
    Below rank allowed k s t :=
  ⟨h'.registered, fun e he => (h'.above e he).trans (h.above e he)⟩

theorem below_register (h : Registered allowed s) (hlt : rank eventName < k)
    (hallowed : allowed eventName cb) : Below rank allowed k s (register eventName cb s) where
  registered e c hc := by
    unfold register at hc
    dsimp only at hc
    by_cases he : e = eventName
    · subst he
      rw [Function.update_self] at hc
      rcases List.mem_append.mp hc with hc | hc
      · exact h e c hc
      · rwa [List.mem_singleton.mp hc]
    · rw [Function.update_of_ne he] at hc
      exact h e c hc
  above e he := Function.update_of_ne (fun heq => absurd hlt (by rw [← heq]; omega)) _ _

/-- Every emission below the layer `k` ends. -/
def EndsBelow (rank : E → ℕ) (allowed : E → C → Prop) (body : List (Call E C) → C → List (Action E C))
    (k : ℕ) : Prop :=
  ∀ depth e s, rank e < k → Registered allowed s →
    ∃ fuel s', emit body fuel depth e s = some s' ∧ Below rank allowed (rank e) s s'

theorem exists_foldlM (hends : EndsBelow rank allowed body k) (depth : ℕ) :
    ∀ (actions : List (Action E C)) (s : HookFramework E C), Registered allowed s →
      (∀ a ∈ actions, rank a.event < k ∧ ∀ e' c', a = .register e' c' → allowed e' c') →
      ∃ fuel s', actions.foldlM (act fun e s => emitLoop body fuel depth e 0 s) s = some s' ∧
        Below rank allowed k s s'
  | [], s, hreg, _ => ⟨0, s, rfl, hreg, fun _ _ => rfl⟩
  | a :: actions, s, hreg, hactions => by
    obtain ⟨⟨hlt, hallowed⟩, hrest⟩ := List.forall_mem_cons.mp hactions
    obtain ⟨fuel, t, hact, hbelow⟩ : ∃ fuel t,
        act (fun e s => emitLoop body fuel depth e 0 s) s a = some t ∧ Below rank allowed k s t := by
      cases a with
      | register e c => exact ⟨0, _, rfl, below_register hreg hlt (hallowed e c rfl)⟩
      | emit e =>
        obtain ⟨fuel, t, hemit, hbelow⟩ := hends depth e s hlt hreg
        exact ⟨fuel, t, hemit, hbelow.registered, fun e' he' => hbelow.above e' (hlt.le.trans he')⟩
    obtain ⟨fuel', s', hfold, hbelow'⟩ := exists_foldlM hends depth actions t hbelow.registered hrest
    refine ⟨max fuel fuel', s', ?_, hbelow.trans hbelow'⟩
    rw [List.foldlM_cons]
    refine Option.bind_eq_some_iff.mpr ⟨t, ?_, ?_⟩
    · cases a with
      | register e c => exact hact
      | emit e => exact emitLoop_mono hact (le_max_left _ _)
    · exact foldlM_mono (fun e s s' h => emitLoop_mono h (le_max_right _ _)) _ _ _ hfold

theorem exists_emitLoop (hlayers : Layered rank allowed body)
    (hends : EndsBelow rank allowed body (rank e)) (depth : ℕ) :
    ∀ (m i : ℕ) (s : HookFramework E C), (s.callbacks e).length - i = m → Registered allowed s →
      ∃ fuel s', emitLoop body fuel depth e i s = some s' ∧ Below rank allowed (rank e) s s'
  | 0, i, s, hm, hreg => by
    have hnone : (s.callbacks e)[i]? = none := List.getElem?_eq_none_iff.mpr (by omega)
    exact ⟨1, s, by rw [emitLoop, hnone], hreg, fun _ _ => rfl⟩
  | m + 1, i, s, hm, hreg => by
    have hi : i < (s.callbacks e).length := by omega
    obtain ⟨cb, hcb⟩ : ∃ cb, (s.callbacks e)[i]? = some cb := ⟨_, List.getElem?_eq_getElem hi⟩
    have hactions := hlayers e cb (hreg e cb (List.mem_of_getElem? hcb)) (s.note depth e cb).calls
    obtain ⟨fuel, t, hbody, hbelow⟩ :=
      exists_foldlM hends (depth + 1) _ (s.note depth e cb) hreg hactions
    have hlen : (t.callbacks e).length - (i + 1) = m := by
      rw [hbelow.above e le_rfl]
      show (s.callbacks e).length - (i + 1) = m
      omega
    obtain ⟨fuel', s', hrest, hbelow'⟩ :=
      exists_emitLoop hlayers hends depth m (i + 1) t hlen hbelow.registered
    refine ⟨max fuel fuel' + 1, s', ?_, hbelow'.registered, fun e' he' => ?_⟩
    · rw [emitLoop, hcb]
      refine Option.bind_eq_some_iff.mpr ⟨t, ?_, emitLoop_mono hrest (le_max_right _ _)⟩
      exact foldlM_mono (fun e s s' h => emitLoop_mono h (le_max_left _ _)) _ _ _ hbody
    · exact (hbelow'.above e' he').trans (hbelow.above e' he')

theorem endsBelow (hlayers : Layered rank allowed body) : ∀ k, EndsBelow rank allowed body k
  | 0 => fun _ _ _ h _ => absurd h (Nat.not_lt_zero _)
  | k + 1 => fun depth e s h hreg => by
    have hends : EndsBelow rank allowed body (rank e) := fun depth' e' s' h' hreg' =>
      endsBelow hlayers k depth' e' s' (by omega) hreg'
    exact exists_emitLoop hlayers hends depth _ 0 s rfl hreg

/-- **In layers every emission ends**, and leaves the callbacks of its event and of those above. -/
theorem exists_emit (hlayers : Layered rank allowed body) (hreg : Registered allowed s) (depth : ℕ)
    (e : E) : ∃ fuel s', emit body fuel depth e s = some s' ∧
      ∀ e', rank e ≤ rank e' → s'.callbacks e' = s.callbacks e' := by
  obtain ⟨fuel, s', hemit, hbelow⟩ := endsBelow hlayers (rank e + 1) depth e s (Nat.lt_succ_self _) hreg
  exact ⟨fuel, s', hemit, hbelow.above⟩

/-- Callback 0 registers callback 1 for the lower event and emits that. -/
def layeredBody : List (Call Bool ℕ) → ℕ → List (Action Bool ℕ)
  | _, 0 => [.register false 1, .emit false]
  | _, _ => []

theorem exists_emit_layers : Layered Bool.toNat (fun e cb => cb = 0 → e = true) layeredBody ∧
    ∃ fuel s', emit layeredBody fuel 0 true ⟨fun e => if e then [0, 0] else [], []⟩ = some s' ∧
      ∀ e', Bool.toNat true ≤ e'.toNat →
        s'.callbacks e' = if e' then [0, 0] else [] := by
  have hlayers : Layered Bool.toNat (fun e cb => cb = 0 → e = true) layeredBody := by
    intro e cb hallowed calls a ha
    cases cb with
    | zero =>
      rw [hallowed rfl]
      have hcases : a = .register false 1 ∨ a = .emit false := by simpa [layeredBody] using ha
      rcases hcases with rfl | rfl
      · refine ⟨Nat.zero_lt_one, fun e' c' heq hzero => ?_⟩
        cases heq
        cases hzero
      · exact ⟨Nat.zero_lt_one, fun e' c' heq => by cases heq⟩
    | succ cb => cases ha
  refine ⟨hlayers, exists_emit hlayers (fun e cb hcb hzero => ?_) 0 true⟩
  cases e with
  | true => rfl
  | false => cases hcb

end VantaCore.Core.Hooks
