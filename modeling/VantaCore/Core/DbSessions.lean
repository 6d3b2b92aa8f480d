import VantaCore.Core.Db
import VantaCore.Lib.Histories

/-! # Sessions of the state manager

A database file outlives the managers that are opened on it one after the other. Every call commits, so
what a call answers is what the successful calls of all sessions before it say; a call of a closed
manager, and one whose parameters cannot be bound, raises and changes nothing (`answers_sessions`). -/

namespace VantaCore.Core.DbSessions

open VantaCore.Core.Db VantaCore.Lib.Histories VantaCore.Lib.Json.Strings

/-- What happens to a database file: a manager is opened on it, called or closed. -/
inductive Event where
  | init
  | call (c : Call)
  | close

/-- One event; `CREATE TABLE IF NOT EXISTS` leaves the tables of an old file as they are. -/
def next (m : Manager) : Event → Manager
  | .init => { m with conn := true }
  | .call c => Db.step m c
  | .close => m.close

/-- The file and its last manager behind a history that starts without a file. -/
def sessions (events : List Event) : Manager := events.foldl next ⟨.create, false⟩

/-! ### What the history says -/

/-- What an event says of the connection. -/
def connection : Event → Option Bool
  | .init => some true
  | .call _ => none
  | .close => some false

/-- The last manager is open. -/
def connected (events : List Event) : Bool := (events.reverse.findSome? connection).getD false

instance decidableBindable : (c : Call) → Decidable (Bindable c)
  | .markVisited _ _ => inferInstanceAs (Decidable (_ ∧ _))
  | .isVisited _ _ => inferInstanceAs (Decidable (_ ∧ _))
  | .setMetadata _ _ => inferInstanceAs (Decidable (_ ∧ _))
  | .getMetadata key => inferInstanceAs (Decidable (Utf8Encodable key))
  | .insertNode _ _ node =>
    inferInstanceAs (Decidable (_ ∧ _ ∧ _ ∧ ∀ label ∈ node.label, Utf8Encodable label))
  | .insertEdge _ offset =>
    inferInstanceAs (Decidable (_ ∧ _ ∧ _ ∧ _ ∧ _ ∧ ∀ i ∈ offset, IsInteger i))

/-- A call succeeds if the manager is open and the parameters can be bound. -/
def succeeding (before : List Event) : Event → Option Call
  | .call c => if connected before = true ∧ Bindable c then some c else none
  | _ => none

/-- The successful calls of all sessions. -/
def effective (events : List Event) : List Call := told succeeding events

/-- What a call is to answer behind a history. -/
def Answers (events : List Event) (c : Call) (answer : Except Error Answer) : Prop :=
  if connected events = true then
    if Bindable c then answer = .ok (expected (effective events) c)
    else answer = .error .overflowError ∨ answer = .error .unicodeEncodeError
  else answer = .error (.runtimeError "Database connection is closed.")

/-! ### Errors -/

variable {m : Manager} {c : Call} {events : List Event}

/-- Nothing but the binding of a parameter raises. -/
def BindErrors {α : Type} (x : Except Error α) : Prop :=
  ∀ e, x = .error e → e = .overflowError ∨ e = .unicodeEncodeError

theorem BindErrors.bind {α β : Type} {x : Except Error α} {f : α → Except Error β} (hx : BindErrors x)
    (hf : ∀ a, BindErrors (f a)) : BindErrors (x >>= f) := by
  cases x with
  | error e => exact fun e' he' => hx e' (by cases he'; rfl)
  | ok a => exact hf a

theorem bindErrors_ok {α : Type} (a : α) : BindErrors (.ok a) := fun _ h => by cases h

theorem bindErrors_bindInt (i : ℤ) : BindErrors (bindInt i) := fun e h => by
  unfold bindInt at h
  split_ifs at h
  cases h
  exact Or.inl rfl

theorem bindErrors_bindText (s : VantaCore.Lib.PyText.PyStr) : BindErrors (bindText s) := fun e h => by
  unfold bindText at h
  split_ifs at h
  cases h
  exact Or.inr rfl

theorem bindErrors_mapM {α : Type} {bind : α → Except Error α} (h : ∀ a, BindErrors (bind a))
    (o : Option α) : BindErrors (o.mapM bind) := by
  cases o with
  | none => exact bindErrors_ok none
  | some a => exact (h a).bind fun a => bindErrors_ok (some a)

theorem bindErrors_exec (hconn : m.conn = true) (c : Call) : BindErrors (exec m c) := by
  have hcheck : BindErrors (checkConn m) := by
    rw [checkConn, if_pos hconn]
    exact bindErrors_ok ()
  cases c with
  | markVisited ns va =>
    refine (hcheck.bind fun _ => ?_).bind fun _ => bindErrors_ok _
    exact (bindErrors_bindText ns).bind fun _ => (bindErrors_bindInt va).bind fun _ => bindErrors_ok _
  | isVisited ns va =>
    refine (hcheck.bind fun _ => ?_).bind fun _ => bindErrors_ok _
    exact (bindErrors_bindText ns).bind fun _ => (bindErrors_bindInt va).bind fun _ => bindErrors_ok _
  | setMetadata key value =>
    refine (hcheck.bind fun _ => ?_).bind fun _ => bindErrors_ok _
    exact (bindErrors_bindText key).bind fun _ =>
      (bindErrors_bindText value).bind fun _ => bindErrors_ok _
  | getMetadata key =>
    exact (hcheck.bind fun _ => (bindErrors_bindText key).bind fun _ => bindErrors_ok _).bind
      fun _ => bindErrors_ok _
  | insertNode ns va node =>
    refine (hcheck.bind fun _ => ?_).bind fun _ => bindErrors_ok _
    refine (bindErrors_bindText ns).bind fun _ => (bindErrors_bindInt va).bind fun _ => ?_
    exact (bindErrors_bindText node.nodeType).bind fun _ =>
      (bindErrors_mapM bindErrors_bindText node.label).bind fun _ => bindErrors_ok _
  | insertEdge key offset =>
    refine (hcheck.bind fun _ => ?_).bind fun _ => bindErrors_ok _
    refine (bindErrors_bindText _).bind fun _ => (bindErrors_bindInt _).bind fun _ => ?_
    refine (bindErrors_bindText _).bind fun _ => (bindErrors_bindInt _).bind fun _ => ?_
    exact (bindErrors_bindText _).bind fun _ =>
      (bindErrors_mapM bindErrors_bindInt offset).bind fun _ => bindErrors_ok _

/-- **A call whose parameters cannot be bound** raises. -/
theorem exec_of_not_bindable (hconn : m.conn = true) (h : ¬ Bindable c) :
    exec m c = .error .overflowError ∨ exec m c = .error .unicodeEncodeError := by
  cases hexec : exec m c with
  | ok r => exact absurd (bindable_of_exec hexec) h
  | error e =>
    rcases bindErrors_exec hconn c e hexec with rfl | rfl
    exacts [Or.inl rfl, Or.inr rfl]

theorem exec_of_not_conn (hconn : m.conn = false) (c : Call) :
    exec m c = .error (.runtimeError "Database connection is closed.") := by
  have hclose : m = m.close := by rw [Manager.close, ← hconn]
  rw [hclose]
  exact exec_close m c

/-! ### Every history -/

theorem connected_append (e : Event) :
    connected (events ++ [e]) = (connection e).getD (connected events) := by
  unfold connected
  rw [List.reverse_append, List.reverse_singleton, List.singleton_append, List.findSome?_cons]
  cases connection e <;> rfl

/-- The manager is what the history says. -/
structure Follows (m : Manager) (events : List Event) : Prop where
  conn : m.conn = connected events
  db : Agrees m.db (effective events)

theorem Follows.call (h : Follows m events) (c : Call) :
    Follows (Db.step m c) (events ++ [.call c]) := by
  have hconn : connected (events ++ [.call c]) = connected events := connected_append _
  by_cases hsucc : connected events = true ∧ Bindable c
  · have htold : effective (events ++ [.call c]) = effective events ++ [c] :=
      told_append_some (if_pos hsucc)
    have hexec := exec_of_bindable (h.conn.trans hsucc.1) hsucc.2
    rw [Db.step, hexec]
    exact ⟨h.conn.trans hconn.symm, htold ▸ h.db.put c⟩
  · have htold : effective (events ++ [.call c]) = effective events := told_append_none (if_neg hsucc)
    have hstep : Db.step m c = m := by
      unfold Db.step
      cases hopen : connected events with
      | false => rw [exec_of_not_conn (h.conn.trans hopen)]
      | true =>
        have hbind : ¬ Bindable c := fun hb => hsucc ⟨hopen, hb⟩
        rcases exec_of_not_bindable (h.conn.trans hopen) hbind with herr | herr <;> rw [herr]
    rw [hstep]
    exact ⟨h.conn.trans hconn.symm, htold ▸ h.db⟩

/-- **One event keeps the manager in step with the history.** -/
theorem Follows.next (h : Follows m events) (e : Event) : Follows (next m e) (events ++ [e]) := by
  cases e with
  | call c => exact h.call c
  | init =>
    have hconn : connected (events ++ [.init]) = true := connected_append _
    have htold : effective (events ++ [.init]) = effective events := told_append_none rfl
    exact ⟨hconn.symm, htold ▸ h.db⟩
  | close =>
    have hconn : connected (events ++ [.close]) = false := connected_append _
    have htold : effective (events ++ [.close]) = effective events := told_append_none rfl
    exact ⟨hconn.symm, htold ▸ h.db⟩

theorem follows_sessions (events : List Event) : Follows (sessions events) events :=
  history_induction ⟨rfl, agrees_init⟩ (fun _ _ e h => h.next e) events

/-- **Behind every history of sessions** the file holds what the successful calls have put there, and
every call answers what they say, or raises and changes nothing. -/
theorem answers_sessions (events : List Event) :
    Agrees (sessions events).db (effective events) ∧ ∀ c,
      Answers events c ((exec (sessions events) c).map Prod.snd) := by
  have h := follows_sessions events
  refine ⟨h.db, fun c => ?_⟩
  unfold Answers
  split_ifs with hopen hbind
  · rw [exec_of_bindable (h.conn.trans hopen) hbind, ← h.db.answer c]
    rfl
  · rcases exec_of_not_bindable (h.conn.trans hopen) hbind with herr | herr <;> rw [herr]
    exacts [Or.inl rfl, Or.inr rfl]
  · rw [exec_of_not_conn (h.conn.trans (Bool.not_eq_true _ ▸ hopen))]
    rfl

end VantaCore.Core.DbSessions
