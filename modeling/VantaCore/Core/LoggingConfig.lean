import VantaCore.Lib.Histories
import VantaCore.Lib.Json.Lines

/-! # The log file

`configure_logging` and `JSONLinesFileHandler.emit`. The root logger gets its handlers once in a
process, the file is opened for appending, and a record is a line of JSON, or nothing where it cannot
be formatted. Whatever the texts of the records hold, the lines of a file are the records that were
logged while it was the log file (`loadsLines_content`). -/

namespace VantaCore.Core.LoggingConfig

open VantaCore.Lib VantaCore.Lib.Histories VantaCore.Lib.PyText VantaCore.Lib.Json.Strings
open VantaCore.Lib.Json.Text VantaCore.Lib.Json.Values VantaCore.Lib.Json.RoundTrip
open VantaCore.Lib.Json.Canonical VantaCore.Lib.Json.Lines

/-! ### Records -/

/-- A log record and the time it is emitted at. `message` is what `getMessage` returns, `none` where it
raises, and `excText` the text of the exception `format` leaves in the record, if any. -/
structure LogRecord where
  ts : PyStr
  levelno : ℤ
  levelname : PyStr
  name : PyStr
  message : Option PyStr
  excText : PyStr

/-- The dictionary a record is written as, in the order of its keys. -/
def entry (record : LogRecord) (message : PyStr) : List (PyStr × PyStr) :=
  let base : List (PyStr × PyStr) :=
    [("ts", record.ts), ("level", record.levelname), ("name", record.name), ("message", message)]
  if record.excText = [] then base else base ++ [(("exc_info" : PyStr), record.excText)]

/-- `json.dumps(entry)`, of strings. -/
def dumpsEntry (es : List (PyStr × PyStr)) : List Char :=
  print (F := Empty) (.obj (es.map fun e => (units e.1, .str (units e.2))))

/-- `json.dumps(entry) + "\n"` -/
def line (es : List (PyStr × PyStr)) : List Char := dumpsEntry es ++ ['\n']

/-- What `JSONLinesFileHandler.emit` writes: nothing where `format` raises. -/
def emit (record : LogRecord) : List Char :=
  match record.message with
  | none => []
  | some message => line (entry record message)

/-! ### The logger -/

/-- `logging.DEBUG` -/
def debug : ℤ := 10

/-- The root logger: whether it has handlers, and the path of the open file. -/
structure Logger where
  handlers : Bool
  stream : Option PyStr

/-- The logger of a process, and the files. -/
structure World where
  logger : Logger
  files : PyStr → List Char

/-- What happens: a process starts, configures the log, logs, or closes the file handler. `opens` says
that the file can be opened. -/
inductive Event where
  | start
  | configure (logPath : PyStr) (opens : Bool)
  | log (record : LogRecord)
  | close

/-- `configure_logging`; the console handler is there even where the file cannot be opened. -/
def configureLogging (logPath : PyStr) (opens : Bool) (l : Logger) : Logger :=
  if l.handlers then l else ⟨true, if opens then some logPath else none⟩

/-- `logger.log`: the logger passes on what has at least the level `DEBUG`. -/
def log (record : LogRecord) (w : World) : World :=
  match w.logger.stream with
  | none => w
  | some path =>
    if debug ≤ record.levelno then
      { w with files := Function.update w.files path (w.files path ++ emit record) }
    else w

/-- One event. -/
def step (w : World) : Event → World
  | .start => { w with logger := ⟨false, none⟩ }
  | .configure logPath opens => { w with logger := configureLogging logPath opens w.logger }
  | .log record => log record w
  | .close => { w with logger := { w.logger with stream := none } }

/-- A history of a machine without log files. -/
def run (events : List Event) : World := events.foldl step ⟨⟨false, none⟩, fun _ => []⟩

/-! ### What is to be read -/

/-- A process starts. -/
def isStart : Event → Bool
  | .start => true
  | _ => false

/-- The log is configured. -/
def isConfigure : Event → Bool
  | .configure _ _ => true
  | _ => false

/-- The file handler is closed. -/
def isClose : Event → Bool
  | .close => true
  | _ => false

/-- The events of the last process. -/
def session (events : List Event) : List Event := events.rtakeWhile fun e => !isStart e

/-- The events of the process from its first `configure` on. -/
def active (events : List Event) : List Event := (session events).dropWhile fun e => !isConfigure e

/-- The logger behind such events: the file is that of the first `configure`, if it was opened and not
closed since. -/
def loggerOf : List Event → Logger
  | .configure logPath opens :: rest =>
    ⟨true, if opens && !rest.any isClose then some logPath else none⟩
  | _ => ⟨false, none⟩

/-- The log file behind a history. -/
def logFile (events : List Event) : Option PyStr := (loggerOf (active events)).stream

/-- What a history without `e` and then `e` records in a file. -/
def recordedBy (path : PyStr) (before : List Event) : Event → Option (List (PyStr × PyStr))
  | .log record =>
    if logFile before = some path ∧ debug ≤ record.levelno then record.message.map (entry record)
    else none
  | _ => none

/-- The records that were logged while the file was the log file. -/
def recorded (path : PyStr) (events : List Event) : List (List (PyStr × PyStr)) :=
  told (recordedBy path) events

/-- A record as it is read: two surrogates that make a pair are read as one character. -/
def readEntry (es : List (PyStr × PyStr)) : Dict PyStr (PyVal Empty) :=
  Dict.ofList (es.map fun e => (e.1, .str (normal e.2)))

variable {events : List Event} {e : Event} {path : PyStr}

theorem session_append : session (events ++ [e]) = if isStart e then [] else session events ++ [e] := by
  unfold session
  by_cases he : isStart e = true
  · rw [if_pos he, List.rtakeWhile_concat_neg _ _ _ (by simp [he])]
  · rw [if_neg he, List.rtakeWhile_concat_pos _ _ _ (by simp [he])]

theorem active_append (he : isStart e = false) : active (events ++ [e]) =
    if active events = [] then if isConfigure e then [e] else [] else active events ++ [e] := by
  unfold active
  rw [session_append, if_neg (by rw [he]; exact Bool.false_ne_true), List.dropWhile_append]
  cases h : (session events).dropWhile fun e => !isConfigure e with
  | nil => cases hc : isConfigure e <;> simp [hc]
  | cons a l => simp

theorem active_eq_nil_or : active events = [] ∨
    ∃ logPath opens rest, active events = .configure logPath opens :: rest := by
  cases h : active events with
  | nil => exact Or.inl rfl
  | cons a l =>
    have ha : isConfigure a = true := by
      have hne : active events ≠ [] := by
        rw [h]
        exact List.cons_ne_nil a l
      have hhead := List.head_dropWhile_not (l := session events) (fun e => !isConfigure e) hne
      have ha : (active events).head hne = a := by simp only [h, List.head_cons]
      have hfirst : (!isConfigure ((active events).head hne)) = false := hhead
      rwa [ha, Bool.not_eq_false'] at hfirst
    cases a with
    | configure logPath opens => exact Or.inr ⟨logPath, opens, l, rfl⟩
    | start => cases ha
    | log => cases ha
    | close => cases ha

theorem logger_log (record : LogRecord) (w : World) : (log record w).logger = w.logger := by
  unfold log
  cases w.logger.stream with
  | none => rfl
  | some path =>
    dsimp only
    split_ifs <;> rfl

/-- **One event moves the logger on.** -/
theorem logger_step (w : World) (h : w.logger = loggerOf (active events)) :
    (step w e).logger = loggerOf (active (events ++ [e])) := by
  by_cases hstart : isStart e = true
  · have hnil : active (events ++ [e]) = [] := by rw [active, session_append, if_pos hstart]; rfl
    cases e with
    | start => rw [hnil]; rfl
    | configure => cases hstart
    | log => cases hstart
    | close => cases hstart
  · rw [active_append (Bool.not_eq_true _ ▸ hstart)]
    rcases @active_eq_nil_or events with hnil | ⟨logPath, opens, rest, hcons⟩
    · rw [hnil] at h ⊢
      rw [if_pos rfl]
      cases e with
      | start => exact absurd rfl hstart
      | configure logPath opens =>
        show configureLogging logPath opens w.logger = _
        rw [h]
        cases opens <;> rfl
      | log record => exact (logger_log record w).trans h
      | close => show { w.logger with stream := none } = _; rw [h]; rfl
    · rw [hcons] at h ⊢
      rw [if_neg (List.cons_ne_nil _ _), List.cons_append, loggerOf, List.any_append]
      cases e with
      | start => exact absurd rfl hstart
      | configure logPath' opens' =>
        show configureLogging logPath' opens' w.logger = _
        rw [h]
        simp [configureLogging, loggerOf, isClose]
      | log record =>
        rw [show (step w (.log record)).logger = w.logger from logger_log record w, h]
        simp [loggerOf, isClose]
      | close =>
        show { w.logger with stream := none } = _
        rw [h]
        simp [loggerOf, isClose]

/-! ### Every history -/

/-- The state is what the history says. -/
structure Follows (w : World) (events : List Event) : Prop where
  logger : w.logger = loggerOf (active events)
  files : ∀ path, w.files path = (recorded path events).flatMap line

theorem flatMap_recordedBy_log (record : LogRecord) :
    (recordedBy path events (.log record)).toList.flatMap line =
      if logFile events = some path ∧ debug ≤ record.levelno then emit record else [] := by
  unfold recordedBy emit
  dsimp only
  split_ifs
  · cases record.message with
    | none => rfl
    | some message => exact List.append_nil _
  · rfl

/-- A record is written to the log file and to no other one. -/
theorem files_log {w : World} (record : LogRecord) (h : w.logger.stream = logFile events) :
    (log record w).files path =
      w.files path ++ (recordedBy path events (.log record)).toList.flatMap line := by
  rw [flatMap_recordedBy_log, log, h]
  cases logFile events with
  | none => simp
  | some current =>
    dsimp only
    by_cases hlevel : debug ≤ record.levelno
    · rw [if_pos hlevel]
      dsimp only
      by_cases hpath : current = path
      · subst hpath
        rw [Function.update_self, if_pos ⟨rfl, hlevel⟩]
      · rw [Function.update_of_ne (Ne.symm hpath), if_neg fun hboth => hpath (Option.some.inj hboth.1),
          List.append_nil]
    · rw [if_neg hlevel, if_neg fun hboth => hlevel hboth.2, List.append_nil]

/-- **One event keeps the state in step with the history.** -/
theorem Follows.step {w : World} (h : Follows w events) (e : Event) :
    Follows (step w e) (events ++ [e]) where
  logger := logger_step w h.logger
  files path := by
    rw [recorded, told_append, List.flatMap_append, ← recorded, ← h.files path]
    cases e with
    | log record => exact files_log record (congrArg Logger.stream h.logger)
    | start => exact (List.append_nil _).symm
    | configure => exact (List.append_nil _).symm
    | close => exact (List.append_nil _).symm

theorem follows_run (events : List Event) : Follows (run events) events :=
  history_induction ⟨rfl, fun _ => rfl⟩ (fun _ _ e h => h.step e) events

/-! ### Reading the file -/

theorem low_keys (record : LogRecord) (message : PyStr) : ∀ e ∈ entry record message, Low e.1 := by
  intro e he
  have hkeys : e.1 ∈ ([("ts" : PyStr), "level", "name", "message", "exc_info"] : List PyStr) := by
    unfold entry at he
    split_ifs at he <;> simp at he ⊢ <;> grind
  have hlow : ∀ k ∈ ([("ts" : PyStr), "level", "name", "message", "exc_info"] : List PyStr), Low k := by
    decide
  exact hlow e.1 hkeys

theorem loadsObject_dumpsEntry {es : List (PyStr × PyStr)} (h : ∀ e ∈ es, Low e.1) :
    loadsObject (dumpsEntry es) = some (readEntry es) := by
  rw [loadsObject, dumpsEntry, parse_print]
  dsimp only
  rw [ofTreeEntries_eq, List.map_map, readEntry]
  congr 2
  refine List.map_congr_left fun e he => ?_
  exact Prod.ext (normal_of_encodable (h e he).encodable) rfl

theorem mem_recorded {es : List (PyStr × PyStr)} (h : es ∈ recorded path events) :
    ∃ record message, es = entry record message := by
  obtain ⟨before, e, he⟩ := mem_told h
  cases e with
  | log record =>
    unfold recordedBy at he
    dsimp only at he
    split_ifs at he
    obtain ⟨message, -, rfl⟩ := Option.map_eq_some_iff.mp he
    exact ⟨record, message, rfl⟩
  | start => cases he
  | configure => cases he
  | close => cases he

/-- **A log file holds the records that were logged while it was the log file**, one in a line, whatever
their texts are. -/
theorem loadsLines_content (events : List Event) (path : PyStr) :
    loadsLines ((run events).files path) = some ((recorded path events).map readEntry) := by
  have hlines : (run events).files path = unlines ((recorded path events).map dumpsEntry) := by
    rw [(follows_run events).files path, unlines, List.flatMap_map]
    rfl
  rw [hlines]
  refine loadsLines_unlines (fun es _ => newline_not_mem_print _) fun es hes => ?_
  obtain ⟨record, message, rfl⟩ := mem_recorded hes
  exact loadsObject_dumpsEntry (low_keys record message)

end VantaCore.Core.LoggingConfig
