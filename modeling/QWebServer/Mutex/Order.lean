import QWebServer.Lib.Locks

/-!
# The order of the locks

Each function of the program that takes locks, as the sequence in which it takes them and gives them back. Where that
depends on data, the function has it as an argument: which appenders accept an event, whether a table grows, whether
somebody is idle.

* `Lock`, `Lock.rank` : the locks of the program, and their order;
* `Event`, `Logger.Log` : a logger's lock, then the locks of its appenders or of the root, then those of a hooked
  `write`;
* `Tickle`, `Schedular.schedule`, `IOManager.triggerEvent` : the queue under the lock of an fd context;
* `Callback` : a function that runs under a lock and takes only locks above it, `ConfigVar.setValue`, `Config.Visit` :
  with any such listeners under the read lock of the variable, and any such callback under that of the registry;
* `Call` : a call from outside, `Call.block` : it follows the order; `no_deadlock` : so no calls wait for each other, in
  whatever threads and in whatever order they run.

What the destructors of captured objects do is left out, but for the event that `~Fiber` logs.
-/

namespace QWebServer.Locking

open Lib

/-- The locks; those of objects of one kind are numbered. -/
inductive Lock
  | config
  | var (v : Nat)
  | timers (m : Nat)
  | contexts (m : Nat)
  | fdContext (m fd : Nat)
  | schedular (m : Nat)
  | loggers
  | logger (l : Nat)
  | root
  | appender (a : Nat)
  | fds
  deriving DecidableEq

/-- Whoever holds a lock takes those of higher rank only. -/
def Lock.rank : Lock → Nat
  | .config => 0
  | .var _ => 1
  | .timers _ => 2
  | .contexts _ => 3
  | .fdContext _ _ => 4
  | .schedular _ => 5
  | .loggers => 6
  | .logger _ => 7
  | .root => 8
  | .appender _ => 9
  | .fds => 10

/-- What a function does to the locks. -/
abbrev Script := List (LockAct Lock)

def locked (l : Lock) (a : Script) : Script := holding l .write a

def reading (l : Lock) (a : Script) : Script := holding l .read a

theorem block_locked {l : Lock} {a : Script} {r : Nat} (h : Block Lock.rank (l.rank + 1) a) (hr : r ≤ l.rank) :
    Block Lock.rank r (locked l a) := h.holding.mono hr

theorem block_reading {l : Lock} {a : Script} {r : Nat} (h : Block Lock.rank (l.rank + 1) a) (hr : r ≤ l.rank) :
    Block Lock.rank r (reading l a) := h.holding.mono hr

theorem block_ite {c : Bool} {a b : Script} {r : Nat} (ha : Block Lock.rank r a) (hb : Block Lock.rank r b) :
    Block Lock.rank r (if c then a else b) := by
  cases c with
  | true => exact ha
  | false => exact hb

/-- A function that the program runs with locks in hand, all of ranks below `r`: it takes no lock below `r`. -/
structure Callback (r : Nat) where
  script : Script
  block : Block Lock.rank r script

theorem block_callbacks {r : Nat} (cs : List (Callback r)) : Block Lock.rank r (cs.flatMap Callback.script) :=
  .flatMap fun c _ => c.block

/-! ## `fd_manager.cpp` -/

/-- `FdManager::get`; `creates` tells whether it goes on to the write lock. -/
def FdManager.get (creates : Bool) : Script := reading .fds [] ++ if creates then locked .fds [] else []

def FdManager.del : Script := locked .fds []

theorem FdManager.block_get (creates : Bool) : Block Lock.rank 10 (get creates) :=
  (block_reading (l := .fds) (.nil _) le_rfl).append (block_ite (block_locked (l := .fds) (.nil _) le_rfl) (.nil _))

/-- The hooked `write`s of a stream: `do_io` asks for the context of the file. -/
def hookedWrites (n : Nat) : Script := (List.range n).flatMap fun _ => FdManager.get false

theorem block_hookedWrites (n : Nat) : Block Lock.rank 10 (hookedWrites n) :=
  .flatMap fun _ _ => FdManager.block_get false

/-! ## `qlc_log.cpp` -/

/-- The lock of a logger; without a name it is the root. -/
def loggerLock : Option Nat → Lock
  | none => .root
  | some l => .logger l

/-- What an appender does with an event: whether it accepts it, how many hooked `write`s flush the stream if it reopens
the file, and how many there are for the event. -/
structure Delivery where
  appender : Nat
  accepts : Bool := true
  reopens : Option Nat := none
  writes : Nat := 0

/-- `fileAppender::reopen`, also in the constructor. -/
def fileAppender.reopen (a flushes : Nat) : Script := locked (.appender a) (hookedWrites flushes)

/-- `fileAppender::Log` and `stdoutAppender::Log`. The lock of `reopen` is given back before the next one. -/
def LogAppender.Log (d : Delivery) : Script :=
  if d.accepts then
    (match d.reopens with
      | some flushes => fileAppender.reopen d.appender flushes
      | none => []) ++ locked (.appender d.appender) (hookedWrites d.writes)
  else []

def LogAppender.setFormatter (a : Nat) : Script := locked (.appender a) []

def LogAppender.getFormatter (a : Nat) : Script := locked (.appender a) []

/-- `toYamlString` of an appender; that of a `stdoutAppender` takes no lock. -/
def LogAppender.toYamlString (a : Nat) (file : Bool) : Script := if file then locked (.appender a) [] else []

/-- An event: the logger and whether it accepts it, its appenders, and the same of the root. -/
structure Event where
  logger : Option Nat
  accepts : Bool := true
  appenders : List Delivery := []
  rootAccepts : Bool := true
  rootAppenders : List Delivery := []

/-- `Logger::Log` of the root; without appenders it has no other logger to go to. -/
def Logger.logRoot (accepts : Bool) (appenders : List Delivery) : Script :=
  locked .root (if accepts then appenders.flatMap LogAppender.Log else [])

def Logger.Log (e : Event) : Script :=
  match e.logger with
  | none => Logger.logRoot e.accepts e.appenders
  | some l =>
    locked (.logger l) (if e.accepts then
      if e.appenders.isEmpty then Logger.logRoot e.rootAccepts e.rootAppenders
      else e.appenders.flatMap LogAppender.Log
    else [])

/-- `Logger::addAppender`; `sets` tells whether the appender gets the logger's formatter. -/
def Logger.addAppender (l : Option Nat) (a : Nat) (sets : Bool) : Script :=
  locked (loggerLock l) (LogAppender.getFormatter a ++ if sets then locked (.appender a) [] else [])

def Logger.delAppender (l : Option Nat) : Script := locked (loggerLock l) []

def Logger.setFormatter (l : Option Nat) (as : List Nat) : Script :=
  locked (loggerLock l) (as.flatMap fun a => locked (.appender a) [])

def Logger.getFormatter (l : Option Nat) : Script := locked (loggerLock l) []

def Logger.clearAppenders (l : Option Nat) : Script := locked (loggerLock l) []

def Logger.toYamlString (l : Option Nat) (as : List (Nat × Bool)) : Script :=
  locked (loggerLock l) (as.flatMap fun a => LogAppender.toYamlString a.1 a.2)

def LoggerManager.getLogger : Script := locked .loggers []

def LoggerManager.toYamlString (ls : List (Option Nat × List (Nat × Bool))) : Script :=
  locked .loggers (ls.flatMap fun l => Logger.toYamlString l.1 l.2)

theorem fileAppender.block_reopen (a n : Nat) : Block Lock.rank 9 (reopen a n) :=
  block_locked (block_hookedWrites n) le_rfl

theorem LogAppender.block_Log (d : Delivery) : Block Lock.rank 9 (LogAppender.Log d) := by
  unfold LogAppender.Log
  refine block_ite (.append ?_ (block_locked (block_hookedWrites _) le_rfl)) (.nil _)
  cases d.reopens with
  | none => exact .nil _
  | some n => exact fileAppender.block_reopen _ n

theorem block_appender (a : Nat) : Block Lock.rank 9 (locked (.appender a) []) := block_locked (.nil _) le_rfl

/-- What a logger does with its lock in hand is above the lock. -/
theorem block_logger {l : Option Nat} {a : Script} (h : Block Lock.rank 9 a) :
    Block Lock.rank 7 (locked (loggerLock l) a) := by
  cases l with
  | none => exact block_locked h (by decide)
  | some l => exact block_locked (h.mono (show 8 ≤ 9 by decide)) le_rfl

theorem Logger.block_logRoot (accepts : Bool) (ds : List Delivery) : Block Lock.rank 8 (Logger.logRoot accepts ds) :=
  block_locked (block_ite (.flatMap fun d _ => LogAppender.block_Log d) (.nil _)) le_rfl

theorem Logger.block_Log (e : Event) : Block Lock.rank 7 (Logger.Log e) := by
  unfold Logger.Log
  cases e.logger with
  | none => exact (Logger.block_logRoot _ _).mono (by decide)
  | some l =>
    refine block_locked (block_ite (block_ite ?_ ?_) (.nil _)) le_rfl
    · exact Logger.block_logRoot _ _
    · exact Block.mono (.flatMap fun d _ => LogAppender.block_Log d) (show 8 ≤ 9 by decide)

theorem block_logs (es : List Event) : Block Lock.rank 7 (es.flatMap Logger.Log) :=
  .flatMap fun e _ => Logger.block_Log e

theorem Logger.block_addAppender (l : Option Nat) (a : Nat) (sets : Bool) :
    Block Lock.rank 7 (Logger.addAppender l a sets) :=
  block_logger ((block_appender a).append (block_ite (block_appender a) (.nil _)))

theorem Logger.block_setFormatter (l : Option Nat) (as : List Nat) : Block Lock.rank 7 (Logger.setFormatter l as) :=
  block_logger (.flatMap fun a _ => block_appender a)

theorem Logger.block_toYamlString (l : Option Nat) (as : List (Nat × Bool)) :
    Block Lock.rank 7 (Logger.toYamlString l as) :=
  block_logger (.flatMap fun a _ => block_ite (block_appender a.1) (.nil _))

theorem LoggerManager.block_toYamlString (ls : List (Option Nat × List (Nat × Bool))) :
    Block Lock.rank 6 (LoggerManager.toYamlString ls) :=
  block_locked (.flatMap fun l _ => Logger.block_toYamlString l.1 l.2) le_rfl

theorem LoggerManager.block_getLogger : Block Lock.rank 6 LoggerManager.getLogger := block_locked (.nil _) le_rfl

/-! ## The listener of `LogIniter` -/

/-- An appender that the listener adds: how often its file is flushed as it is opened, if it has one, and whether it
gets a formatter of its own. -/
structure NewAppender where
  appender : Nat
  file : Option Nat := none
  formatter : Bool := false

/-- What the listener does: it configures a logger, which had the appenders `old`, or it silences one. -/
inductive LogIniter
  | configure (l : Option Nat) (formatter : Bool) (old : List Nat) (new : List NewAppender)
  | silence (l : Option Nat)

def LogIniter.append (l : Option Nat) (a : NewAppender) : Script :=
  (match a.file with
    | some flushes => fileAppender.reopen a.appender flushes
    | none => []) ++
    (if a.formatter then LogAppender.setFormatter a.appender else []) ++ Logger.addAppender l a.appender (!a.formatter)

def LogIniter.script : LogIniter → Script
  | .configure l formatter old new =>
    LoggerManager.getLogger ++ (if formatter then Logger.setFormatter l old else []) ++ Logger.clearAppenders l ++
      new.flatMap (LogIniter.append l)
  | .silence l => LoggerManager.getLogger ++ Logger.clearAppenders l

theorem LogIniter.block_append (l : Option Nat) (a : NewAppender) : Block Lock.rank 6 (LogIniter.append l a) := by
  unfold LogIniter.append
  refine (Block.append ?_ ?_).append ((Logger.block_addAppender l a.appender _).mono (by decide))
  · cases a.file with
    | none => exact .nil _
    | some n => exact (fileAppender.block_reopen _ n).mono (by decide)
  · exact block_ite ((block_appender _).mono (by decide)) (.nil _)

theorem LogIniter.block_script (i : LogIniter) : Block Lock.rank 6 i.script := by
  have hclear : ∀ l, Block Lock.rank 6 (Logger.clearAppenders l) := fun l => (block_logger (.nil _)).mono (by decide)
  cases i with
  | configure l formatter old new =>
    refine ((LoggerManager.block_getLogger.append ?_).append (hclear l)).append ?_
    · exact block_ite ((Logger.block_setFormatter l old).mono (by decide)) (.nil _)
    · exact .flatMap fun a _ => LogIniter.block_append l a
  | silence l => exact LoggerManager.block_getLogger.append (hclear l)

/-! ## `schedular.cpp` -/

/-- How a call of `tickle` goes: `Schedular::tickle` logs an event, `IOManager::tickle` writes to the pipe if somebody
is idle. -/
inductive Tickle
  | none
  | log (e : Event)
  | write

/-- `tickle`. The `write` is hooked. -/
def Tickle.script : Tickle → Script
  | .none => []
  | .log e => Logger.Log e
  | .write => FdManager.get false

/-- `Schedular::schedule`, of one entry or of a batch. -/
def Schedular.schedule (m : Nat) (tickle : Tickle) : Script := locked (.schedular m) [] ++ tickle.script

/-- `Schedular::start`; the constructor of a thread logs that there is none. -/
def Schedular.start (m : Nat) (failed : List Event) : Script := locked (.schedular m) (failed.flatMap Logger.Log)

/-- The part of `Schedular::stop` that takes the threads. -/
def Schedular.stop (m : Nat) : Script := locked (.schedular m) []

/-- The scan of `Schedular::run`, and the `tickle` after it. -/
def Schedular.scan (m : Nat) (tickle : Tickle) : Script := locked (.schedular m) [] ++ tickle.script

def Schedular.stopping (m : Nat) : Script := locked (.schedular m) []

theorem Tickle.block_script (t : Tickle) : Block Lock.rank 7 t.script := by
  cases t with
  | none => exact .nil _
  | log e => exact Logger.block_Log e
  | write => exact (FdManager.block_get false).mono (by decide)

theorem block_schedular (m : Nat) : Block Lock.rank 5 (locked (.schedular m) []) := block_locked (.nil _) le_rfl

theorem Schedular.block_schedule (m : Nat) (tickle : Tickle) : Block Lock.rank 5 (Schedular.schedule m tickle) :=
  (block_schedular m).append (tickle.block_script.mono (by decide))

theorem Schedular.block_start (m : Nat) (failed : List Event) : Block Lock.rank 5 (Schedular.start m failed) :=
  block_locked ((block_logs failed).mono (show 6 ≤ 7 by decide)) le_rfl

/-! ## `timer.cpp` -/

/-- `Timer::cancel`; with the callback may go a fiber that logs it. -/
def Timer.cancel (m : Nat) (logs : List Event) : Script := locked (.timers m) (logs.flatMap Logger.Log)

def Timer.refresh (m : Nat) : Script := locked (.timers m) []

/-- `TimerManager::addTimer`: the lock is given back before `onTimerInsertedAtFront`. -/
def TimerManager.addTimer (m : Nat) (tickle : Tickle) : Script := locked (.timers m) [] ++ tickle.script

/-- `Timer::reset`; with the same time from the same start it takes no lock. -/
def Timer.reset (m : Nat) (same : Bool) (tickle : Tickle) : Script :=
  if same then [] else TimerManager.addTimer m tickle

def TimerManager.getNextTimer (m : Nat) : Script := reading (.timers m) []

def TimerManager.hasTimer (m : Nat) : Script := reading (.timers m) []

/-- `TimerManager::listExpiredCb`; `empty` tells whether it finds no timers. -/
def TimerManager.listExpiredCb (m : Nat) (empty : Bool) : Script :=
  reading (.timers m) [] ++ if empty then [] else locked (.timers m) []

theorem Timer.block_cancel (m : Nat) (logs : List Event) : Block Lock.rank 2 (Timer.cancel m logs) :=
  block_locked ((block_logs logs).mono (show 3 ≤ 7 by decide)) le_rfl

theorem block_timers (m : Nat) : Block Lock.rank 2 (locked (.timers m) []) := block_locked (.nil _) le_rfl

theorem block_timers_read (m : Nat) : Block Lock.rank 2 (reading (.timers m) []) := block_reading (.nil _) le_rfl

theorem TimerManager.block_addTimer (m : Nat) (tickle : Tickle) : Block Lock.rank 2 (TimerManager.addTimer m tickle) :=
  (block_timers m).append (tickle.block_script.mono (by decide))

theorem TimerManager.block_listExpiredCb (m : Nat) (empty : Bool) :
    Block Lock.rank 2 (TimerManager.listExpiredCb m empty) :=
  (block_timers_read m).append (block_ite (.nil _) (block_timers m))

/-! ## `iomanager.cpp` -/

/-- `FdContext::triggerEvent`, for an event of the scheduler `m`. -/
def IOManager.triggerEvent (t : Nat × Tickle) : Script := Schedular.schedule t.1 t.2

/-- What is done with the lock of an fd context in hand: events logged, and events triggered. -/
def IOManager.inContext (m fd : Nat) (logs : List Event) (triggers : List (Nat × Tickle)) : Script :=
  locked (.fdContext m fd) (logs.flatMap Logger.Log ++ triggers.flatMap IOManager.triggerEvent)

/-- `IOManager::addEvent`; `grows` tells whether the table has no context for the fd. -/
def IOManager.addEvent (m fd : Nat) (grows : Bool) (logs : List Event) : Script :=
  reading (.contexts m) [] ++ (if grows then locked (.contexts m) [] else []) ++ IOManager.inContext m fd logs []

/-- `IOManager::delEvent`; a fiber that goes with the event logs it. -/
def IOManager.delEvent (m fd : Nat) (found : Bool) (logs : List Event) : Script :=
  reading (.contexts m) [] ++ if found then IOManager.inContext m fd logs [] else []

/-- The events of an fd are cancelled, if its context is `found`. -/
def IOManager.cancelEvents (m fd : Nat) (found : Bool) (logs : List Event) (triggers : List (Nat × Tickle)) : Script :=
  reading (.contexts m) [] ++ if found then IOManager.inContext m fd logs triggers else []

def IOManager.cancelEvent (m fd : Nat) (found : Bool) (logs : List Event) (trigger : Option (Nat × Tickle)) : Script :=
  IOManager.cancelEvents m fd found logs trigger.toList

def IOManager.cancelAll (m fd : Nat) (found : Bool) (logs : List Event) (triggers : List (Nat × Tickle)) : Script :=
  IOManager.cancelEvents m fd found logs triggers

/-- `IOManager::stopping`; with timers or events pending it does not ask `Schedular::stopping`. -/
def IOManager.stopping (m : Nat) (pending : Bool) : Script :=
  TimerManager.getNextTimer m ++ if pending then [] else Schedular.stopping m

/-- A round of `IOManager::idle`: the timers, the callbacks that are due, and the reported events. -/
def IOManager.idle (m : Nat) (pending empty : Bool) (due : Option Tickle)
    (events : List (Nat × List Event × List (Nat × Tickle))) : Script :=
  IOManager.stopping m pending ++ TimerManager.listExpiredCb m empty ++
    (match due with
      | some tickle => Schedular.schedule m tickle
      | none => []) ++
    events.flatMap fun e => IOManager.inContext m e.1 e.2.1 e.2.2

theorem IOManager.block_inContext (m fd : Nat) (logs : List Event) (triggers : List (Nat × Tickle)) :
    Block Lock.rank 4 (IOManager.inContext m fd logs triggers) := by
  refine block_locked (.append ((block_logs logs).mono (show 5 ≤ 7 by decide)) (.flatMap fun t _ => ?_)) le_rfl
  exact Schedular.block_schedule t.1 t.2

theorem block_contexts (m : Nat) : Block Lock.rank 3 (reading (.contexts m) []) := block_reading (.nil _) le_rfl

theorem IOManager.block_addEvent (m fd : Nat) (grows : Bool) (logs : List Event) :
    Block Lock.rank 3 (IOManager.addEvent m fd grows logs) := by
  refine ((block_contexts m).append (block_ite ?_ (.nil _))).append ?_
  · exact block_locked (.nil _) le_rfl
  · exact (IOManager.block_inContext m fd logs []).mono (by decide)

theorem IOManager.block_cancelEvents (m fd : Nat) (found : Bool) (logs : List Event) (triggers : List (Nat × Tickle)) :
    Block Lock.rank 3 (IOManager.cancelEvents m fd found logs triggers) :=
  (block_contexts m).append (block_ite ((IOManager.block_inContext m fd logs triggers).mono (by decide)) (.nil _))

theorem IOManager.block_stopping (m : Nat) (pending : Bool) : Block Lock.rank 2 (IOManager.stopping m pending) :=
  (block_timers_read m).append (block_ite (.nil _) ((block_schedular m).mono (by decide)))

theorem IOManager.block_idle (m : Nat) (pending empty : Bool) (due : Option Tickle)
    (events : List (Nat × List Event × List (Nat × Tickle))) :
    Block Lock.rank 2 (IOManager.idle m pending empty due events) := by
  refine (((IOManager.block_stopping m pending).append (TimerManager.block_listExpiredCb m empty)).append ?_).append ?_
  · cases due with
    | none => exact .nil _
    | some tickle => exact (Schedular.block_schedule m tickle).mono (by decide)
  · exact .flatMap fun e _ => (IOManager.block_inContext m e.1 e.2.1 e.2.2).mono (by decide)

/-! ## `config.h` -/

/-- A listener of a variable, which runs with the read lock of the variable in hand. It takes no lock of a variable and
not that of the registry: `delListener` on its own variable would wait for it to return. -/
abbrev Listener := Callback 2

/-- `ConfigVar::toString`; where the conversion fails it logs that, the lock given back. -/
def ConfigVar.toString (v : Nat) (failed : List Event) : Script := reading (.var v) [] ++ failed.flatMap Logger.Log

def ConfigVar.getValue (v : Nat) : Script := reading (.var v) []

/-- `ConfigVar::setValue`; without `listeners` the value is the same. -/
def ConfigVar.setValue (v : Nat) : Option (List Listener) → Script
  | none => reading (.var v) []
  | some listeners => reading (.var v) (listeners.flatMap Callback.script) ++ locked (.var v) []

/-- `ConfigVar::fromString`: a value that converts is set, and one that does not is logged. -/
def ConfigVar.fromString (v : Nat) (listeners : Option (List Listener)) (failed : Option Event) : Script :=
  match failed with
  | some e => Logger.Log e
  | none => ConfigVar.setValue v listeners

def ConfigVar.addListener (v : Nat) : Script := locked (.var v) []

def ConfigVar.delListener (v : Nat) : Script := locked (.var v) []

def ConfigVar.getListener (v : Nat) : Script := reading (.var v) []

/-- `Config::Lookup` with a default value: it logs a variable that exists and a name that is not allowed. -/
def Config.LookupDefault (logs : List Event) : Script := locked .config (logs.flatMap Logger.Log)

def Config.Lookup : Script := reading .config []

/-- `Config::Visit`, by what the callback does with each variable. It does not take the lock of the registry, which is
in hand: no `Lookup`. -/
def Config.Visit (cbs : List (Callback 1)) : Script := reading .config (cbs.flatMap Callback.script)

theorem block_var (v : Nat) : Block Lock.rank 1 (locked (.var v) []) := block_locked (.nil _) le_rfl

theorem block_var_read (v : Nat) : Block Lock.rank 1 (reading (.var v) []) := block_reading (.nil _) le_rfl

theorem ConfigVar.block_toString (v : Nat) (failed : List Event) : Block Lock.rank 1 (ConfigVar.toString v failed) :=
  (block_var_read v).append ((block_logs failed).mono (by decide))

theorem ConfigVar.block_setValue (v : Nat) (listeners : Option (List Listener)) :
    Block Lock.rank 1 (ConfigVar.setValue v listeners) := by
  cases listeners with
  | none => exact block_var_read v
  | some ls =>
    exact .append (block_reading (block_callbacks ls) le_rfl) (block_var v)

theorem ConfigVar.block_fromString (v : Nat) (listeners : Option (List Listener)) (failed : Option Event) :
    Block Lock.rank 1 (ConfigVar.fromString v listeners failed) := by
  cases failed with
  | none => exact ConfigVar.block_setValue v listeners
  | some e => exact (Logger.block_Log e).mono (by decide)

theorem Config.block_LookupDefault (logs : List Event) : Block Lock.rank 0 (Config.LookupDefault logs) :=
  block_locked ((block_logs logs).mono (by decide)) le_rfl

theorem Config.block_Visit (cbs : List (Callback 1)) : Block Lock.rank 0 (Config.Visit cbs) :=
  block_reading (block_callbacks cbs) le_rfl

def LogIniter.listener (is : List LogIniter) : Listener where
  script := is.flatMap LogIniter.script
  block := Block.mono (.flatMap fun i _ => i.block_script) (show 2 ≤ 6 by decide)

def timeoutListener (e : Event) : Listener := ⟨Logger.Log e, (Logger.block_Log e).mono (by decide)⟩

/-- A callback for `Visit` that logs the value of the variable. -/
def logValue (v : Nat) (failed : List Event) (e : Event) : Callback 1 where
  script := ConfigVar.toString v failed ++ Logger.Log e
  block := (ConfigVar.block_toString v failed).append ((Logger.block_Log e).mono (by decide))

/-- A thread that reads under a lock and goes on to take it to write waits for itself. -/
theorem not_canGo_of_reading {τ : Type} {s : Locks τ Lock} {t : τ} {l : Lock} {rest : Script}
    (hheld : (l, .read) ∈ s.held t) (hcode : s.code t = .take l .write :: rest) : ¬ s.CanGo t := by
  unfold Locks.CanGo
  rw [hcode]
  intro hfree
  cases (hfree t _ hheld rfl).1

/-! ## Calls -/

/-- A call from outside, with nothing in hand. -/
inductive Call
  | fdGet (creates : Bool)
  | fdDel
  | log (e : Event)
  | addAppender (l : Option Nat) (a : Nat) (sets : Bool)
  | delAppender (l : Option Nat)
  | setFormatter (l : Option Nat) (as : List Nat)
  | getFormatter (l : Option Nat)
  | clearAppenders (l : Option Nat)
  | loggerToYamlString (l : Option Nat) (as : List (Nat × Bool))
  | newFileAppender (a : Nat)
  | setAppenderFormatter (a : Nat)
  | getAppenderFormatter (a : Nat)
  | getLogger
  | managerToYamlString (ls : List (Option Nat × List (Nat × Bool)))
  | schedule (m : Nat) (tickle : Tickle)
  | start (m : Nat) (failed : List Event)
  | stop (m : Nat)
  | scan (m : Nat) (tickle : Tickle)
  | schedularStopping (m : Nat)
  | cancel (m : Nat) (logs : List Event)
  | refresh (m : Nat)
  | reset (m : Nat) (same : Bool) (tickle : Tickle)
  | addTimer (m : Nat) (tickle : Tickle)
  | hasTimer (m : Nat)
  | addEvent (m fd : Nat) (grows : Bool) (logs : List Event)
  | delEvent (m fd : Nat) (found : Bool) (logs : List Event)
  | cancelEvent (m fd : Nat) (found : Bool) (logs : List Event) (trigger : Option (Nat × Tickle))
  | cancelAll (m fd : Nat) (found : Bool) (logs : List Event) (triggers : List (Nat × Tickle))
  | idle (m : Nat) (pending empty : Bool) (due : Option Tickle)
      (events : List (Nat × List Event × List (Nat × Tickle)))
  | toString (v : Nat) (failed : List Event)
  | getValue (v : Nat)
  | setValue (v : Nat) (listeners : Option (List Listener))
  | fromString (v : Nat) (listeners : Option (List Listener)) (failed : Option Event)
  | addListener (v : Nat)
  | delListener (v : Nat)
  | getListener (v : Nat)
  | lookupDefault (logs : List Event)
  | lookup
  | visit (cbs : List (Callback 1))

def Call.script : Call → Script
  | .fdGet creates => FdManager.get creates
  | .fdDel => FdManager.del
  | .log e => Logger.Log e
  | .addAppender l a sets => Logger.addAppender l a sets
  | .delAppender l => Logger.delAppender l
  | .setFormatter l as => Logger.setFormatter l as
  | .getFormatter l => Logger.getFormatter l
  | .clearAppenders l => Logger.clearAppenders l
  | .loggerToYamlString l as => Logger.toYamlString l as
  | .newFileAppender a => fileAppender.reopen a 0
  | .setAppenderFormatter a => LogAppender.setFormatter a
  | .getAppenderFormatter a => LogAppender.getFormatter a
  | .getLogger => LoggerManager.getLogger
  | .managerToYamlString ls => LoggerManager.toYamlString ls
  | .schedule m tickle => Schedular.schedule m tickle
  | .start m failed => Schedular.start m failed
  | .stop m => Schedular.stop m
  | .scan m tickle => Schedular.scan m tickle
  | .schedularStopping m => Schedular.stopping m
  | .cancel m logs => Timer.cancel m logs
  | .refresh m => Timer.refresh m
  | .reset m same tickle => Timer.reset m same tickle
  | .addTimer m tickle => TimerManager.addTimer m tickle
  | .hasTimer m => TimerManager.hasTimer m
  | .addEvent m fd grows logs => IOManager.addEvent m fd grows logs
  | .delEvent m fd found logs => IOManager.delEvent m fd found logs
  | .cancelEvent m fd found logs trigger => IOManager.cancelEvent m fd found logs trigger
  | .cancelAll m fd found logs triggers => IOManager.cancelAll m fd found logs triggers
  | .idle m pending empty due events => IOManager.idle m pending empty due events
  | .toString v failed => ConfigVar.toString v failed
  | .getValue v => ConfigVar.getValue v
  | .setValue v listeners => ConfigVar.setValue v listeners
  | .fromString v listeners failed => ConfigVar.fromString v listeners failed
  | .addListener v => ConfigVar.addListener v
  | .delListener v => ConfigVar.delListener v
  | .getListener v => ConfigVar.getListener v
  | .lookupDefault logs => Config.LookupDefault logs
  | .lookup => Config.Lookup
  | .visit cbs => Config.Visit cbs

/-- **Every call follows the order.** -/
theorem Call.block (c : Call) : Block Lock.rank 0 c.script := by
  cases c with
  | fdGet creates => exact (FdManager.block_get creates).mono (Nat.zero_le _)
  | fdDel => exact block_locked (.nil _) (Nat.zero_le _)
  | log e => exact (Logger.block_Log e).mono (Nat.zero_le _)
  | addAppender l a sets => exact (Logger.block_addAppender l a sets).mono (Nat.zero_le _)
  | setFormatter l as => exact (Logger.block_setFormatter l as).mono (Nat.zero_le _)
  | delAppender l | getFormatter l | clearAppenders l => exact (block_logger (.nil _)).mono (Nat.zero_le _)
  | loggerToYamlString l as => exact (Logger.block_toYamlString l as).mono (Nat.zero_le _)
  | newFileAppender a => exact (fileAppender.block_reopen a 0).mono (Nat.zero_le _)
  | setAppenderFormatter a | getAppenderFormatter a => exact (block_appender a).mono (Nat.zero_le _)
  | getLogger => exact LoggerManager.block_getLogger.mono (Nat.zero_le _)
  | managerToYamlString ls => exact (LoggerManager.block_toYamlString ls).mono (Nat.zero_le _)
  | schedule m tickle | scan m tickle => exact (Schedular.block_schedule m tickle).mono (Nat.zero_le _)
  | start m failed => exact (Schedular.block_start m failed).mono (Nat.zero_le _)
  | stop m | schedularStopping m => exact (block_schedular m).mono (Nat.zero_le _)
  | cancel m logs => exact (Timer.block_cancel m logs).mono (Nat.zero_le _)
  | refresh m => exact (block_timers m).mono (Nat.zero_le _)
  | reset m same tickle =>
    exact block_ite (.nil _) ((TimerManager.block_addTimer m tickle).mono (Nat.zero_le _))
  | addTimer m tickle => exact (TimerManager.block_addTimer m tickle).mono (Nat.zero_le _)
  | hasTimer m => exact (block_timers_read m).mono (Nat.zero_le _)
  | addEvent m fd grows logs => exact (IOManager.block_addEvent m fd grows logs).mono (Nat.zero_le _)
  | delEvent m fd found logs => exact (IOManager.block_cancelEvents m fd found logs []).mono (Nat.zero_le _)
  | cancelEvent m fd found logs trigger => exact (IOManager.block_cancelEvents m fd found logs _).mono (Nat.zero_le _)
  | cancelAll m fd found logs triggers => exact (IOManager.block_cancelEvents m fd found logs _).mono (Nat.zero_le _)
  | idle m pending empty due events => exact (IOManager.block_idle m pending empty due events).mono (Nat.zero_le _)
  | toString v failed => exact (ConfigVar.block_toString v failed).mono (Nat.zero_le _)
  | setValue v listeners => exact (ConfigVar.block_setValue v listeners).mono (Nat.zero_le _)
  | fromString v listeners failed => exact (ConfigVar.block_fromString v listeners failed).mono (Nat.zero_le _)
  | addListener v | delListener v => exact (block_var v).mono (Nat.zero_le _)
  | getValue v | getListener v => exact (block_var_read v).mono (Nat.zero_le _)
  | lookupDefault logs => exact Config.block_LookupDefault logs
  | lookup => exact block_reading (.nil _) le_rfl
  | visit cbs => exact Config.block_Visit cbs

def program {τ : Type} (calls : τ → List Call) (t : τ) : Script := (calls t).flatMap Call.script

theorem program_ranked {τ : Type} (calls : τ → List Call) (t : τ) : Ranked Lock.rank [] (program calls t) :=
  Block.ranked (.flatMap fun c _ => c.block)

end QWebServer.Locking
