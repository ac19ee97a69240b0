import QWebServer.Config.Model
import QWebServer.Log.Appender

/-!
# Loggers and their configuration

* `Logger`, `LoggerManager` : loggers by name, with the appenders they point to;
* `LogAppenderDefine`, `LogDefine`, `LogSet` : the values of the variable `logs`, with the `operator==` of the source;
* `define`, `remove` : what the listener of `LogIniter` does for an added and for a deleted name, `onChange` : the
  listener;
* `logsConfig` : the variable with this listener.
-/

namespace QWebServer

inductive Appender
  | file (a : FileAppender)
  | stdout (a : LogAppender)

def Appender.base : Appender → LogAppender
  | file a => a.toLogAppender
  | stdout a => a

def Appender.update (f : LogAppender → LogAppender) : Appender → Appender
  | file a => file { a with toLogAppender := f a.toLogAppender }
  | stdout a => stdout (f a)

/-- `Logger`. Appenders are pointers; `root` is the name of the logger that `m_root` points to, `none` when it is
null. -/
structure Logger where
  name : Text
  level : LogLevel := .DEBUG
  appenders : List Nat := []
  root : Option Text := none
  formatter : LogFormatter := defaultFormatter

/-- `LoggerManager`: `m_loggers`, with the appender objects, the first pointer that is not in use and the files. -/
structure LoggerManager where
  loggers : Text → Option Logger
  heap : Nat → Appender
  next : Nat
  disk : Disk

namespace LoggerManager

/-- `LoggerManager::LoggerManager`, over the files `disk`. -/
def new (disk : Disk) : LoggerManager where
  loggers := Function.update (fun _ => none) "root".toList (some { name := "root".toList, appenders := [0] })
  heap := fun _ => .stdout { formatter := some defaultFormatter }
  next := 1
  disk := disk

/-- `LoggerManager::getLogger`, as the logger it returns. -/
def getLogger (m : LoggerManager) (name : Text) : Logger :=
  (m.loggers name).getD { name := name, root := some "root".toList }

/-- An update of the logger that `getLogger` returns. -/
def modify (m : LoggerManager) (name : Text) (f : Logger → Logger) : LoggerManager :=
  { m with loggers := Function.update m.loggers name (some (f (m.getLogger name))) }

def setLevel (m : LoggerManager) (name : Text) (level : LogLevel) : LoggerManager :=
  m.modify name fun l => { l with level := level }

/-- `Logger::setFormatter(LogFormatter::ptr)`: appenders without a formatter of their own take it over. -/
def setFormatter (m : LoggerManager) (name : Text) (val : LogFormatter) : LoggerManager :=
  { m.modify name (fun l => { l with formatter := val }) with
    heap := fun a =>
      if a ∈ (m.getLogger name).appenders then
        (m.heap a).update fun x => if x.hasFormatter then x else { x with formatter := some val }
      else m.heap a }

/-- `Logger::setFormatter(const std::string&)`. -/
def setFormatterText (m : LoggerManager) (name : Text) (val : Text) : LoggerManager :=
  if (LogFormatter.mk val).isError then m else m.setFormatter name ⟨val⟩

def clearAppenders (m : LoggerManager) (name : Text) : LoggerManager :=
  m.modify name fun l => { l with appenders := [] }

/-- `Logger::addAppender`: an appender without a formatter takes that of the logger. -/
def addAppender (m : LoggerManager) (name : Text) (a : Nat) : LoggerManager :=
  { m.modify name (fun l => { l with appenders := l.appenders ++ [a] }) with
    heap := Function.update m.heap a ((m.heap a).update fun x =>
      if x.formatter.isNone then { x with formatter := some (m.getLogger name).formatter } else x) }

end LoggerManager

/-! ## Definitions -/

structure LogAppenderDefine where
  type : Int32 := 0
  level : LogLevel := .UNKNOW
  formatter : Text := []
  file : Text := []
  deriving DecidableEq

structure LogDefine where
  name : Text
  level : LogLevel := .UNKNOW
  formatter : Text := []
  appenders : List LogAppenderDefine := []
  deriving DecidableEq

/-- `LogDefine::operator==`; its last comparison is of `appenders` with itself. -/
def LogDefine.eq (d oth : LogDefine) : Bool :=
  d.name == oth.name && d.level == oth.level && d.formatter == oth.formatter && d.appenders == d.appenders

/-- `std::set<LogDefine>`: in the order of `operator<`, which compares the names. -/
structure LogSet where
  defs : List LogDefine
  sorted : (defs.map LogDefine.name).Pairwise (· < ·)

namespace LogSet

def find (S : LogSet) (name : Text) : Option LogDefine := S.defs.find? fun d => d.name = name

/-- `std::set::operator==`: the sizes, and the elements one by one. -/
instance : BEq LogSet := ⟨fun S T => S.defs.isEqv T.defs LogDefine.eq⟩

end LogSet

/-! ## `LogIniter` -/

namespace LoggerManager

/-- The appender of a definition: another type than 1 and 2 leaves `lap` null. -/
def newAppender (a : LogAppenderDefine) (disk : Disk) : Option (Appender × Disk) :=
  if a.type = 1 then
    let (x, disk) := FileAppender.new a.file disk
    some (.file x, disk)
  else if a.type = 2 then some (.stdout {}, disk)
  else none

/-- `lap->setLevel`, and `lap->setFormatter` when the definition has a formatter without error. -/
def configure (a : LogAppenderDefine) (x : LogAppender) : LogAppender :=
  let x := { x with level := a.level }
  if a.formatter.isEmpty || (LogFormatter.mk a.formatter).isError then x else x.setFormatter (some ⟨a.formatter⟩)

/-- One round of the loop over the appenders of a definition. -/
def defineAppender (m : LoggerManager) (name : Text) (a : LogAppenderDefine) : Except LogFault LoggerManager :=
  match newAppender a m.disk with
  | none => .error .nullAppender
  | some (lap, disk) =>
    .ok (addAppender
      { m with heap := Function.update m.heap m.next (lap.update (configure a)), next := m.next + 1, disk }
      name m.next)

/-- One round of the loop over `new_value`, for a name that `old_value` does not have. -/
def define (m : LoggerManager) (i : LogDefine) : Except LogFault LoggerManager :=
  let m := m.setLevel i.name i.level
  let m := if i.formatter.isEmpty then m else m.setFormatterText i.name i.formatter
  i.appenders.foldlM (fun m a => m.defineAppender i.name a) (m.clearAppenders i.name)

/-- One round of the loop over `old_value`, for a name that `new_value` does not have. -/
def remove (m : LoggerManager) (name : Text) : LoggerManager := (m.setLevel name .level100).clearAppenders name

/-- The listener of `LogIniter`. -/
def onChange (old new : LogSet) (m : LoggerManager) : Except LogFault LoggerManager := do
  let m ← new.defs.foldlM (fun m i => if (old.find i.name).isSome then .ok m else m.define i) m
  return old.defs.foldl (fun m i => if (new.find i.name).isSome then m else m.remove i.name) m

end LoggerManager

/-- `log_value_config` after `LogIniter`: what its listener writes to is the manager, or nothing after a null
pointer. -/
def logsConfig : ConfigVar LogSet (Except LogFault LoggerManager) :=
  (ConfigVar.new ⟨[], List.Pairwise.nil⟩).addListener 0 (fun old new w => w.bind (LoggerManager.onChange old new))
    (by simp [ConfigVar.new])

end QWebServer
