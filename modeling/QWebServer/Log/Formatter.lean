import Mathlib.Data.List.Basic

/-!
# `qlc_log.h`, `qlc_log.cpp`: levels, events and formatters

* `LogLevel`, `LogEvent` : what a log call carries;
* `FormatItem` : the format items, `FormatItem.format` : the text each one writes;
* `LogFormatter` : a pattern, `LogFormatter.init` : its parse into items and the error flag;
* `LogFormatter.format` : the text of an event.

`localtime_r` and `strftime` are the parameter `strftime`, from a format and a time to the text in the buffer.
-/

namespace QWebServer

/-- The characters of a `std::string`. -/
abbrev Text := List Char

/-- `LogLevel::Level`, with the value `(LogLevel::Level)100` that a deleted logger gets. -/
inductive LogLevel
  | UNKNOW
  | DEBUG
  | INFO
  | WARN
  | ERROR
  | FATAL
  | level100
  deriving DecidableEq

namespace LogLevel

def val : LogLevel → Nat
  | UNKNOW => 0
  | DEBUG => 1
  | INFO => 2
  | WARN => 3
  | ERROR => 4
  | FATAL => 5
  | level100 => 100

instance : LE LogLevel := ⟨fun a b => a.val ≤ b.val⟩

instance (a b : LogLevel) : Decidable (a ≤ b) := inferInstanceAs (Decidable (a.val ≤ b.val))

def ToString : LogLevel → Text
  | DEBUG => "DEBUG".toList
  | INFO => "INFO".toList
  | WARN => "WARN".toList
  | ERROR => "ERROR".toList
  | FATAL => "FATAL".toList
  | _ => "UNKNOW".toList

def FromString (str : Text) : LogLevel :=
  if str = "debug".toList then DEBUG
  else if str = "info".toList then INFO
  else if str = "warn".toList then WARN
  else if str = "error".toList then ERROR
  else if str = "fatal".toList then FATAL
  else if str = "DEBUG".toList then DEBUG
  else if str = "INFO".toList then INFO
  else if str = "WARN".toList then WARN
  else if str = "ERROR".toList then ERROR
  else if str = "FATAL".toList then FATAL
  else UNKNOW

end LogLevel

/-- `LogEvent`, as far as formatters and appenders read it. -/
structure LogEvent where
  file : Text := []
  line : Int32 := 0
  elapse : UInt32 := 0
  threadId : UInt32 := 0
  fiberId : UInt32 := 0
  time : UInt64
  threadName : Text := []
  content : Text := []

/-! ## Format items -/

/-- The subclasses of `LogFormatter::FormatItem` that patterns are made of. -/
inductive FormatItem
  | message
  | level
  | elapse
  | name
  | threadId
  | newLine
  | dataTime (format : Text)
  | fileName
  | line
  | tab
  | fiberId
  | threadName
  | string (str : Text)
  deriving DecidableEq

def decimal (n : Nat) : Text := Nat.toDigits 10 n

def signedDecimal (i : Int) : Text := if i < 0 then '-' :: decimal i.natAbs else decimal i.natAbs

/-- The `format` member of each item, for the logger with the name `logger`. -/
def FormatItem.format (strftime : Text → UInt64 → Text) (logger : Text) (level : LogLevel) (event : LogEvent) :
    FormatItem → Text
  | message => event.content
  | .level => level.ToString
  | elapse => decimal event.elapse.toNat
  | name => logger
  | threadId => decimal event.threadId.toNat
  | newLine => ['\n']
  | dataTime format => strftime format event.time
  | fileName => event.file
  | line => signedDecimal event.line.toInt
  | tab => ['\t']
  | fiberId => decimal event.fiberId.toNat
  | threadName => event.threadName
  | string str => str

/-- `DataTimeFormatItem::DataTimeFormatItem`. -/
def FormatItem.ofDataTime (format : Text) : FormatItem :=
  .dataTime (if format.isEmpty then "%Y-%m-%d %H:%M:%S".toList else format)

/-- `s_format_item`: the item of a letter, with the text between braces. -/
def FormatItem.find (str fmt : Text) : Option FormatItem :=
  match str with
  | ['m'] => some .message
  | ['p'] => some .level
  | ['r'] => some .elapse
  | ['c'] => some .name
  | ['t'] => some .threadId
  | ['n'] => some .newLine
  | ['d'] => some (.ofDataTime fmt)
  | ['f'] => some .fileName
  | ['l'] => some .line
  | ['T'] => some .tab
  | ['F'] => some .fiberId
  | ['N'] => some .threadName
  | _ => none

/-! ## Patterns -/

/-- The entries of `vec`: text, or a format letter with the text between its braces. -/
inductive Piece
  | text (str : Text)
  | item (str fmt : Text)
  deriving DecidableEq

/-- The loop in `format_status` 1: the text up to the closing brace and the rest, `none` at the end of the pattern. -/
def braced : List Char → Option (Text × List Char)
  | [] => none
  | c :: p => if c = '\x7d' then some ([], p) else (braced p).map fun r => (c :: r.1, r.2)

/-- The loop in `format_status` 0 after a `%`: the letters, the text between braces and the rest of the pattern. A
closing brace counts as a letter. -/
def spec : List Char → Option (Text × Text × List Char)
  | [] => some ([], [], [])
  | c :: p =>
    if c = '\x7b' then (braced p).map fun r => ([], r.1, r.2)
    else if c.isAlpha || c = '\x7d' then (spec p).map fun r => (c :: r.1, r.2.1, r.2.2)
    else some ([], [], c :: p)

/-- The pending text `nstr` as an entry of `vec`. -/
def flush (nstr : Text) : List Piece := if nstr.isEmpty then [] else [.text nstr]

/-- The loop over the pattern: the entries of `vec`, and whether a brace was not closed. Every round takes a character,
so that the length of the pattern bounds the rounds. -/
def pieces : Nat → List Char → Text → List Piece × Bool
  | 0, _, nstr => (flush nstr, false)
  | _ + 1, [], nstr => (flush nstr, false)
  | k + 1, c :: p, nstr =>
    if c ≠ '%' then pieces k p (nstr ++ [c])
    else if p.head? = some '%' then pieces k p.tail (nstr ++ ['%'])
    else match spec p with
      | some (str, fmt, p') =>
        let r := pieces k p' []
        (flush nstr ++ .item str fmt :: r.1, r.2)
      -- `i` stays at the `%`: what follows it is read again, as text
      | none => ((.text "pattern error".toList :: (pieces k p nstr).1), true)

/-- The item of an entry of `vec`, and whether its letter is unknown. -/
def Piece.toItem : Piece → FormatItem × Bool
  | .text str => (.string str, false)
  | .item str fmt =>
    match FormatItem.find str fmt with
    | some i => (i, false)
    | none => (.string ("error format".toList ++ " ".toList ++ str), true)

/-- `LogFormatter`: the pattern; `m_items` and `m_error` are what `init` makes of it. -/
structure LogFormatter where
  pattern : Text
  deriving DecidableEq

namespace LogFormatter

/-- `LogFormatter::init`: `m_items` and `m_error`. -/
def init (f : LogFormatter) : List FormatItem × Bool :=
  let vec := pieces f.pattern.length f.pattern []
  (vec.1.map fun p => p.toItem.1, vec.2 || vec.1.any fun p => p.toItem.2)

def items (f : LogFormatter) : List FormatItem := f.init.1

def isError (f : LogFormatter) : Bool := f.init.2

def format (strftime : Text → UInt64 → Text) (f : LogFormatter) (logger : Text) (level : LogLevel) (event : LogEvent) :
    Text :=
  f.items.flatMap fun i => i.format strftime logger level event

end LogFormatter

/-- The pattern that `Logger::Logger` sets. -/
def defaultFormatter : LogFormatter :=
  ⟨"%d\x7b%Y-%m-%d %H:%M:%S\x7d%T%t%T%N%T%F%T[%p]%T[%c]%T%f:%l%T%m%n".toList⟩

end QWebServer
