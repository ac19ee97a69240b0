import Mathlib.Data.List.Induction
import Mathlib.Logic.Function.Basic
import QWebServer.Log.Formatter

/-!
# `fileAppender`

* `LogAppender` : the members that all appenders have, `FileAppender` : those of `fileAppender`;
* `Disk` : the contents of files; `reopen` : `ofstream::open` without `ios::app` leaves the file empty;
* `FileAppender.Log` : one call, `logAll` : a sequence of them;
* `lastOpened` : `m_lastTime` after a sequence, `Reopens` : the calls that open the file again;
* `content_iff` : the file holds every line exactly when no call opens the file again over a line.
-/

namespace QWebServer

structure LogAppender where
  hasFormatter : Bool := false
  level : LogLevel := .DEBUG
  formatter : Option LogFormatter := none

def LogAppender.setFormatter (a : LogAppender) (val : Option LogFormatter) : LogAppender :=
  { a with formatter := val, hasFormatter := val.isSome }

structure FileAppender extends LogAppender where
  filename : Text
  lastTime : UInt64 := 0

abbrev Disk := Text → Text

/-- A call of `Log`: the name of the logger, the level and the event. -/
structure LogCall where
  logger : Text := []
  level : LogLevel
  event : LogEvent

/-- What stops a call: a null `m_formatter`, or a null appender. -/
inductive LogFault
  | nullFormatter
  | nullAppender
  deriving DecidableEq

namespace FileAppender

/-- `fileAppender::reopen`, where `open` succeeds. -/
def reopen (a : FileAppender) (disk : Disk) : Disk := Function.update disk a.filename []

def new (filename : Text) (disk : Disk) : FileAppender × Disk :=
  let a : FileAppender := { filename := filename }
  (a, a.reopen disk)

/-- `m_formatter->format(m_filestream, ...)`: the text at the end of the file. -/
def write (a : FileAppender) (disk : Disk) (text : Text) : Disk :=
  Function.update disk a.filename (disk a.filename ++ text)

variable (strftime : Text → UInt64 → Text)

def Log (a : FileAppender) (disk : Disk) (c : LogCall) : Except LogFault (FileAppender × Disk) :=
  if a.level ≤ c.level then
    let now := c.event.time
    let (a, disk) := if a.lastTime + 3 ≤ now then ({ a with lastTime := now }, a.reopen disk) else (a, disk)
    match a.formatter with
    | none => .error .nullFormatter
    | some f => .ok (a, a.write disk (f.format strftime c.logger c.level c.event))
  else .ok (a, disk)

def logAll (a : FileAppender) (disk : Disk) : List LogCall → Except LogFault (FileAppender × Disk)
  | [] => .ok (a, disk)
  | c :: cs => do
    let (a, disk) ← a.Log strftime disk c
    a.logAll disk cs

/-! ## What a sequence of calls leaves -/

/-- The text of a call: that of the formatter, nothing when the level is too low. -/
def line (f : LogFormatter) (level : LogLevel) (c : LogCall) : Text :=
  if level ≤ c.level then f.format strftime c.logger c.level c.event else []

/-- The call opens the file again, `t` being `m_lastTime`. -/
def Reopens (level : LogLevel) (t : UInt64) (c : LogCall) : Prop := level ≤ c.level ∧ t + 3 ≤ c.event.time

instance (level : LogLevel) (t : UInt64) (c : LogCall) : Decidable (Reopens level t c) :=
  inferInstanceAs (Decidable (_ ∧ _))

/-- `m_lastTime` after the calls, `t` before them. -/
def lastOpened (level : LogLevel) (t : UInt64) (cs : List LogCall) : UInt64 :=
  cs.foldl (fun t c => if Reopens level t c then c.event.time else t) t

/-- **No call opens the file again over a line.** -/
def Spares (f : LogFormatter) (level : LogLevel) (cs : List LogCall) : Prop :=
  ∀ cs₁ c cs₂, cs = cs₁ ++ c :: cs₂ → Reopens level (lastOpened level 0 cs₁) c →
    ∀ c' ∈ cs₁, line strftime f level c' = []

/-- **One call**: the file is emptied when the call opens it again, and its line is written. -/
theorem Log_spec {a : FileAppender} {f : LogFormatter} (hf : a.formatter = some f) (disk : Disk) (c : LogCall) :
    ∃ a' disk', a.Log strftime disk c = .ok (a', disk') ∧ a'.toLogAppender = a.toLogAppender ∧
      a'.filename = a.filename ∧
      a'.lastTime = (if Reopens a.level a.lastTime c then c.event.time else a.lastTime) ∧
      disk' a.filename =
        (if Reopens a.level a.lastTime c then [] else disk a.filename) ++ line strftime f a.level c := by
  unfold Log line
  by_cases hl : a.level ≤ c.level
  · by_cases ht : a.lastTime + 3 ≤ c.event.time
    · have hr : Reopens a.level a.lastTime c := ⟨hl, ht⟩
      simp only [if_pos hl, if_pos ht, if_pos hr, hf]
      exact ⟨_, _, rfl, rfl, rfl, rfl, by simp [write, reopen]⟩
    · have hr : ¬ Reopens a.level a.lastTime c := fun h => ht h.2
      simp only [if_pos hl, if_neg ht, if_neg hr, hf]
      exact ⟨_, _, rfl, rfl, rfl, rfl, by simp [write]⟩
  · have hr : ¬ Reopens a.level a.lastTime c := fun h => hl h.1
    simp only [if_neg hl, if_neg hr]
    exact ⟨_, _, rfl, rfl, rfl, rfl, by simp⟩

theorem logAll_concat (a : FileAppender) (disk : Disk) (cs : List LogCall) (c : LogCall) :
    a.logAll strftime disk (cs ++ [c]) = (a.logAll strftime disk cs).bind fun r => r.1.Log strftime r.2 c := by
  induction cs generalizing a disk with
  | nil =>
    show (a.Log strftime disk c).bind _ = a.Log strftime disk c
    cases a.Log strftime disk c <;> rfl
  | cons c' cs ih =>
    show (a.Log strftime disk c').bind _ = ((a.Log strftime disk c').bind _).bind _
    cases a.Log strftime disk c' with
    | error => rfl
    | ok r => exact ih r.1 r.2

theorem lastOpened_concat (level : LogLevel) (t : UInt64) (cs : List LogCall) (c : LogCall) :
    lastOpened level t (cs ++ [c]) =
      if Reopens level (lastOpened level t cs) c then c.event.time else lastOpened level t cs := by
  rw [lastOpened, List.foldl_append]
  rfl

theorem spares_concat {f : LogFormatter} {level : LogLevel} {cs : List LogCall} {c : LogCall} :
    Spares strftime f level (cs ++ [c]) ↔ Spares strftime f level cs ∧
      (Reopens level (lastOpened level 0 cs) c → ∀ c' ∈ cs, line strftime f level c' = []) := by
  constructor
  · intro h
    refine ⟨?_, fun hr => h cs c [] rfl hr⟩
    rintro cs₁ c₁ cs₂ rfl
    exact h cs₁ c₁ (cs₂ ++ [c]) (by simp)
  · rintro ⟨h, hlast⟩ cs₁ c₁ cs₂ heq
    rcases List.eq_nil_or_concat' cs₂ with rfl | ⟨cs₂, c₂, rfl⟩
    · obtain ⟨rfl, hc⟩ := List.append_inj' heq rfl
      cases hc
      exact hlast
    · rw [← List.cons_append, ← List.append_assoc] at heq
      obtain ⟨rfl, -⟩ := List.append_inj' heq rfl
      exact h cs₁ c₁ cs₂ rfl

theorem logAll_spec {a : FileAppender} {f : LogFormatter} (hf : a.formatter = some f) (ht : a.lastTime = 0)
    {disk : Disk}
    (hd : disk a.filename = []) (cs : List LogCall) :
    ∃ a' disk', a.logAll strftime disk cs = .ok (a', disk') ∧ a'.toLogAppender = a.toLogAppender ∧
      a'.filename = a.filename ∧ a'.lastTime = lastOpened a.level 0 cs ∧
      (disk' a.filename = cs.flatMap (line strftime f a.level) ↔ Spares strftime f a.level cs) := by
  induction cs using List.reverseRecOn with
  | nil => exact ⟨a, disk, rfl, rfl, rfl, ht, by simp [hd, Spares]⟩
  | append_singleton cs c ih =>
    obtain ⟨a₁, disk₁, hrun, hbase, hname, htime, hiff⟩ := ih
    have hf₁ : a₁.formatter = some f := by rw [hbase, hf]
    obtain ⟨a₂, disk₂, hlog, hbase₂, hname₂, htime₂, hdisk₂⟩ := Log_spec strftime hf₁ disk₁ c
    rw [hbase, htime] at htime₂ hdisk₂
    rw [hname] at hdisk₂
    refine ⟨a₂, disk₂, ?_, hbase₂.trans hbase, hname₂.trans hname, ?_, ?_⟩
    · rw [logAll_concat, hrun]
      exact hlog
    · rw [htime₂, lastOpened_concat]
    · rw [hdisk₂, List.flatMap_append, List.flatMap_singleton, List.append_left_inj, spares_concat]
      by_cases hr : Reopens a.level (lastOpened a.level 0 cs) c
      · -- the lines so far are gone, so that there must have been none
        rw [if_pos hr, eq_comm, List.flatMap_eq_nil_iff]
        refine ⟨fun h => ⟨?_, fun _ => h⟩, fun h => h.2 hr⟩
        rintro cs₁ c₁ cs₂ rfl - c' hc'
        exact h c' (List.mem_append_left _ hc')
      · rw [if_neg hr, hiff]
        exact ⟨fun h => ⟨h, fun h' => absurd h' hr⟩, fun h => h.1⟩

theorem flatMap_line (f : LogFormatter) (level : LogLevel) (cs : List LogCall) :
    cs.flatMap (line strftime f level) =
      (cs.filter (level ≤ ·.level)).flatMap fun c => f.format strftime c.logger c.level c.event := by
  induction cs with
  | nil => rfl
  | cons c cs ih =>
    rw [List.flatMap_cons, ih, List.filter_cons]
    by_cases hl : level ≤ c.level
    · rw [line, if_pos hl, if_pos (decide_eq_true hl), List.flatMap_cons]
    · rw [line, if_neg hl, if_neg (by simpa using hl), List.nil_append]

variable {strftime}

/-- **The file holds the lines of all calls, in their order, exactly when** no call opens it again over a line. -/
theorem content_iff (filename : Text) (disk : Disk) (f : LogFormatter) (level : LogLevel) (hasFormatter : Bool)
    (cs : List LogCall) :
    ∃ a' disk', logAll strftime { (new filename disk).1 with level, formatter := some f, hasFormatter }
        (new filename disk).2 cs = .ok (a', disk') ∧
      (disk' filename = (cs.filter (level ≤ ·.level)).flatMap (fun c => f.format strftime c.logger c.level c.event) ↔
        Spares strftime f level cs) := by
  have hempty : (new filename disk).2 filename = [] := Function.update_self ..
  obtain ⟨a', disk', hrun, -, -, -, hiff⟩ := logAll_spec strftime
    (a := { (new filename disk).1 with level, formatter := some f, hasFormatter }) (f := f) rfl rfl hempty cs
  refine ⟨a', disk', hrun, ?_⟩
  rw [← flatMap_line]
  exact hiff

/-- Two lines three seconds apart: the second call empties the file. -/
theorem content_after_reopen : ¬ ∀ cs a' disk',
    logAll (fun _ _ => []) { (new ['f'] fun _ => []).1 with formatter := some ⟨"%m%n".toList⟩ }
        (new ['f'] fun _ => []).2 cs =
      .ok (a', disk') →
    disk' ['f'] = (cs.filter (LogLevel.DEBUG ≤ ·.level)).flatMap fun c =>
      LogFormatter.format (fun _ _ => []) ⟨"%m%n".toList⟩ c.logger c.level c.event := by
  intro hall
  have h := hall [{ level := .INFO, event := { time := 1700000000, content := ['a'] } },
    { level := .INFO, event := { time := 1700000003, content := ['b'] } }] _ _ rfl
  revert h
  decide

end FileAppender

end QWebServer
