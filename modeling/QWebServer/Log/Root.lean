import QWebServer.Log.Config

/-!
# Loggers without appenders

* `LoggerManager.Log` : `Logger::Log`, which hands the event on to `m_root` where there is no appender;
* `LogOp`, `logging` : the machine of the calls on the manager, on its loggers and on the variable `logs`;
* `Rooted` : every logger but `root` has `root` as its `m_root`, and `root` has none;
* `HandsOn`, `log_nullRoot_iff` : `Log` follows a null `m_root` exactly when the logger and `root` both hand the event
  on.
-/

namespace QWebServer

open Lib

/-- `m_root->getName()` of the manager. -/
def rootName : Text := "root".toList

section
variable (strftime : Text → UInt64 → Text)

/-- `stdoutAppender::Log`, as the text on the console. -/
def LogAppender.Log (a : LogAppender) (c : LogCall) : Except LogFault Text :=
  if a.level ≤ c.level then
    match a.formatter with
    | none => .error .nullFormatter
    | some f => .ok (f.format strftime c.logger c.level c.event)
  else .ok []

/-- The virtual `LogAppender::Log`: the appender, the files and the text on the console. -/
def Appender.Log (disk : Disk) (c : LogCall) : Appender → Except LogFault (Appender × Disk × Text)
  | file a => do
    let (a, disk) ← a.Log strftime disk c
    return (file a, disk, [])
  | stdout a => do
    let text ← a.Log strftime c
    return (stdout a, disk, text)

/-- What stops `Logger::Log`: a null `m_root`, or an appender. The calls that are left are used up in `unfinished`. -/
inductive LoggerFault
  | nullRoot
  | appender (f : LogFault)
  | unfinished

namespace LoggerManager

/-- The loop over `m_appenders` in `Logger::Log`. -/
def logTo (m : LoggerManager) (c : LogCall) : List Nat → Except LogFault (LoggerManager × Text)
  | [] => .ok (m, [])
  | a :: as => do
    let (x, disk, text) ← (m.heap a).Log strftime m.disk c
    let (m, rest) ← logTo { m with heap := Function.update m.heap a x, disk } c as
    return (m, text ++ rest)

/-- `Logger::Log` of the logger `name`, with the text on the console. The calls along `m_root` are counted down. -/
def Log (m : LoggerManager) : Nat → Text → LogLevel → LogEvent → Except LoggerFault (LoggerManager × Text)
  | 0, _, _, _ => .error .unfinished
  | k + 1, name, level, event =>
    let l := m.getLogger name
    if l.level ≤ level then
      if !l.appenders.isEmpty then
        (m.logTo strftime { logger := l.name, level, event } l.appenders).mapError .appender
      else
        match l.root with
        | none => .error .nullRoot
        | some root => m.Log k root level event
    else .ok (m, [])

/-- `Logger::delAppender`: the first occurrence. -/
def delAppender (m : LoggerManager) (name : Text) (a : Nat) : LoggerManager :=
  m.modify name fun l => { l with appenders := l.appenders.erase a }

end LoggerManager

/-! ## The machine -/

/-- Calls on the manager, on a logger that it has returned, and assignments to `logs`. `newAppender` makes an appender
object, with any members. -/
inductive LogOp
  | getLogger (name : Text)
  | assign (S : LogSet)
  | newAppender (a : Appender)
  | addAppender (name : Text) (a : Nat)
  | delAppender (name : Text) (a : Nat)
  | clearAppenders (name : Text)
  | setLevel (name : Text) (level : LogLevel)
  | Log (name : Text) (level : LogLevel) (event : LogEvent)

/-- The variable `logs`, and the manager that its listener writes to. -/
structure Logging where
  var : ConfigVar LogSet (Except LogFault LoggerManager)
  manager : LoggerManager

def LoggerManager.Has (m : LoggerManager) (name : Text) : Prop := (m.loggers name).isSome = true

instance (m : LoggerManager) (name : Text) : Decidable (m.Has name) := inferInstanceAs (Decidable (_ = true))

namespace Logging

/-- `setValue` of the variable `logs`. -/
def assign (s : Logging) (S : LogSet) : Except LogFault Logging := do
  let (var, world) := s.var.setValue S (.ok s.manager)
  let manager ← world
  return { var, manager }

def step (s : Logging) : LogOp → Except LoggerFault (Text × Logging)
  | .getLogger name => .ok ([], { s with manager := s.manager.modify name id })
  | .assign S => ((s.assign S).mapError .appender).map ([], ·)
  | .newAppender a =>
    .ok ([], { s with manager :=
      { s.manager with heap := Function.update s.manager.heap s.manager.next a, next := s.manager.next + 1 } })
  | .addAppender name a => .ok ([], { s with manager := s.manager.addAppender name a })
  | .delAppender name a => .ok ([], { s with manager := s.manager.delAppender name a })
  | .clearAppenders name => .ok ([], { s with manager := s.manager.clearAppenders name })
  | .setLevel name level => .ok ([], { s with manager := s.manager.setLevel name level })
  | .Log name level event =>
    (s.manager.Log strftime 2 name level event).map fun r => (r.2, { s with manager := r.1 })

/-- A call is made on a logger that the manager has, with an appender object. -/
def enabled (s : Logging) : LogOp → Prop
  | .getLogger _ | .assign _ | .newAppender _ => True
  | .addAppender name a => s.manager.Has name ∧ a < s.manager.next
  | .delAppender name _ | .clearAppenders name | .setLevel name _ | .Log name _ _ => s.manager.Has name

end Logging

def logging (disk : Disk) : Machine Logging LogOp Text LoggerFault where
  init s := s = ⟨logsConfig, LoggerManager.new disk⟩
  enabled := Logging.enabled
  step := Logging.step strftime

end

instance (strftime : Text → UInt64 → Text) (disk : Disk) (s : Logging) (op : LogOp) :
    Decidable ((logging strftime disk).enabled s op) :=
  match op with
  | .getLogger _ | .assign _ | .newAppender _ => isTrue trivial
  | .addAppender name a => inferInstanceAs (Decidable (s.manager.Has name ∧ a < s.manager.next))
  | .delAppender name _ | .clearAppenders name | .setLevel name _ | .Log name _ _ =>
    inferInstanceAs (Decidable (s.manager.Has name))

/-! ## The roots -/

namespace LoggerManager

/-- Every logger but `root` has `root` as its `m_root`, and `root` has none. -/
def Rooted (m : LoggerManager) : Prop :=
  ∀ name, (m.getLogger name).root = if name = rootName then none else some rootName

variable {m m' : LoggerManager}

theorem new_rooted (disk : Disk) : (new disk).Rooted := by
  intro name
  by_cases hn : name = rootName
  · subst hn
    rfl
  · have hnone : (new disk).loggers name = none := by
      show Function.update (fun _ => none) rootName _ name = none
      rw [Function.update_of_ne hn]
    rw [getLogger, hnone, if_neg hn]
    rfl

theorem Rooted.modify (hm : m.Rooted) (name : Text) {f : Logger → Logger} (hf : ∀ l, (f l).root = l.root) :
    (m.modify name f).Rooted := by
  intro n
  by_cases hn : n = name
  · subst hn
    rw [getLogger_modify_self, hf]
    exact hm n
  · rw [getLogger_modify_of_ne m hn]
    exact hm n

theorem Rooted.setLevel (hm : m.Rooted) (name : Text) (level : LogLevel) : (m.setLevel name level).Rooted :=
  hm.modify name fun _ => rfl

theorem Rooted.clearAppenders (hm : m.Rooted) (name : Text) : (m.clearAppenders name).Rooted :=
  hm.modify name fun _ => rfl

theorem Rooted.addAppender (hm : m.Rooted) (name : Text) (a : Nat) : (m.addAppender name a).Rooted :=
  hm.modify name (f := fun l => { l with appenders := l.appenders ++ [a] }) fun _ => rfl

theorem Rooted.delAppender (hm : m.Rooted) (name : Text) (a : Nat) : (m.delAppender name a).Rooted :=
  hm.modify name fun _ => rfl

theorem Rooted.defineAppender (hm : m.Rooted) {name : Text} {a : LogAppenderDefine}
    (h : m.defineAppender name a = .ok m') : m'.Rooted := by
  unfold LoggerManager.defineAppender at h
  split at h
  · cases h
  · cases h
    refine Rooted.addAppender ?_ name m.next
    exact hm

theorem Rooted.setFormatterText (hm : m.Rooted) (name val : Text) : (m.setFormatterText name val).Rooted := by
  unfold LoggerManager.setFormatterText
  split
  · exact hm
  · exact hm.modify name (f := fun l => { l with formatter := ⟨val⟩ }) fun _ => rfl

theorem Rooted.define (hm : m.Rooted) {i : LogDefine} (h : m.define i = .ok m') : m'.Rooted := by
  have hlevel := hm.setLevel i.name i.level
  unfold LoggerManager.define at h
  refine foldlM_invariant (fun _ _ _ hb h => hb.defineAppender h) ?_ h
  refine Rooted.clearAppenders ?_ i.name
  split
  · exact hlevel
  · exact hlevel.setFormatterText i.name i.formatter

theorem Rooted.remove (hm : m.Rooted) (name : Text) : (m.remove name).Rooted :=
  (hm.setLevel name .level100).clearAppenders name

theorem Rooted.onChange (hm : m.Rooted) {old new : LogSet} (h : LoggerManager.onChange old new m = .ok m') :
    m'.Rooted := by
  obtain ⟨m₁, h₁, h⟩ := bind_eq_ok h
  have hm₁ : m₁.Rooted := by
    refine foldlM_invariant (fun m i m' hm h => ?_) hm h₁
    split at h
    · cases h
      exact hm
    · exact hm.define h
  cases h
  refine List.foldlRecOn old.defs _ hm₁ fun m hm i _ => ?_
  split
  · exact hm
  · exact hm.remove i.name

variable {strftime : Text → UInt64 → Text}

theorem Rooted.logTo (hm : m.Rooted) {c : LogCall} {as : List Nat} {text : Text}
    (h : m.logTo strftime c as = .ok (m', text)) : m'.Rooted := by
  induction as generalizing m text with
  | nil =>
    cases h
    exact hm
  | cons a as ih =>
    obtain ⟨⟨x, disk, t⟩, -, h⟩ := bind_eq_ok h
    obtain ⟨⟨m₁, rest⟩, h₁, h⟩ := bind_eq_ok h
    cases h
    refine ih ?_ h₁
    exact hm

theorem Rooted.log (hm : m.Rooted) {k : Nat} {name : Text} {level : LogLevel} {event : LogEvent} {text : Text}
    (h : m.Log strftime k name level event = .ok (m', text)) : m'.Rooted := by
  induction k generalizing name with
  | zero => cases h
  | succ k ih =>
    unfold LoggerManager.Log at h
    simp only at h
    split_ifs at h with hl ha
    · exact hm.logTo (mapError_eq_ok h)
    · split at h
      · cases h
      · exact ih h
    · cases h
      exact hm

end LoggerManager

/-- What every call keeps: the listener is in place, and the loggers have their roots. -/
structure Logging.Good (s : Logging) : Prop where
  cbs : s.var.cbs = logsConfig.cbs
  rooted : s.manager.Rooted

theorem Logging.Good.assign {s s' : Logging} {S : LogSet} (hs : s.Good) (h : s.assign S = .ok s') : s'.Good := by
  unfold Logging.assign ConfigVar.setValue ConfigVar.compareAndNotify at h
  cases hv : s.var.val == S with
  | true =>
    rw [hv] at h
    cases h
    exact hs
  | false =>
    rw [hv] at h
    obtain ⟨m, hm, h⟩ := bind_eq_ok h
    have hnotify : LoggerManager.onChange s.var.val S s.manager = .ok m := by
      rw [← hm]
      unfold ConfigVar.notify
      rw [hs.cbs]
      rfl
    cases h
    exact ⟨hs.cbs, hs.rooted.onChange hnotify⟩

/-- **One call.** -/
theorem Logging.Good.step {strftime : Text → UInt64 → Text} {s s' : Logging} {op : LogOp} {text : Text} (hs : s.Good)
    (h : s.step strftime op = .ok (text, s')) : s'.Good := by
  cases op with
  | getLogger name =>
    cases h
    exact ⟨hs.cbs, hs.rooted.modify name fun _ => rfl⟩
  | assign S =>
    obtain ⟨s₁, ha, h⟩ := map_eq_ok h
    cases h
    exact hs.assign (mapError_eq_ok ha)
  | newAppender a =>
    cases h
    exact ⟨hs.cbs, hs.rooted⟩
  | addAppender name a =>
    cases h
    exact ⟨hs.cbs, hs.rooted.addAppender name a⟩
  | delAppender name a =>
    cases h
    exact ⟨hs.cbs, hs.rooted.delAppender name a⟩
  | clearAppenders name =>
    cases h
    exact ⟨hs.cbs, hs.rooted.clearAppenders name⟩
  | setLevel name level =>
    cases h
    exact ⟨hs.cbs, hs.rooted.setLevel name level⟩
  | Log name level event =>
    obtain ⟨r, hl, h⟩ := map_eq_ok h
    cases h
    exact ⟨hs.cbs, hs.rooted.log hl⟩

theorem run_good {strftime : Text → UInt64 → Text} {disk : Disk} {h : List (Entry Logging LogOp Text)} {s : Logging}
    (hr : Run (logging strftime disk) h s) : s.Good := by
  refine hr.invariant ?_ fun s i o t hs _ hstep => hs.step hstep
  intro s hs
  rw [hs]
  exact ⟨rfl, LoggerManager.new_rooted disk⟩

/-! ## `Log` -/

namespace LoggerManager

/-- The logger `name` hands an event of this level on to its `m_root`. -/
def HandsOn (m : LoggerManager) (name : Text) (level : LogLevel) : Prop :=
  (m.getLogger name).level ≤ level ∧ (m.getLogger name).appenders = []

instance (m : LoggerManager) (name : Text) (level : LogLevel) : Decidable (m.HandsOn name level) :=
  inferInstanceAs (Decidable (_ ∧ _))

variable {strftime : Text → UInt64 → Text} {m : LoggerManager} {k : Nat} {name : Text} {level : LogLevel}
  {event : LogEvent}

theorem log_of_handsOn (h : m.HandsOn name level) :
    m.Log strftime (k + 1) name level event =
      match (m.getLogger name).root with
      | none => .error .nullRoot
      | some root => m.Log strftime k root level event := by
  rw [Log]
  simp only [if_pos h.1, h.2]
  rfl

/-- A logger that does not hand the event on: the appenders get it, or nothing does. -/
theorem log_of_not_handsOn (h : ¬ m.HandsOn name level) :
    (∃ f, m.Log strftime (k + 1) name level event = .error (.appender f)) ∨
      ∃ r, m.Log strftime (k + 1) name level event = .ok r := by
  rw [Log]
  split_ifs with hl ha
  · cases m.logTo strftime { logger := (m.getLogger name).name, level, event } (m.getLogger name).appenders with
    | error f => exact .inl ⟨f, rfl⟩
    | ok r => exact .inr ⟨r, rfl⟩
  · exact absurd ⟨hl, by simpa using ha⟩ h
  · exact .inr ⟨_, rfl⟩

theorem log_of_not_handsOn_ne (h : ¬ m.HandsOn name level) :
    m.Log strftime (k + 1) name level event ≠ .error .nullRoot ∧
      m.Log strftime (k + 1) name level event ≠ .error .unfinished := by
  rcases log_of_not_handsOn h with ⟨f, hf⟩ | ⟨r, hr⟩
  · rw [hf]
    exact ⟨nofun, nofun⟩
  · rw [hr]
    exact ⟨nofun, nofun⟩

theorem Rooted.log_spec (hm : m.Rooted) :
    (m.Log strftime (k + 2) name level event = .error .nullRoot ↔ m.HandsOn name level ∧ m.HandsOn rootName level) ∧
      m.Log strftime (k + 2) name level event ≠ .error .unfinished := by
  by_cases hname : m.HandsOn name level
  · rw [log_of_handsOn hname, hm name]
    by_cases hn : name = rootName
    · subst hn
      rw [if_pos rfl]
      exact ⟨iff_of_true rfl ⟨hname, hname⟩, nofun⟩
    · rw [if_neg hn]
      by_cases hroot : m.HandsOn rootName level
      · have hnull : (m.getLogger rootName).root = none := hm rootName
        have hlog : m.Log strftime (k + 1) rootName level event = .error .nullRoot := by
          rw [log_of_handsOn hroot, hnull]
        exact ⟨iff_of_true hlog ⟨hname, hroot⟩, fun h => nomatch hlog.symm.trans h⟩
      · exact ⟨iff_of_false (log_of_not_handsOn_ne hroot).1 fun h => hroot h.2, (log_of_not_handsOn_ne hroot).2⟩
  · exact ⟨iff_of_false (log_of_not_handsOn_ne hname).1 fun h => hname h.1, (log_of_not_handsOn_ne hname).2⟩

end LoggerManager

/-- **`Log` follows a null `m_root` exactly when** the logger and `root` both hand the event on, and it always ends:
after any calls, at any level. -/
theorem log_nullRoot_iff {strftime : Text → UInt64 → Text} {disk : Disk} {h : List (Entry Logging LogOp Text)}
    {s : Logging} (hr : Run (logging strftime disk) h s) (k : Nat) (name : Text) (level : LogLevel) (event : LogEvent) :
    (s.manager.Log strftime (k + 2) name level event = .error .nullRoot ↔
        s.manager.HandsOn name level ∧ s.manager.HandsOn rootName level) ∧
      s.manager.Log strftime (k + 2) name level event ≠ .error .unfinished :=
  (run_good hr).rooted.log_spec

/-- The root logger keeps its appender, and a new logger hands its events on to it. -/
theorem log_nullRoot_iff_new : ∃ h s, Run (logging (fun _ _ => []) fun _ => []) h s ∧
    s.manager.Has "system".toList ∧ s.manager.HandsOn "system".toList .INFO ∧
      s.manager.Log (fun _ _ => []) 2 "system".toList .INFO { time := 0 } ≠ .error .nullRoot := by
  have hr := (Run.start (M := logging (fun _ _ => []) fun _ => []) rfl).step (i := .getLogger "system".toList)
    (by decide) rfl
  refine ⟨_, _, hr, by decide, by decide, fun h => ?_⟩
  exact absurd ((log_nullRoot_iff hr 0 _ _ _).1.mp h).2 (by decide)

/-- A definition of `root` whose appenders were rejected. -/
def rootOnly : LogSet := ⟨[{ name := rootName }], by decide⟩

/-- `root` loses its appender with the assignment, and the next event follows its `m_root`. -/
theorem log_null_after_assign : ¬ ∀ h s, Run (logging (fun _ _ => []) fun _ => []) h s →
    ∀ name level event, s.manager.Has name →
      (logging (fun _ _ => []) fun _ => []).step s (.Log name level event) ≠ .error .nullRoot := by
  intro hall
  have hr := ((Run.start (M := logging (fun _ _ => []) fun _ => []) rfl).step (i := .assign rootOnly)
    (by decide) rfl).step (i := .getLogger "system".toList) (by decide) rfl
  exact hall _ _ hr "system".toList .INFO { time := 0 } (by decide) rfl

end QWebServer
