import QWebServer.Log.Export

/-!
# Loggers in another process

* `ManagerOp`, `managing` : the machine of the calls on the manager, its loggers and their appenders;
* `LoggerManager.Sound` : loggers have their names, and appenders that are fitted to them;
* `accepted`, `LogSet.cleaned` : what the listener reads of patterns with errors;
* `restarted` : what becomes of a logger that is printed and read, `Printable` : no pattern is empty or has an error,
  and no appender is without a formatter;
* `export_import_iff` : a process that loads the text of another one has its loggers.
-/

namespace QWebServer

open Lib

/-! ## The machine -/

/-- Calls on the manager, on its loggers and on their appenders, and assignments to `logs`. `addAppender` makes an
appender object with a level and a formatter, as the listener does, and adds it to the logger. The two `setFormatter` of
a logger take a pattern and a pointer, which is not null; that of an appender may be. -/
inductive ManagerOp
  | getLogger (name : Text)
  | assign (S : LogSet)
  | addAppender (name : Text) (a : LogAppenderDefine)
  | delAppender (name : Text) (a : Nat)
  | clearAppenders (name : Text)
  | setLevel (name : Text) (level : LogLevel)
  | setFormatter (name : Text) (val : Text)
  | setFormatterPtr (name : Text) (val : LogFormatter)
  | setAppenderLevel (a : Nat) (level : LogLevel)
  | setAppenderFormatter (a : Nat) (val : Option LogFormatter)
  | Log (name : Text) (level : LogLevel) (event : LogEvent)

namespace Logging

section
variable (strftime : Text → UInt64 → Text)

def withManager (s : Logging) (m : LoggerManager) : Logging := { s with manager := m }

def withAppender (s : Logging) (a : Nat) (f : LogAppender → LogAppender) : Logging :=
  s.withManager { s.manager with heap := Function.update s.manager.heap a ((s.manager.heap a).update f) }

def manage (s : Logging) : ManagerOp → Except LoggerFault (Text × Logging)
  | .getLogger name => .ok ([], s.withManager (s.manager.modify name id))
  | .assign S => ((s.assign S).mapError .appender).map ([], ·)
  | .addAppender name a => ((s.manager.defineAppender name a).mapError .appender).map fun m => ([], s.withManager m)
  | .delAppender name a => .ok ([], s.withManager (s.manager.delAppender name a))
  | .clearAppenders name => .ok ([], s.withManager (s.manager.clearAppenders name))
  | .setLevel name level => .ok ([], s.withManager (s.manager.setLevel name level))
  | .setFormatter name val => .ok ([], s.withManager (s.manager.setFormatterText name val))
  | .setFormatterPtr name val => .ok ([], s.withManager (s.manager.setFormatter name val))
  | .setAppenderLevel a level => .ok ([], s.withAppender a fun x => { x with level := level })
  | .setAppenderFormatter a val => .ok ([], s.withAppender a fun x => x.setFormatter val)
  | .Log name level event =>
    (s.manager.Log strftime 2 name level event).map fun r => (r.2, s.withManager r.1)

end

end Logging

def managing (strftime : Text → UInt64 → Text) (disk : Disk) : Machine Logging ManagerOp Text LoggerFault where
  init s := s = ⟨logsConfig, LoggerManager.new disk⟩
  enabled _ _ := True
  step := Logging.manage strftime

/-! ## What the calls keep -/

/-- The appender has a formatter of its own, or else that of its logger or none. -/
def Appender.Fitted (fmt : LogFormatter) (x : Appender) : Prop :=
  (x.base.hasFormatter = true ∧ ∃ f, x.base.formatter = some f) ∨
    (x.base.hasFormatter = false ∧ (x.base.formatter = some fmt ∨ x.base.formatter = none))

def LoggerState.Fitted (s : LoggerState) : Prop := ∀ a ∈ s.appenders, a.Fitted s.formatter

theorem LoggerState.Fitted.sub {s : LoggerState} (hs : s.Fitted) (level : LogLevel) {as : List Appender}
    (h : ∀ a ∈ as, a ∈ s.appenders) : (LoggerState.mk level s.formatter as).Fitted := fun a ha => hs a (h a ha)

theorem LogAppenderDefine.prescribed_fitted (a : LogAppenderDefine) (fmt : LogFormatter) :
    (a.prescribed fmt).Fitted fmt := by
  unfold LogAppenderDefine.prescribed
  by_cases he : a.formatter.isEmpty
  · simp only [if_pos he]
    split_ifs <;> exact .inr ⟨rfl, .inl rfl⟩
  · simp only [if_neg he]
    split_ifs <;> exact .inl ⟨rfl, _, rfl⟩

theorem Appender.log_base {strftime : Text → UInt64 → Text} {disk disk' : Disk} {c : LogCall} {x x' : Appender}
    {text : Text} (h : x.Log strftime disk c = .ok (x', disk', text)) : x'.base = x.base := by
  cases x with
  | file a =>
    obtain ⟨⟨a', d⟩, ha, h⟩ := bind_eq_ok h
    cases h
    cases hf : a.formatter with
    | some f =>
      obtain ⟨a₁, d₁, hok, hbase, -⟩ := FileAppender.Log_spec strftime hf disk c
      cases hok.symm.trans ha
      exact hbase
    | none =>
      unfold FileAppender.Log at ha
      by_cases hl : a.level ≤ c.level
      · rw [if_pos hl] at ha
        by_cases ht : a.lastTime + 3 ≤ c.event.time <;> simp [ht, hf] at ha
      · rw [if_neg hl] at ha
        cases ha
        rfl
  | stdout a =>
    obtain ⟨t, -, h⟩ := bind_eq_ok h
    cases h
    rfl

theorem Appender.Fitted.congr {x x' : Appender} {fmt : LogFormatter} (hx : x.Fitted fmt) (hb : x'.base = x.base) :
    x'.Fitted fmt := by
  unfold Appender.Fitted at hx ⊢
  rwa [hb]

theorem Appender.base_update (f : LogAppender → LogAppender) (x : Appender) : (x.update f).base = f x.base := by
  cases x <;> rfl

namespace LoggerManager

/-- The loggers have the names they are found by, and there is the one that the constructor makes. -/
structure Named (m : LoggerManager) : Prop where
  name : ∀ n, (m.getLogger n).name = n
  root : m.Has rootName

/-- **What every call keeps.** -/
structure Sound (m : LoggerManager) : Prop where
  apart : m.Apart
  named : m.Named
  states : ∀ n, (m.state n).Fitted

variable {m m' : LoggerManager} {name : Text}

theorem new_loggers_of_ne (disk : Disk) {n : Text} (hn : n ≠ rootName) : (new disk).loggers n = none := by
  show Function.update (fun _ => none) rootName _ n = none
  rw [Function.update_of_ne hn]

theorem new_named (disk : Disk) : (new disk).Named := by
  refine ⟨fun n => ?_, rfl⟩
  by_cases hn : n = rootName
  · subst hn
    rfl
  · rw [getLogger, new_loggers_of_ne disk hn]
    rfl

theorem new_formatter (disk : Disk) (n : Text) : ((new disk).state n).formatter = defaultFormatter := by
  by_cases hn : n = rootName
  · subst hn
    rfl
  · rw [state, getLogger, new_loggers_of_ne disk hn]
    rfl

theorem new_sound (disk : Disk) : (new disk).Sound := by
  refine ⟨new_apart disk, new_named disk, fun n x hx => ?_⟩
  rw [new_formatter]
  obtain ⟨a, -, rfl⟩ := List.mem_map.mp hx
  exact .inr ⟨rfl, .inl rfl⟩

theorem Named.modify (hm : m.Named) (name : Text) {f : Logger → Logger} (hf : ∀ l, (f l).name = l.name) :
    (m.modify name f).Named := by
  refine ⟨fun n => ?_, ?_⟩
  · by_cases hn : n = name
    · subst hn
      rw [getLogger_modify_self, hf]
      exact hm.name n
    · rw [getLogger_modify_of_ne m hn]
      exact hm.name n
  · by_cases hn : rootName = name
    · subst hn
      simp [Has, LoggerManager.modify]
    · simpa [Has, LoggerManager.modify, Function.update_of_ne hn] using hm.root

theorem Named.congr (hm : m.Named) (hl : m'.loggers = m.loggers) : m'.Named := by
  refine ⟨fun n => ?_, ?_⟩
  · rw [getLogger, hl]
    exact hm.name n
  · rw [Has, hl]
    exact hm.root

theorem Named.defineAppender (hm : m.Named) {a : LogAppenderDefine} (h : m.defineAppender name a = .ok m') :
    m'.Named := by
  unfold LoggerManager.defineAppender at h
  split at h
  · cases h
  · cases h
    exact (hm.modify name (f := fun l => { l with appenders := l.appenders ++ [m.next] }) fun _ => rfl).congr rfl

theorem Sound.frame (hm : m.Sound) (hf : Frame name m m') (hn : m'.Named) (hs : (m'.state name).Fitted) : m'.Sound := by
  refine ⟨hf.apart, hn, fun n => ?_⟩
  by_cases he : n = name
  · subst he
    exact hs
  · rw [hf.others n he]
    exact hm.states n

theorem Sound.setLevel (hm : m.Sound) (name : Text) (level : LogLevel) : (m.setLevel name level).Sound := by
  obtain ⟨hf, hst⟩ := setLevel_spec hm.apart name level
  refine hm.frame hf (hm.named.modify name fun _ => rfl) ?_
  rw [hst]
  exact (hm.states name).sub level fun _ h => h

theorem Sound.clearAppenders (hm : m.Sound) (name : Text) : (m.clearAppenders name).Sound := by
  obtain ⟨hf, hst⟩ := clearAppenders_spec hm.apart name
  refine hm.frame hf (hm.named.modify name fun _ => rfl) ?_
  rw [hst]
  exact (hm.states name).sub _ fun _ h => (List.not_mem_nil h).elim

theorem Sound.getLogger (hm : m.Sound) (name : Text) : (m.modify name id).Sound := by
  refine hm.frame (frame_modify hm.apart name fun _ _ h => h) (hm.named.modify name fun _ => rfl) ?_
  unfold state
  rw [getLogger_modify_self]
  exact hm.states name

theorem Sound.delAppender (hm : m.Sound) (name : Text) (a : Nat) : (m.delAppender name a).Sound := by
  refine hm.frame (frame_modify hm.apart name fun _ _ h => List.mem_of_mem_erase h)
    (hm.named.modify name fun _ => rfl) ?_
  unfold state LoggerManager.delAppender
  rw [getLogger_modify_self]
  refine (hm.states name).sub _ fun x hx => ?_
  obtain ⟨b, hb, rfl⟩ := List.mem_map.mp hx
  exact List.mem_map_of_mem (List.mem_of_mem_erase hb)

/-- Appenders without a formatter of their own take that of the logger. -/
theorem Sound.setFormatter (hm : m.Sound) (name : Text) (val : LogFormatter) : (m.setFormatter name val).Sound := by
  obtain ⟨hf, -, hfmt⟩ := setFormatter_spec hm.apart name val
  have hn : (m.setFormatter name val).Named :=
    (hm.named.modify name (f := fun l => { l with formatter := val }) fun _ => rfl).congr rfl
  refine hm.frame hf hn fun x hx => ?_
  rw [hfmt]
  rw [state, getLogger_setFormatter, getLogger_modify_self] at hx
  obtain ⟨a, ha, rfl⟩ := List.mem_map.mp hx
  have hold := hm.states name _ (List.mem_map_of_mem ha)
  have hheap : (m.setFormatter name val).heap a =
      (m.heap a).update fun x => if x.hasFormatter then x else { x with formatter := some val } := if_pos ha
  rw [hheap]
  rcases hold with ⟨hhas, hown⟩ | ⟨hhas, -⟩
  · refine .inl ?_
    rw [Appender.base_update, if_pos hhas]
    exact ⟨hhas, hown⟩
  · refine .inr ?_
    rw [Appender.base_update, if_neg (by simp [hhas])]
    exact ⟨hhas, .inl rfl⟩

theorem Sound.setFormatterText (hm : m.Sound) (name val : Text) : (m.setFormatterText name val).Sound := by
  unfold LoggerManager.setFormatterText
  split_ifs
  · exact hm
  · exact hm.setFormatter name _

end LoggerManager

/-! ## Patterns with errors -/

/-- A pattern that the listener reads: one with an error counts as none. -/
def accepted (pattern : Text) : Text := if (LogFormatter.mk pattern).isError then [] else pattern

theorem accepted_isError (pattern : Text) : (LogFormatter.mk (accepted pattern)).isError = false := by
  unfold accepted
  split_ifs with h
  · decide
  · simpa using h

theorem accepted_eq {pattern : Text} (h : (LogFormatter.mk pattern).isError = false) : accepted pattern = pattern := by
  rw [accepted, if_neg (by simp [h])]

theorem accepted_eq_nil {pattern : Text} (h : (LogFormatter.mk pattern).isError = true) : accepted pattern = [] :=
  if_pos h

/-- A definition of an appender, of a logger, and a set of them, as the listener reads them. -/
def LogAppenderDefine.cleaned (a : LogAppenderDefine) : LogAppenderDefine :=
  { a with formatter := accepted a.formatter }

@[inherit_doc LogAppenderDefine.cleaned]
def LogDefine.cleaned (d : LogDefine) : LogDefine :=
  { d with formatter := accepted d.formatter, appenders := d.appenders.map .cleaned }

theorem LogSet.cleaned_names (S : LogSet) :
    (S.defs.map LogDefine.cleaned).map LogDefine.name = S.defs.map LogDefine.name := by
  rw [List.map_map]
  rfl

@[inherit_doc LogAppenderDefine.cleaned]
def LogSet.cleaned (S : LogSet) : LogSet where
  defs := S.defs.map LogDefine.cleaned
  sorted := S.cleaned_names ▸ S.sorted

theorem LogSet.find_cleaned (S : LogSet) (n : Text) : S.cleaned.find n = (S.find n).map LogDefine.cleaned := by
  show (S.defs.map LogDefine.cleaned).find? _ = _
  rw [List.find?_map]
  rfl

namespace LoggerManager

variable {m m' : LoggerManager} {name : Text}

theorem defineAppender_cleaned (m : LoggerManager) (name : Text) (a : LogAppenderDefine) :
    m.defineAppender name a.cleaned = m.defineAppender name a := by
  have hconf : configure a.cleaned = configure a := by
    funext x
    cases hv : (LogFormatter.mk a.formatter).isError with
    | true => simp [configure, LogAppenderDefine.cleaned, accepted_eq_nil hv, hv]
    | false => simp [configure, LogAppenderDefine.cleaned, accepted_eq hv]
  unfold LoggerManager.defineAppender
  rw [hconf]
  rfl

theorem define_cleaned (m : LoggerManager) (d : LogDefine) : m.define d.cleaned = m.define d := by
  have hset : ∀ m : LoggerManager, (if (accepted d.formatter).isEmpty then m
      else m.setFormatterText d.name (accepted d.formatter)) =
        if d.formatter.isEmpty then m else m.setFormatterText d.name d.formatter := by
    intro m
    cases hv : (LogFormatter.mk d.formatter).isError with
    | true => simp [accepted_eq_nil hv, LoggerManager.setFormatterText, hv]
    | false => rw [accepted_eq hv]
  unfold define LogDefine.cleaned
  simp only [hset, List.foldlM_map, defineAppender_cleaned]

theorem onChange_cleaned (m : LoggerManager) (old new : LogSet) :
    m.onChange old new.cleaned = m.onChange old new := by
  unfold onChange
  simp only [LogSet.find_cleaned, Option.isSome_map]
  show (new.defs.map LogDefine.cleaned).foldlM _ m >>= _ = _
  simp only [List.foldlM_map, define_cleaned]
  rfl

/-- Another class of appenders than the two of the source leaves a null pointer. -/
theorem type_of_defineAppender {a : LogAppenderDefine} (h : m.defineAppender name a = .ok m') :
    a.type = 1 ∨ a.type = 2 := by
  by_contra hne
  rw [not_or] at hne
  have hnone : newAppender a m.disk = none := by
    unfold newAppender
    rw [if_neg hne.1, if_neg hne.2]
  rw [defineAppender, hnone] at h
  cases h

theorem Sound.defineAppender (hm : m.Sound) (name : Text) {a : LogAppenderDefine}
    (h : m.defineAppender name a = .ok m') : m'.Sound := by
  have htype := type_of_defineAppender h
  rw [← defineAppender_cleaned] at h
  obtain ⟨m₁, hok, hf, hst⟩ :=
    defineAppender_spec hm.apart name (a := a.cleaned) htype (accepted_isError a.formatter)
  cases hok.symm.trans h
  refine hm.frame hf (hm.named.defineAppender h) ?_
  rw [hst]
  intro x hx
  rcases List.mem_append.mp hx with hx | hx
  · exact hm.states name x hx
  · rw [List.mem_singleton.mp hx]
    exact LogAppenderDefine.prescribed_fitted _ _

theorem Sound.define (hm : m.Sound) {i : LogDefine} (h : m.define i = .ok m') : m'.Sound := by
  have hlevel := hm.setLevel i.name i.level
  refine foldlM_invariant (fun m a m' hm h => Sound.defineAppender hm i.name h) (Sound.clearAppenders ?_ i.name) h
  split_ifs
  · exact hlevel
  · exact hlevel.setFormatterText i.name i.formatter

theorem Sound.onChange (hm : m.Sound) {old new : LogSet} (h : LoggerManager.onChange old new m = .ok m') :
    m'.Sound := by
  obtain ⟨m₁, h₁, h⟩ := bind_eq_ok h
  have hm₁ : m₁.Sound := by
    refine foldlM_invariant (fun m i m' hm h => ?_) hm h₁
    split_ifs at h
    · cases h
      exact hm
    · exact hm.define h
  cases h
  refine List.foldlRecOn old.defs _ hm₁ fun m hm i _ => ?_
  split_ifs
  · exact hm
  · exact (hm.setLevel i.name .level100).clearAppenders i.name

theorem Sound.reheap (hm : m.Sound) (hl : m'.loggers = m.loggers) (hn : m'.next = m.next)
    (hh : ∀ a fmt, (m.heap a).Fitted fmt → (m'.heap a).Fitted fmt) : m'.Sound := by
  have hget : ∀ n, m'.getLogger n = m.getLogger n := fun n => by rw [LoggerManager.getLogger, hl]; rfl
  refine ⟨⟨fun n a ha => ?_, fun n n' a ha ha' => ?_⟩, hm.named.congr hl, fun n x hx => ?_⟩
  · rw [hget] at ha
    rw [hn]
    exact hm.apart.used n a ha
  · rw [hget] at ha ha'
    exact hm.apart.own n n' a ha ha'
  · rw [state, hget] at hx ⊢
    obtain ⟨a, ha, rfl⟩ := List.mem_map.mp hx
    exact hh a _ (hm.states n _ (List.mem_map_of_mem ha))

variable {strftime : Text → UInt64 → Text}

theorem logTo_spec {c : LogCall} {as : List Nat} {text : Text} (h : m.logTo strftime c as = .ok (m', text)) :
    m'.loggers = m.loggers ∧ m'.next = m.next ∧ ∀ a, (m'.heap a).base = (m.heap a).base := by
  induction as generalizing m text with
  | nil =>
    cases h
    exact ⟨rfl, rfl, fun _ => rfl⟩
  | cons a as ih =>
    obtain ⟨⟨x, disk, t⟩, hx, h⟩ := bind_eq_ok h
    obtain ⟨⟨m₁, rest⟩, h₁, h⟩ := bind_eq_ok h
    cases h
    obtain ⟨hl, hn, hb⟩ := ih h₁
    refine ⟨hl, hn, fun b => (hb b).trans ?_⟩
    by_cases he : b = a
    · subst he
      simpa using Appender.log_base hx
    · simp [Function.update_of_ne he]

theorem log_spec {k : Nat} {level : LogLevel} {event : LogEvent} {text : Text}
    (h : m.Log strftime k name level event = .ok (m', text)) :
    m'.loggers = m.loggers ∧ m'.next = m.next ∧ ∀ a, (m'.heap a).base = (m.heap a).base := by
  induction k generalizing name with
  | zero => cases h
  | succ k ih =>
    unfold LoggerManager.Log at h
    simp only at h
    split_ifs at h with hl ha
    · exact logTo_spec (mapError_eq_ok h)
    · split at h
      · cases h
      · exact ih h
    · cases h
      exact ⟨rfl, rfl, fun _ => rfl⟩

end LoggerManager

/-- The listener is in place, and the manager is sound. -/
structure Logging.Sound (s : Logging) : Prop where
  cbs : s.var.cbs = logsConfig.cbs
  manager : s.manager.Sound

theorem Logging.Sound.withAppender {s : Logging} (hs : s.Sound) (a : Nat) {f : LogAppender → LogAppender}
    (hf : ∀ x fmt, x.Fitted fmt → (Appender.update f x).Fitted fmt) : (s.withAppender a f).Sound := by
  refine ⟨hs.cbs, hs.manager.reheap rfl rfl fun b fmt hb => ?_⟩
  by_cases he : b = a
  · subst he
    simpa [Logging.withAppender, Logging.withManager] using hf _ _ hb
  · simpa [Logging.withAppender, Logging.withManager, Function.update_of_ne he] using hb

theorem Logging.Sound.assign {s s' : Logging} {S : LogSet} (hs : s.Sound) (h : s.assign S = .ok s') : s'.Sound := by
  unfold Logging.assign ConfigVar.setValue ConfigVar.compareAndNotify at h
  cases hb : s.var.val == S with
  | true =>
    rw [hb] at h
    cases h
    exact hs
  | false =>
    rw [hb] at h
    obtain ⟨m, hm, h⟩ := bind_eq_ok h
    have hnotify : LoggerManager.onChange s.var.val S s.manager = .ok m := by
      rw [← hm]
      unfold ConfigVar.notify
      rw [hs.cbs]
      rfl
    cases h
    exact ⟨hs.cbs, hs.manager.onChange hnotify⟩

/-- **One call.** -/
theorem Logging.Sound.step {strftime : Text → UInt64 → Text} {s s' : Logging} {op : ManagerOp} {text : Text}
    (hs : s.Sound) (h : s.manage strftime op = .ok (text, s')) : s'.Sound := by
  cases op with
  | getLogger name =>
    cases h
    exact ⟨hs.cbs, hs.manager.getLogger name⟩
  | assign S =>
    obtain ⟨s₁, ha, h⟩ := map_eq_ok h
    cases h
    exact hs.assign (mapError_eq_ok ha)
  | addAppender name a =>
    obtain ⟨m, hm, h⟩ := map_eq_ok h
    cases h
    exact ⟨hs.cbs, hs.manager.defineAppender name (mapError_eq_ok hm)⟩
  | delAppender name a =>
    cases h
    exact ⟨hs.cbs, hs.manager.delAppender name a⟩
  | clearAppenders name =>
    cases h
    exact ⟨hs.cbs, hs.manager.clearAppenders name⟩
  | setLevel name level =>
    cases h
    exact ⟨hs.cbs, hs.manager.setLevel name level⟩
  | setFormatter name val =>
    cases h
    exact ⟨hs.cbs, hs.manager.setFormatterText name val⟩
  | setFormatterPtr name val =>
    cases h
    exact ⟨hs.cbs, hs.manager.setFormatter name val⟩
  | setAppenderLevel a level =>
    cases h
    refine hs.withAppender a fun x fmt hx => ?_
    unfold Appender.Fitted at hx ⊢
    rwa [Appender.base_update]
  | setAppenderFormatter a val =>
    cases h
    refine hs.withAppender a fun x fmt _ => ?_
    unfold Appender.Fitted
    rw [Appender.base_update]
    cases val with
    | none => exact .inr ⟨rfl, .inr rfl⟩
    | some val => exact .inl ⟨rfl, val, rfl⟩
  | Log name level event =>
    obtain ⟨⟨m, t⟩, hl, h⟩ := map_eq_ok h
    cases h
    obtain ⟨hl, hn, hb⟩ := LoggerManager.log_spec hl
    exact ⟨hs.cbs, hs.manager.reheap hl hn fun a fmt ha => Appender.Fitted.congr ha (hb a)⟩

theorem run_sound {strftime : Text → UInt64 → Text} {disk : Disk} {h : List (Entry Logging ManagerOp Text)}
    {s : Logging} (hr : Run (managing strftime disk) h s) : s.Sound := by
  refine hr.invariant ?_ fun s i o t hs _ hstep => hs.step hstep
  rintro s rfl
  exact ⟨rfl, LoggerManager.new_sound disk⟩

/-! ## Another process -/

/-- An appender that was printed and read: the level is lost, and the file is opened again. -/
def Appender.restarted : Appender → Appender
  | file a => file { a with level := .UNKNOW, lastTime := 0 }
  | stdout a => stdout { a with level := .UNKNOW }

/-- A logger that was printed and read. -/
def LoggerState.restarted (s : LoggerState) : LoggerState :=
  ⟨s.level.reread, s.formatter, s.appenders.map Appender.restarted⟩

/-- The appender has a formatter; if that is its own, the pattern is not empty and has no error. -/
def Appender.Printable (x : Appender) : Prop :=
  ∃ f, x.base.formatter = some f ∧ (x.base.hasFormatter = true → f.pattern ≠ [] ∧ f.isError = false)

/-- No pattern is empty or has an error, and no appender is without a formatter. -/
def LoggerState.Printable (s : LoggerState) : Prop :=
  (s.formatter.pattern ≠ [] ∧ s.formatter.isError = false) ∧ ∀ a ∈ s.appenders, a.Printable

theorem accepted_nil : accepted [] = [] := accepted_eq (by decide)

theorem Appender.prescribed_eq_iff (x : Appender) (fmt : LogFormatter) :
    (LogAppenderDefine.ofAppender x).cleaned.prescribed fmt = x.restarted ↔
      if accepted x.base.ownPattern = [] then x.base.hasFormatter = false ∧ some fmt = x.base.formatter
      else x.base.hasFormatter = true ∧ some ⟨accepted x.base.ownPattern⟩ = x.base.formatter := by
  have h21 : ¬ (2 : Int32) = 1 := by decide
  cases x with
  | file a =>
    by_cases he : accepted a.ownPattern = [] <;>
      simp [LogAppenderDefine.prescribed, LogAppenderDefine.ofAppender, LogAppenderDefine.cleaned,
        Appender.restarted, Appender.base, he]
  | stdout a =>
    by_cases he : accepted a.ownPattern = [] <;>
      simp [LogAppenderDefine.prescribed, LogAppenderDefine.ofAppender, LogAppenderDefine.cleaned,
        Appender.restarted, Appender.base, he, h21]

theorem Appender.prescribed_iff {x : Appender} {fmt : LogFormatter} (hx : x.Fitted fmt) :
    (LogAppenderDefine.ofAppender x).cleaned.prescribed fmt = x.restarted ↔ x.Printable := by
  rw [Appender.prescribed_eq_iff]
  unfold LogAppender.ownPattern Appender.Printable
  rcases hx with ⟨hhas, ⟨pattern⟩, hf⟩ | ⟨hhas, hf⟩
  · cases hv : (LogFormatter.mk pattern).isError with
    | true => simp [hhas, hf, accepted_eq_nil hv, hv]
    | false => by_cases hp : pattern = [] <;> simp [hhas, hf, accepted_eq hv, hp, hv]
  · rcases hf with hf | hf <;> simp [hhas, hf, accepted_nil]

theorem LogDefine.ofLogger_formatterOr {heap : Nat → Appender} {l : Logger} :
    (LogDefine.ofLogger heap l).cleaned.formatterOr defaultFormatter = l.formatter ↔
      l.formatter.pattern ≠ [] ∧ l.formatter.isError = false := by
  obtain ⟨name, level, appenders, root, ⟨pattern⟩⟩ := l
  have hdef : defaultFormatter.pattern ≠ [] ∧ defaultFormatter.isError = false := by decide
  show (if (accepted pattern).isEmpty then defaultFormatter else ⟨accepted pattern⟩) = LogFormatter.mk pattern ↔ _
  cases hv : (LogFormatter.mk pattern).isError with
  | true =>
    rw [accepted_eq_nil hv]
    refine iff_of_false (fun h => ?_) fun h => absurd h.2 (by simp)
    have : defaultFormatter.isError = true := (congrArg LogFormatter.isError h).trans hv
    rw [hdef.2] at this
    cases this
  | false =>
    rw [accepted_eq hv]
    cases pattern with
    | nil => exact iff_of_false (fun h => hdef.1 (congrArg LogFormatter.pattern h)) fun h => h.1 rfl
    | cons c pattern => exact iff_of_true rfl ⟨List.cons_ne_nil c pattern, rfl⟩

theorem LogDefine.ofLogger_prescribed_iff {heap : Nat → Appender} {l : Logger} {s : LoggerState}
    (heq : s = ⟨l.level, l.formatter, l.appenders.map heap⟩) (hs : s.Fitted) :
    (LogDefine.ofLogger heap l).cleaned.prescribed = s.restarted ↔ s.Printable := by
  subst heq
  have hiff : (LogDefine.ofLogger heap l).cleaned.prescribed =
        (LoggerState.mk l.level l.formatter (l.appenders.map heap)).restarted ↔
      (LogDefine.ofLogger heap l).cleaned.formatterOr defaultFormatter = l.formatter ∧
        (l.appenders.map heap).map (fun x => (LogAppenderDefine.ofAppender x).cleaned.prescribed l.formatter) =
          (l.appenders.map heap).map Appender.restarted := by
    unfold LogDefine.prescribed LogDefine.stateOr LoggerState.restarted
    rw [LoggerState.mk.injEq]
    have happenders : ∀ fmt, (LogDefine.ofLogger heap l).cleaned.appenders.map (·.prescribed fmt) =
        (l.appenders.map heap).map fun x => (LogAppenderDefine.ofAppender x).cleaned.prescribed fmt := by
      intro fmt
      simp [LogDefine.ofLogger, LogDefine.cleaned, List.map_map, Function.comp_def]
    rw [happenders]
    constructor
    · rintro ⟨-, hf, ha⟩
      rw [hf] at ha
      exact ⟨hf, ha⟩
    · rintro ⟨hf, ha⟩
      rw [hf]
      exact ⟨rfl, rfl, ha⟩
  rw [hiff, LogDefine.ofLogger_formatterOr, List.map_inj_left]
  exact and_congr_right fun _ => forall₂_congr fun x hx => Appender.prescribed_iff (hs x hx)

/-- The definitions that are read from the loggers are valid, their patterns being accepted. -/
theorem LogDefine.ofLogger_valid (heap : Nat → Appender) (l : Logger) : (LogDefine.ofLogger heap l).cleaned.Valid := by
  refine ⟨accepted_isError _, fun a ha => ?_⟩
  obtain ⟨b, hb, rfl⟩ := List.mem_map.mp ha
  obtain ⟨x, -, rfl⟩ := List.mem_map.mp hb
  refine ⟨?_, accepted_isError _⟩
  cases x with
  | file a => exact .inl rfl
  | stdout a => exact .inr rfl

/-- **A process that loads the text of the loggers of another one.** After any calls, the text can be made; a process
that starts with it as the value of `logs` has a logger, with its level, formatter and appenders, exactly when none of
its patterns is empty or has an error and none of its appenders is without a formatter. What is lost is the levels of
appenders, and the level 100 of a logger that was switched off. -/
theorem export_import_iff {strftime : Text → UInt64 → Text} {disk : Disk} {h : List (Entry Logging ManagerOp Text)}
    {s : Logging} (hr : Run (managing strftime disk) h s) {names : List Text} (hn : s.manager.Listing names)
    {y : Yaml} (hy : ∀ n ∈ s.manager.nodes names, y.load (y.dump n) = some n) (disk' : Disk) :
    ∃ text m', s.manager.toYamlString y names = some text ∧
      (logsConfig.fromString (LogSet.cast y) text (.ok (LoggerManager.new disk'))).2.world = .ok m' ∧
      (∀ n, s.manager.Has n → (m'.state n = (s.manager.state n).restarted ↔ (s.manager.state n).Printable)) ∧
      ∀ n, ¬ s.manager.Has n → m'.state n = (LoggerManager.new disk').state n := by
  have hs := (run_sound hr).manager
  have hne : names ≠ [] := List.ne_nil_of_mem ((hn.mem rootName).mpr hs.named.root)
  obtain ⟨S, hread, hdefs⟩ := LogSet.cast_fromString hn.sorted hs.named.name hy
  have hvalid : S.cleaned.Valid := by
    intro d' hd'
    obtain ⟨d, hd, rfl⟩ := List.mem_map.mp hd'
    rw [hdefs] at hd
    obtain ⟨n, -, rfl⟩ := List.mem_map.mp hd
    exact LogDefine.ofLogger_valid _ _
  obtain ⟨m', hok, -, hst⟩ := LoggerManager.onChange_spec (new_apart disk') logsConfig.val hvalid
  rw [LoggerManager.onChange_cleaned] at hok
  refine ⟨_, m', LoggerManager.toYamlString_eq hy hne, ?_, fun n hhas => ?_, fun n hhas => ?_⟩
  · have hdiff : (logsConfig.val == S) = false := by
      show ([] : List LogDefine).isEqv S.defs LogDefine.eq = false
      rw [hdefs]
      cases names with
      | nil => exact absurd rfl hne
      | cons n names => rfl
    unfold ConfigVar.fromString
    rw [hread]
    show (logsConfig.setValueCalls S (.ok (LoggerManager.new disk'))).world = _
    unfold ConfigVar.setValueCalls
    rw [hdiff, ConfigVar.notifyCalls_eq, ← hok]
    rfl
  · have hmem : s.manager.definition n ∈ S.defs := by
      rw [hdefs]
      exact List.mem_map_of_mem ((hn.mem n).mpr hhas)
    have hfind : S.find n = some (s.manager.definition n) := by
      have := LogSet.find_of_mem hmem
      rwa [show (s.manager.definition n).name = n from hs.named.name n] at this
    have hchanged : m'.state n = (s.manager.definition n).cleaned.prescribed := by
      rw [hst, LoggerManager.changed, LogSet.find_cleaned, hfind, LoggerManager.new_formatter]
      rfl
    rw [hchanged]
    exact LogDefine.ofLogger_prescribed_iff rfl (hs.states n)
  · have hfind : S.find n = none := by
      cases hd : S.find n with
      | none => rfl
      | some d =>
        obtain ⟨hmem, rfl⟩ := LogSet.mem_of_find hd
        rw [hdefs] at hmem
        obtain ⟨n', hn', rfl⟩ := List.mem_map.mp hmem
        rw [show (s.manager.definition n').name = n' from hs.named.name n'] at hhas
        exact absurd ((hn.mem n').mp hn') hhas
    rw [hst, LoggerManager.changed, LogSet.find_cleaned, hfind]
    rfl

/-- The nodes of a manager as it is made: that of its appender, and that of its logger. -/
def newConsole : Node := Appender.exported (.stdout { formatter := some defaultFormatter })

def newRoot : Node :=
  Logger.node (fun _ => .stdout { formatter := some defaultFormatter }) { name := rootName, appenders := [0] }

/-- The texts of these nodes, and that of all loggers. -/
@[irreducible] def consoleText : Text := "type: stdoutAppender\nlevel: DEBUG".toList

@[irreducible] def rootText : Text :=
  ("name: root\nlevel: DEBUG\nformatter: \"%d\x7b%Y-%m-%d %H:%M:%S\x7d%T%t%T%N%T%F%T[%p]%T[%c]%T%f:%l%T%m%n\"\n" ++
    "appenders:\n  - type: stdoutAppender\n    level: DEBUG").toList

@[irreducible] def managerText : Text :=
  ("- name: root\n  level: DEBUG\n  formatter: \"%d\x7b%Y-%m-%d %H:%M:%S\x7d%T%t%T%N%T%F%T[%p]%T[%c]%T%f:%l%T%m%n\"" ++
    "\n  appenders:\n    - type: stdoutAppender\n      level: DEBUG").toList

/-- A library on these nodes. -/
def rootYaml : Yaml where
  dump
    | .map [_, _] => consoleText
    | .map _ => rootText
    | _ => managerText
  load v :=
    if v = consoleText then some newConsole
    else if v = rootText then some newRoot
    else if v = managerText then some (.seq [newRoot])
    else none

theorem rootYaml_load : rootYaml.load consoleText = some newConsole ∧ rootYaml.load rootText = some newRoot ∧
    rootYaml.load managerText = some (.seq [newRoot]) := by
  have hroot : rootText ≠ consoleText := by decide +kernel
  have hmanager : managerText ≠ consoleText := by decide +kernel
  have hmanager' : managerText ≠ rootText := by decide +kernel
  simp [rootYaml, hroot, hmanager, hmanager']

theorem new_listing (disk : Disk) : (LoggerManager.new disk).Listing [rootName] := by
  refine ⟨List.pairwise_singleton _ _, fun n => ?_⟩
  rw [List.mem_singleton]
  constructor
  · rintro rfl
    rfl
  · intro hhas
    by_contra hn
    rw [LoggerManager.Has, LoggerManager.new_loggers_of_ne disk hn] at hhas
    cases hhas

/-- The appender of `root` loses its level. -/
theorem export_import_iff_new :
    ∃ text m', (LoggerManager.new fun _ => []).toYamlString rootYaml [rootName] = some text ∧
      (logsConfig.fromString (LogSet.cast rootYaml) text (.ok (LoggerManager.new fun _ => []))).2.world = .ok m' ∧
      m'.state rootName =
        ⟨.DEBUG, defaultFormatter, [.stdout { level := .UNKNOW, formatter := some defaultFormatter }]⟩ := by
  have hload : ∀ n ∈ (LoggerManager.new fun _ => []).nodes [rootName], rootYaml.load (rootYaml.dump n) = some n := by
    obtain ⟨hconsole, hroot, hmanager⟩ := rootYaml_load
    intro n hn
    change n ∈ [.seq [newRoot], newRoot, newConsole] at hn
    simp only [List.mem_cons, List.not_mem_nil, or_false] at hn
    rcases hn with rfl | rfl | rfl
    · exact hmanager
    · exact hroot
    · exact hconsole
  obtain ⟨text, m', htext, hworld, hstate, -⟩ := export_import_iff
    (Run.start (M := managing (fun _ _ => []) fun _ => []) rfl) (new_listing _) hload fun _ => []
  refine ⟨text, m', htext, hworld, ?_⟩
  rw [(hstate rootName rfl).mpr ⟨?_, ?_⟩]
  · rfl
  · show defaultFormatter.pattern ≠ [] ∧ defaultFormatter.isError = false
    decide
  · intro a ha
    cases List.mem_singleton.mp ha
    refine ⟨defaultFormatter, rfl, fun h => ?_⟩
    cases h

end QWebServer
