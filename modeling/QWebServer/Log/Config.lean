import QWebServer.Lib.Run
import QWebServer.Log.Logger

/-!
# Loggers as a function of the configuration

* `LoggerState` : what a logger is to its callers, `LoggerManager.state` : that of each name;
* `LogDefine.prescribed` : what a definition asks for;
* `Apart` : loggers share no appender, `onChange_spec` : what the listener does to every name;
* `assignments` : the machine of assignments to `logs`, `Reflects` : the loggers are those of the last value;
* `Fits` : the assignments that the listener carries out, `reflects_iff` : the loggers are those of the last value all
  along a sequence exactly when its assignments fit.
-/

namespace QWebServer

open Lib

/-- What a logger is to its callers. -/
structure LoggerState where
  level : LogLevel
  formatter : LogFormatter
  appenders : List Appender

/-- The appender that a definition asks for, in a logger with the formatter `fmt`. -/
def LogAppenderDefine.prescribed (fmt : LogFormatter) (a : LogAppenderDefine) : Appender :=
  let base : LogAppender :=
    if a.formatter.isEmpty then { level := a.level, formatter := some fmt }
    else { level := a.level, formatter := some ⟨a.formatter⟩, hasFormatter := true }
  if a.type = 1 then .file { base with filename := a.file } else .stdout base

/-- The formatter of a definition, `fmt` when none is given. -/
def LogDefine.formatterOr (d : LogDefine) (fmt : LogFormatter) : LogFormatter :=
  if d.formatter.isEmpty then fmt else ⟨d.formatter⟩

/-- The logger of a definition, with the formatter `fmt` when none is given. -/
def LogDefine.stateOr (d : LogDefine) (fmt : LogFormatter) : LoggerState :=
  ⟨d.level, d.formatterOr fmt, d.appenders.map (·.prescribed (d.formatterOr fmt))⟩

/-- The logger that a definition asks for. -/
def LogDefine.prescribed (d : LogDefine) : LoggerState := d.stateOr defaultFormatter

/-- The formatters are valid and the appender types are 1 or 2. -/
def LogDefine.Valid (d : LogDefine) : Prop :=
  (LogFormatter.mk d.formatter).isError = false ∧
    ∀ a ∈ d.appenders, (a.type = 1 ∨ a.type = 2) ∧ (LogFormatter.mk a.formatter).isError = false

instance (d : LogDefine) : Decidable d.Valid := inferInstanceAs (Decidable (_ ∧ _))

def LogSet.Valid (S : LogSet) : Prop := ∀ d ∈ S.defs, d.Valid

instance (S : LogSet) : Decidable S.Valid := inferInstanceAs (Decidable (∀ d ∈ S.defs, d.Valid))

namespace LoggerManager

/-- The logger with the name `name` as its callers see it. -/
def state (m : LoggerManager) (name : Text) : LoggerState :=
  ⟨(m.getLogger name).level, (m.getLogger name).formatter, (m.getLogger name).appenders.map m.heap⟩

/-- Pointers to appenders are in use, and no two loggers have the same one. -/
structure Apart (m : LoggerManager) : Prop where
  used : ∀ n, ∀ a ∈ (m.getLogger n).appenders, a < m.next
  own : ∀ n n' a, a ∈ (m.getLogger n).appenders → a ∈ (m.getLogger n').appenders → n = n'

structure Frame (name : Text) (m m' : LoggerManager) : Prop where
  apart : m'.Apart
  others : ∀ n, n ≠ name → m'.state n = m.state n

theorem Frame.trans {name : Text} {m m₁ m₂ : LoggerManager} (h₁ : Frame name m m₁) (h₂ : Frame name m₁ m₂) :
    Frame name m m₂ :=
  ⟨h₂.apart, fun n hn => (h₂.others n hn).trans (h₁.others n hn)⟩

@[simp] theorem getLogger_modify_self (m : LoggerManager) (name : Text) (f : Logger → Logger) :
    (m.modify name f).getLogger name = f (m.getLogger name) := by
  simp [modify, getLogger]

theorem getLogger_modify_of_ne (m : LoggerManager) {name n : Text} (hn : n ≠ name) (f : Logger → Logger) :
    (m.modify name f).getLogger n = m.getLogger n := by
  simp [modify, getLogger, Function.update_of_ne hn]

theorem Apart.modify {m : LoggerManager} (hm : m.Apart) {name : Text} {f : Logger → Logger}
    (hf : ∀ l, ∀ a ∈ (f l).appenders, a ∈ l.appenders) : (m.modify name f).Apart := by
  have hsub : ∀ n, ∀ a ∈ ((m.modify name f).getLogger n).appenders, a ∈ (m.getLogger n).appenders := by
    intro n a ha
    by_cases hn : n = name
    · subst hn
      rw [getLogger_modify_self] at ha
      exact hf _ a ha
    · rwa [getLogger_modify_of_ne m hn] at ha
  constructor
  · intro n a ha
    exact hm.used n a (hsub n a ha)
  · intro n n' a ha ha'
    exact hm.own n n' a (hsub n a ha) (hsub n' a ha')

/-- An update of a logger that adds no appender leaves the others alone. -/
theorem frame_modify {m : LoggerManager} (hm : m.Apart) (name : Text) {f : Logger → Logger}
    (hf : ∀ l, ∀ a ∈ (f l).appenders, a ∈ l.appenders) : Frame name m (m.modify name f) := by
  refine ⟨hm.modify hf, fun n hn => ?_⟩
  unfold state
  rw [getLogger_modify_of_ne m hn]
  rfl

theorem setLevel_spec {m : LoggerManager} (hm : m.Apart) (name : Text) (level : LogLevel) :
    Frame name m (m.setLevel name level) ∧
      (m.setLevel name level).state name = ⟨level, (m.state name).formatter, (m.state name).appenders⟩ := by
  refine ⟨frame_modify hm name fun _ _ h => h, ?_⟩
  simp only [setLevel, state, getLogger_modify_self]
  rfl

theorem clearAppenders_spec {m : LoggerManager} (hm : m.Apart) (name : Text) :
    Frame name m (m.clearAppenders name) ∧
      (m.clearAppenders name).state name = ⟨(m.state name).level, (m.state name).formatter, []⟩ := by
  refine ⟨frame_modify hm name fun _ _ h => (List.not_mem_nil h).elim, ?_⟩
  simp only [clearAppenders, state, getLogger_modify_self]
  rfl

theorem getLogger_setFormatter (m : LoggerManager) (name : Text) (val : LogFormatter) (n : Text) :
    (m.setFormatter name val).getLogger n = (m.modify name fun l => { l with formatter := val }).getLogger n := rfl

/-- The appenders of `name` that take the formatter over are in no other logger. -/
theorem setFormatter_spec {m : LoggerManager} (hm : m.Apart) (name : Text) (val : LogFormatter) :
    Frame name m (m.setFormatter name val) ∧ ((m.setFormatter name val).state name).level = (m.state name).level ∧
      ((m.setFormatter name val).state name).formatter = val := by
  have hap : (m.modify name fun l => { l with formatter := val }).Apart := hm.modify fun _ _ h => h
  refine ⟨⟨⟨hap.used, hap.own⟩, fun n hn => ?_⟩, ?_, ?_⟩
  · have hheap : (m.getLogger n).appenders.map (m.setFormatter name val).heap =
        (m.getLogger n).appenders.map m.heap := by
      refine List.map_congr_left fun a ha => ?_
      show (if a ∈ (m.getLogger name).appenders then _ else _) = _
      rw [if_neg]
      exact fun ha' => hn (hm.own n name a ha ha')
    unfold state
    rw [getLogger_setFormatter, getLogger_modify_of_ne m hn, hheap]
  · simp only [state, getLogger_setFormatter, getLogger_modify_self]
  · simp only [state, getLogger_setFormatter, getLogger_modify_self]

theorem reset_spec {m : LoggerManager} (hm : m.Apart) {i : LogDefine} (hv : i.Valid) :
    let m₁ := m.setLevel i.name i.level
    let m₂ := if i.formatter.isEmpty then m₁ else m₁.setFormatterText i.name i.formatter
    Frame i.name m (m₂.clearAppenders i.name) ∧
      (m₂.clearAppenders i.name).state i.name = ⟨i.level, i.formatterOr (m.state i.name).formatter, []⟩ := by
  intro m₁ m₂
  obtain ⟨hf₁, hs₁⟩ := setLevel_spec hm i.name i.level
  have h₂ : Frame i.name m₁ m₂ ∧ (m₂.state i.name).level = i.level ∧
      (m₂.state i.name).formatter = i.formatterOr (m.state i.name).formatter := by
    by_cases he : i.formatter.isEmpty
    · simp only [m₂, if_pos he, LogDefine.formatterOr]
      exact ⟨⟨hf₁.apart, fun _ _ => rfl⟩, by rw [hs₁], by rw [hs₁]⟩
    · obtain ⟨hf, hl, hfmt⟩ := setFormatter_spec hf₁.apart i.name ⟨i.formatter⟩
      simp only [m₂, if_neg he, LogDefine.formatterOr, setFormatterText, hv.1, Bool.false_eq_true, if_false]
      exact ⟨hf, by rw [hl, hs₁], hfmt⟩
  obtain ⟨hf₂, hl₂, hfmt₂⟩ := h₂
  obtain ⟨hf₃, hs₃⟩ := clearAppenders_spec hf₂.apart i.name
  exact ⟨(hf₁.trans hf₂).trans hf₃, by rw [hs₃, hl₂, hfmt₂]⟩

/-- An appender that takes the formatter of the logger when it has none is the prescribed one. -/
theorem newAppender_spec {a : LogAppenderDefine} (ht : a.type = 1 ∨ a.type = 2)
    (hv : (LogFormatter.mk a.formatter).isError = false) (disk : Disk) (fmt : LogFormatter) :
    ∃ lap disk', newAppender a disk = some (lap, disk') ∧
      ((lap.update (configure a)).update fun x => if x.formatter.isNone then { x with formatter := some fmt } else x) =
        a.prescribed fmt := by
  unfold newAppender LogAppenderDefine.prescribed
  have h21 : ¬ (2 : Int32) = 1 := by decide
  rcases ht with ht | ht <;> by_cases he : a.formatter.isEmpty <;>
    simp [ht, he, h21, Appender.update, configure, hv, LogAppender.setFormatter, FileAppender.new]

theorem defineAppender_spec {m : LoggerManager} (hm : m.Apart) (name : Text) {a : LogAppenderDefine}
    (ht : a.type = 1 ∨ a.type = 2) (hv : (LogFormatter.mk a.formatter).isError = false) :
    ∃ m', m.defineAppender name a = .ok m' ∧ Frame name m m' ∧
      m'.state name = ⟨(m.state name).level, (m.state name).formatter,
        (m.state name).appenders ++ [a.prescribed (m.state name).formatter]⟩ := by
  obtain ⟨lap, disk', hnew, hlap⟩ := newAppender_spec ht hv m.disk (m.getLogger name).formatter
  unfold defineAppender
  simp only [hnew]
  generalize hm₁ : addAppender { m with
    heap := Function.update m.heap m.next (lap.update (configure a))
    next := m.next + 1, disk := disk' } name m.next = m₁
  have hget : ∀ n, m₁.getLogger n =
      (m.modify name fun l => { l with appenders := l.appenders ++ [m.next] }).getLogger n :=
        fun n => by rw [← hm₁]; rfl
  have hnext : m₁.next = m.next + 1 := by rw [← hm₁]; rfl
  have hold : ∀ x, x < m.next → m₁.heap x = m.heap x := by
    intro x hx
    rw [← hm₁]
    simp [addAppender, Function.update_of_ne (Nat.ne_of_lt hx)]
  have hheap : m₁.heap m.next = a.prescribed (m.getLogger name).formatter := by
    rw [← hlap, ← hm₁]
    simp only [addAppender, Function.update_self]
    rfl
  have hmap : ∀ n, (m.getLogger n).appenders.map m₁.heap = (m.getLogger n).appenders.map m.heap :=
    fun n => List.map_congr_left fun x hx => hold x (hm.used n x hx)
  have hmem : ∀ n x, x ∈ (m₁.getLogger n).appenders → x ∈ (m.getLogger n).appenders ∨ n = name ∧ x = m.next := by
    intro n x hx
    rw [hget] at hx
    by_cases hn : n = name
    · subst hn
      rw [getLogger_modify_self] at hx
      exact (List.mem_append.mp hx).imp_right fun h => ⟨rfl, List.mem_singleton.mp h⟩
    · rw [getLogger_modify_of_ne m hn] at hx
      exact .inl hx
  refine ⟨m₁, rfl, ⟨⟨?_, ?_⟩, ?_⟩, ?_⟩
  · intro n x hx
    rw [hnext]
    rcases hmem n x hx with hx | ⟨-, rfl⟩
    · exact Nat.lt_succ_of_lt (hm.used n x hx)
    · exact Nat.lt_succ_self _
  · intro n n' x hx hx'
    rcases hmem n x hx with hx | ⟨hn, he⟩ <;> rcases hmem n' x hx' with hx' | ⟨hn', he'⟩
    · exact hm.own n n' x hx hx'
    · exact absurd (he' ▸ hm.used n x hx) (Nat.lt_irrefl _)
    · exact absurd (he ▸ hm.used n' x hx') (Nat.lt_irrefl _)
    · rw [hn, hn']
  · intro n hn
    unfold state
    rw [hget, getLogger_modify_of_ne m hn, hmap]
  · unfold state
    rw [hget, getLogger_modify_self]
    simp only [List.map_append, List.map_singleton, hmap, hheap]

theorem defineAppenders_spec {m : LoggerManager} (hm : m.Apart) (name : Text) {as : List LogAppenderDefine}
    (hv : ∀ a ∈ as, (a.type = 1 ∨ a.type = 2) ∧ (LogFormatter.mk a.formatter).isError = false) :
    ∃ m', as.foldlM (fun m a => m.defineAppender name a) m = .ok m' ∧ Frame name m m' ∧
      m'.state name = ⟨(m.state name).level, (m.state name).formatter,
        (m.state name).appenders ++ as.map (·.prescribed (m.state name).formatter)⟩ := by
  induction as generalizing m with
  | nil => exact ⟨m, rfl, ⟨hm, fun _ _ => rfl⟩, by simp⟩
  | cons a as ih =>
    obtain ⟨ht, hf⟩ := hv a (by simp)
    obtain ⟨m₁, hok, hfr, hst⟩ := defineAppender_spec hm name ht hf
    obtain ⟨m₂, hok₂, hfr₂, hst₂⟩ := ih hfr.apart fun a' ha' => hv a' (List.mem_cons_of_mem _ ha')
    refine ⟨m₂, ?_, hfr.trans hfr₂, ?_⟩
    · rw [List.foldlM_cons, hok]
      exact hok₂
    · rw [hst₂, hst]
      simp

/-- **A definition for a new name**: the logger gets what the definition asks for, except that it keeps its formatter
when none is given. -/
theorem define_spec {m : LoggerManager} (hm : m.Apart) {i : LogDefine} (hv : i.Valid) :
    ∃ m', m.define i = .ok m' ∧ Frame i.name m m' ∧ m'.state i.name = i.stateOr (m.state i.name).formatter := by
  obtain ⟨hfr, hst⟩ := reset_spec hm hv
  obtain ⟨m', hok, hfr', hst'⟩ := defineAppenders_spec hfr.apart i.name hv.2
  refine ⟨m', hok, hfr.trans hfr', ?_⟩
  rw [hst', hst]
  rfl

theorem remove_spec {m : LoggerManager} (hm : m.Apart) (name : Text) :
    Frame name m (m.remove name) ∧ (m.remove name).state name = ⟨.level100, (m.state name).formatter, []⟩ := by
  obtain ⟨hf₁, hs₁⟩ := setLevel_spec hm name .level100
  obtain ⟨hf₂, hs₂⟩ := clearAppenders_spec hf₁.apart name
  exact ⟨hf₁.trans hf₂, by rw [remove, hs₂, hs₁]⟩

/-! ## The listener -/

/-- What the listener leaves of a logger. -/
def changed (old new : LogSet) (m : LoggerManager) (n : Text) : LoggerState :=
  match new.find n, old.find n with
  | some d, none => d.stateOr (m.state n).formatter
  | none, some _ => ⟨.level100, (m.state n).formatter, []⟩
  | _, _ => m.state n

theorem find?_name {ds : List LogDefine} {n : Text} (hn : n ∉ ds.map LogDefine.name) :
    ds.find? (fun d => d.name = n) = none := by
  rw [List.find?_eq_none]
  intro d hd he
  exact hn (List.mem_map.mpr ⟨d, hd, of_decide_eq_true he⟩)

/-- The loop over the definitions `ds` of the new value. -/
theorem defineAll_spec {m : LoggerManager} (hm : m.Apart) (old : LogSet) {ds : List LogDefine}
    (hn : (ds.map LogDefine.name).Nodup) (hv : ∀ d ∈ ds, d.Valid) :
    ∃ m', ds.foldlM (fun m i => if (old.find i.name).isSome then .ok m else m.define i) m = .ok m' ∧ m'.Apart ∧
      ∀ n, m'.state n = match ds.find? (fun d => d.name = n), old.find n with
        | some d, none => d.stateOr (m.state n).formatter
        | _, _ => m.state n := by
  induction ds generalizing m with
  | nil => exact ⟨m, rfl, hm, fun n => by simp⟩
  | cons d ds ih =>
    rw [List.map_cons, List.nodup_cons] at hn
    have hfirst : ∃ m₁, (if (old.find d.name).isSome then .ok m else m.define d) = (.ok m₁ : Except LogFault _) ∧
        Frame d.name m m₁ ∧ m₁.state d.name = match old.find d.name with
          | none => d.stateOr (m.state d.name).formatter
          | some _ => m.state d.name := by
      cases hold : old.find d.name with
      | some d' => exact ⟨m, rfl, ⟨hm, fun _ _ => rfl⟩, rfl⟩
      | none =>
        obtain ⟨m₁, hok, hfr, hst⟩ := define_spec hm (hv d (by simp))
        exact ⟨m₁, hok, hfr, hst⟩
    obtain ⟨m₁, hok, hfr, hst⟩ := hfirst
    obtain ⟨m₂, hok₂, hap₂, hst₂⟩ := ih hfr.apart hn.2 fun d' hd' => hv d' (List.mem_cons_of_mem _ hd')
    refine ⟨m₂, ?_, hap₂, fun n => ?_⟩
    · rw [List.foldlM_cons, hok]
      exact hok₂
    · rw [hst₂, List.find?_cons]
      by_cases he : d.name = n
      · subst he
        rw [find?_name hn.1, hst, decide_eq_true rfl]
        cases old.find d.name <;> rfl
      · rw [hfr.others n (Ne.symm he), decide_eq_false he]

/-- The loop over the definitions `ds` of the old value. -/
theorem removeAll_spec {m : LoggerManager} (hm : m.Apart) (new : LogSet) {ds : List LogDefine}
    (hn : (ds.map LogDefine.name).Nodup) :
    (ds.foldl (fun m i => if (new.find i.name).isSome then m else m.remove i.name) m).Apart ∧
      ∀ n, (ds.foldl (fun m i => if (new.find i.name).isSome then m else m.remove i.name) m).state n =
        match new.find n, ds.find? (fun d => d.name = n) with
        | none, some _ => ⟨.level100, (m.state n).formatter, []⟩
        | _, _ => m.state n := by
  induction ds generalizing m with
  | nil => exact ⟨hm, fun n => by cases new.find n <;> rfl⟩
  | cons d ds ih =>
    rw [List.map_cons, List.nodup_cons] at hn
    have hfirst : Frame d.name m (if (new.find d.name).isSome then m else m.remove d.name) ∧
        (if (new.find d.name).isSome then m else m.remove d.name).state d.name = match new.find d.name with
          | none => ⟨.level100, (m.state d.name).formatter, []⟩
          | some _ => m.state d.name := by
      cases hnew : new.find d.name with
      | some d' => exact ⟨⟨hm, fun _ _ => rfl⟩, rfl⟩
      | none => exact remove_spec hm d.name
    obtain ⟨hfr, hst⟩ := hfirst
    obtain ⟨hap₂, hst₂⟩ := ih hfr.apart hn.2
    refine ⟨hap₂, fun n => ?_⟩
    rw [List.foldl_cons, hst₂, List.find?_cons]
    by_cases he : d.name = n
    · subst he
      rw [find?_name hn.1, hst, decide_eq_true rfl]
      cases new.find d.name <;> rfl
    · rw [hfr.others n (Ne.symm he), decide_eq_false he]

end LoggerManager

theorem LogSet.nodup (S : LogSet) : (S.defs.map LogDefine.name).Nodup :=
  S.sorted.imp fun h => by
    rintro rfl
    exact List.lt_irrefl _ h

namespace LoggerManager

/-- **The listener**: added names get their definition, deleted ones are switched off, the others stay as they are. -/
theorem onChange_spec {m : LoggerManager} (hm : m.Apart) (old : LogSet) {new : LogSet} (hv : new.Valid) :
    ∃ m', m.onChange old new = .ok m' ∧ m'.Apart ∧ ∀ n, m'.state n = changed old new m n := by
  obtain ⟨m₁, hok, hap₁, hst₁⟩ := defineAll_spec hm old new.nodup hv
  obtain ⟨hap₂, hst₂⟩ := removeAll_spec hap₁ new old.nodup
  refine ⟨_, ?_, hap₂, fun n => ?_⟩
  · unfold onChange
    rw [hok]
    rfl
  · rw [hst₂, hst₁]
    show (match new.find n, old.find n with | none, some _ => _ | _, _ => _) = changed old new m n
    unfold changed LogSet.find
    cases new.defs.find? (fun d => d.name = n) <;> cases old.defs.find? (fun d => d.name = n) <;> rfl

end LoggerManager

/-! ## Sequences of assignments -/

/-- The variable `logs` and what its listener has written. -/
structure Logs where
  var : ConfigVar LogSet (Except LogFault LoggerManager)
  world : Except LogFault LoggerManager

abbrev Assigned := List (Entry Logs LogSet Unit)

def assignments (disk : Disk) : Machine Logs LogSet Unit Empty where
  init s := s = ⟨logsConfig, .ok (LoggerManager.new disk)⟩
  enabled _ S := S.Valid
  step s S := .ok ((), ⟨(s.var.setValue S s.world).1, (s.var.setValue S s.world).2⟩)

instance (disk : Disk) (s : Logs) (S : LogSet) : Decidable ((assignments disk).enabled s S) :=
  inferInstanceAs (Decidable S.Valid)

/-- The set that was assigned last, and the default before the first assignment. -/
def current (h : Assigned) : LogSet := (h.getLast?.map Entry.inp).getD logsConfig.val

/-- **The loggers are those of the last assigned set**: it is the value of the variable, its names have the loggers that
it prescribes, and the other names of the history are switched off. -/
structure Reflects (h : Assigned) (s : Logs) (m : LoggerManager) : Prop where
  world : s.world = .ok m
  value : s.var.val = current h
  defined : ∀ d ∈ (current h).defs, m.state d.name = d.prescribed
  dropped : ∀ e ∈ h, ∀ d ∈ e.inp.defs, (current h).find d.name = none →
    (m.state d.name).appenders = [] ∧ LogLevel.FATAL.val < (m.state d.name).level.val

/-- The assignments that the listener carries out: `==` tells the sets apart, a name of both sets is to have the same
logger, and an added name without a formatter has the default one. -/
structure Fits (s : Logs) (S : LogSet) : Prop where
  differs : (s.var.val == S) = true → s.var.val = S
  kept : ∀ d ∈ S.defs, ∀ d' ∈ s.var.val.defs, d'.name = d.name → d'.prescribed = d.prescribed
  added : ∀ m, s.world = .ok m → ∀ d ∈ S.defs, s.var.val.find d.name = none → d.formatter = [] →
    (m.state d.name).formatter = defaultFormatter

theorem LogSet.find_of_mem {S : LogSet} {d : LogDefine} (hd : d ∈ S.defs) : S.find d.name = some d := by
  have hnd := S.nodup
  unfold find
  generalize S.defs = ds at hd hnd
  induction ds with
  | nil => cases hd
  | cons d' ds ih =>
    rw [List.map_cons, List.nodup_cons] at hnd
    rw [List.find?_cons]
    rcases List.mem_cons.mp hd with rfl | hd
    · rw [decide_eq_true rfl]
    · have hne : d'.name ≠ d.name := fun he => hnd.1 (he ▸ List.mem_map_of_mem hd)
      rw [decide_eq_false hne]
      exact ih hd hnd.2

theorem LogSet.mem_of_find {S : LogSet} {n : Text} {d : LogDefine} (h : S.find n = some d) : d ∈ S.defs ∧ d.name = n :=
  ⟨List.mem_of_find?_eq_some h, by simpa using List.find?_some h⟩

/-- The listener is in place, and it has met no null pointer. -/
structure Ready (s : Logs) (m : LoggerManager) : Prop where
  cbs : s.var.cbs = logsConfig.cbs
  world : s.world = .ok m
  apart : m.Apart

theorem new_apart (disk : Disk) : (LoggerManager.new disk).Apart := by
  have hget : ∀ n a, a ∈ ((LoggerManager.new disk).getLogger n).appenders → n = "root".toList ∧ a = 0 := by
    intro n a ha
    by_cases hn : n = "root".toList
    · subst hn
      simpa [LoggerManager.getLogger, LoggerManager.new] using ha
    · have hnone : (LoggerManager.new disk).loggers n = none := by
        show Function.update (fun _ => none) "root".toList _ n = none
        rw [Function.update_of_ne hn]
      rw [LoggerManager.getLogger, hnone] at ha
      exact absurd ha List.not_mem_nil
  constructor
  · intro n a ha
    rw [(hget n a ha).2]
    exact Nat.one_pos
  · intro n n' a ha ha'
    rw [(hget n a ha).1, (hget n' a ha').1]

/-- **One assignment**: a set that `==` does not tell apart from the value is ignored, another one is stored and the
listener runs. -/
theorem Ready.step {disk : Disk} {s s' : Logs} {m : LoggerManager} {S : LogSet} {u : Unit} (hr : Ready s m)
    (hv : S.Valid)
    (hs : (assignments disk).step s S = .ok (u, s')) :
    (s.var.val == S) = true ∧ s' = s ∨
      ((s.var.val == S) = false ∧ s'.var.val = S ∧ ∃ m', Ready s' m' ∧
        ∀ n, m'.state n = LoggerManager.changed s.var.val S m n) := by
  have hs' : s' = ⟨(s.var.setValue S s.world).1, (s.var.setValue S s.world).2⟩ := by
    cases hs
    rfl
  unfold ConfigVar.setValue ConfigVar.compareAndNotify at hs'
  cases hb : s.var.val == S with
  | true =>
    simp only [hb, if_true] at hs'
    exact .inl ⟨rfl, hs'⟩
  | false =>
    obtain ⟨m', hok, hap, hst⟩ := LoggerManager.onChange_spec hr.apart s.var.val hv
    have hnot : s.var.notify S s.world = .ok m' := by
      unfold ConfigVar.notify
      rw [hr.cbs, hr.world, ← hok]
      rfl
    simp only [hb, Bool.false_eq_true, if_false, hnot] at hs'
    subst hs'
    exact .inr ⟨rfl, rfl, m', ⟨hr.cbs, rfl, hap⟩, hst⟩

theorem run_ready {disk : Disk} {h : Assigned} {s : Logs} (hr : Run (assignments disk) h s) : ∃ m, Ready s m := by
  refine hr.invariant (P := fun s => ∃ m, Ready s m) ?_ ?_
  · rintro s rfl
    exact ⟨_, rfl, rfl, new_apart disk⟩
  · rintro s S u s' ⟨m, hm⟩ hv hs
    rcases hm.step hv hs with ⟨-, rfl⟩ | ⟨-, -, m', hm', -⟩
    · exact ⟨m, hm⟩
    · exact ⟨m', hm'⟩

theorem current_concat (h : Assigned) (e : Entry Logs LogSet Unit) : current (h ++ [e]) = e.inp := by
  simp [current]

theorem LogDefine.stateOr_eq_prescribed {d : LogDefine} {fmt : LogFormatter} :
    d.stateOr fmt = d.prescribed ↔ (d.formatter = [] → fmt = defaultFormatter) := by
  unfold LogDefine.prescribed LogDefine.stateOr LogDefine.formatterOr
  by_cases hf : d.formatter = []
  · simp only [hf, List.isEmpty_nil, if_true, forall_true_left]
    constructor
    · intro h
      exact (LoggerState.mk.inj h).2.1
    · rintro rfl
      rfl
  · simp [hf]

theorem Reflects.step {disk : Disk} {h : Assigned} {s s' : Logs} {m : LoggerManager} {S : LogSet} {u : Unit}
    (hw : Reflects h s m) (hr : Ready s m) (hf : Fits s S) (hv : S.Valid)
    (hs : (assignments disk).step s S = .ok (u, s')) :
    ∃ m', Reflects (h ++ [⟨s, S, u, s'⟩]) s' m' := by
  have hself : ∀ d ∈ S.defs, S.find d.name ≠ none := fun d hd => by
    rw [LogSet.find_of_mem hd]
    exact Option.some_ne_none d
  rcases hr.step hv hs with ⟨hb, rfl⟩ | ⟨-, hval, m', hr', hst⟩
  · have hS : current h = S := hw.value.symm.trans (hf.differs hb)
    refine ⟨m, hw.world, ?_, ?_, ?_⟩ <;> rw [current_concat]
    · exact hf.differs hb
    · exact hS ▸ hw.defined
    · intro e he d hd hnone
      rcases List.mem_append.mp he with he | he
      · exact hw.dropped e he d hd (hS ▸ hnone)
      · rw [List.mem_singleton.mp he] at hd
        exact absurd hnone (hself d hd)
  · refine ⟨m', hr'.world, ?_, ?_, ?_⟩ <;> rw [current_concat]
    · exact hval
    · intro d hd
      rw [hst]
      unfold LoggerManager.changed
      rw [LogSet.find_of_mem hd]
      cases hold : s.var.val.find d.name with
      | none => exact LogDefine.stateOr_eq_prescribed.mpr (hf.added m hw.world d hd hold)
      | some d' =>
        obtain ⟨hd', hname⟩ := LogSet.mem_of_find hold
        show m.state d.name = d.prescribed
        rw [← hname, hw.defined d' (hw.value ▸ hd'), hf.kept d hd d' hd' hname]
    · intro e he d hd hnone
      rcases List.mem_append.mp he with he | he
      · rw [hst]
        unfold LoggerManager.changed
        rw [hnone]
        cases hold : s.var.val.find d.name with
        | none => exact hw.dropped e he d hd (hw.value ▸ hold)
        | some d' => exact ⟨rfl, show LogLevel.FATAL.val < LogLevel.level100.val by decide⟩
      · rw [List.mem_singleton.mp he] at hd
        exact absurd hnone (hself d hd)

/-- An assignment after which the loggers are those of the new set. -/
theorem fits_of_reflects {disk : Disk} {h : Assigned} {s s' : Logs} {m m₁ : LoggerManager} {S : LogSet} {u : Unit}
    (hw : Reflects h s m) (hr : Ready s m) (hv : S.Valid) (hs : (assignments disk).step s S = .ok (u, s'))
    (hw' : Reflects (h ++ [⟨s, S, u, s'⟩]) s' m₁) : Fits s S := by
  have hval' := hw'.value
  have hdef' := hw'.defined
  rw [current_concat] at hval' hdef'
  rcases hr.step hv hs with ⟨hb, rfl⟩ | ⟨hb, -, m', hr', hst⟩
  · -- ignored: the sets are the same one
    have hsame : ∀ d ∈ S.defs, s'.var.val.find d.name = some d := fun d hd => hval' ▸ LogSet.find_of_mem hd
    refine ⟨fun _ => hval', ?_, ?_⟩
    · intro d hd d' hd' hname
      have h' := LogSet.find_of_mem hd'
      rw [hname, hsame d hd] at h'
      rw [Option.some.inj h']
    · intro _ _ d hd hnone
      rw [hsame d hd] at hnone
      cases hnone
  · have hm : m₁ = m' := Except.ok.inj (hw'.world.symm.trans hr'.world)
    subst hm
    refine ⟨fun h => ?_, ?_, ?_⟩
    · rw [hb] at h
      cases h
    · intro d hd d' hd' hname
      have hd₁ := hdef' d hd
      rw [hst] at hd₁
      unfold LoggerManager.changed at hd₁
      rw [LogSet.find_of_mem hd, ← hname, LogSet.find_of_mem hd'] at hd₁
      rw [← hd₁]
      exact (hw.defined d' (hw.value ▸ hd')).symm
    · intro m₂ hm₂ d hd hnone
      have hm : m₂ = m := Except.ok.inj (hm₂.symm.trans hr.world)
      subst hm
      have hd₁ := hdef' d hd
      rw [hst] at hd₁
      unfold LoggerManager.changed at hd₁
      rw [LogSet.find_of_mem hd, hnone] at hd₁
      exact LogDefine.stateOr_eq_prescribed.mp hd₁

/-- **Along a sequence of assignments the loggers are those of the set assigned last exactly when** every assignment
fits the state it finds. -/
theorem reflects_iff {disk : Disk} {h : Assigned} {s : Logs} (hr : Run (assignments disk) h s) :
    (∀ h₁ s₁, h₁ <+: h → Run (assignments disk) h₁ s₁ → ∃ m, Reflects h₁ s₁ m) ↔ ∀ e ∈ h, Fits e.pre e.inp := by
  induction hr with
  | @start s h0 =>
    refine ⟨fun _ e he => absurd he List.not_mem_nil, fun _ h₁ s₁ hpre hr₁ => ?_⟩
    cases List.prefix_nil.mp hpre
    cases hr₁.of_nil
    exact ⟨LoggerManager.new disk, rfl, rfl, fun _ h => absurd h List.not_mem_nil, fun _ h => absurd h List.not_mem_nil⟩
  | @step h s s' S u hr hv hs ih =>
    obtain ⟨m, hm⟩ := run_ready hr
    have hworld : ∀ m', Reflects h s m' → m' = m := fun m' hw => Except.ok.inj (hw.world.symm.trans hm.world)
    constructor
    · intro hall e he
      have hw := hall h s (List.prefix_append _ _) hr
      have hw' := hall _ _ (List.prefix_refl _) (hr.step hv hs)
      rcases List.mem_append.mp he with he | he
      · exact ih.mp (fun h₁ s₁ hpre => hall h₁ s₁ (hpre.trans (List.prefix_append _ _))) e he
      · obtain ⟨m₀, hw⟩ := hw
        obtain ⟨m₁, hw'⟩ := hw'
        rw [List.mem_singleton.mp he]
        cases hworld m₀ hw
        exact fits_of_reflects hw hm hv hs hw'
    · intro hfits h₁ s₁ hpre hr₁
      have hbefore := ih.mpr fun e he => hfits e (List.mem_append_left _ he)
      rcases List.prefix_concat_iff.mp hpre with rfl | hpre
      · obtain ⟨m₀, hw⟩ := hbefore h s (List.prefix_refl _) hr
        cases hworld m₀ hw
        obtain ⟨-, -, hlast⟩ := hr₁.last
        rw [hlast]
        exact hw.step hm (hfits ⟨s, S, u, s'⟩ (by simp)) hv hs
      · exact hbefore h₁ s₁ hpre hr₁

def oneLogger : LogSet := ⟨[{ name := "a".toList, level := .INFO, appenders := [{ type := 2 }] }], by decide⟩

def noAppender : LogSet := ⟨[{ name := "a".toList, level := .INFO }], by decide⟩

/-- The value that `logs` begins with. -/
def noLogger : LogSet := logsConfig.val

theorem reflects_iff_deleted : ∃ h s, Run (assignments fun _ => []) h s ∧ h.map Entry.inp = [oneLogger, noLogger] ∧
    ∃ m, Reflects h s m ∧ (m.state "a".toList).appenders = [] := by
  have hr := ((Run.start (M := assignments fun _ => []) rfl).step (i := oneLogger) (by decide) rfl).step
    (i := noLogger) (by decide) rfl
  have hfits := (reflects_iff hr).mpr ?_
  · obtain ⟨m, hm⟩ := hfits _ _ (List.prefix_refl _) hr
    exact ⟨_, _, hr, rfl, m, hm, (hm.dropped _ List.mem_cons_self _ List.mem_cons_self rfl).1⟩
  intro e he
  rcases List.mem_append.mp he with he | he <;> rw [List.mem_singleton.mp he]
  · refine ⟨fun h => ?_, fun _ _ _ h => absurd h List.not_mem_nil, ?_⟩
    · exact absurd h (show ¬ (logsConfig.val == oneLogger) = true by decide)
    · rintro m hm d hd - -
      cases hm
      cases List.mem_singleton.mp hd
      decide
  · refine ⟨fun h => ?_, fun _ h => absurd h List.not_mem_nil, fun _ _ _ h => absurd h List.not_mem_nil⟩
    exact absurd h (show ¬ (oneLogger == noLogger) = true by decide)

/-- An assignment that only drops the appender is ignored. -/
theorem reflects_not_appenders : ¬ ∀ h s, Run (assignments fun _ => []) h s → ∃ m, Reflects h s m := by
  intro hall
  have hr := ((Run.start (M := assignments fun _ => []) rfl).step (i := oneLogger) (by decide) rfl).step
    (i := noAppender) (by decide) rfl
  obtain ⟨m, hw⟩ := hall _ _ hr
  have hval := congrArg LogSet.defs hw.value
  revert hval
  decide

end QWebServer
