import QWebServer.Log.Logger

/-!
# The formatters of appenders

* `FormatterSlot`, `FormatterHolder` : an appender and a logger, as far as their formatters go; `Objects` : the objects,
  by pointer;
* `FormatterOp`, `formatters` : the machine of the calls on them, where an appender is in one logger at a time;
* `Inherits` : attached appenders have a formatter, that of their logger unless it was set;
* `Meets`, `inherits_iff` : this holds all along a run exactly when its calls attach no appender that is left with the
  formatter of another logger, and take no formatter from an attached appender.
-/

namespace QWebServer

open Lib

/-- `LogAppender`: `hasFormatter` and the pointer `m_formatter`. -/
structure FormatterSlot where
  hasFormatter : Bool := false
  formatter : Option Nat := none

/-- `Logger`: the pointer `m_formater`, and `m_appenders`. -/
structure FormatterHolder where
  formatter : Nat
  appenders : List Nat := []

/-- The objects by their pointers, and the first pointers that are not in use. -/
structure Objects where
  logger : Nat → FormatterHolder := fun _ => ⟨0, []⟩
  appender : Nat → FormatterSlot := fun _ => {}
  formatter : Nat → LogFormatter := fun _ => defaultFormatter
  nextLogger : Nat := 0
  nextAppender : Nat := 0
  nextFormatter : Nat := 0

namespace Objects

/-- `new LogFormatter(pattern)`. -/
def newFormatter (s : Objects) (pattern : Text) : Objects :=
  { s with formatter := Function.update s.formatter s.nextFormatter ⟨pattern⟩, nextFormatter := s.nextFormatter + 1 }

/-- `Logger::Logger`, with a formatter of its own. -/
def newLogger (s : Objects) : Objects :=
  { s.newFormatter defaultFormatter.pattern with
    logger := Function.update s.logger s.nextLogger ⟨s.nextFormatter, []⟩, nextLogger := s.nextLogger + 1 }

/-- An appender without a formatter. -/
def newAppender (s : Objects) : Objects :=
  { s with appender := Function.update s.appender s.nextAppender {}, nextAppender := s.nextAppender + 1 }

def addAppender (s : Objects) (l a : Nat) : Objects :=
  { s with
    appender :=
      if (s.appender a).formatter.isNone then
        Function.update s.appender a { s.appender a with formatter := some (s.logger l).formatter }
      else s.appender
    logger := Function.update s.logger l { s.logger l with appenders := (s.logger l).appenders ++ [a] } }

/-- `Logger::delAppender`: the first occurrence. -/
def delAppender (s : Objects) (l a : Nat) : Objects :=
  { s with logger := Function.update s.logger l { s.logger l with appenders := (s.logger l).appenders.erase a } }

def clearAppenders (s : Objects) (l : Nat) : Objects :=
  { s with logger := Function.update s.logger l { s.logger l with appenders := [] } }

/-- `Logger::setFormatter(LogFormatter::ptr)`. -/
def setFormatter (s : Objects) (l val : Nat) : Objects :=
  { s with
    logger := Function.update s.logger l { s.logger l with formatter := val }
    appender := fun i =>
      if i ∈ (s.logger l).appenders ∧ (s.appender i).hasFormatter = false then
        { s.appender i with formatter := some val }
      else s.appender i }

/-- `Logger::setFormatter(const std::string&)`, with what it prints. -/
def setFormatterText (s : Objects) (l : Nat) (val : Text) : Text × Objects :=
  if (LogFormatter.mk val).isError then ("logger设置的格式错误了\n".toList, s.newFormatter val)
  else ([], (s.newFormatter val).setFormatter l s.nextFormatter)

/-- `LogAppender::setFormatter`. -/
def setAppenderFormatter (s : Objects) (a : Nat) (val : Option Nat) : Objects :=
  { s with appender := Function.update s.appender a { hasFormatter := val.isSome, formatter := val } }

def Attached (s : Objects) (l a : Nat) : Prop := a ∈ (s.logger l).appenders

end Objects

/-! ## The machine -/

inductive FormatterOp
  | newFormatter (pattern : Text)
  | newLogger
  | newAppender
  | addAppender (l a : Nat)
  | delAppender (l a : Nat)
  | clearAppenders (l : Nat)
  | setFormatter (l val : Nat)
  | setFormatterText (l : Nat) (val : Text)
  | setAppenderFormatter (a : Nat) (val : Option Nat)

namespace Objects

def step (s : Objects) : FormatterOp → Text × Objects
  | .newFormatter pattern => ([], s.newFormatter pattern)
  | .newLogger => ([], s.newLogger)
  | .newAppender => ([], s.newAppender)
  | .addAppender l a => ([], s.addAppender l a)
  | .delAppender l a => ([], s.delAppender l a)
  | .clearAppenders l => ([], s.clearAppenders l)
  | .setFormatter l val => ([], s.setFormatter l val)
  | .setFormatterText l val => s.setFormatterText l val
  | .setAppenderFormatter a val => ([], s.setAppenderFormatter a val)

/-- The objects exist, and an appender that is added is in no other logger. -/
def enabled (s : Objects) : FormatterOp → Prop
  | .newFormatter _ | .newLogger | .newAppender => True
  | .addAppender l a =>
    l < s.nextLogger ∧ a < s.nextAppender ∧ ∀ l' < s.nextLogger, l' ≠ l → ¬ s.Attached l' a
  | .delAppender l _ | .clearAppenders l | .setFormatterText l _ => l < s.nextLogger
  | .setFormatter l val => l < s.nextLogger ∧ val < s.nextFormatter
  | .setAppenderFormatter a val => a < s.nextAppender ∧ val.all (· < s.nextFormatter) = true

end Objects

def formatters : Machine Objects FormatterOp Text Empty where
  init s := s = {}
  enabled := Objects.enabled
  step s op := .ok (s.step op)

instance (s : Objects) (l a : Nat) : Decidable (s.Attached l a) := inferInstanceAs (Decidable (a ∈ _))

instance (s : Objects) (op : FormatterOp) : Decidable (formatters.enabled s op) :=
  match op with
  | .newFormatter _ | .newLogger | .newAppender => isTrue trivial
  | .addAppender l a =>
    inferInstanceAs
      (Decidable (l < s.nextLogger ∧ a < s.nextAppender ∧ ∀ l' < s.nextLogger, l' ≠ l → ¬ s.Attached l' a))
  | .delAppender l _ | .clearAppenders l | .setFormatterText l _ => inferInstanceAs (Decidable (l < s.nextLogger))
  | .setFormatter l val => inferInstanceAs (Decidable (l < s.nextLogger ∧ val < s.nextFormatter))
  | .setAppenderFormatter a val =>
    inferInstanceAs (Decidable (a < s.nextAppender ∧ val.all (· < s.nextFormatter) = true))

/-! ## The invariant -/

namespace Objects

variable {s s' : Objects}

/-- The appender has a formatter, and that of the logger unless one was set. -/
def Suits (s : Objects) (l a : Nat) : Prop :=
  ∃ f, (s.appender a).formatter = some f ∧ ((s.appender a).hasFormatter = false → f = (s.logger l).formatter)

/-- **Attached appenders have a formatter**, and that of their logger unless one was set. -/
def Inherits (s : Objects) : Prop := ∀ l a, s.Attached l a → s.Suits l a

/-- What a call must not do: attach an appender that has the formatter of another logger without one of its own, or take
the formatter from an attached appender. -/
def Meets (s : Objects) : FormatterOp → Prop
  | .addAppender l a =>
    (s.appender a).hasFormatter = true ∨ (s.appender a).formatter = none ∨
      (s.appender a).formatter = some (s.logger l).formatter
  | .setAppenderFormatter a val => val = none → ∀ l, ¬ s.Attached l a
  | _ => True

/-- Attached appenders and their loggers are in use, and no two loggers have the same one. -/
structure Apart (s : Objects) : Prop where
  loggers : ∀ l a, s.Attached l a → l < s.nextLogger
  used : ∀ l a, s.Attached l a → a < s.nextAppender
  own : ∀ l l' a, s.Attached l a → s.Attached l' a → l = l'

theorem Apart.of_attached (hs : s.Apart) (h : ∀ l a, s'.Attached l a → s.Attached l a)
    (hl : s.nextLogger ≤ s'.nextLogger) (ha : s.nextAppender ≤ s'.nextAppender) : s'.Apart where
  loggers l a h' := Nat.lt_of_lt_of_le (hs.loggers l a (h l a h')) hl
  used l a h' := Nat.lt_of_lt_of_le (hs.used l a (h l a h')) ha
  own l l' a h₁ h₂ := hs.own l l' a (h l a h₁) (h l' a h₂)

/-- Calls that attach nothing, and leave attached appenders and their loggers their formatters. -/
theorem Inherits.of_attached (hs : s.Inherits)
    (h : ∀ l a, s'.Attached l a → s.Attached l a ∧ s'.appender a = s.appender a ∧
      (s'.logger l).formatter = (s.logger l).formatter) : s'.Inherits := by
  intro l a ha
  obtain ⟨ha, hap, hlog⟩ := h l a ha
  unfold Suits
  rw [hap, hlog]
  exact hs l a ha

/-- A logger that loses appenders and, where it keeps one, keeps its formatter. -/
theorem attached_of_update {l : Nat} {x : FormatterHolder} (hlog : s'.logger = Function.update s.logger l x)
    (hx : ∀ a ∈ x.appenders, s.Attached l a ∧ x.formatter = (s.logger l).formatter) {i j : Nat}
    (h : s'.Attached i j) : s.Attached i j ∧ (s'.logger i).formatter = (s.logger i).formatter := by
  unfold Attached at h
  rw [hlog] at h ⊢
  by_cases hi : i = l
  · subst hi
    rw [Function.update_self] at h ⊢
    exact hx j h
  · rw [Function.update_of_ne hi] at h ⊢
    exact ⟨h, rfl⟩

theorem attached_newLogger {i j : Nat} (h : s.newLogger.Attached i j) :
    s.Attached i j ∧ (s.newLogger.logger i).formatter = (s.logger i).formatter :=
  attached_of_update rfl (fun _ ha => absurd ha List.not_mem_nil) h

theorem attached_delAppender {l a i j : Nat} (h : (s.delAppender l a).Attached i j) :
    s.Attached i j ∧ ((s.delAppender l a).logger i).formatter = (s.logger i).formatter :=
  attached_of_update (x := { s.logger l with appenders := (s.logger l).appenders.erase a }) rfl
    (fun _ ha => ⟨List.mem_of_mem_erase ha, rfl⟩) h

theorem attached_clearAppenders {l i j : Nat} (h : (s.clearAppenders l).Attached i j) :
    s.Attached i j ∧ ((s.clearAppenders l).logger i).formatter = (s.logger i).formatter :=
  attached_of_update rfl (fun _ ha => absurd ha List.not_mem_nil) h

theorem attached_addAppender {l a i j : Nat} :
    (s.addAppender l a).Attached i j ↔ s.Attached i j ∨ i = l ∧ j = a := by
  unfold Attached addAppender
  by_cases hi : i = l
  · subst hi
    simp
  · simp [hi]

theorem attached_setFormatter {l val i j : Nat} : (s.setFormatter l val).Attached i j ↔ s.Attached i j := by
  unfold Attached setFormatter
  by_cases hi : i = l
  · subst hi
    simp
  · simp [hi]

theorem Apart.setFormatter (hs : s.Apart) (l val : Nat) : (s.setFormatter l val).Apart :=
  hs.of_attached (fun _ _ h => attached_setFormatter.mp h) (Nat.le_refl _) (Nat.le_refl _)

/-- **One call keeps appenders apart.** -/
theorem Apart.step (hs : s.Apart) {op : FormatterOp} (he : s.enabled op) : (s.step op).2.Apart := by
  cases op with
  | newFormatter pattern => exact hs.of_attached (fun _ _ h => h) (Nat.le_refl _) (Nat.le_refl _)
  | newLogger => exact hs.of_attached (fun _ _ h => (attached_newLogger h).1) (Nat.le_succ _) (Nat.le_refl _)
  | newAppender => exact hs.of_attached (fun _ _ h => h) (Nat.le_refl _) (Nat.le_succ _)
  | addAppender l a =>
    obtain ⟨hl, ha, hother⟩ := he
    have hfree : ∀ i, s.Attached i a → i = l := by
      intro i hi
      by_contra hne
      exact hother i (hs.loggers i a hi) hne hi
    constructor
    · intro i j h
      rcases attached_addAppender.mp h with h | ⟨rfl, rfl⟩
      · exact hs.loggers i j h
      · exact hl
    · intro i j h
      rcases attached_addAppender.mp h with h | ⟨rfl, rfl⟩
      · exact hs.used i j h
      · exact ha
    · intro i i' j h h'
      rcases attached_addAppender.mp h with hij | ⟨hi, hj⟩
      · rcases attached_addAppender.mp h' with hij' | ⟨hi', hj'⟩
        · exact hs.own i i' j hij hij'
        · subst hi' hj'
          exact hfree i hij
      · subst hi hj
        rcases attached_addAppender.mp h' with hij' | ⟨hi', -⟩
        · exact (hfree i' hij').symm
        · exact hi'.symm
  | delAppender l a => exact hs.of_attached (fun _ _ h => (attached_delAppender h).1) (Nat.le_refl _) (Nat.le_refl _)
  | clearAppenders l =>
    exact hs.of_attached (fun _ _ h => (attached_clearAppenders h).1) (Nat.le_refl _) (Nat.le_refl _)
  | setFormatter l val => exact hs.setFormatter l val
  | setFormatterText l val =>
    have hnew : (s.newFormatter val).Apart := hs.of_attached (fun _ _ h => h) (Nat.le_refl _) (Nat.le_refl _)
    simp only [Objects.step, setFormatterText]
    split_ifs
    · exact hnew
    · exact hnew.setFormatter l s.nextFormatter
  | setAppenderFormatter a val => exact hs.of_attached (fun _ _ h => h) (Nat.le_refl _) (Nat.le_refl _)

theorem Inherits.setFormatter (ha : s.Apart) (hs : s.Inherits) (l val : Nat) : (s.setFormatter l val).Inherits := by
  intro i j h
  have hij := attached_setFormatter.mp h
  obtain ⟨f, hf, hown⟩ := hs i j hij
  unfold Suits Objects.setFormatter
  by_cases hi : i = l
  · subst hi
    simp only [Function.update_self]
    split_ifs with hj
    · exact ⟨val, rfl, fun _ => rfl⟩
    · exact ⟨f, hf, fun hno => absurd ⟨hij, hno⟩ hj⟩
  · have hj : ¬ (j ∈ (s.logger l).appenders ∧ (s.appender j).hasFormatter = false) :=
      fun hj => hi (ha.own i l j hij hj.1)
    simp only [if_neg hj, Function.update_of_ne hi]
    exact ⟨f, hf, hown⟩

theorem inherits_addAppender_iff (hs : s.Inherits) (l a : Nat) :
    (s.addAppender l a).Inherits ↔ s.Meets (.addAppender l a) := by
  have hlog : ∀ i, ((s.addAppender l a).logger i).formatter = (s.logger i).formatter := by
    intro i
    unfold addAppender
    by_cases hi : i = l
    · subst hi
      simp
    · simp [hi]
  cases hfa : (s.appender a).formatter with
  | none =>
    -- the appender gets the formatter of the logger, and was not attached before
    have hnew : (s.addAppender l a).appender =
        Function.update s.appender a { s.appender a with formatter := some (s.logger l).formatter } := by
      unfold addAppender
      rw [hfa]
      rfl
    refine iff_of_true ?_ (.inr (.inl hfa))
    intro i j h
    unfold Suits
    rw [hlog, hnew]
    rcases attached_addAppender.mp h with hij | ⟨rfl, rfl⟩
    · have hj : j ≠ a := by
        rintro rfl
        obtain ⟨f, hf, -⟩ := hs i j hij
        rw [hfa] at hf
        cases hf
      rw [Function.update_of_ne hj]
      exact hs i j hij
    · rw [Function.update_self]
      exact ⟨_, rfl, fun _ => rfl⟩
  | some f =>
    have hold : (s.addAppender l a).appender = s.appender := by
      unfold addAppender
      rw [hfa]
      rfl
    have hsuits : ∀ i j, (s.addAppender l a).Suits i j ↔ s.Suits i j := by
      intro i j
      unfold Suits
      rw [hlog, hold]
    have hmeets : s.Meets (.addAppender l a) ↔ s.Suits l a := by
      unfold Meets Suits
      simp only [hfa, Option.some.injEq, reduceCtorEq, false_or, exists_eq_left']
      cases (s.appender a).hasFormatter with
      | true => simp
      | false => simp
    rw [hmeets]
    constructor
    · intro h
      exact (hsuits l a).mp (h l a (attached_addAppender.mpr (.inr ⟨rfl, rfl⟩)))
    · intro hla i j h
      rw [hsuits]
      rcases attached_addAppender.mp h with h | ⟨rfl, rfl⟩
      · exact hs i j h
      · exact hla

theorem inherits_setAppenderFormatter_iff (hs : s.Inherits) (a : Nat) (val : Option Nat) :
    (s.setAppenderFormatter a val).Inherits ↔ s.Meets (.setAppenderFormatter a val) := by
  have hself : (s.setAppenderFormatter a val).appender a = { hasFormatter := val.isSome, formatter := val } :=
    Function.update_self ..
  have hother : ∀ j, j ≠ a → (s.setAppenderFormatter a val).appender j = s.appender j :=
    fun j hj => Function.update_of_ne hj ..
  constructor
  · rintro h rfl l hl
    obtain ⟨f, hf, -⟩ := h l a hl
    rw [hself] at hf
    cases hf
  · intro h l j hl
    unfold Suits
    by_cases hj : j = a
    · subst hj
      rw [hself]
      cases val with
      | none => exact absurd hl (h rfl l)
      | some f => exact ⟨f, rfl, nofun⟩
    · rw [hother j hj]
      exact hs l j hl

/-- **One call.** -/
theorem inherits_step_iff (ha : s.Apart) (hs : s.Inherits) (op : FormatterOp) :
    (s.step op).2.Inherits ↔ s.Meets op := by
  cases op with
  | newFormatter pattern => exact iff_of_true (hs.of_attached fun _ _ h => ⟨h, rfl, rfl⟩) trivial
  | newLogger =>
    exact iff_of_true (hs.of_attached fun _ _ h => ⟨(attached_newLogger h).1, rfl, (attached_newLogger h).2⟩) trivial
  | newAppender =>
    refine iff_of_true (hs.of_attached fun l a h => ⟨h, ?_, rfl⟩) trivial
    exact Function.update_of_ne (Nat.ne_of_lt (ha.used l a h)) ..
  | addAppender l a => exact inherits_addAppender_iff hs l a
  | delAppender l a =>
    exact iff_of_true (hs.of_attached fun _ _ h => ⟨(attached_delAppender h).1, rfl, (attached_delAppender h).2⟩)
      trivial
  | clearAppenders l =>
    exact iff_of_true
      (hs.of_attached fun _ _ h => ⟨(attached_clearAppenders h).1, rfl, (attached_clearAppenders h).2⟩) trivial
  | setFormatter l val => exact iff_of_true (hs.setFormatter ha l val) trivial
  | setFormatterText l val =>
    have hnew : (s.newFormatter val).Inherits := hs.of_attached fun _ _ h => ⟨h, rfl, rfl⟩
    have hapart : (s.newFormatter val).Apart := ha.of_attached (fun _ _ h => h) (Nat.le_refl _) (Nat.le_refl _)
    refine iff_of_true ?_ trivial
    simp only [Objects.step, setFormatterText]
    split_ifs
    · exact hnew
    · exact hnew.setFormatter hapart l s.nextFormatter
  | setAppenderFormatter a val => exact inherits_setAppenderFormatter_iff hs a val

end Objects

/-! ## Runs -/

theorem formatters_step {s t : Objects} {op : FormatterOp} {o : Text} (h : formatters.step s op = .ok (o, t)) :
    t = (s.step op).2 :=
  (congrArg Prod.snd (Except.ok.inj h)).symm

theorem run_apart {h : List (Entry Objects FormatterOp Text)} {s : Objects} (hr : Run formatters h s) : s.Apart := by
  refine hr.invariant ?_ ?_
  · rintro s rfl
    exact ⟨nofun, nofun, nofun⟩
  · intro s op o t hs he hstep
    rw [formatters_step hstep]
    exact hs.step he

/-- **Attached appenders have their formatters in every state of a run exactly when** each of its calls meets the
condition. -/
theorem inherits_iff {h : List (Entry Objects FormatterOp Text)} {s : Objects} (hr : Run formatters h s) :
    (∀ e ∈ h, e.post.Inherits) ↔ ∀ e ∈ h, e.pre.Meets e.inp := by
  refine hr.forall_post_iff ?_ ?_
  · rintro s rfl
    exact nofun
  · intro h e hr hstep hs
    rw [formatters_step hstep.2]
    exact Objects.inherits_step_iff (run_apart hr) hs e.inp

/-- An appender that is attached and then takes over a new formatter of its logger. -/
theorem inherits_iff_attach : ∃ h s, Run formatters h s ∧ s.Attached 0 0 ∧ (s.appender 0).formatter = some 1 ∧
    ∀ e ∈ h, e.post.Inherits := by
  have hr := ((((Run.start (M := formatters) rfl).step (i := .newLogger) (by decide) rfl).step (i := .newAppender)
    (by decide) rfl).step (i := .addAppender 0 0) (by decide) rfl).step (i := .setFormatterText 0 "%m%n".toList)
    (by decide) rfl
  refine ⟨_, _, hr, by decide, by decide, (inherits_iff hr).mpr ?_⟩
  simp only [List.nil_append, List.forall_mem_append, List.forall_mem_singleton]
  exact ⟨⟨⟨trivial, trivial⟩, .inr (.inl rfl)⟩, trivial⟩

/-- An appender that moves from one logger to another keeps the formatter of the first one. -/
theorem inherits_not_moved : ¬ ∀ h s, Run formatters h s → s.Inherits := by
  intro hall
  have hr := ((((((Run.start (M := formatters) rfl).step (i := .newLogger) (by decide) rfl).step (i := .newLogger)
    (by decide) rfl).step (i := .newAppender) (by decide) rfl).step (i := .addAppender 0 0) (by decide) rfl).step
    (i := .delAppender 0 0) (by decide) rfl).step (i := .addAppender 1 0) (by decide) rfl
  obtain ⟨f, hf, hown⟩ := hall _ _ hr 1 0 (by decide)
  have h0 : some 0 = some f := hf
  have h1 : f = 1 := hown rfl
  rw [h1] at h0
  cases h0

end QWebServer
