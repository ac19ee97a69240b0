import Mathlib.Logic.Function.Basic
import QWebServer.Lib.Run
import QWebServer.Schedular.Queue

/-!
# The scheduler that hooked calls find

* `Object` : a `Schedular` or an `IOManager`, with what its constructor, `start`, `stop` and its destructor look at;
* `ThreadLocal` : `t_schedular` and `t_hook_enable` of a thread;
* `construct`, `start`, `enterRun`, `stop`, `destroy` : what they do to these;
* `getThis` : `IOManager::GetThis`, by the dynamic type of the object;
* `Op`, `machine` : lives of schedulers on any threads; the parts of `stop` that wait are steps of their own;
* `Finds` : where hooks are on there is an `IOManager`;
* `Keeps`, `finds_of_keeps` : this holds in runs where only an `IOManager` runs, and none ends under a thread with
  hooks.
-/

namespace QWebServer.Lifecycle

open Lib

variable {τ : Type}

inductive Kind
  | schedular
  | ioManager
  deriving DecidableEq

/-- `Schedular`. `rootThread` is `none` for -1, where `m_rootFiber` is null; `rootState` is the state of
`m_rootFiber`. -/
structure Object (τ : Type) where
  kind : Kind := .schedular
  alive : Bool := false
  threadCount : Nat := 0
  rootThread : Option τ := none
  rootState : Fiber.State := .init
  stopping : Bool := true
  autoStop : Bool := false
  threads : List τ := []

/-- A thread: `t_schedular`, `t_hook_enable`, and the object whose `run` it was created for and has not entered yet. -/
structure ThreadLocal where
  schedular : Option Nat := none
  hookEnable : Bool := false
  entry : Option Nat := none
  live : Bool := true

/-- The objects by their pointers, the first pointer that is not in use, and the threads. -/
structure State (τ : Type) where
  objects : Nat → Object τ := fun _ => {}
  next : Nat := 0
  thread : τ → ThreadLocal

/-- The assertions of `Schedular`, and a hooked call without an `IOManager`. -/
inductive Fault
  | noThreads
  | otherSchedular
  | threadsLeft
  | notStopping
  | dangling
  | nullIOManager
  deriving DecidableEq

/-- The hooked calls that ask for the `IOManager`; `doIO` is one that gets `EAGAIN`. -/
inductive HookedCall
  | sleep
  | usleep
  | nanosleep
  | connect
  | doIO

/-- The steps. In `construct` and `start`, `us` are the threads that are created; in `stop`, `drained` and `drained'`
are what its two calls of `stopping` return. `returned` is the end of `run` in the root fiber, `exit` the end of a
thread, and `join` the end of the joins in `stop`. -/
inductive Op (τ : Type)
  | construct (t : τ) (kind : Kind) (threads : Nat) (useCaller : Bool) (us : List τ)
  | start (t : τ) (o : Nat) (us : List τ)
  | run (u : τ)
  | stop (t : τ) (o : Nat) (drained drained' : Bool)
  | returned (o : Nat)
  | exit (u : τ)
  | join (o : Nat)
  | destroy (t : τ) (o : Nat)
  | hooked (t : τ) (c : HookedCall)

namespace State

def setObject (s : State τ) (o : Nat) (x : Object τ) : State τ := { s with objects := Function.update s.objects o x }

def newObject (s : State τ) (x : Object τ) : State τ := { s.setObject s.next x with next := s.next + 1 }

/-- `IOManager::GetThis`: the `dynamic_cast` of `t_schedular`. -/
def getThis (s : State τ) (t : τ) : Except Fault (Option Nat) :=
  match (s.thread t).schedular with
  | none => .ok none
  | some o =>
    if (s.objects o).alive = false then .error .dangling
    else
      match (s.objects o).kind with
      | .schedular => .ok none
      | .ioManager => .ok (some o)

/-- A hooked call on the thread `t`. -/
def hooked (s : State τ) (t : τ) : Except Fault Unit :=
  if (s.thread t).hookEnable = false then .ok ()
  else do
    match ← s.getThis t with
    | none => .error .nullIOManager
    | some _ => return ()

section
variable [DecidableEq τ]

def setThread (s : State τ) (t : τ) (l : ThreadLocal) : State τ := { s with thread := Function.update s.thread t l }

/-- New threads, for the `run` of an object. -/
def newThreads (s : State τ) (o : Nat) (us : List τ) : State τ :=
  { s with thread := fun u => if u ∈ us then { entry := some o } else s.thread u }

/-- `Schedular::start`: the threads `us` are created. -/
def start (s : State τ) (o : Nat) (us : List τ) : Except Fault (State τ) :=
  if (s.objects o).stopping = false then .ok s
  else if (s.objects o).threads ≠ [] then .error .threadsLeft
  else
    .ok ((s.setObject o { s.objects o with stopping := false, threads := us }).newThreads o us)

/-- `Schedular::Schedular` on the thread `t`. -/
def constructBase (s : State τ) (t : τ) (kind : Kind) (threads : Nat) (useCaller : Bool) : Except Fault (State τ) :=
  if useCaller then
    if threads = 0 then .error .noThreads
    else if (s.thread t).schedular ≠ none then .error .otherSchedular
    else
      .ok ((s.newObject { kind, alive := true, threadCount := threads - 1, rootThread := some t }).setThread t
        { s.thread t with schedular := some s.next })
  else .ok (s.newObject { kind, alive := true, threadCount := threads })

/-- A constructor: that of `IOManager` ends with `start`. -/
def construct (s : State τ) (t : τ) (kind : Kind) (threads : Nat) (useCaller : Bool) (us : List τ) :
    Except Fault (State τ) := do
  let s' ← s.constructBase t kind threads useCaller
  match kind with
  | .schedular => return s'
  | .ioManager => s'.start s.next us

/-- The first lines of `Schedular::run`: `setThis` and `set_hook_enable`. -/
def enterRun (s : State τ) (t : τ) (o : Nat) : State τ :=
  s.setThread t { s.thread t with schedular := some o, hookEnable := true, entry := none }

/-- The first test of `stop`: only the root fiber is left, and it does not run. -/
def onlyRoot (x : Object τ) : Bool :=
  x.rootThread.isSome && x.threadCount == 0 && (x.rootState == .term || x.rootState == .init)

/-- `stop` calls the root fiber. -/
def callsRoot (x : Object τ) (drained drained' : Bool) : Bool :=
  !(onlyRoot x && drained) && x.rootThread.isSome && !drained'

/-- `Schedular::stop` on the thread `t`, up to the call of the root fiber. -/
def stop (s : State τ) (t : τ) (o : Nat) (drained drained' : Bool) : Except Fault (State τ) :=
  let x := s.objects o
  if onlyRoot x && drained then .ok (s.setObject o { x with autoStop := true, stopping := true })
  else if x.rootThread.isSome = decide ((s.thread t).schedular = some o) then
    let s := s.setObject o { x with autoStop := true, stopping := true }
    if callsRoot x drained drained' then
      .ok ((s.setObject o { x with autoStop := true, stopping := true, rootState := .exec }).enterRun t o)
    else .ok s
  else .error .otherSchedular

def destroy (s : State τ) (t : τ) (o : Nat) : Except Fault (State τ) :=
  if (s.objects o).stopping = false then .error .notStopping
  else
    let s := s.setObject o { s.objects o with alive := false }
    if (s.thread t).schedular = some o then .ok (s.setThread t { s.thread t with schedular := none }) else .ok s

def step (s : State τ) : Op τ → Except Fault (Unit × State τ)
  | .construct t kind threads useCaller us => (s.construct t kind threads useCaller us).map ((), ·)
  | .start _ o us => (s.start o us).map ((), ·)
  | .run u =>
    match (s.thread u).entry with
    | none => .ok ((), s)
    | some o => .ok ((), s.enterRun u o)
  | .stop t o drained drained' => (s.stop t o drained drained').map ((), ·)
  | .returned o => .ok ((), s.setObject o { s.objects o with rootState := .term })
  | .exit u => .ok ((), s.setThread u { s.thread u with live := false })
  | .join o => .ok ((), s.setObject o { s.objects o with threads := [] })
  | .destroy t o => (s.destroy t o).map ((), ·)
  | .hooked t _ => (s.hooked t).map (·, s)

end

/-- The threads that are created for an object are new. -/
def Fresh (s : State τ) (us : List τ) : Prop := ∀ u ∈ us, (s.thread u).live = false

/-- Calls are made on live threads and objects. A thread ends where `run` returns, `join` waits for the threads, and
`~IOManager` has called `stop` before `~Schedular`. -/
def enabled (s : State τ) : Op τ → Prop
  | .construct t kind threads useCaller us =>
    (s.thread t).live = true ∧ s.Fresh us ∧
      us.length = if kind = .schedular then 0 else if useCaller then threads - 1 else threads
  | .start t o us =>
    (s.thread t).live = true ∧ (s.objects o).alive = true ∧ s.Fresh us ∧ us.length = (s.objects o).threadCount
  | .run u => (s.thread u).live = true ∧ (s.thread u).entry.isSome = true
  | .stop t o _ _ => (s.thread t).live = true ∧ (s.objects o).alive = true
  | .returned o => (s.objects o).alive = true ∧ (s.objects o).rootState = .exec
  | .exit u => (s.thread u).live = true ∧ (s.thread u).entry = none
  | .join o => (s.objects o).alive = true ∧ ∀ u ∈ (s.objects o).threads, (s.thread u).live = false
  | .destroy t o =>
    (s.thread t).live = true ∧ (s.objects o).alive = true ∧
      ((s.objects o).kind = .ioManager → (s.objects o).autoStop = true ∧ (s.objects o).threads = [])
  | .hooked t _ => (s.thread t).live = true

end State

open State

def machine (τ : Type) [DecidableEq τ] : Machine (State τ) (Op τ) Unit Fault where
  init s := ∃ users : τ → Bool, s = { thread := fun t => { live := users t } }
  enabled := State.enabled
  step := State.step

instance (s : State τ) (us : List τ) : Decidable (s.Fresh us) := inferInstanceAs (Decidable (∀ u ∈ us, _))

instance [DecidableEq τ] (s : State τ) : (op : Op τ) → Decidable ((machine τ).enabled s op)
  | .construct .. | .start .. | .run _ | .stop .. | .returned _ | .exit _ => inferInstanceAs (Decidable (_ ∧ _))
  | .join o => inferInstanceAs (Decidable (_ ∧ ∀ u ∈ (s.objects o).threads, _))
  | .destroy .. => inferInstanceAs (Decidable (_ ∧ _ ∧ (_ → _ ∧ _)))
  | .hooked t _ => inferInstanceAs (Decidable ((s.thread t).live = true))

/-- **Hooked calls find an `IOManager`** on every thread where hooks are on. -/
def Finds (s : State τ) : Prop :=
  ∀ t, (s.thread t).live = true → (s.thread t).hookEnable = true → ∃ o, s.getThis t = .ok (some o)

/-- Only the `run` of an `IOManager` is entered, and no object ends that a thread with hooks has as its scheduler, or
that a thread is still to run. -/
def Keeps (s : State τ) : Op τ → Prop
  | .run u => ∀ o ∈ (s.thread u).entry, (s.objects o).kind = .ioManager
  | .stop _ o drained drained' => callsRoot (s.objects o) drained drained' = true → (s.objects o).kind = .ioManager
  | .destroy _ o => ∀ u, (s.thread u).live = true →
      (s.thread u).entry ≠ some o ∧ ((s.thread u).hookEnable = true → (s.thread u).schedular ≠ some o)
  | _ => True

/-! ## The invariant -/

/-- The object is an `IOManager` that has not ended. -/
def Manages (s : State τ) (o : Nat) : Prop := (s.objects o).alive = true ∧ (s.objects o).kind = .ioManager

/-- A live thread enters an object that has not ended, and with hooks on it has an `IOManager`. -/
def ThreadOk (s : State τ) (l : ThreadLocal) : Prop :=
  l.live = true → (∀ o, l.entry = some o → (s.objects o).alive = true) ∧
    (l.hookEnable = true → ∃ o, l.schedular = some o ∧ Manages s o)

structure Good (s : State τ) : Prop where
  used : ∀ o, (s.objects o).alive = true → o < s.next
  thread : ∀ u, ThreadOk s (s.thread u)

theorem Good.finds {s : State τ} (hs : Good s) : Finds s := by
  intro t hlive hhook
  obtain ⟨o, hsch, halive, hkind⟩ := (hs.thread t hlive).2 hhook
  refine ⟨o, ?_⟩
  unfold getThis
  simp only [hsch, halive, hkind]
  rfl

variable {s s' : State τ}

theorem ThreadOk.mono {l : ThreadLocal} (h : ThreadOk s l)
    (hkeep : ∀ o, l.live = true → l.entry = some o ∨ l.hookEnable = true ∧ l.schedular = some o →
      (s.objects o).alive = true → (s'.objects o).alive = true ∧ (s'.objects o).kind = (s.objects o).kind) :
    ThreadOk s' l := by
  intro hlive
  obtain ⟨hentry, hhooked⟩ := h hlive
  refine ⟨fun o ho => (hkeep o hlive (.inl ho) (hentry o ho)).1, fun hhook => ?_⟩
  obtain ⟨o, hsch, halive, hkind⟩ := hhooked hhook
  obtain ⟨halive', hkind'⟩ := hkeep o hlive (.inr ⟨hhook, hsch⟩) halive
  exact ⟨o, hsch, halive', hkind'.trans hkind⟩

theorem setObject_self (s : State τ) (o : Nat) (x : Object τ) : (s.setObject o x).objects o = x :=
  Function.update_self ..

theorem setObject_of_ne (s : State τ) {o i : Nat} (hi : i ≠ o) (x : Object τ) :
    (s.setObject o x).objects i = s.objects i :=
  Function.update_of_ne hi ..

/-- An assignment to members that neither ends the object nor makes another of it. -/
theorem Good.setObject (hs : Good s) {o : Nat} {x : Object τ} (halive : x.alive = (s.objects o).alive)
    (hkind : x.kind = (s.objects o).kind) : Good (s.setObject o x) := by
  have hsame : ∀ i, ((s.setObject o x).objects i).alive = (s.objects i).alive ∧
      ((s.setObject o x).objects i).kind = (s.objects i).kind := by
    intro i
    by_cases hi : i = o
    · subst hi
      rw [setObject_self]
      exact ⟨halive, hkind⟩
    · rw [setObject_of_ne s hi]
      exact ⟨rfl, rfl⟩
  refine ⟨fun i hi => hs.used i ((hsame i).1 ▸ hi), fun u => (hs.thread u).mono fun i _ _ hi => ?_⟩
  exact ⟨(hsame i).1.trans hi, (hsame i).2⟩

/-- An object that no thread with hooks has and none is to run. -/
theorem Good.ended (hs : Good s) {t : τ} {o : Nat} (hk : Keeps s (.destroy t o)) :
    Good (s.setObject o { s.objects o with alive := false }) := by
  constructor
  · intro i hi
    by_cases hio : i = o
    · subst hio
      rw [setObject_self] at hi
      cases hi
    · rw [setObject_of_ne s hio] at hi
      exact hs.used i hi
  · intro u
    refine (hs.thread u).mono fun i hlive hi halive => ?_
    have hio : i ≠ o := by
      rintro rfl
      rcases hi with hentry | ⟨hhook, hsch⟩
      · exact (hk u hlive).1 hentry
      · exact (hk u hlive).2 hhook hsch
    rw [setObject_of_ne s hio]
    exact ⟨halive, rfl⟩

theorem Good.newObject (hs : Good s) (x : Object τ) : Good (s.newObject x) := by
  have hother : ∀ o, o ≠ s.next → (s.newObject x).objects o = s.objects o := fun o ho => setObject_of_ne s ho x
  constructor
  · intro o ho
    by_cases hn : o = s.next
    · rw [hn]
      exact Nat.lt_succ_self _
    · rw [hother o hn] at ho
      exact Nat.lt_succ_of_lt (hs.used o ho)
  · intro u
    refine (hs.thread u).mono fun o _ _ ho => ?_
    rw [hother o (Nat.ne_of_lt (hs.used o ho))]
    exact ⟨ho, rfl⟩

section
variable [DecidableEq τ]

theorem Good.setThread (hs : Good s) (t : τ) {l : ThreadLocal} (hl : ThreadOk s l) : Good (s.setThread t l) := by
  refine ⟨hs.used, fun u => ?_⟩
  show ThreadOk s (Function.update s.thread t l u)
  by_cases hu : u = t
  · subst hu
    rwa [Function.update_self]
  · rw [Function.update_of_ne hu]
    exact hs.thread u

theorem Good.newThreads (hs : Good s) {o : Nat} (ho : (s.objects o).alive = true) (us : List τ) :
    Good (s.newThreads o us) := by
  refine ⟨hs.used, fun u => ?_⟩
  show ThreadOk s (if u ∈ us then { entry := some o } else s.thread u)
  split_ifs
  · refine fun _ => ⟨fun i hi => ?_, nofun⟩
    cases hi
    exact ho
  · exact hs.thread u

theorem Good.enterRun (hs : Good s) {o : Nat} (ho : Manages s o) (t : τ) : Good (s.enterRun t o) :=
  hs.setThread t fun _ => ⟨nofun, fun _ => ⟨o, rfl, ho⟩⟩

theorem Good.start (hs : Good s) {o : Nat} {us : List τ} (ho : (s.objects o).alive = true)
    (h : s.start o us = .ok s') : Good s' := by
  unfold State.start at h
  split_ifs at h
  · cases h
    exact hs
  · cases h
    refine Good.newThreads (hs.setObject ?_ ?_) ?_ us
    · rfl
    · rfl
    · rw [setObject_self]
      exact ho

theorem Good.constructBase (hs : Good s) {t : τ} {kind : Kind} {threads : Nat} {useCaller : Bool}
    (h : s.constructBase t kind threads useCaller = .ok s') : Good s' ∧ (s'.objects s.next).alive = true := by
  have hself : ∀ x, (s.newObject x).objects s.next = x := fun x => setObject_self s s.next x
  unfold State.constructBase at h
  split_ifs at h with hcaller hzero hother
  · cases h
    refine ⟨(hs.newObject _).setThread t fun hlive => ?_, congrArg Object.alive (hself _)⟩
    refine ⟨((hs.newObject _).thread t hlive).1, fun hhook => ?_⟩
    -- the assertion says that the thread had no scheduler, so that its hooks are off
    obtain ⟨o, hsch, -⟩ := (hs.thread t hlive).2 hhook
    rw [hsch] at hother
    exact absurd nofun hother
  · cases h
    exact ⟨hs.newObject _, congrArg Object.alive (hself _)⟩

theorem Good.construct (hs : Good s) {t : τ} {kind : Kind} {threads : Nat} {useCaller : Bool} {us : List τ}
    (h : s.construct t kind threads useCaller us = .ok s') : Good s' := by
  obtain ⟨s₁, h₁, h⟩ := bind_eq_ok h
  obtain ⟨hgood, halive⟩ := hs.constructBase h₁
  cases kind with
  | schedular =>
    cases h
    exact hgood
  | ioManager => exact hgood.start halive h

theorem Good.stop (hs : Good s) {t : τ} {o : Nat} {drained drained' : Bool} (ho : (s.objects o).alive = true)
    (hk : Keeps s (.stop t o drained drained')) (h : s.stop t o drained drained' = .ok s') : Good s' := by
  have hset : Good (s.setObject o { s.objects o with autoStop := true, stopping := true }) := hs.setObject rfl rfl
  unfold State.stop at h
  dsimp only at h
  split_ifs at h with honly hthis hcalls
  · cases h
    exact hset
  · cases h
    refine Good.enterRun (hset.setObject ?_ ?_) ⟨?_, ?_⟩ t
    · rw [setObject_self]
    · rw [setObject_self]
    · rw [setObject_self]
      exact ho
    · rw [setObject_self]
      exact hk hcalls
  · cases h
    exact hset

theorem Good.destroy (hs : Good s) {t : τ} {o : Nat} (hk : Keeps s (.destroy t o)) (h : s.destroy t o = .ok s') :
    Good s' := by
  have hended := hs.ended hk
  unfold State.destroy at h
  dsimp only at h
  split_ifs at h with hstop hthis
  · cases h
    refine hended.setThread t fun hlive => ⟨(hended.thread t hlive).1, fun hhook => ?_⟩
    exact absurd hthis ((hk t hlive).2 hhook)
  · cases h
    exact hended

/-- **One step.** -/
theorem Good.step (hs : Good s) {op : Op τ} (he : s.enabled op) (hk : Keeps s op) {u : Unit}
    (h : s.step op = .ok (u, s')) : Good s' := by
  cases op with
  | construct t kind threads useCaller us =>
    obtain ⟨s₁, h₁, h⟩ := map_eq_ok h
    cases h
    exact hs.construct h₁
  | start t o us =>
    obtain ⟨s₁, h₁, h⟩ := map_eq_ok h
    cases h
    exact hs.start he.2.1 h₁
  | run v =>
    cases hentry : (s.thread v).entry with
    | none =>
      simp only [State.step, hentry] at h
      cases h
      exact hs
    | some o =>
      simp only [State.step, hentry] at h
      cases h
      exact hs.enterRun ⟨(hs.thread v he.1).1 o hentry, hk o hentry⟩ v
  | stop t o drained drained' =>
    obtain ⟨s₁, h₁, h⟩ := map_eq_ok h
    cases h
    exact hs.stop he.2 hk h₁
  | returned o =>
    cases h
    exact hs.setObject rfl rfl
  | exit v =>
    cases h
    exact hs.setThread v nofun
  | join o =>
    cases h
    exact hs.setObject rfl rfl
  | destroy t o =>
    obtain ⟨s₁, h₁, h⟩ := map_eq_ok h
    cases h
    exact hs.destroy hk h₁
  | hooked t c =>
    obtain ⟨v, hv, hret⟩ := map_eq_ok h
    cases hret
    exact hs

/-- **Hooked calls find an `IOManager`** in every run where only an `IOManager` runs, and none ends under a thread with
hooks. -/
theorem finds_of_keeps {h : List (Entry (State τ) (Op τ) Unit)} (hr : Run (machine τ) h s)
    (hk : ∀ e ∈ h, Keeps e.pre e.inp) : Finds s := by
  suffices hgood : Good s from hgood.finds
  refine hr.invariant_of hk ?_ fun e hs hstep hk => hs.step hstep.1 hk hstep.2
  rintro s ⟨users, rfl⟩
  exact ⟨nofun, fun u _ => ⟨nofun, nofun⟩⟩

end

/-- A worker of an `IOManager` finds it. -/
theorem finds_worker : ∃ h s, Run (machine Nat) h s ∧ (s.thread 1).hookEnable = true ∧ Finds s := by
  have hr := ((Run.start (M := machine Nat) ⟨fun t => t == 0, rfl⟩).step
    (i := .construct 0 .ioManager 1 false [1]) (by decide) rfl).step
    (i := .run 1) (by decide) rfl
  refine ⟨_, _, hr, rfl, finds_of_keeps hr ?_⟩
  simp only [List.nil_append, List.forall_mem_append, List.forall_mem_singleton]
  refine ⟨trivial, fun o ho => ?_⟩
  cases ho
  rfl

/-- A worker of a plain `Schedular` that calls `sleep`. -/
theorem finds_not_schedular : ¬ ∀ h s, Run (machine Nat) h s →
    ∀ t c, (machine Nat).enabled s (.hooked t c) → (machine Nat).step s (.hooked t c) ≠ .error .nullIOManager := by
  intro hall
  have hr := (((Run.start (M := machine Nat) ⟨fun t => t == 0, rfl⟩).step
    (i := .construct 0 .schedular 1 false []) (by decide) rfl).step
    (i := .start 0 0 [1]) (by decide) rfl).step
    (i := .run 1) (by decide) rfl
  exact hall _ _ hr 1 .sleep rfl rfl

end QWebServer.Lifecycle
