import QWebServer.IOManager.Model
import QWebServer.Timer.Model

/-!
# `hook.cpp`: waiting with a timeout

* `Call` : a fiber inside `do_io` or `connect_with_timeout`, with its `timer_info`;
* `Callback`, `Firing` : what a timer calls, and how far the callback of an expired timer has come;
* `Hook` : the calls, each known by its place in the list as by the address of its `timer_info`, beside the manager, its
  timers, the callbacks that were handed to `schedule`, and the fibers that were;
* `advance` : the next step of a call, `fire` : the next step of a callback, `step` : one step of anybody;
* `machine` : any sequence of these.

A call is cut where others may come between: before every call of the manager and of a timer, and before the reading of
`cancelled`.
-/

namespace QWebServer

open Lib

namespace Hook

def ETIMEDOUT : Int := 110

inductive Kind
  | doIo
  | connect
  deriving DecidableEq

/-- Where a fiber is in them: before `fun` or `connect_f`, before `addConditionTimer`, before `addEvent`, after an
`addEvent` that failed, before `YieldToHold`, in it, before `timer->cancel()`, before the reading of `cancelled`. -/
inductive Pc
  | io
  | arm
  | add
  | failed
  | yield
  | suspended
  | awake
  | check
  | returned
  deriving DecidableEq

/-- A call by the fiber `fiber`. The field `cancelled` is that of `*tinfo`, and `timer` the timer of this round. -/
structure Call (φ : Type) where
  kind : Kind
  fd : Int
  event : IOManager.Event
  timeout : UInt64
  fiber : φ
  pc : Pc := .io
  timer : Option Addr := none
  cancelled : Int := 0

/-- What a timer calls: `OnTimer` on the lambda of a call, or anything else. -/
inductive Callback (κ : Type)
  | timeout (tinfo : Nat) (fd : Int) (event : IOManager.Event)
  | other (k : κ)

/-- Where a callback is: before `weak_cond.lock()` in `OnTimer`, then in the lambda before the reading of `cancelled`,
before the store to it, before `cancelEvent`; and when it has returned. -/
inductive Stage
  | onTimer
  | check
  | store
  | cancel
  | done
  deriving DecidableEq

structure Firing (κ : Type) where
  timer : Addr
  cb : Callback κ
  stage : Stage := .onTimer

/-- What stops the process. -/
inductive Fault
  | iom (f : IOManager.Fault)
  | timer (f : Timer.Fault)

/-- What a step of a call reads from outside: whether `fun` or `connect_f` would block, the address of a new timer, the
clock, and whether `epoll_ctl` returns 0. -/
structure Input where
  again : Bool := true
  timer : Addr := 0
  now : UInt64 := 0
  rt : Bool := true

end Hook

structure Hook (φ κ : Type) where
  iom : IOManager Unit φ κ
  timers : TimerManager (Hook.Callback κ)
  calls : List (Hook.Call φ) := []
  firings : List (Hook.Firing κ) := []
  queue : List φ := []

namespace Hook

variable {φ κ : Type}

def setCall (s : Hook φ κ) (a : Nat) (c : Call φ) : Hook φ κ := { s with calls := s.calls.set a c }

/-- `if(timer) { timer->cancel(); }` -/
def cancelTimer (s : Hook φ κ) (c : Call φ) : Hook φ κ :=
  match c.timer with
  | some t => { s with timers := (s.timers.cancel t).2 }
  | none => s

/-- The calls of `schedule` by the manager: the fibers are queued. -/
def wake (s : Hook φ κ) (scheduled : List (Unit × FiberAndThread φ κ)) : Hook φ κ :=
  { s with queue := s.queue ++ scheduled.filterMap (·.2.fiber) }

/-- `addEvent` tells the function that it may yield: `do_io` compares with -1, `connect_with_timeout` with 0. -/
def Kind.added : Kind → Int → Bool
  | .doIo, rt => rt != -1
  | .connect, rt => rt == 0

/-- `goto retry` in `do_io`; `connect_with_timeout` goes on to `getsockopt` and returns. -/
def Kind.retry : Kind → Pc
  | .doIo => .io
  | .connect => .returned

def advance [DecidableEq φ] (mem : IOManager.Memory) (s : Hook φ κ) (a : Nat) (c : Call φ) (x : Input) :
    Except Fault (Hook φ κ) :=
  match c.pc with
  | .io => .ok (s.setCall a { c with pc := if x.again then .arm else .returned })
  | .arm =>
    if c.timeout ≠ -1 then
      let timers := (s.timers.addTimer x.timer c.timeout (some (.timeout a c.fd c.event)) false x.now).2
      .ok ({ s with timers := timers }.setCall a { c with pc := .add, timer := some x.timer })
    else .ok (s.setCall a { c with pc := .add, timer := none })
  | .add => do
    let (rt, iom) ← (s.iom.addEvent mem c.fd c.event none { schedular := some (), fiber := c.fiber } x.rt).mapError .iom
    return { s with iom := iom }.setCall a { c with pc := if c.kind.added rt then .yield else .failed }
  | .failed => .ok ((s.cancelTimer c).setCall a { c with pc := .returned })
  | .yield => .ok (s.setCall a { c with pc := .suspended })
  | .suspended => .ok ({ s with queue := s.queue.erase c.fiber }.setCall a { c with pc := .awake })
  | .awake => .ok ((s.cancelTimer c).setCall a { c with pc := .check })
  | .check => .ok (s.setCall a { c with pc := if c.cancelled ≠ 0 then .returned else c.kind.retry, timer := none })
  | .returned => .ok s

/-- The `timer_info` of the call `a` lives as long as the call. -/
def alive (s : Hook φ κ) (a : Nat) : Bool := s.calls[a]?.any (·.pc != .returned)

/-- `wk->cancelled = ETIMEDOUT;` -/
def setCancelled (s : Hook φ κ) (a : Nat) : Hook φ κ :=
  { s with calls := s.calls.modify a fun c => { c with cancelled := ETIMEDOUT } }

/-- The callback number `k` goes on to the stage `stage`. -/
def setStage (s : Hook φ κ) (k : Nat) (b : Firing κ) (stage : Stage) : Hook φ κ :=
  { s with firings := s.firings.set k { b with stage := stage } }

def fire (s : Hook φ κ) (k : Nat) (b : Firing κ) (rt : Bool) : Except Fault (Hook φ κ) :=
  match b.cb with
  | .other _ => .ok (s.setStage k b .done)
  | .timeout tinfo fd event =>
    match b.stage with
    | .onTimer => .ok (s.setStage k b (if s.alive tinfo then .check else .done))
    -- `OnTimer` keeps the `timer_info` alive, so `week_timer.lock()` does not fail
    | .check => .ok (s.setStage k b (if s.calls[tinfo]?.any (·.cancelled != 0) then .done else .store))
    | .store => .ok ((s.setCancelled tinfo).setStage k b .cancel)
    | .cancel => do
      let (_, scheduled, iom) ← (s.iom.cancelEvent fd event rt).mapError .iom
      return ({ s with iom := iom }.wake scheduled).setStage k b .done
    | .done => .ok s

/-- `listExpiredCb` and `schedule` in `IOManager::idle`; an empty callback is not queued. -/
def expire (s : Hook φ κ) (now : UInt64) (probe : Addr) : Except Fault (Hook φ κ) := do
  let (cbs, timers) ← (s.timers.listExpiredCb now probe).mapError .timer
  let firings := cbs.filterMap fun x => x.2.map fun cb => { timer := x.1, cb := cb }
  return { s with timers := timers, firings := s.firings ++ firings }

/-- The steps: a fiber enters a function, a call goes on, timers expire, a callback goes on, and what others do to the
manager and with timers of their own. -/
inductive Label (φ κ : Type)
  | start (c : Call φ)
  | call (a : Nat) (x : Input)
  | expire (now : UInt64) (probe : Addr)
  | fire (k : Nat) (rt : Bool)
  | manage (o : IOManager.Op Unit φ κ)
  | timer (c : TimerManager.Call (Callback κ))

def step [DecidableEq φ] (mem : IOManager.Memory) (s : Hook φ κ) : Label φ κ → Except Fault (Unit × Hook φ κ)
  | .start c => .ok ((), { s with calls := s.calls ++ [c] })
  | .call a x =>
    match s.calls[a]? with
    | some c => do
      let s ← s.advance mem a c x
      return ((), s)
    | none => .ok ((), s)
  | .expire now probe => do
    let s ← s.expire now probe
    return ((), s)
  | .fire k rt =>
    match s.firings[k]? with
    | some b => do
      let s ← s.fire k b rt
      return ((), s)
    | none => .ok ((), s)
  | .manage o => do
    let (r, iom) ← (s.iom.step mem o).mapError .iom
    return ((), { s with iom := iom }.wake r.scheduled)
  | .timer c => do
    let (_, timers) ← (s.timers.step c).mapError .timer
    return ((), { s with timers := timers })

def Outside (s : Hook φ κ) (f : φ) : Prop := ∀ c ∈ s.calls, c.pc ≠ .returned → c.fiber ≠ f

instance [DecidableEq φ] (s : Hook φ κ) (f : φ) : Decidable (s.Outside f) :=
  inferInstanceAs (Decidable (∀ c ∈ s.calls, c.pc ≠ .returned → c.fiber ≠ f))

/-- Others call `addEvent` from fibers that are inside no call. -/
def ManageOk (s : Hook φ κ) : IOManager.Op Unit φ κ → Prop
  | .addEvent fd event cb caller rt => IOManager.Allowed (.addEvent fd event cb caller rt) ∧ s.Outside caller.fiber
  | _ => True

/-- Others have timers with callbacks of their own, and leave `listExpiredCb` to `idle`. -/
def isOther : TimerManager.Op (Callback κ) → Bool
  | .addTimer _ _ (.timeout _ _ _) _ => false
  | .listExpiredCb _ => false
  | _ => true

/-- What may happen. A fiber that enters a function is in no other one; a call goes on after `YieldToHold` when its
fiber was scheduled; a new timer is at a new address. -/
def Enabled [DecidableEq φ] (s : Hook φ κ) : Label φ κ → Prop
  | .start c => (c.pc = .io ∧ c.timer = none ∧ c.cancelled = 0) ∧ s.Outside c.fiber
  | .call a x => x.timer ∉ s.timers.created ∧ ∀ c ∈ s.calls[a]?, c.pc = .suspended → c.fiber ∈ s.queue
  | .expire _ probe => probe ∉ s.timers.created
  | .fire _ _ => True
  | .manage o => s.ManageOk o
  | .timer c => s.timers.Allowed c ∧ isOther c.op = true

instance [DecidableEq φ] (s : Hook φ κ) : (o : IOManager.Op Unit φ κ) → Decidable (s.ManageOk o)
  | .addEvent .. => inferInstanceAs (Decidable (_ ∧ _))
  | .delEvent .. => isTrue trivial
  | .cancelEvent .. => isTrue trivial
  | .cancelAll .. => isTrue trivial
  | .idle .. => isTrue trivial

instance [DecidableEq φ] (s : Hook φ κ) : (l : Label φ κ) → Decidable (s.Enabled l)
  | .start _ => inferInstanceAs (Decidable (_ ∧ _))
  | .call _ _ => inferInstanceAs (Decidable (_ ∧ _))
  | .expire _ probe => inferInstanceAs (Decidable (probe ∉ s.timers.created))
  | .fire _ _ => isTrue trivial
  | .manage o => inferInstanceAs (Decidable (s.ManageOk o))
  | .timer _ => inferInstanceAs (Decidable (_ ∧ _))

def machine [DecidableEq φ] (mem : IOManager.Memory) : Machine (Hook φ κ) (Label φ κ) Unit Fault where
  init := fun s => ∃ now, s = { iom := .new, timers := .new now }
  enabled := Enabled
  step := step mem

instance [DecidableEq φ] (mem : IOManager.Memory) (s : Hook φ κ) (l : Label φ κ) :
    Decidable ((machine mem).enabled s l) :=
  inferInstanceAs (Decidable (s.Enabled l))

end Hook

end QWebServer
