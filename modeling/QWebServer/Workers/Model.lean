import QWebServer.IOManager.Model
import QWebServer.Schedular.Moves

/-!
# `iomanager.cpp`: workers that have nothing to do

* `Idle` : where a worker is from a scan that takes nothing to its next scan, in `IOManager::idle` and around it;
* `Test` : where a call of `IOManager::stopping` is, before each of its three tests;
* `Tickle` : a call of `IOManager::tickle`, before its test and before its `write`;
* `Workers` : a scheduler with its timers and its `IOManager`, the workers, `m_idleThreadCount`, the calls of `tickle`,
  the bytes in the pipe, `m_autoStop` and `m_stopping`, and the call of `stopping` in `stop`;
* `stoppingTest` : the next test of `stopping`, `idleStep` : the next step of a worker in `idle`, `step` : one step of
  anybody;
* `machine` : any sequence of these after `start`.

The callbacks of expired timers and what events resume are scheduled by `schedule` and `trigger`, which are steps of
their own. A worker goes on when its call of `tickle` has returned; `epoll_wait` may return at any time.
-/

namespace QWebServer

open Lib

namespace Workers

/-- The tests of `IOManager::stopping`: of the answer of `getNextTimer`, of `m_pendingEventCount`, and the locked ones
of `Schedular::stopping`. -/
inductive Test
  | timer
  | pending
  | locked
  deriving DecidableEq

/-- Where a worker is: in `run` outside of what follows; before `++m_idleThreadCount` after a scan that took nothing; in
`stopping`; before `epoll_wait`, in it and after it; before `--m_idleThreadCount` and then before the scan; before
`--m_idleThreadCount` when `idle` has returned; and when `run` has. -/
inductive Idle
  | run
  | enter
  | stopping (x : Test)
  | wait
  | blocked
  | woken
  | leave
  | rescan
  | finished
  | ended
  deriving DecidableEq

/-- A call of `tickle`, by a worker in `run` or by others; `checked` tells whether `hasIdleThreads` was true. -/
structure Tickle (τ : Type) where
  caller : Option τ
  checked : Bool := false
  deriving DecidableEq

end Workers

/-- The workers of an `IOManager`. The field `term` tells whether the idle fiber of a worker has ended. -/
structure Workers (τ κ : Type) where
  sched : Schedular τ κ := {}
  iom : IOManager Unit Addr κ
  timers : TimerManager κ
  idle : τ → Workers.Idle := fun _ => .run
  term : τ → Bool := fun _ => false
  idleThreadCount : UInt64 := 0
  tickles : List (Workers.Tickle τ) := []
  pipe : Nat := 0
  autoStop : Bool := false
  stopping : Bool := false
  stop : Option Workers.Test := none

namespace Workers

variable {τ κ : Type}

/-- What stops the process. -/
inductive Fault
  | sched (f : Schedular.Fault)
  | iom (f : IOManager.Fault)
  | timer (f : Timer.Fault)

def callTickle (s : Workers τ κ) (caller : Option τ) (need : Bool) : Workers τ κ :=
  if need then { s with tickles := s.tickles ++ [{ caller }] } else s

/-- `IOManager::tickle`: the next step of the call `x`, number `k`. -/
def tickle (s : Workers τ κ) (k : Nat) (x : Tickle τ) : Workers τ κ :=
  if x.checked then { s with tickles := s.tickles.eraseIdx k, pipe := s.pipe + 1 }
  else if s.idleThreadCount > 0 then { s with tickles := s.tickles.set k { x with checked := true } }
  else { s with tickles := s.tickles.eraseIdx k }

/-- `Schedular::stopping`. -/
def schedStopping (s : Workers τ κ) : Bool :=
  s.autoStop && s.stopping && s.sched.queue.isEmpty && s.sched.activeThreadCount == 0

/-- `IOManager::stopping`: its next test, and then the one after it or what the call returns. -/
def stoppingTest (s : Workers τ κ) (now : UInt64) : Test → (Test ⊕ Bool) × Workers τ κ
  | .timer =>
    let (timeout, timers) := s.timers.getNextTimer now
    (if timeout = ~~~0 then .inl .pending else .inr false, { s with timers := timers })
  | .pending => (if s.iom.pendingEventCount = 0 then .inl .locked else .inr false, s)
  | .locked => (.inr s.schedStopping, s)

section
variable [DecidableEq τ]

def goto (s : Workers τ κ) (t : τ) (i : Idle) : Workers τ κ := { s with idle := Function.update s.idle t i }

/-- The next step of the worker `t` in `idle` and around it, with the clock, and whether `stopping` returns true. -/
def idleStep (s : Workers τ κ) (t : τ) (now : UInt64) : Bool × Workers τ κ :=
  match s.idle t with
  | .enter => (false, { s with idleThreadCount := s.idleThreadCount + 1 }.goto t (.stopping .timer))
  | .stopping x =>
    match s.stoppingTest now x with
    | (.inl y, s) => (false, s.goto t (.stopping y))
    | (.inr false, s) => (false, s.goto t .wait)
    | (.inr true, s) => (true, { s with term := Function.update s.term t true }.goto t .finished)
  | .wait => (false, s.goto t .blocked)
  | .blocked => (false, s.goto t .woken)
  | .woken => (false, s.goto t .leave)
  | .leave => (false, { s with idleThreadCount := s.idleThreadCount - 1 }.goto t .rescan)
  | .finished => (false, { s with idleThreadCount := s.idleThreadCount - 1 }.goto t .run)
  | .run | .rescan | .ended => (false, s)

/-- The call of `stopping` in `Schedular::stop`: it begins, or makes its next test. -/
def stopStep (s : Workers τ κ) (now : UInt64) : Bool × Workers τ κ :=
  match s.stop with
  | none => (false, { s with stop := some .timer })
  | some x =>
    match s.stoppingTest now x with
    | (.inl y, s) => (false, { s with stop := some y })
    | (.inr b, s) => (b, { s with stop := none })

def caller : Schedular.Label τ κ → Option τ
  | .work t _ => some t
  | _ => none

/-- Where the workers are after a step of the scheduler that leads to `sched`: a worker whose scan has taken nothing
runs its idle fiber, or returns from `run` if that has ended. -/
def idleAfter (s : Workers τ κ) (sched : Schedular τ κ) : Schedular.Label τ κ → τ → Idle
  | .work t _ =>
    let none := (s.sched.workers t).pc.scans && (sched.workers t).pc.scans
    Function.update s.idle t (if none then if s.term t then .ended else .enter else .run)
  | _ => s.idle

/-- The steps: of the scheduler and its fibers, of a worker in `idle`, a `read` of the pipe, a call of `tickle` that
goes on; what others do with timers and events; and those of `stop`. -/
inductive Label (τ κ : Type)
  | sched (l : Schedular.Label τ κ)
  | idle (t : τ) (now : UInt64)
  | read (t : τ)
  | tickle (k : Nat)
  | timer (c : TimerManager.Call κ)
  | manage (o : IOManager.Op Unit Addr κ)
  | autoStop
  | setStopping
  | stopTickle
  | stop (now : UInt64)

/-- One step, and whether it is the end of a call of `stopping` that returns true. -/
def step (ids : Schedular.Threads τ) (mem : IOManager.Memory) (s : Workers τ κ) :
    Label τ κ → Except Fault (Bool × Workers τ κ)
  | .sched l => do
    let (r, sched) ← (s.sched.step ids l).mapError .sched
    return (false, { s with sched := sched, idle := s.idleAfter sched l }.callTickle (caller l) r.tickle)
  | .idle t now => .ok (s.idleStep t now)
  | .read _ => .ok (false, { s with pipe := s.pipe - 256 })
  | .tickle k =>
    match s.tickles[k]? with
    | some x => .ok (false, s.tickle k x)
    | none => .ok (false, s)
  | .timer c => do
    let (r, timers) ← (s.timers.step c).mapError .timer
    return (false, { s with timers := timers }.callTickle none r.notified)
  | .manage o => do
    let (_, iom) ← (s.iom.step mem o).mapError .iom
    return (false, { s with iom := iom })
  | .autoStop => .ok (false, { s with autoStop := true })
  | .setStopping => .ok (false, { s with stopping := true })
  | .stopTickle => .ok (false, s.callTickle none true)
  | .stop now => .ok (s.stopStep now)

def Free (s : Workers τ κ) (t : τ) : Prop := ∀ x ∈ s.tickles, x.caller ≠ some t

/-- No entry of the queue is for a fiber at `a`. -/
def Unqueued (s : Workers τ κ) (a : Addr) : Prop := ∀ x ∈ s.sched.queue, x.ft.fiber ≠ some a

/-- What may happen. A worker scans and executes outside of `idle`, and a new fiber is at an address that is not in
use. -/
def Enabled (s : Workers τ κ) : Label τ κ → Prop
  | .sched (.newFiber a _) => s.Unqueued a
  | .sched (.work t a) => (s.sched.Ready (.work t a) ∧ s.Unqueued a) ∧ (s.idle t = .run ∨ s.idle t = .rescan) ∧ s.Free t
  | .sched (.act t x) => s.sched.Ready (.act t x)
  | .idle t _ => (s.idle t ≠ .run ∧ s.idle t ≠ .rescan ∧ s.idle t ≠ .ended) ∧ s.Free t
  | .read t => s.idle t = .woken
  | .timer c => s.timers.Allowed c
  | .manage o => IOManager.Allowed o
  | .stop _ => s.stopping = true
  | _ => True

instance (s : Workers τ κ) (t : τ) : Decidable (s.Free t) := inferInstanceAs (Decidable (∀ x ∈ s.tickles, _))

instance (s : Workers τ κ) (a : Addr) : Decidable (s.Unqueued a) :=
  inferInstanceAs (Decidable (∀ x ∈ s.sched.queue, x.ft.fiber ≠ some a))

instance (s : Workers τ κ) : (l : Label τ κ) → Decidable (s.Enabled l)
  | .sched (.newFiber a _) => inferInstanceAs (Decidable (s.Unqueued a))
  | .sched (.work _ _) => inferInstanceAs (Decidable (_ ∧ _ ∧ _))
  | .sched (.act t x) => inferInstanceAs (Decidable (s.sched.Ready (.act t x)))
  | .idle _ _ => inferInstanceAs (Decidable (_ ∧ _))
  | .read t => inferInstanceAs (Decidable (s.idle t = .woken))
  | .timer c => inferInstanceAs (Decidable (s.timers.Allowed c))
  | .manage o => inferInstanceAs (Decidable (IOManager.Allowed o))
  | .stop _ => inferInstanceAs (Decidable (s.stopping = true))
  | .sched (.schedule _) | .sched (.trigger _) | .tickle _ | .autoStop | .setStopping | .stopTickle => isTrue trivial

def machine (ids : Schedular.Threads τ) (mem : IOManager.Memory) : Machine (Workers τ κ) (Label τ κ) Bool Fault where
  init := fun s => ∃ now, s = { iom := .new, timers := .new now }
  enabled := Enabled
  step := step ids mem

instance (ids : Schedular.Threads τ) (mem : IOManager.Memory) (s : Workers τ κ) (l : Label τ κ) :
    Decidable ((machine ids mem).enabled s l) :=
  inferInstanceAs (Decidable (s.Enabled l))

end

/-- The size of the memory. -/
def memory : IOManager.Memory := ⟨64, by decide⟩

end Workers

end QWebServer
