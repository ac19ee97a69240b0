import Mathlib.Logic.Function.Basic
import QWebServer.Lib.Run
import QWebServer.Schedular.Queue

/-!
# `fiber.cpp`: the switches between fibers

* `Fiber`, `Context` : the members of a fiber, and what its `m_ctx` holds: whose stack, and where on it;
* `Loop` : the variables of `Schedular::run`, which are on the stack of the fiber that executes it;
* `Thread` : the `thread_local` variables, and the stack that is executed;
* `swapcontext`, `call`, `swapIn`, `swapOut`, `back`, `yieldTo`, `finish` : the switches;
* `work` : the next step of the loop, `step` : one step of anybody;
* `machine` : a scheduler of any number of threads, with or without `use_caller`.

A switch is one step. Which entry a scan takes is in its label: the queue may hold any fiber and any callback.
-/

namespace QWebServer.Switching

open Lib

/-- How a fiber was made: `Fiber()` for a thread, or the other constructor with `use_caller` or without. -/
inductive Kind
  | free
  | thread
  | caller
  | child
  deriving DecidableEq

/-- `Fiber`; `cb` tells whether `m_cb` holds a function. -/
structure Fiber where
  state : Fiber.State := .init
  cb : Bool := false
  kind : Kind := .free

/-- Where a context goes on: at the start of `MainFunc` or `CallerMainFunc`, inside with its variable `cur`, or after
the last switch there. -/
inductive Place
  | entry
  | inside (cur : Nat)
  | done
  deriving DecidableEq

/-- What `swapcontext` stores in `m_ctx`. -/
structure Context where
  stack : Nat
  place : Place

/-- What a scan takes: an entry with a fiber, one with a callback, or nothing. -/
inductive Taken
  | task (f : Nat)
  | callback
  | nothing
  deriving DecidableEq

/-- Where the loop of `run` is: before a scan, with what it took, or in the `swapIn` for that. -/
inductive Turn
  | scan
  | taken (x : Taken)
  | waiting (x : Taken)
  deriving DecidableEq

structure Loop where
  idle : Nat
  cbFiber : Option Nat := none
  turn : Turn := .scan

/-- `t_threadFiber`, `t_schedular_fiber` and `t_fiber` of a thread, the fiber whose stack it executes, and the variable
`cur` of `MainFunc` there. -/
structure Thread where
  main : Nat
  sched : Nat
  fiber : Nat
  stack : Nat
  cur : Nat
  deriving DecidableEq

/-- The assertions of `fiber.cpp`. -/
inductive Fault
  | swapInExec
  | resetState
  | yieldState
  | neverReach
  deriving DecidableEq

/-- The fibers by address, with their contexts, the loops of `run` on their stacks, and the threads. -/
structure Switches where
  fiber : Nat → Fiber := fun _ => {}
  ctx : Nat → Context := fun f => ⟨f, .entry⟩
  loop : Nat → Option Loop := fun _ => none
  thread : Nat → Option Thread := fun _ => none

def rootFiber : Nat := 1

namespace Switches

def setFiber (s : Switches) (f : Nat) (x : Fiber) : Switches := { s with fiber := Function.update s.fiber f x }

def setState (s : Switches) (f : Nat) (o : Fiber.State) : Switches := s.setFiber f { s.fiber f with state := o }

def makecontext (s : Switches) (f : Nat) : Switches := { s with ctx := Function.update s.ctx f ⟨f, .entry⟩ }

/-- `new Fiber(cb)` at the address `a`. -/
def newFiber (s : Switches) (a : Nat) (cb : Bool) : Switches :=
  (s.setFiber a { cb := cb, kind := .child }).makecontext a

def reset (s : Switches) (f : Nat) (cb : Bool) : Except Fault Switches :=
  if (s.fiber f).state = .term ∨ (s.fiber f).state = .except ∨ (s.fiber f).state = .init then
    .ok ((s.setFiber f { s.fiber f with state := .init, cb := cb }).makecontext f)
  else .error .resetState

/-- The loop on the stack of `f` goes on as `l`. -/
def setLoop (s : Switches) (f : Nat) (l : Loop) : Switches := { s with loop := Function.update s.loop f (some l) }

/-- The start of `run` on the stack of `f`, with its idle fiber at `a`. -/
def run (s : Switches) (f a : Nat) : Switches := (s.newFiber a true).setLoop f { idle := a }

def setThread (s : Switches) (i : Nat) (t : Thread) : Switches :=
  { s with thread := Function.update s.thread i (some t) }

/-- The thread `i` goes on at the context `c`; a new stack begins with `cur = GetThis()`. -/
def resume (s : Switches) (i : Nat) (t : Thread) (c : Context) : Except Fault Switches :=
  match c.place with
  | .entry => .ok (s.setThread i { t with stack := c.stack, cur := t.fiber })
  | .inside cur => .ok (s.setThread i { t with stack := c.stack, cur := cur })
  | .done => .error .neverReach

/-- `swapcontext(&f->m_ctx, &g->m_ctx)`; the place `p` is where the stack that is left goes on. -/
def swapcontext (s : Switches) (i : Nat) (t : Thread) (f : Nat) (p : Place) (g : Nat) : Except Fault Switches :=
  let s := { s with ctx := Function.update s.ctx f ⟨t.stack, p⟩ }
  s.resume i t (s.ctx g)

/-- `Fiber::call` of the root fiber, whose stack begins with `run`. -/
def call (s : Switches) (i : Nat) (t : Thread) (a : Nat) : Except Fault Switches := do
  let begins := (s.ctx rootFiber).place = .entry
  let s ← (s.setState rootFiber .exec).swapcontext i { t with fiber := rootFiber } t.main (.inside t.cur) rootFiber
  return if begins then s.run rootFiber a else s

def swapIn (s : Switches) (i : Nat) (t : Thread) (f : Nat) : Except Fault Switches :=
  if (s.fiber f).state = .exec then .error .swapInExec
  else (s.setState f .exec).swapcontext i { t with fiber := f } t.sched (.inside t.cur) f

def swapOut (s : Switches) (i : Nat) (t : Thread) (f : Nat) (p : Place) : Except Fault Switches :=
  s.swapcontext i { t with fiber := t.sched } f p t.sched

def back (s : Switches) (i : Nat) (t : Thread) (f : Nat) (p : Place) : Except Fault Switches :=
  s.swapcontext i { t with fiber := t.main } f p t.main

def yieldTo (s : Switches) (i : Nat) (t : Thread) (o : Fiber.State) : Except Fault Switches :=
  if (s.fiber t.fiber).state = .exec then (s.setState t.fiber o).swapOut i t t.fiber (.inside t.cur)
  else .error .yieldState

/-- What `MainFunc` and `CallerMainFunc` store after the callback. -/
def ended (s : Switches) (f : Nat) (threw : Bool) : Switches :=
  if threw then s.setState f .except else s.setFiber f { s.fiber f with state := .term, cb := false }

def finish (s : Switches) (i : Nat) (t : Thread) (threw : Bool) : Except Fault Switches :=
  (s.ended t.cur threw).swapOut i t t.cur .done

/-! ## The loop of `run` -/

/-- A taken fiber that came back: with `READY` it is scheduled again, and unless it ended it is held otherwise. -/
def putBack (s : Switches) (f : Nat) : Switches :=
  match (s.fiber f).state with
  | .ready | .term | .except => s
  | _ => s.setState f .hold

/-- `cb_fiber` that came back. -/
def putBackCb (s : Switches) (g : Nat) (l : Loop) (c : Nat) : Except Fault Switches :=
  match (s.fiber c).state with
  | .ready => .ok (s.setLoop g { l with cbFiber := none, turn := .scan })
  | .term | .except => return (← s.reset c false).setLoop g { l with turn := .scan }
  | _ => .ok ((s.setState c .hold).setLoop g { l with cbFiber := none, turn := .scan })

def putBackIdle (s : Switches) (f : Nat) : Switches :=
  match (s.fiber f).state with
  | .term | .except => s
  | _ => s.setState f .hold

/-- The loop after a scan that took `x`; `a` is the address of a new `cb_fiber`. -/
def dispatch (s : Switches) (i : Nat) (t : Thread) (l : Loop) (a : Nat) (x : Taken) : Except Fault Switches :=
  match x with
  | .task f =>
    if (s.fiber f).state ≠ .term ∧ (s.fiber f).state ≠ .except then
      (s.setLoop t.stack { l with turn := .waiting x }).swapIn i t f
    else .ok (s.setLoop t.stack { l with turn := .scan })
  | .callback =>
    match l.cbFiber with
    | some c => do
      let s ← s.reset c true
      (s.setLoop t.stack { l with turn := .waiting x }).swapIn i t c
    | none => ((s.newFiber a true).setLoop t.stack { l with cbFiber := some a, turn := .waiting x }).swapIn i t a
  | .nothing => (s.setLoop t.stack { l with turn := .waiting x }).swapIn i t l.idle

/-- The loop after the `swapIn` for `x`. -/
def settle (s : Switches) (t : Thread) (l : Loop) (x : Taken) : Except Fault Switches :=
  match x with
  | .task f => .ok ((s.putBack f).setLoop t.stack { l with turn := .scan })
  | .callback =>
    match l.cbFiber with
    | some c => s.putBackCb t.stack l c
    | none => .ok s
  | .nothing => .ok ((s.putBackIdle l.idle).setLoop t.stack { l with turn := .scan })

def work (s : Switches) (i : Nat) (t : Thread) (l : Loop) (a : Nat) : Except Fault Switches :=
  match l.turn with
  | .scan => .ok s
  | .taken x => s.dispatch i t l a x
  | .waiting x => s.settle t l x

/-- The end of `run`: the root fiber goes back, another thread ends. -/
def leave (s : Switches) (i : Nat) (t : Thread) : Except Fault Switches :=
  if (s.fiber t.stack).kind = .caller then
    ({ s with loop := Function.update s.loop t.stack none }.ended t.cur false).back i t t.cur .done
  else .ok { s with thread := Function.update s.thread i none }

/-! ## The machine -/

/-- The steps, with the thread `i` that takes them: the start of a thread with the main fiber `a` and the idle fiber
`b`, `new Fiber`, `m_rootFiber->call()` in `Schedular::stop`, a scan, the rest of the loop and its end, and what the
code of a fiber does. -/
inductive Label
  | start (i a b : Nat)
  | newFiber (a : Nat) (cb : Bool)
  | call (i a : Nat)
  | scan (i : Nat) (x : Taken)
  | work (i a : Nat)
  | leave (i : Nat)
  | yieldToReady (i : Nat)
  | yieldToHold (i : Nat)
  | swapOut (i : Nat)
  | finish (i : Nat) (threw : Bool)

def on (s : Switches) (i : Nat) (f : Thread → Except Fault Switches) : Except Fault Switches :=
  match s.thread i with
  | none => .ok s
  | some t => f t

/-- A step of the loop that the thread `i` executes. -/
def onLoop (s : Switches) (i : Nat) (f : Thread → Loop → Except Fault Switches) : Except Fault Switches :=
  s.on i fun t =>
    match s.loop t.stack with
    | none => .ok s
    | some l => f t l

/-- A worker thread begins `run`: its main fiber is its scheduler fiber. -/
def start (s : Switches) (i a b : Nat) : Switches :=
  let s := { s.setFiber a { state := .exec, kind := .thread } with ctx := Function.update s.ctx a ⟨a, .inside a⟩ }
  (s.setThread i ⟨a, a, a, a, a⟩).run a b

def step (s : Switches) : Label → Except Fault Switches
  | .start i a b => .ok (s.start i a b)
  | .newFiber a cb => .ok (s.newFiber a cb)
  | .call i a => s.on i fun t => s.call i t a
  | .scan i x => s.onLoop i fun t l => .ok (s.setLoop t.stack { l with turn := .taken x })
  | .work i a => s.onLoop i fun t l => s.work i t l a
  | .leave i => s.onLoop i fun t _ => s.leave i t
  | .yieldToReady i => s.on i fun t => s.yieldTo i t .ready
  | .yieldToHold i => s.on i fun t => s.yieldTo i t .hold
  | .swapOut i => s.on i fun t => s.swapOut i t t.fiber (.inside t.cur)
  | .finish i threw => s.on i fun t => s.finish i t threw

/-- The thread executes the callback of a task, of `cb_fiber` or of the idle fiber. -/
def InChild (s : Switches) (t : Thread) : Prop :=
  (s.fiber t.stack).kind = .child ∧ (s.fiber t.cur).cb = true

/-- The code of the main fiber, outside of `run`. -/
def InMain (s : Switches) (t : Thread) : Prop := t.stack = t.main ∧ s.loop t.main = none

end Switches

/-- A scheduler: `m_threadCount` and `use_caller`. -/
structure Config where
  threadCount : Nat
  useCaller : Bool

/-- The number of workers. -/
def Config.workers (cfg : Config) : Nat := cfg.threadCount + if cfg.useCaller then 1 else 0

namespace Switches

/-- The constructor of `Schedular`: with `use_caller` the thread 0 has its main fiber and the root fiber. -/
def initial (cfg : Config) : Switches :=
  if cfg.useCaller then
    { fiber := Function.update (Function.update (fun _ => {}) 0 { state := .exec, kind := .thread })
        rootFiber { cb := true, kind := .caller }
      ctx := Function.update (fun f => ⟨f, .entry⟩) 0 ⟨0, .inside 0⟩
      thread := Function.update (fun _ => none) 0 (some ⟨0, rootFiber, 0, 0, 0⟩) }
  else {}

/-- The entry is one that a scan takes: it passes over a fiber in `EXEC`. -/
def Takes (s : Switches) : Taken → Prop
  | .task f => (s.fiber f).kind = .child ∧ (s.fiber f).state ≠ .exec
  | _ => True

/-- The thread `i` is in the loop of `run`, where `P` holds. -/
def InLoop (s : Switches) (i : Nat) (P : Loop → Prop) : Prop :=
  ∃ t, s.thread i = some t ∧ ∃ l, s.loop t.stack = some l ∧ P l

def Ends (s : Switches) (l : Loop) : Prop := l.turn = .taken .nothing ∧ (s.fiber l.idle).state = .term

/-- The steps that the code can take. An empty callback throws. -/
def enabled (cfg : Config) (s : Switches) : Label → Prop
  | .start i a b => 0 < i ∧ i ≤ cfg.threadCount ∧ s.thread i = none ∧ a ≠ b ∧
      (s.fiber a).kind = .free ∧ (s.fiber b).kind = .free
  | .newFiber a _ => (s.fiber a).kind = .free
  | .call i a => cfg.useCaller = true ∧ (s.fiber a).kind = .free ∧ ∃ t, s.thread i = some t ∧ (s.InChild t ∨ s.InMain t)
  | .scan i x => s.Takes x ∧ s.InLoop i fun l => l.turn = .scan
  | .work i a => (s.fiber a).kind = .free ∧ s.InLoop i fun l => l.turn ≠ .scan ∧ ¬ s.Ends l
  | .leave i => s.InLoop i s.Ends
  | .yieldToReady i | .yieldToHold i | .swapOut i => ∃ t, s.thread i = some t ∧ s.InChild t
  | .finish i threw => ∃ t, s.thread i = some t ∧ (s.fiber t.stack).kind = .child ∧
      ((s.fiber t.cur).cb = false → threw = true)

instance (s : Switches) (t : Thread) : Decidable (s.InChild t) := inferInstanceAs (Decidable (_ ∧ _))

instance (s : Switches) (t : Thread) : Decidable (s.InMain t) :=
  inferInstanceAs (Decidable (t.stack = t.main ∧ s.loop t.main = none))

instance (s : Switches) (x : Taken) : Decidable (s.Takes x) :=
  match x with
  | .task _ => inferInstanceAs (Decidable (_ ∧ _))
  | .callback | .nothing => inferInstanceAs (Decidable True)

instance (s : Switches) (i : Nat) (P : Loop → Prop) [DecidablePred P] : Decidable (s.InLoop i P) :=
  inferInstanceAs (Decidable (∃ t ∈ s.thread i, ∃ l ∈ s.loop t.stack, P l))

instance (s : Switches) (l : Loop) : Decidable (s.Ends l) := inferInstanceAs (Decidable (_ ∧ _))

instance (cfg : Config) (s : Switches) (c : Label) : Decidable (s.enabled cfg c) :=
  match c with
  | .start .. => inferInstanceAs (Decidable (_ ∧ _))
  | .newFiber .. => inferInstanceAs (Decidable (_ = _))
  | .call i a => inferInstanceAs (Decidable (cfg.useCaller = true ∧ (s.fiber a).kind = .free ∧
      ∃ t ∈ s.thread i, s.InChild t ∨ s.InMain t))
  | .scan .. => inferInstanceAs (Decidable (_ ∧ _))
  | .work i a => inferInstanceAs (Decidable ((s.fiber a).kind = .free ∧
      s.InLoop i fun l => l.turn ≠ .scan ∧ ¬ s.Ends l))
  | .leave i => inferInstanceAs (Decidable (s.InLoop i s.Ends))
  | .yieldToReady i | .yieldToHold i | .swapOut i => inferInstanceAs (Decidable (∃ t ∈ s.thread i, s.InChild t))
  | .finish i threw => inferInstanceAs (Decidable (∃ t ∈ s.thread i, (s.fiber t.stack).kind = .child ∧
      ((s.fiber t.cur).cb = false → threw = true)))

end Switches

def machine (cfg : Config) : Machine Switches Switches.Label Unit Fault where
  init s := s = Switches.initial cfg
  enabled := Switches.enabled cfg
  step s c := (s.step c).map fun s => ((), s)

instance (cfg : Config) (s : Switches) (c : Switches.Label) : Decidable ((machine cfg).enabled s c) :=
  inferInstanceAs (Decidable (s.enabled cfg c))

end QWebServer.Switching
