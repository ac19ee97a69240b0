import Mathlib
import QWebServer.Lib.Run
import QWebServer.Schedular.Queue
import QWebServer.Timer.Model

/-!
# `schedular.cpp` and `fiber.cpp`: workers, fibers and the queue between them

* `Fiber` : state, callback, and whether the context is complete in `m_ctx`;
* `Item` : an entry of `m_fibers`, with the number of its list node;
* `Pc`, `Worker` : where a worker is in the loop of `Schedular::run`, and its variable `cb_fiber`;
* `Schedular` : the fibers by address, the queue, `m_activeThreadCount`, the workers, and the fibers that wait in an
  `EventContext` or in the callback of a sleep timer;
* `scheduleNoLock`, `schedule` : one entry, and a batch under one lock;
* `scan` : the locked loop that takes an entry;
* `work` : the next step of a worker, `act` : a step of the fiber that runs on it;
* `step` : one step of anybody.

The steps of a worker are cut where it holds no lock: every store to a fiber that others see is a step of its own, and
so are the tests of its state between two of them. A worker that finds no entry runs its idle fiber, which is in nobody
else's hands, and scans again.
-/

namespace QWebServer

open Lib

/-- `Fiber`. The field `saved` tells whether `m_ctx` holds the whole context: it does not while the fiber runs. -/
structure Fiber (κ : Type) where
  state : Fiber.State := .init
  cb : Option κ := none
  saved : Bool := true

namespace Schedular

variable {τ κ : Type}

/-- The assertions of `Schedular::run` and of `Fiber`. -/
inductive Fault
  | emptyEntry
  | swapInExec
  | resetState
  | yieldState
  deriving DecidableEq

/-- An entry of `m_fibers`, in the list node number `node`. -/
structure Item (κ : Type) where
  node : Nat
  ft : FiberAndThread Addr κ

/-- Where a fiber is between `swapIn` and the end of `swapOut`: it runs, it runs and waits to be scheduled again, or it
has stored the state `o` and is on its way out. -/
inductive Phase
  | running
  | published
  | leaving (o : Fiber.State)
  deriving DecidableEq

/-- Where a worker is in `run`, with the fiber in its hand; `via` tells whether that is `cb_fiber`. -/
inductive Pc (κ : Type)
  | scan
  | taken (x : Item κ)
  | swapIn (x : Item κ) (f : Addr) (via : Bool)
  | load (x : Item κ) (f : Addr) (via : Bool)
  | exec (f : Addr) (via : Bool) (p : Phase)
  | back (f : Addr) (via : Bool) (o : Fiber.State)
  | check (f : Addr) (via : Bool) (o : Fiber.State)
  | requeue (f : Addr) (via : Bool)
  | recycle (f : Addr) (via : Bool)
  | update (f : Addr) (via : Bool)
  | discard

/-- A worker. -/
structure Worker (κ : Type) where
  pc : Pc κ := .scan
  cbFiber : Option Addr := none

/-- The threads of a scheduler, with the values of `GetThreadId`. -/
structure Threads (τ : Type) where
  id : τ → Int
  inj : Function.Injective id
  range : ∀ t, 0 ≤ id t ∧ id t < 2 ^ 31

def twoThreads : Threads Bool where
  id t := if t then 2 else 1
  inj := by
    intro t t' h
    cases t <;> cases t' <;> simp at h ⊢
  range := by decide

end Schedular

/-- `Schedular`, with the fibers. -/
structure Schedular (τ κ : Type) where
  fibers : Addr → Fiber κ := fun _ => {}
  created : List Addr := []
  queue : List (Schedular.Item κ) := []
  pushed : Nat := 0
  activeThreadCount : UInt64 := 0
  workers : τ → Schedular.Worker κ := fun _ => {}
  waiting : List Addr := []

namespace Schedular

variable {τ κ : Type}

/-! ## Fibers -/

def resetFiber (x : Fiber κ) (cb : Option κ) : Except Fault (Fiber κ) :=
  if x.state = .term ∨ x.state = .except ∨ x.state = .init then .ok { state := .init, cb := cb, saved := true }
  else .error .resetState

def setFiber (s : Schedular τ κ) (f : Addr) (x : Fiber κ) : Schedular τ κ :=
  { s with fibers := Function.update s.fibers f x }

def setState (s : Schedular τ κ) (f : Addr) (o : Fiber.State) : Schedular τ κ :=
  s.setFiber f { s.fibers f with state := o }

def newFiber (s : Schedular τ κ) (a : Addr) (cb : Option κ) : Schedular τ κ :=
  { s.setFiber a { cb := cb } with created := a :: s.created }

/-! ## The queue -/

/-- `m_fibers.push_back(ft)`. -/
def push (s : Schedular τ κ) (ft : FiberAndThread Addr κ) : Schedular τ κ :=
  { s with queue := s.queue ++ [⟨s.pushed, ft⟩], pushed := s.pushed + 1 }

def scheduleNoLock (s : Schedular τ κ) (ft : FiberAndThread Addr κ) : Bool × Schedular τ κ :=
  (s.queue.isEmpty, if ft.nonempty then s.push ft else s)

/-- `Schedular::schedule`: the loop over a batch; a single entry is a batch of one. -/
def schedule (s : Schedular τ κ) : List (FiberAndThread Addr κ) → Bool × Schedular τ κ
  | [] => (false, s)
  | ft :: fts =>
    let (needTickle, s) := s.scheduleNoLock ft
    let (rest, s) := s.schedule fts
    (rest || needTickle, s)

def elsewhere (tid : Int) (x : Item κ) : Prop := x.ft.thread ≠ -1 ∧ x.ft.thread ≠ tid

def executing (fibers : Addr → Fiber κ) (x : Item κ) : Prop := ∃ f, x.ft.fiber = some f ∧ (fibers f).state = .exec

instance (tid : Int) (x : Item κ) : Decidable (elsewhere tid x) :=
  inferInstanceAs (Decidable (_ ∧ _))

instance (fibers : Addr → Fiber κ) (x : Item κ) : Decidable (executing fibers x) :=
  match h : x.ft.fiber with
  | none => isFalse (by simp [executing, h])
  | some f => decidable_of_iff ((fibers f).state = .exec) (by simp [executing, h])

/-- The locked loop of `Schedular::run`: the entry it takes, the queue it leaves, and `tickle_me`. -/
def scan (tid : Int) (fibers : Addr → Fiber κ) : List (Item κ) → Except Fault (Option (Item κ) × List (Item κ) × Bool)
  | [] => .ok (none, [], false)
  | x :: xs =>
    if elsewhere tid x then do
      let (taken, rest, _) ← scan tid fibers xs
      return (taken, x :: rest, true)
    else if x.ft.nonempty = false then .error .emptyEntry
    else if executing fibers x then do
      let (taken, rest, tickleMe) ← scan tid fibers xs
      return (taken, x :: rest, tickleMe)
    else .ok (some x, xs, !xs.isEmpty)

/-! ## Steps -/

/-- What a step does that others see: whether it calls `tickle`, the nodes whose fiber or callback it starts to execute,
the nodes it drops, the fibers that leave as `READY`, and those it pushes back for that. -/
structure Reply where
  tickle : Bool := false
  executed : List Nat := []
  dropped : List Nat := []
  readied : List Addr := []
  requeued : List Addr := []
  deriving DecidableEq

section
variable [DecidableEq τ]

def goto (s : Schedular τ κ) (t : τ) (pc : Pc κ) : Schedular τ κ :=
  { s with workers := Function.update s.workers t { s.workers t with pc := pc } }

/-- An assignment to `cb_fiber`. -/
def setCbFiber (s : Schedular τ κ) (t : τ) (c : Option Addr) : Schedular τ κ :=
  { s with workers := Function.update s.workers t { s.workers t with cbFiber := c } }

/-- `cb_fiber.reset()` in the callback branch; the fiber branch has its fiber in `ft`. -/
def release (s : Schedular τ κ) (t : τ) (via : Bool) : Schedular τ κ :=
  if via then s.setCbFiber t none else s

/-- The branch of `run` for the taken entry; `a` is the address of a new `cb_fiber`. -/
def dispatch (s : Schedular τ κ) (t : τ) (x : Item κ) (a : Addr) : Except Fault (Reply × Schedular τ κ) :=
  let runnable : Option Addr := x.ft.fiber.filter fun f => (s.fibers f).state ≠ .term ∧ (s.fibers f).state ≠ .except
  match runnable with
  | some f => .ok ({}, s.goto t (.swapIn x f false))
  | none =>
    if x.ft.cb.isSome then
      match (s.workers t).cbFiber with
      | some f => do
        let y ← resetFiber (s.fibers f) x.ft.cb
        return ({}, (s.setFiber f y).goto t (.swapIn x f true))
      | none => .ok ({}, ((s.newFiber a x.ft.cb).setCbFiber t (some a)).goto t (.swapIn x a true))
    else .ok ({ dropped := [x.node] }, s.goto t .discard)

def work (ids : Threads τ) (s : Schedular τ κ) (t : τ) (a : Addr) : Except Fault (Reply × Schedular τ κ) :=
  match (s.workers t).pc with
  | .scan => do
    let (taken, rest, tickleMe) ← scan (ids.id t) s.fibers s.queue
    match taken with
    | none => return ({ tickle := tickleMe }, { s with queue := rest })
    | some x =>
      return ({ tickle := tickleMe },
        { s with queue := rest, activeThreadCount := s.activeThreadCount + 1 }.goto t (.taken x))
  | .taken x => s.dispatch t x a
  | .swapIn x f via =>
    if (s.fibers f).state = .exec then .error .swapInExec
    else .ok ({}, (s.setState f .exec).goto t (.load x f via))
  | .load x f via =>
    .ok ({ executed := [x.node] }, (s.setFiber f { s.fibers f with saved := false }).goto t (.exec f via .running))
  | .exec f via (.leaving o) =>
    .ok ({}, (s.setFiber f { s.fibers f with saved := true }).goto t (.back f via o))
  | .exec _ _ _ => .ok ({}, s)
  | .back f via o => .ok ({}, { s with activeThreadCount := s.activeThreadCount - 1 }.goto t (.check f via o))
  | .check f via _ =>
    if (s.fibers f).state = .ready then .ok ({}, s.goto t (.requeue f via))
    else if (s.fibers f).state = .term ∨ (s.fibers f).state = .except then .ok ({}, s.goto t (.recycle f via))
    else .ok ({}, s.goto t (.update f via))
  | .requeue f via =>
    let (needTickle, s) := s.scheduleNoLock { fiber := some f }
    .ok ({ tickle := needTickle, requeued := [f] }, (s.release t via).goto t .scan)
  | .recycle f via =>
    if via then do
      let y ← resetFiber (s.fibers f) none
      return ({}, (s.setFiber f y).goto t .scan)
    else .ok ({}, s.goto t .scan)
  | .update f via => .ok ({}, ((s.setState f .hold).release t via).goto t .scan)
  | .discard => .ok ({}, { s with activeThreadCount := s.activeThreadCount - 1 }.goto t .scan)

/-- What a running fiber does: it is recorded in an `EventContext` or a sleep timer, it yields, or its function ends. -/
inductive Act
  | publish
  | yieldToHold
  | yieldToReady
  | finish (threw : Bool)
  deriving DecidableEq

/-- A step of the fiber that runs on the worker `t`. -/
def act (s : Schedular τ κ) (t : τ) (x : Act) : Except Fault (Reply × Schedular τ κ) :=
  match (s.workers t).pc with
  | .exec _ _ (.leaving _) => .ok ({}, s)
  | .exec f via _ =>
    match x with
    | .publish => .ok ({}, { s with waiting := f :: s.waiting }.goto t (.exec f via .published))
    | .yieldToHold =>
      if (s.fibers f).state = .exec then .ok ({}, (s.setState f .hold).goto t (.exec f via (.leaving .hold)))
      else .error .yieldState
    | .yieldToReady =>
      if (s.fibers f).state = .exec then
        .ok ({ readied := [f] }, (s.setState f .ready).goto t (.exec f via (.leaving .ready)))
      else .error .yieldState
    | .finish true => .ok ({}, (s.setState f .except).goto t (.exec f via (.leaving .except)))
    | .finish false =>
      .ok ({}, (s.setFiber f { s.fibers f with state := .term, cb := none }).goto t (.exec f via (.leaving .term)))
  | _ => .ok ({}, s)

/-- The steps of a scheduler and of those around it. -/
inductive Label (τ κ : Type)
  | schedule (fts : List (FiberAndThread Addr κ))
  | newFiber (a : Addr) (cb : Option κ)
  | trigger (f : Addr)
  | work (t : τ) (a : Addr)
  | act (t : τ) (x : Act)

/-- One step. `trigger` is the `schedule` by `triggerEvent` or by the callback of a sleep timer. -/
def step (ids : Threads τ) (s : Schedular τ κ) : Label τ κ → Except Fault (Reply × Schedular τ κ)
  | .schedule fts =>
    let (needTickle, s) := s.schedule fts
    .ok ({ tickle := needTickle }, s)
  | .newFiber a cb => .ok ({}, s.newFiber a cb)
  | .trigger f =>
    let (needTickle, s) := { s with waiting := s.waiting.erase f }.schedule [{ fiber := some f }]
    .ok ({ tickle := needTickle }, s)
  | .work t a => s.work ids t a
  | .act t x => s.act t x

end

end Schedular

end QWebServer
