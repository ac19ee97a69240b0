import Mathlib
import QWebServer.Lib.Run
import QWebServer.Schedular.Queue

/-!
# `iomanager.cpp`: events on descriptors

* `EventContext`, `FdContext` : who waits for an event of a descriptor, and the event bits;
* `IOManager` : the table `m_fdContexts`, `m_pendingEventCount` and the registrations of the epoll instance; the types
  `σ`, `φ`, `κ` are those of schedulers, fibers and callbacks;
* `contextResize`, `triggerEvent`, `addEvent`, `delEvent`, `cancelEvent`, `cancelAll` and `idleEvent`, the body of the
  loop of `idle` over what `epoll_wait` reported; `rt` tells whether the call of `epoll_ctl` returns 0;
* `machine` : any sequence of these, one at a time.

An assertion that fails, an access outside the table and a call through a null scheduler are faults.
-/

namespace QWebServer

open Lib

namespace IOManager

/-- `IOManager::Event`, less `NONE`. -/
inductive Event
  | read
  | write
  deriving DecidableEq

def Event.mask : Event → BitVec 32
  | .read => 0x1#32
  | .write => 0x4#32

def EPOLLIN : BitVec 32 := 0x1#32
def EPOLLOUT : BitVec 32 := 0x4#32
def EPOLLERR : BitVec 32 := 0x8#32
def EPOLLHUP : BitVec 32 := 0x10#32
def EPOLLET : BitVec 32 := 0x80000000#32

inductive CtlOp
  | add
  | mod
  | del

/-- The registration that an operation with the mask `events` leaves. -/
def CtlOp.apply (events : BitVec 32) : CtlOp → Option (BitVec 32)
  | .add => some events
  | .mod => some events
  | .del => none

/-- What stops the process. -/
inductive Fault
  | outOfRange
  | outOfMemory
  | duplicate
  | contextInUse
  | notExec
  | notSet
  | nullSchedular
  | eventsLeft
  deriving DecidableEq

structure EventContext (σ φ κ : Type) where
  schedular : Option σ := none
  fiber : Option φ := none
  cb : Option κ := none
  deriving DecidableEq

structure FdContext (σ φ κ : Type) where
  read : EventContext σ φ κ := {}
  write : EventContext σ φ κ := {}
  fd : Int
  events : BitVec 32 := 0#32
  deriving DecidableEq

/-- The caller of `addEvent`: `Schedular::GetThis()`, `Fiber::GetThis()` and the state of that fiber. -/
structure Caller (σ φ : Type) where
  schedular : Option σ
  fiber : φ
  state : Fiber.State := .exec

/-- How many `FdContext`s the allocator provides before `new` throws; an `int` counts them. -/
structure Memory where
  capacity : Nat
  bounded : capacity < 2 ^ 31

/-- The conversion of a `size_t` to `int`. -/
def toInt (n : Nat) : Int := (n : Int).bmod (2 ^ 32)

theorem toInt_of_lt {n : Nat} (h : n < 2 ^ 31) : toInt n = n := by
  unfold toInt
  rw [Int.bmod_eq_of_le] <;> omega

theorem toInt_eq (n : Nat) :
    toInt n = if n % 2 ^ 32 < 2 ^ 31 then ((n % 2 ^ 32 : Nat) : Int) else (n % 2 ^ 32 : Nat) - 2 ^ 32 := by
  unfold toInt
  rw [Int.bmod_def]
  split_ifs <;> omega

end IOManager

/-- `IOManager`. The field `epoll` keeps the mask registered for each descriptor. -/
structure IOManager (σ φ κ : Type) where
  fdContexts : List (IOManager.FdContext σ φ κ)
  pendingEventCount : UInt64 := 0
  epoll : Int → Option (BitVec 32) := fun _ => none

namespace IOManager

variable {σ φ κ : Type}

namespace FdContext

def getContext (c : FdContext σ φ κ) : Event → EventContext σ φ κ
  | .read => c.read
  | .write => c.write

/-- An assignment through the reference `getContext` returns. -/
def setContext (c : FdContext σ φ κ) (event : Event) (x : EventContext σ φ κ) : FdContext σ φ κ :=
  match event with
  | .read => { c with read := x }
  | .write => { c with write := x }

def resetContext (c : FdContext σ φ κ) (event : Event) : FdContext σ φ κ :=
  c.setContext event { schedular := none, fiber := none, cb := none }

/-- `FdContext::triggerEvent`: the call of `schedule`, and the context after it. -/
def triggerEvent (c : FdContext σ φ κ) (event : Event) :
    Except Fault ((σ × FiberAndThread φ κ) × FdContext σ φ κ) :=
  if c.events &&& event.mask = 0#32 then .error .notSet
  else
    let c := { c with events := c.events &&& ~~~event.mask }
    let ctx := c.getContext event
    match ctx.schedular with
    | none => .error .nullSchedular
    | some s =>
      if ctx.cb.isSome then
        let (ft, cb) := FiberAndThread.ofCbPtr ctx.cb (-1)
        .ok ((s, ft), c.setContext event { ctx with cb := cb, schedular := none })
      else
        let (ft, fiber) := FiberAndThread.ofFiberPtr ctx.fiber (-1)
        .ok ((s, ft), c.setContext event { ctx with fiber := fiber, schedular := none })

end FdContext

/-- `IOManager::contextResize`: `new FdContext()` for every place that `resize` leaves null. -/
def contextResize {α : Type} (mem : Memory) (fresh : Nat → α) (table : List α) (size : Nat) : Except Fault (List α) :=
  if size ≤ mem.capacity then
    .ok (table.take size ++ (List.range' table.length (size - table.length)).map fresh)
  else .error .outOfMemory

def freshContext (i : Nat) : FdContext σ φ κ := { fd := i }

/-- `IOManager::IOManager`: `contextResize(32)`. -/
def new : IOManager σ φ κ := { fdContexts := (List.range 32).map freshContext }

/-- `m_fdContexts[fd]`. -/
def fdContext (m : IOManager σ φ κ) (fd : Int) : Except Fault (FdContext σ φ κ) :=
  if fd < 0 then .error .outOfRange
  else
    match m.fdContexts[fd.toNat]? with
    | none => .error .outOfRange
    | some c => .ok c

/-- An assignment through the pointer `m_fdContexts[fd]`. -/
def setFdContext (m : IOManager σ φ κ) (fd : Int) (c : FdContext σ φ κ) : IOManager σ φ κ :=
  { m with fdContexts := m.fdContexts.set fd.toNat c }

/-- `epoll_ctl(m_epfd, op, fd, &event)`: it updates the registration exactly when it returns 0. -/
def epollCtl (m : IOManager σ φ κ) (op : CtlOp) (fd : Int) (events : BitVec 32) (rt : Bool) :
    Option (IOManager σ φ κ) :=
  if rt then some { m with epoll := Function.update m.epoll fd (op.apply events) } else none

/-- The lookup of `IOManager::addEvent`, which grows the table to one and a half times `fd`. -/
def lookup (mem : Memory) (m : IOManager σ φ κ) (fd : Int) : Except Fault (IOManager σ φ κ) :=
  if toInt m.fdContexts.length > fd then .ok m
  else do
    let table ← contextResize mem freshContext m.fdContexts (3 * fd.toNat / 2)
    return { m with fdContexts := table }

/-- `IOManager::addEvent` under the mutex of `m_fdContexts[fd]`. -/
def addEventAt (m : IOManager σ φ κ) (fd : Int) (event : Event) (cb : Option κ) (caller : Caller σ φ) (rt : Bool) :
    Except Fault (Int × IOManager σ φ κ) := do
  let c ← m.fdContext fd
  if c.events &&& event.mask ≠ 0#32 then .error .duplicate
  else
    match m.epollCtl (if c.events ≠ 0#32 then .mod else .add) fd (EPOLLET ||| c.events ||| event.mask) rt with
    | none => return (-1, m)
    | some m =>
      let m := { m with pendingEventCount := m.pendingEventCount + 1 }
      let c := { c with events := c.events ||| event.mask }
      let ctx := c.getContext event
      if ctx.schedular.isSome || ctx.fiber.isSome || ctx.cb.isSome then .error .contextInUse
      else
        let ctx := { ctx with schedular := caller.schedular }
        if cb.isSome then return (0, m.setFdContext fd (c.setContext event { ctx with cb := cb }))
        else if caller.state = .exec then
          return (0, m.setFdContext fd (c.setContext event { ctx with fiber := some caller.fiber }))
        else .error .notExec

def addEvent (mem : Memory) (m : IOManager σ φ κ) (fd : Int) (event : Event) (cb : Option κ) (caller : Caller σ φ)
    (rt : Bool) : Except Fault (Int × IOManager σ φ κ) := do
  let m ← lookup mem m fd
  m.addEventAt fd event cb caller rt

def delEvent (m : IOManager σ φ κ) (fd : Int) (event : Event) (rt : Bool) : Except Fault (Bool × IOManager σ φ κ) :=
  if toInt m.fdContexts.length ≤ fd then .ok (false, m)
  else do
    let c ← m.fdContext fd
    if c.events &&& event.mask = 0#32 then return (false, m)
    else
      let newEvents := c.events &&& ~~~event.mask
      match m.epollCtl (if newEvents ≠ 0#32 then .mod else .del) fd (EPOLLET ||| newEvents) rt with
      | none => return (false, m)
      | some m =>
        let m := { m with pendingEventCount := m.pendingEventCount - 1 }
        return (true, m.setFdContext fd ({ c with events := newEvents }.resetContext event))

/-- `fd_ctx->triggerEvent(event); --m_pendingEventCount;` -/
def trigger (m : IOManager σ φ κ) (fd : Int) (event : Event) :
    Except Fault ((σ × FiberAndThread φ κ) × IOManager σ φ κ) := do
  let c ← m.fdContext fd
  let (call, c) ← c.triggerEvent event
  return (call, { m with pendingEventCount := m.pendingEventCount - 1 }.setFdContext fd c)

/-- `if(events & event) { fd_ctx->triggerEvent(event); --m_pendingEventCount; }` -/
def triggerIf (m : IOManager σ φ κ) (fd : Int) (events : BitVec 32) (event : Event) :
    Except Fault (List (σ × FiberAndThread φ κ) × IOManager σ φ κ) :=
  if events &&& event.mask ≠ 0#32 then do
    let (call, m) ← m.trigger fd event
    return ([call], m)
  else .ok ([], m)

/-- `IOManager::cancelEvent`: what it returns, the calls of `schedule`, and the manager after it. -/
def cancelEvent (m : IOManager σ φ κ) (fd : Int) (event : Event) (rt : Bool) :
    Except Fault (Bool × List (σ × FiberAndThread φ κ) × IOManager σ φ κ) :=
  if toInt m.fdContexts.length ≤ fd then .ok (false, [], m)
  else do
    let c ← m.fdContext fd
    if c.events &&& event.mask = 0#32 then return (false, [], m)
    else
      let newEvents := c.events &&& ~~~event.mask
      match m.epollCtl (if newEvents ≠ 0#32 then .mod else .del) fd (EPOLLET ||| newEvents) rt with
      | none => return (false, [], m)
      | some m =>
        let (call, m) ← m.trigger fd event
        return (true, [call], m)

def cancelAll (m : IOManager σ φ κ) (fd : Int) (rt : Bool) :
    Except Fault (Bool × List (σ × FiberAndThread φ κ) × IOManager σ φ κ) :=
  if toInt m.fdContexts.length ≤ fd then .ok (false, [], m)
  else do
    let c ← m.fdContext fd
    if c.events = 0#32 then return (false, [], m)
    else
      match m.epollCtl .del fd 0#32 rt with
      | none => return (false, [], m)
      | some m =>
        let c ← m.fdContext fd
        let (r, m) ← m.triggerIf fd c.events .read
        let c ← m.fdContext fd
        let (w, m) ← m.triggerIf fd c.events .write
        let c ← m.fdContext fd
        if c.events = 0#32 then return (true, r ++ w, m) else .error .eventsLeft

/-- `real_events` of the loop of `IOManager::idle`: what of the reported mask `reported` is triggered where the
events of the descriptor are `events`. -/
def realEvents (reported events : BitVec 32) : BitVec 32 :=
  let reported :=
    if reported &&& (EPOLLERR ||| EPOLLHUP) ≠ 0#32 then reported ||| ((EPOLLIN ||| EPOLLOUT) &&& events) else reported
  (if reported &&& EPOLLIN ≠ 0#32 then Event.read.mask else 0#32) |||
    (if reported &&& EPOLLOUT ≠ 0#32 then Event.write.mask else 0#32)

/-- The body of the loop of `IOManager::idle` over the reported events, for the context of `fd`. -/
def idleEvent (m : IOManager σ φ κ) (fd : Int) (reported : BitVec 32) (rt : Bool) :
    Except Fault (List (σ × FiberAndThread φ κ) × IOManager σ φ κ) := do
  let c ← m.fdContext fd
  let real := realEvents reported c.events
  if c.events &&& real = 0#32 then return ([], m)
  else
    let left := c.events &&& ~~~real
    match m.epollCtl (if left ≠ 0#32 then .mod else .del) c.fd (EPOLLET ||| left) rt with
    | none => return ([], m)
    | some m =>
      let (r, m) ← m.triggerIf fd real .read
      let (w, m) ← m.triggerIf fd real .write
      return (r ++ w, m)

inductive Op (σ φ κ : Type)
  | addEvent (fd : Int) (event : Event) (cb : Option κ) (caller : Caller σ φ) (rt : Bool)
  | delEvent (fd : Int) (event : Event) (rt : Bool)
  | cancelEvent (fd : Int) (event : Event) (rt : Bool)
  | cancelAll (fd : Int) (rt : Bool)
  | idle (fd : Int) (reported : BitVec 32) (rt : Bool)

/-- What an operation returns, a `bool` as 0 or 1, and its calls of `schedule`. -/
structure Reply (σ φ κ : Type) where
  ret : Int := 0
  scheduled : List (σ × FiberAndThread φ κ) := []
  deriving DecidableEq

def step (mem : Memory) (m : IOManager σ φ κ) : Op σ φ κ → Except Fault (Reply σ φ κ × IOManager σ φ κ)
  | .addEvent fd event cb caller rt => do
    let (ret, m) ← m.addEvent mem fd event cb caller rt
    return ({ ret }, m)
  | .delEvent fd event rt => do
    let (ret, m) ← m.delEvent fd event rt
    return ({ ret := ret.toInt }, m)
  | .cancelEvent fd event rt => do
    let (ret, scheduled, m) ← m.cancelEvent fd event rt
    return ({ ret := ret.toInt, scheduled }, m)
  | .cancelAll fd rt => do
    let (ret, scheduled, m) ← m.cancelAll fd rt
    return ({ ret := ret.toInt, scheduled }, m)
  | .idle fd reported rt => do
    let (scheduled, m) ← m.idleEvent fd reported rt
    return ({ scheduled }, m)

/-- `addEvent` is called on a thread that has a scheduler. -/
def Allowed : Op σ φ κ → Prop
  | .addEvent _ _ _ caller _ => caller.schedular.isSome
  | _ => True

instance (o : Op σ φ κ) : Decidable (Allowed o) :=
  match o with
  | .addEvent _ _ _ caller _ => inferInstanceAs (Decidable (caller.schedular.isSome = true))
  | .delEvent .. | .cancelEvent .. | .cancelAll .. | .idle .. => isTrue trivial

def machine (mem : Memory) (σ φ κ : Type) : Machine (IOManager σ φ κ) (Op σ φ κ) (Reply σ φ κ) Fault where
  init m := m = new
  enabled _ o := Allowed o
  step := step mem

instance (mem : Memory) (m : IOManager σ φ κ) (o : Op σ φ κ) : Decidable ((machine mem σ φ κ).enabled m o) :=
  inferInstanceAs (Decidable (Allowed o))

end IOManager

end QWebServer
