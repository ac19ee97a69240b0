import Mathlib.Logic.Function.Basic
import QWebServer.Lib.OrderedSet
import QWebServer.Lib.Run

/-!
# `timer.cpp`: timers and the timer manager

* `Timer` : the fields of a timer; a `std::function` is an `Option` over the type `κ` of callbacks, `none` the empty
  one;
* `TimerManager` : the timers by address, `m_timers` as the addresses in iteration order, `m_tickled` and
  `m_previouseTime`;
* `Comparator` : the order of `m_timers`, read on `m_next` and the address of a pointer that may be null;
* `cancel`, `refresh`, `reset`, `addTimer`, `getNextTimer`, `listExpiredCb` : the operations, with the reading of
  `GetCurrentMS` as the argument `now`;
* `machine` : any sequence of operations, one at a time.

`listExpiredCb` is cut as its two critical sections cut it: the emptiness check and `listExpiredBody`.
-/

namespace QWebServer

open Lib

abbrev Addr := Nat

structure Timer (κ : Type) where
  recurring : Bool := false
  ms : UInt64 := 0
  next : UInt64 := 0
  cb : Option κ := none

namespace Timer

/-- What the comparator reads of a `Timer::ptr`: null, or `m_next` and the address. -/
abbrev Key := Option (UInt64 × Nat)

def Comparator : Key → Key → Bool
  | none, none => false
  | none, some _ => true
  | some _, none => false
  | some lf, some rg => if lf.1 < rg.1 then true else if lf.1 > rg.1 then false else decide (lf.2 < rg.2)

abbrev Before (lf rg : Key) : Prop := Comparator lf rg = true

end Timer

/-- The fault of `listExpiredCb`: `*m_timers.begin()` on an empty set. -/
inductive Timer.Fault
  | derefEnd
  deriving DecidableEq

/-- `TimerManager`. The field `created` keeps the addresses handed out by `new Timer`. -/
structure TimerManager (κ : Type) where
  heap : Addr → Timer κ := fun _ => {}
  created : List Addr := []
  timers : List Addr := []
  tickled : Bool := false
  previouseTime : UInt64

namespace TimerManager

variable {κ : Type}

def new (now : UInt64) : TimerManager κ := { previouseTime := now }

def key (m : TimerManager κ) (t : Addr) : Timer.Key := some ((m.heap t).next, t)

def find (m : TimerManager κ) (t : Addr) : Option Nat :=
  OrderedSet.find Timer.Before m.key (m.key t) m.timers

/-- `m_timers.insert(t)`: the set and the position of `t`. -/
def insert (m : TimerManager κ) (t : Addr) : List Addr × Nat :=
  OrderedSet.insert Timer.Before m.key t m.timers

/-- An assignment to the fields of the timer at `t`. -/
def modify (m : TimerManager κ) (t : Addr) (f : Timer κ → Timer κ) : TimerManager κ :=
  { m with heap := Function.update m.heap t (f (m.heap t)) }

def cancel (m : TimerManager κ) (t : Addr) : Bool × TimerManager κ :=
  if (m.heap t).cb.isSome then
    let m := m.modify t fun x => { x with cb := none }
    match m.find t with
    | some it => (true, { m with timers := m.timers.eraseIdx it })
    | none => (false, m)
  else (false, m)

def refresh (m : TimerManager κ) (t : Addr) (now : UInt64) : Bool × TimerManager κ :=
  if (m.heap t).cb.isNone then (false, m)
  else
    match m.find t with
    | none => (false, m)
    | some it =>
      let m := { m with timers := m.timers.eraseIdx it }
      let m := m.modify t fun x => { x with next := now + x.ms }
      (true, { m with timers := (m.insert t).1 })

/-- `TimerManager::addTimer(val, lock)`, and whether it calls `onTimerInsertedAtFront`. -/
def addTimerLocked (m : TimerManager κ) (val : Addr) : Bool × TimerManager κ :=
  let ins := m.insert val
  let onFirst := ins.2 == 0 && !m.tickled
  (onFirst, { m with timers := ins.1, tickled := m.tickled || onFirst })

/-- `Timer::reset`, and whether it calls `onTimerInsertedAtFront`. -/
def reset (m : TimerManager κ) (t : Addr) (ms : UInt64) (fromNow : Bool) (now : UInt64) :
    Bool × Bool × TimerManager κ :=
  if ms == (m.heap t).ms && !fromNow then (true, false, m)
  else if (m.heap t).cb.isNone then (false, false, m)
  else
    match m.find t with
    | none => (false, false, m)
    | some it =>
      let m := { m with timers := m.timers.eraseIdx it }
      let start := if fromNow then now else (m.heap t).next - (m.heap t).ms
      let m := m.modify t fun x => { x with ms := ms, next := start + ms }
      let r := m.addTimerLocked t
      (true, r.1, r.2)

/-- `TimerManager::addTimer`: `new Timer` at the address `a`, then the locked insertion. -/
def addTimer (m : TimerManager κ) (a : Addr) (ms : UInt64) (cb : Option κ) (recurring : Bool) (now : UInt64) :
    Bool × TimerManager κ :=
  let m := m.modify a fun _ => { recurring := recurring, ms := ms, next := ms + now, cb := cb }
  { m with created := m.created ++ [a] }.addTimerLocked a

def getNextTimer (m : TimerManager κ) (now : UInt64) : UInt64 × TimerManager κ :=
  let m := { m with tickled := false }
  match m.timers with
  | [] => (~~~0, m)
  | front :: _ => (if now ≥ (m.heap front).next then 0 else (m.heap front).next - now, m)

/-- The test of `TimerManager::detectClockRollover`. -/
def rollsOver (m : TimerManager κ) (now : UInt64) : Bool :=
  decide (now > m.previouseTime) && decide (now > m.previouseTime + 60 * 60 * 1000)

def detectClockRollover (m : TimerManager κ) (now : UInt64) : Bool × TimerManager κ :=
  (m.rollsOver now, { m with previouseTime := now })

/-- The loop body of `listExpiredCb` after the callback is read: a recurring timer is set again and re-inserted,
another one gives up its callback. -/
def rearm (m : TimerManager κ) (now : UInt64) (t : Addr) : TimerManager κ :=
  if (m.heap t).recurring then
    let m := m.modify t fun x => { x with next := x.ms + now }
    { m with timers := (m.insert t).1 }
  else m.modify t fun x => { x with cb := none }

/-- The loop of `listExpiredCb` over `expired`: the callbacks, each with the timer it is read from. -/
def deliver (now : UInt64) : List Addr → TimerManager κ → List (Addr × Option κ) × TimerManager κ
  | [], m => ([], m)
  | t :: expired, m =>
    let r := deliver now expired (m.rearm now t)
    ((t, (m.heap t).cb) :: r.1, r.2)

/-- The iterator `it` of `listExpiredCb` when the clock did not roll over: `lower_bound` of the timer `now_timer` at
the address `probe`, moved past the timers due now. -/
def expiredEnd (m : TimerManager κ) (now : UInt64) (probe : Addr) : Nat :=
  let it := OrderedSet.lowerBound Timer.Before m.key (some (now, probe)) m.timers
  it + ((m.timers.drop it).takeWhile fun t => (m.heap t).next == now).length

/-- The end of `listExpiredCb` from the iterator `it` on. -/
def expire (m : TimerManager κ) (now : UInt64) (it : Nat) : List (Addr × Option κ) × TimerManager κ :=
  deliver now (m.timers.take it) { m with timers := m.timers.drop it }

/-- The write-locked section of `listExpiredCb`. -/
def listExpiredBody (m : TimerManager κ) (now : UInt64) (probe : Addr) :
    Except Timer.Fault (List (Addr × Option κ) × TimerManager κ) :=
  let (rollover, m) := m.detectClockRollover now
  match rollover, m.timers with
  | false, [] => .error .derefEnd
  | false, front :: _ =>
    if (m.heap front).next > now then .ok ([], m) else .ok (m.expire now (m.expiredEnd now probe))
  | true, _ => .ok (m.expire now m.timers.length)

def listExpiredCb (m : TimerManager κ) (now : UInt64) (probe : Addr) :
    Except Timer.Fault (List (Addr × Option κ) × TimerManager κ) :=
  if m.timers.isEmpty then .ok ([], m) else m.listExpiredBody now probe

def hasTimer (m : TimerManager κ) : Bool := !m.timers.isEmpty

/-! ## Sequences of operations -/

inductive Op (κ : Type)
  | addTimer (a : Addr) (ms : UInt64) (cb : κ) (recurring : Bool)
  | cancel (t : Addr)
  | refresh (t : Addr)
  | reset (t : Addr) (ms : UInt64) (fromNow : Bool)
  | getNextTimer
  | listExpiredCb (probe : Addr)

/-- An operation with the reading of the clock it uses. -/
structure Call (κ : Type) where
  now : UInt64
  op : Op κ

/-- What an operation answers: the returned truth value, the callbacks with their timers, the interval, and whether
`onTimerInsertedAtFront` was called. -/
structure Reply (κ : Type) where
  ret : Bool := true
  cbs : List (Addr × Option κ) := []
  interval : UInt64 := 0
  notified : Bool := false

def step (m : TimerManager κ) (c : Call κ) : Except Timer.Fault (Reply κ × TimerManager κ) :=
  match c.op with
  | .addTimer a ms cb recurring =>
    let r := m.addTimer a ms (some cb) recurring c.now
    .ok ({ notified := r.1 }, r.2)
  | .cancel t => .ok ({ ret := (m.cancel t).1 }, (m.cancel t).2)
  | .refresh t => .ok ({ ret := (m.refresh t c.now).1 }, (m.refresh t c.now).2)
  | .reset t ms fromNow =>
    let r := m.reset t ms fromNow c.now
    .ok ({ ret := r.1, notified := r.2.1 }, r.2.2)
  | .getNextTimer => .ok ({ interval := (m.getNextTimer c.now).1 }, (m.getNextTimer c.now).2)
  | .listExpiredCb probe => (m.listExpiredCb c.now probe).map fun r => ({ cbs := r.1 }, r.2)

/-- Addresses: `new` never hands out one twice, and a timer that is used was created. -/
def Allowed (m : TimerManager κ) (c : Call κ) : Prop :=
  match c.op with
  | .addTimer a _ _ _ => a ∉ m.created
  | .cancel t => t ∈ m.created
  | .refresh t => t ∈ m.created
  | .reset t _ _ => t ∈ m.created
  | .getNextTimer => True
  | .listExpiredCb probe => probe ∉ m.created

instance (m : TimerManager κ) : (c : Call κ) → Decidable (m.Allowed c)
  | ⟨_, .addTimer a _ _ _⟩ => inferInstanceAs (Decidable (a ∉ m.created))
  | ⟨_, .cancel t⟩ => inferInstanceAs (Decidable (t ∈ m.created))
  | ⟨_, .refresh t⟩ => inferInstanceAs (Decidable (t ∈ m.created))
  | ⟨_, .reset t _ _⟩ => inferInstanceAs (Decidable (t ∈ m.created))
  | ⟨_, .getNextTimer⟩ => inferInstanceAs (Decidable True)
  | ⟨_, .listExpiredCb probe⟩ => inferInstanceAs (Decidable (probe ∉ m.created))

/-- Any sequence of operations on a manager constructed at any time. -/
def machine (κ : Type) : Machine (TimerManager κ) (Call κ) (Reply κ) Timer.Fault where
  init m := ∃ now, m = new now
  enabled := Allowed
  step := step

instance (m : TimerManager κ) (c : Call κ) : Decidable ((machine κ).enabled m c) :=
  inferInstanceAs (Decidable (m.Allowed c))

end TimerManager

end QWebServer
