import QWebServer.Fd.Model
import QWebServer.Hook.Timeout

/-!
# `hook.cpp`: `connect_with_timeout`

* `Link` : a connection as the kernel has it, with what `SO_ERROR` reads;
* `Outcome` : what `connect_f` does;
* `Connects` : the calls of `Hook`, beside the connections and the calls that are about to read `SO_ERROR`;
* `connectWithTimeout`, `connectF`, `getsockopt` : the parts of the function around its wait, which is a call of `Hook`;
* `machine` : these, the steps of `Hook` and those of the kernel, in any order.

A step answers with the descriptor and the result where a call of `connect_with_timeout` returns.
-/

namespace QWebServer

open Lib

namespace Connects

abbrev Errno := { error : Int // error ≠ 0 }

/-- A connection; one that failed keeps its error. -/
inductive Link
  | idle
  | connecting
  | established
  | failed (error : Errno)
  deriving DecidableEq

/-- What `getsockopt` reads as `SO_ERROR`. -/
def Link.soError : Link → Int
  | .failed error => error
  | _ => 0

/-- Reading `SO_ERROR` clears it. -/
def Link.read : Link → Link
  | .failed _ => .idle
  | l => l

/-- `connect_f` returns 0, or -1 with `EINPROGRESS`, or -1 with another `errno`. -/
inductive Outcome
  | done
  | inProgress
  | error
  deriving DecidableEq

/-- What `connect_f` returns. -/
def Outcome.ret : Outcome → Int
  | .done => 0
  | .inProgress => -1
  | .error => -1

def Outcome.link : Outcome → Link → Link
  | .done, _ => .established
  | .inProgress, _ => .connecting
  | .error, l => l

/-- On a connection that is in progress or established `connect_f` fails with `EALREADY` or `EISCONN`. -/
def Outcome.Possible : Outcome → Link → Prop
  | .inProgress, l => l ≠ .connecting ∧ l ≠ .established
  | _, _ => True

instance : (o : Outcome) → (l : Link) → Decidable (o.Possible l)
  | .done, _ => isTrue trivial
  | .inProgress, l => inferInstanceAs (Decidable (l ≠ .connecting ∧ l ≠ .established))
  | .error, _ => isTrue trivial

end Connects

/-- The calls, the connections, and the calls that are before `getsockopt`. -/
structure Connects (φ κ : Type) where
  hook : Hook φ κ
  link : Int → Connects.Link := fun _ => .idle
  asking : Nat → Bool := fun _ => false

namespace Connects

open Hook (Call Fault Input)

variable {φ κ : Type}

def connectF (s : Connects φ κ) (fd : Int) (o : Outcome) : Connects φ κ :=
  { s with link := Function.update s.link fd (o.link (s.link fd)) }

/-- `connect_with_timeout` up to the `connect_f` after its tests: what it returns before, where `o` is the outcome of
`connect_f`. -/
def connectWithTimeout (s : Connects φ κ) (hookEnable : Bool) (ctx : Option FdCtx) (fd : Int) (timeout : UInt64)
    (fiber : φ) (o : Outcome) : Option (Int × Int) × Connects φ κ :=
  if !hookEnable then (some (fd, o.ret), s.connectF fd o)
  else
    match ctx with
    | none => (some (fd, o.ret), s.connectF fd o)
    | some ctx =>
      if ctx.isClosed then (some (fd, -1), s)
      else if !ctx.isSocket then (some (fd, o.ret), s.connectF fd o)
      else if ctx.userNonblock then (some (fd, o.ret), s.connectF fd o)
      else
        let c : Call φ := { kind := .connect, fd, event := .write, timeout, fiber }
        (none, { s with hook := { s.hook with calls := s.hook.calls ++ [c] } })

/-- The call `c`, number `a`, has made a step: after `timer->cancel()` it goes on to `getsockopt`, or it has found
`cancelled` set. -/
def proceed (s : Connects φ κ) (a : Nat) (c : Call φ) : Option (Int × Int) × Connects φ κ :=
  match c.kind, c.pc with
  | .connect, .failed => (none, { s with asking := Function.update s.asking a true })
  | .connect, .check =>
    if c.cancelled ≠ 0 then (some (c.fd, -1), s) else (none, { s with asking := Function.update s.asking a true })
  | _, _ => (none, s)

/-- `getsockopt` and the end of the function; `rt` tells whether `getsockopt` succeeds. -/
def getsockopt (s : Connects φ κ) (a : Nat) (fd : Int) (rt : Bool) : Option (Int × Int) × Connects φ κ :=
  let s := { s with asking := Function.update s.asking a false }
  if !rt then (some (fd, -1), s)
  else
    let error := (s.link fd).soError
    let s := { s with link := Function.update s.link fd (s.link fd).read }
    if error = 0 then (some (fd, 0), s) else (some (fd, -1), s)

/-- The steps: a fiber enters `connect_with_timeout`; a call makes its `connect_f`, another step, its `getsockopt`; what
happens elsewhere; and the kernel establishes a connection or gives it up. -/
inductive Label (φ κ : Type)
  | enter (hookEnable : Bool) (ctx : Option FdCtx) (fd : Int) (timeout : UInt64) (fiber : φ) (o : Outcome)
  | connectF (a : Nat) (o : Outcome)
  | call (a : Nat) (x : Input)
  | getsockopt (a : Nat) (rt : Bool)
  | hook (l : Hook.Label φ κ)
  | establish (fd : Int)
  | fail (fd : Int) (error : Errno)

def step [DecidableEq φ] (mem : IOManager.Memory) (s : Connects φ κ) :
    Label φ κ → Except Fault (Option (Int × Int) × Connects φ κ)
  | .enter hookEnable ctx fd timeout fiber o => .ok (s.connectWithTimeout hookEnable ctx fd timeout fiber o)
  | .connectF a o =>
    match s.hook.calls[a]? with
    | some c => do
      let hook ← s.hook.advance mem a c { again := o = .inProgress }
      return (if o = .inProgress then none else some (c.fd, o.ret), { s.connectF c.fd o with hook := hook })
    | none => .ok (none, s)
  | .call a x =>
    match s.hook.calls[a]? with
    | some c => do
      let hook ← s.hook.advance mem a c x
      return { s with hook := hook }.proceed a c
    | none => .ok (none, s)
  | .getsockopt a rt =>
    match s.hook.calls[a]? with
    | some c => .ok (s.getsockopt a c.fd rt)
    | none => .ok (none, s)
  | .hook l => do
    let (_, hook) ← s.hook.step mem l
    return (none, { s with hook := hook })
  | .establish fd => .ok (none, { s with link := Function.update s.link fd .established })
  | .fail fd error => .ok (none, { s with link := Function.update s.link fd (.failed error) })

/-- The steps of `Hook` that are not those of a call of `connect_with_timeout`. -/
def isElsewhere : Hook.Label φ κ → Bool
  | .start c => c.kind = .doIo
  | .call _ _ => false
  | _ => true

/-- What may happen. A running fiber enters the function, and the kernel decides what is in progress or established. -/
def Enabled [DecidableEq φ] (s : Connects φ κ) : Label φ κ → Prop
  | .enter _ _ fd _ fiber o => s.hook.Outside fiber ∧ o.Possible (s.link fd)
  | .connectF a o => ∀ c ∈ s.hook.calls[a]?, c.kind = .connect ∧ c.pc = .io ∧ o.Possible (s.link c.fd)
  | .call a x => s.hook.Enabled (.call a x) ∧ ∀ c ∈ s.hook.calls[a]?, c.kind = .connect → c.pc ≠ .io
  | .getsockopt a _ => s.asking a = true
  | .hook l => s.hook.Enabled l ∧ isElsewhere l = true
  | .establish fd => s.link fd = .connecting
  | .fail fd _ => s.link fd = .connecting ∨ s.link fd = .established

instance [DecidableEq φ] (s : Connects φ κ) : (l : Label φ κ) → Decidable (s.Enabled l)
  | .enter .. => inferInstanceAs (Decidable (_ ∧ _))
  | .connectF a o =>
    inferInstanceAs (Decidable (∀ c ∈ s.hook.calls[a]?, c.kind = .connect ∧ c.pc = .io ∧ o.Possible (s.link c.fd)))
  | .call a x =>
    inferInstanceAs (Decidable (s.hook.Enabled (.call a x) ∧ ∀ c ∈ s.hook.calls[a]?, c.kind = .connect → c.pc ≠ .io))
  | .getsockopt a _ => inferInstanceAs (Decidable (s.asking a = true))
  | .hook _ => inferInstanceAs (Decidable (_ ∧ _))
  | .establish fd => inferInstanceAs (Decidable (s.link fd = .connecting))
  | .fail fd _ => inferInstanceAs (Decidable (s.link fd = .connecting ∨ s.link fd = .established))

def machine [DecidableEq φ] (mem : IOManager.Memory) : Machine (Connects φ κ) (Label φ κ)
    (Option (Int × Int)) Fault where
  init := fun s => ∃ now, s = { hook := { iom := .new, timers := .new now } }
  enabled := Enabled
  step := step mem

instance [DecidableEq φ] (mem : IOManager.Memory) (s : Connects φ κ) (l : Label φ κ) :
    Decidable ((machine mem).enabled s l) :=
  inferInstanceAs (Decidable (s.Enabled l))

end Connects

end QWebServer
