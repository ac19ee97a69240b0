import Mathlib
import QWebServer.IOManager.Model

/-!
# `fd_manager.cpp`: the contexts of hooked descriptors

* `Descriptor`, `Kernel` : the open descriptors, as far as `fstat` and `fcntl` show them;
* `FdCtx` : what hooked calls keep of a descriptor, `FdCtx.init`;
* `FdManager` : the table `m_datas` of pointers, `get` and `del`;
* `Fds`, `machine` : sequences of hooked calls of `socket` and `accept`, of closes and of changes to contexts.
-/

namespace QWebServer

open Lib
open IOManager (Memory toInt)

/-- An open descriptor: whether it is a socket, and `O_NONBLOCK` of its flags. -/
structure Descriptor where
  isSocket : Bool
  nonblock : Bool := false

/-- The open descriptors. -/
abbrev Kernel := Int → Option Descriptor

/-- `fcntl_f(fd, F_SETFL, flags | O_NONBLOCK)` unless the flag is set. -/
def Kernel.setNonblock (k : Kernel) (fd : Int) : Kernel :=
  Function.update k fd ((k fd).map fun d => { d with nonblock := true })

/-- `FdCtx`; `(uint64_t)-1` stands for no timeout. -/
structure FdCtx where
  isInit : Bool := false
  isSocket : Bool := false
  sysNonblock : Bool := false
  userNonblock : Bool := false
  isClosed : Bool := false
  fd : Int
  recvTimeout : UInt64 := -1
  sendTimeout : UInt64 := -1

namespace FdCtx

def init (c : FdCtx) (k : Kernel) : FdCtx × Kernel :=
  if c.isInit then (c, k)
  else
    let c := { c with recvTimeout := -1, sendTimeout := -1 }
    let c := match k c.fd with
      | none => { c with isInit := false, isSocket := false }
      | some d => { c with isInit := true, isSocket := d.isSocket }
    let k := if c.isSocket then k.setNonblock c.fd else k
    ({ c with sysNonblock := c.isSocket, userNonblock := false, isClosed := false }, k)

def new (fd : Int) (k : Kernel) : FdCtx × Kernel := init { fd } k

/-- `SO_RCVTIMEO` and the other types of `setTimeout`. -/
inductive TimeoutType
  | recv
  | send
  deriving DecidableEq

def setTimeout (c : FdCtx) (v : UInt64) : TimeoutType → FdCtx
  | .recv => { c with recvTimeout := v }
  | .send => { c with sendTimeout := v }

def getTimeout (c : FdCtx) : TimeoutType → UInt64
  | .recv => c.recvTimeout
  | .send => c.sendTimeout

end FdCtx

/-- `FdManager`: the pointers of `m_datas`, the objects, and the first pointer that is not in use. -/
structure FdManager where
  datas : List (Option Nat)
  heap : Nat → FdCtx
  next : Nat

namespace FdManager

/-- What stops the process. -/
inductive Fault
  | outOfRange
  | outOfMemory
  deriving DecidableEq

def new : FdManager where
  datas := List.replicate 64 none
  heap := fun _ => { fd := -1 }
  next := 0

/-- `m_datas[fd]`. -/
def data (m : FdManager) (fd : Int) : Except Fault (Option Nat) :=
  if fd < 0 then .error .outOfRange
  else
    match m.datas[fd.toNat]? with
    | none => .error .outOfRange
    | some p => .ok p

def resize (mem : Memory) (m : FdManager) (size : Nat) : Except Fault FdManager :=
  if size ≤ mem.capacity then
    .ok { m with datas := m.datas.take size ++ List.replicate (size - m.datas.length) none }
  else .error .outOfMemory

/-- The read-locked section of `FdManager::get`: its result, or nothing when a context is to be created. -/
def find (m : FdManager) (fd : Int) (autoCreate : Bool) : Except Fault (Option (Option Nat)) :=
  if fd = -1 then .ok (some none)
  else if toInt m.datas.length ≤ fd then .ok (if autoCreate then none else some none)
  else do
    let p ← m.data fd
    return if p.isSome || !autoCreate then some p else none

/-- `if(fd >= (int)m_datas.size()) m_datas.resize(fd * 1.5);` -/
def reserve (mem : Memory) (m : FdManager) (fd : Int) : Except Fault FdManager :=
  if fd ≥ toInt m.datas.length then m.resize mem (3 * fd.toNat / 2) else .ok m

/-- The write-locked section of `FdManager::get`. -/
def create (mem : Memory) (m : FdManager) (fd : Int) (k : Kernel) : Except Fault (Nat × FdManager × Kernel) := do
  let (ctx, k) := FdCtx.new fd k
  let m ← m.reserve mem fd
  let _ ← m.data fd
  return (m.next,
    { datas := m.datas.set fd.toNat (some m.next), heap := Function.update m.heap m.next ctx, next := m.next + 1 },
    k)

def get (mem : Memory) (m : FdManager) (fd : Int) (autoCreate : Bool) (k : Kernel) :
    Except Fault (Option Nat × FdManager × Kernel) := do
  match ← m.find fd autoCreate with
  | some p => return (p, m, k)
  | none =>
    let (p, m, k) ← m.create mem fd k
    return (some p, m, k)

def del (m : FdManager) (fd : Int) : Except Fault FdManager :=
  if toInt m.datas.length ≤ fd then .ok m
  else do
    let _ ← m.data fd
    return { m with datas := m.datas.set fd.toNat none }

/-- An update of the context that `get(fd)` returns, when there is one. -/
def modify (m : FdManager) (fd : Int) (f : FdCtx → FdCtx) : Except Fault FdManager := do
  match ← m.find fd false with
  | some (some p) => return { m with heap := Function.update m.heap p (f (m.heap p)) }
  | _ => return m

end FdManager

/-! ## Hooked calls -/

structure Fds where
  kernel : Kernel
  mgr : FdManager

namespace Fds

/-- The calls. `ret` is the descriptor that `socket_f` or `accept_f` returned, `none` for -1, and `enable` is
`t_hook_enable` of the thread; `close` is a plain `close` or that of `Socket::close`; the others change the context of a
descriptor. -/
inductive Call
  | socket (enable : Bool) (ret : Option Nat)
  | accept (enable : Bool) (ret : Option Nat)
  | close (fd : Nat)
  | setTimeout (fd : Int) (type : FdCtx.TimeoutType) (v : UInt64)
  | setUserNonblock (fd : Int) (v : Bool)

/-- The kernel hands a descriptor out: a blocking socket. -/
def opened (s : Fds) (fd : Int) : Fds := { s with kernel := Function.update s.kernel fd (some { isSocket := true }) }

/-- `FdMgr::GetInstanceX()->get(fd, true)`. -/
def get (mem : Memory) (s : Fds) (fd : Int) : Except FdManager.Fault Fds := do
  let (_, mgr, kernel) ← s.mgr.get mem fd true s.kernel
  return { kernel, mgr }

def step (mem : Memory) (s : Fds) : Call → Except FdManager.Fault (Unit × Fds)
  | .socket _ none => .ok ((), s)
  | .socket enable (some fd) => do
    if enable then return ((), ← (s.opened fd).get mem fd) else return ((), s.opened fd)
  | .accept _ none => .ok ((), s)
  | .accept _ (some fd) => do
    return ((), ← (s.opened fd).get mem fd)
  | .close fd => .ok ((), { s with kernel := Function.update s.kernel fd none })
  | .setTimeout fd type v => do
    return ((), { s with mgr := ← s.mgr.modify fd fun c => c.setTimeout v type })
  | .setUserNonblock fd v => do
    return ((), { s with mgr := ← s.mgr.modify fd fun c => { c with userNonblock := v } })

def Call.returned : Call → Option Nat
  | .socket _ ret => ret
  | .accept _ ret => ret
  | _ => none

/-- The kernel hands out numbers that are not in use, and closes descriptors that are open. -/
def Allowed (s : Fds) : Call → Prop
  | .close fd => (s.kernel fd).isSome
  | c => ∀ fd ∈ c.returned, (s.kernel fd).isNone

instance (s : Fds) : (c : Call) → Decidable (s.Allowed c)
  | .close fd => inferInstanceAs (Decidable ((s.kernel fd).isSome = true))
  | .socket e ret => inferInstanceAs (Decidable (∀ fd ∈ (Call.socket e ret).returned, (s.kernel fd).isNone = true))
  | .accept e ret => inferInstanceAs (Decidable (∀ fd ∈ (Call.accept e ret).returned, (s.kernel fd).isNone = true))
  | .setTimeout .. => isTrue (by simp [Allowed, Call.returned])
  | .setUserNonblock .. => isTrue (by simp [Allowed, Call.returned])

def machine (mem : Memory) : Machine Fds Call Unit FdManager.Fault where
  init s := s = { kernel := fun _ => none, mgr := .new }
  enabled := Allowed
  step := step mem

instance (mem : Memory) (s : Fds) (c : Call) : Decidable ((machine mem).enabled s c) :=
  inferInstanceAs (Decidable (s.Allowed c))

end Fds

end QWebServer
