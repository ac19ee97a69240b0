import Mathlib.Logic.Function.Basic
import QWebServer.Lib.Run

/-!
# `socket.cpp`: descriptors and addresses

* `Kernel` : the open descriptors that `socket` and `accept` returned, with their local addresses;
* `Socket` : the members, `newSock`, `close`, `getLocalAddress`, `getRemoteAdress`, `init` : the functions on them;
* `connect`, `reconnect`, `bind`, `accept` : with the outcomes of the system calls they make, in `Connecting` and
  `Binding`;
* `Factory` : the functions `Create*`;
* `Table`, `machine` : the calls on any objects, in any order.

`σ` is the type of socket addresses as the kernel has them.
-/

namespace QWebServer.Sockets

open Lib

variable {σ : Type}

/-- The open descriptors that were returned to a `Socket`, with their local addresses. -/
abbrev Kernel (σ : Type) := Int → Option σ

inductive SocketType
  | TCP
  | UDP
  deriving DecidableEq

/-- `Socket::Family`. -/
def IPv4 : Int := 2

def IPv6 : Int := 10

def UNIX : Int := 1

/-- An `Address` object: `getFamily`, whether it is a `UnixAddress`, and `getAddr`. -/
structure Address (σ : Type) where
  family : Int
  isUnix : Bool := false
  addr : σ

structure Socket (σ : Type) where
  sock : Int := -1
  family : Int
  type : SocketType
  isconnected : Bool := false
  localAddress : Option σ := none
  remoteAddress : Option (Address σ) := none

/-- A call of `socket` or `accept`: the descriptor it returns, with its local address, or -1. -/
abbrev Returned (σ : Type) := Option (Nat × σ)

namespace Socket

def newSock (x : Socket σ) (k : Kernel σ) : Returned σ → Socket σ × Kernel σ
  | none => ({ x with sock := -1 }, k)
  | some (fd, a) => ({ x with sock := fd }, Function.update k fd (some a))

/-- `Socket::close`; `rt` tells whether `::close` returns 0. -/
def close (x : Socket σ) (k : Kernel σ) (rt : Bool) : Bool × Socket σ × Kernel σ :=
  if !x.isconnected && x.sock = -1 then (true, x, k)
  else
    let x := { x with isconnected := false }
    if x.sock ≠ -1 && rt then (true, { x with sock := -1 }, Function.update k x.sock none) else (false, x, k)

/-- `Socket::getLocalAddress`; `rt` tells whether `getsockname` returns 0, which it does for open descriptors only. -/
def getLocalAddress (x : Socket σ) (k : Kernel σ) (rt : Bool) : Socket σ :=
  match x.localAddress with
  | some _ => x
  | none => if rt then { x with localAddress := k x.sock } else x

/-- `Socket::getRemoteAdress`; `peer` is what `getpeername` finds. -/
def getRemoteAdress (x : Socket σ) (peer : Option (Address σ)) : Socket σ :=
  match x.remoteAddress with
  | some _ => x
  | none => { x with remoteAddress := peer }

end Socket

/-- The outcomes in `connect`: of `socket`, of `connect`, the local address after it, of `close` and of
`getsockname`. -/
structure Connecting (σ : Type) where
  returned : Returned σ
  connected : Bool
  localAddress : σ
  closed : Bool
  named : Bool

/-- The outcomes in `bind`: of `socket`, of the calls on the socket that probes a Unix address and in its destructor, of
`bind` with the local address that the kernel chooses, if it does, and of `getsockname`. -/
structure Binding (σ : Type) where
  returned : Returned σ
  probe : Connecting σ
  released : Bool
  bound : Bool
  chosen : Option σ := none
  named : Bool

/-- The local address after `::bind`, which the kernel completes where the port is 0 or the path is empty. -/
def Binding.localAddress (o : Binding σ) (address : Address σ) : σ := o.chosen.getD address.addr

namespace Socket

/-- `if(!isValid()) newSock();` -/
def ensure (x : Socket σ) (k : Kernel σ) (ret : Returned σ) : Socket σ × Kernel σ :=
  if x.sock = -1 then x.newSock k ret else (x, k)

/-- What `connect` and `bind` begin with: they go on to `f` with a descriptor and an address of its family. -/
def ready (x : Socket σ) (k : Kernel σ) (ret : Returned σ) (address : Address σ)
    (f : Socket σ → Kernel σ → Bool × Socket σ × Kernel σ) : Bool × Socket σ × Kernel σ :=
  let (x, k) := x.ensure k ret
  if x.sock = -1 then (false, x, k) else if address.family ≠ x.family then (false, x, k) else f x k

/-- `connect` from its system call on. The call may bind the descriptor to a local address, whether it succeeds or
not. -/
def dial (x : Socket σ) (k : Kernel σ) (o : Connecting σ) : Bool × Socket σ × Kernel σ :=
  let k := Function.update k x.sock (some o.localAddress)
  if o.connected then
    let x := { x with isconnected := true }.getRemoteAdress none
    (true, x.getLocalAddress k o.named, k)
  else (false, (x.close k o.closed).2)

def connect (x : Socket σ) (k : Kernel σ) (address : Address σ) (o : Connecting σ) : Bool × Socket σ × Kernel σ :=
  { x with remoteAddress := some address }.ready k o.returned address fun x k => x.dial k o

def reconnect (x : Socket σ) (k : Kernel σ) (o : Connecting σ) : Bool × Socket σ × Kernel σ :=
  match x.remoteAddress with
  | none => (false, x, k)
  | some address => { x with localAddress := none }.connect k address o

/-- The part of `bind` for a `UnixAddress`: a new socket that connects, and its destructor. -/
def probe (k : Kernel σ) (address : Address σ) (o : Binding σ) : Bool × Kernel σ :=
  let r := connect { family := UNIX, type := .TCP } k address o.probe
  (r.1, (r.2.1.close r.2.2 o.released).2.2)

/-- `bind` from the probe on: what `::bind` returns is tested with `!`, so that 0 counts as a failure. -/
def place (x : Socket σ) (k : Kernel σ) (address : Address σ) (o : Binding σ) : Bool × Socket σ × Kernel σ :=
  let (used, k) := if address.isUnix then probe k address o else (false, k)
  if used then (false, x, k)
  else if o.bound then (false, x, Function.update k x.sock (some (o.localAddress address)))
  else (true, x.getLocalAddress k o.named, k)

def bind (x : Socket σ) (k : Kernel σ) (address : Address σ) (o : Binding σ) : Bool × Socket σ × Kernel σ :=
  x.ready k o.returned address fun x k => x.place k address o

/-- `Socket::init`; `known` tells whether the descriptor has a context, of a socket that is not closed. -/
def init (x : Socket σ) (k : Kernel σ) (sock : Nat) (known named : Bool) (peer : Option (Address σ)) :
    Option (Socket σ) :=
  if known then
    some (({ x with sock := sock, isconnected := true }.getLocalAddress k named).getRemoteAdress peer)
  else none

/-- `Socket::accept`: the new socket, if there is one. -/
def accept (x : Socket σ) (k : Kernel σ) (ret : Returned σ) (known named : Bool) (peer : Option (Address σ)) :
    Option (Socket σ) × Kernel σ :=
  match ret with
  | none => (none, k)
  | some (newsock, a) =>
    let k := Function.update k newsock (some a)
    (init { family := x.family, type := x.type } k newsock known named peer, k)

end Socket

inductive Factory (σ : Type)
  | CreateTCP (address : Address σ)
  | CreateUDP (address : Address σ)
  | CreateTCPSocket
  | CreateUDPSocket
  | CreateTCPSocket6
  | CreateUDPSocket6
  | CreateUnixTCPSocket
  | CreateUnixUDPSocket

namespace Factory

/-- A socket without a descriptor. -/
def bare (family : Int) (type : SocketType) (k : Kernel σ) : Socket σ × Kernel σ := ({ family, type }, k)

/-- A UDP socket with a descriptor, which counts as connected. -/
def datagram (family : Int) (k : Kernel σ) (ret : Returned σ) : Socket σ × Kernel σ :=
  let (x, k) := Socket.newSock { family, type := .UDP } k ret
  ({ x with isconnected := true }, k)

/-- The new socket. -/
def create (k : Kernel σ) (ret : Returned σ) : Factory σ → Socket σ × Kernel σ
  | CreateTCP address => bare address.family .TCP k
  | CreateUDP address => datagram address.family k ret
  | CreateTCPSocket => bare IPv4 .TCP k
  | CreateUDPSocket => datagram IPv4 k ret
  | CreateTCPSocket6 => bare IPv6 .TCP k
  | CreateUDPSocket6 => datagram IPv6 k ret
  | CreateUnixTCPSocket => bare UNIX .TCP k
  | CreateUnixUDPSocket => bare UNIX .UDP k

def opens : Factory σ → Bool
  | CreateUDP _ | CreateUDPSocket | CreateUDPSocket6 => true
  | _ => false

end Factory

/-! ## The machine -/

/-- The sockets by pointer, the first pointer that is not in use, and the descriptors. -/
structure Table (σ : Type) where
  socket : Nat → Option (Socket σ) := fun _ => none
  next : Nat := 0
  kernel : Kernel σ := fun _ => none

/-- The calls, with the outcomes of the system calls; `destroy` is the destructor. -/
inductive Call (σ : Type)
  | create (f : Factory σ) (ret : Returned σ)
  | connect (p : Nat) (address : Address σ) (o : Connecting σ)
  | reconnect (p : Nat) (o : Connecting σ)
  | bind (p : Nat) (address : Address σ) (o : Binding σ)
  | accept (p : Nat) (ret : Returned σ) (known named : Bool) (peer : Option (Address σ))
  | close (p : Nat) (rt : Bool)
  | getLocalAddress (p : Nat) (rt : Bool)
  | getRemoteAdress (p : Nat) (peer : Option (Address σ))
  | destroy (p : Nat) (rt : Bool)

namespace Table

/-- A new object. -/
def new (s : Table σ) (x : Socket σ) (k : Kernel σ) : Table σ where
  socket := Function.update s.socket s.next (some x)
  next := s.next + 1
  kernel := k

def on (s : Table σ) (p : Nat) (f : Socket σ → Bool × Socket σ × Kernel σ) : Bool × Table σ :=
  match s.socket p with
  | none => (false, s)
  | some x => ((f x).1, { s with socket := Function.update s.socket p (some (f x).2.1), kernel := (f x).2.2 })

def step (s : Table σ) : Call σ → Bool × Table σ
  | .create f ret => (true, s.new (f.create s.kernel ret).1 (f.create s.kernel ret).2)
  | .connect p address o => s.on p fun x => x.connect s.kernel address o
  | .reconnect p o => s.on p fun x => x.reconnect s.kernel o
  | .bind p address o => s.on p fun x => x.bind s.kernel address o
  | .accept p ret known named peer =>
    match s.socket p with
    | none => (false, s)
    | some x =>
      match x.accept s.kernel ret known named peer with
      | (none, k) => (false, { s with kernel := k })
      | (some y, k) => (true, s.new y k)
  | .close p rt => s.on p fun x => x.close s.kernel rt
  | .getLocalAddress p rt => s.on p fun x => (true, x.getLocalAddress s.kernel rt, s.kernel)
  | .getRemoteAdress p peer => s.on p fun x => (true, x.getRemoteAdress peer, s.kernel)
  | .destroy p rt =>
    match s.socket p with
    | none => (false, s)
    | some x => (true, { s with socket := Function.update s.socket p none, kernel := (x.close s.kernel rt).2.2 })

end Table

def Kernel.Fresh (k : Kernel σ) (ret : Returned σ) : Prop := ∀ r ∈ ret, k (r.1 : Int) = none

/-- The kernel hands out numbers that are not in use; the calls are on objects. -/
def Table.enabled (s : Table σ) : Call σ → Prop
  | .create _ ret => s.kernel.Fresh ret
  | .connect p _ o | .reconnect p o => (s.socket p).isSome = true ∧ s.kernel.Fresh o.returned
  | .bind p _ o =>
    (s.socket p).isSome = true ∧ s.kernel.Fresh o.returned ∧ s.kernel.Fresh o.probe.returned ∧
      ∀ r ∈ o.returned, ∀ r' ∈ o.probe.returned, r.1 ≠ r'.1
  | .accept p ret _ _ _ => (s.socket p).isSome = true ∧ s.kernel.Fresh ret
  | .close p _ | .getLocalAddress p _ | .getRemoteAdress p _ | .destroy p _ => (s.socket p).isSome = true

def machine (σ : Type) : Machine (Table σ) (Call σ) Bool Empty where
  init s := s = {}
  enabled := Table.enabled
  step s c := .ok (s.step c)

end QWebServer.Sockets
