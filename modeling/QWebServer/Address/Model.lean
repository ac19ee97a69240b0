import QWebServer.Lib.Bytes
import QWebServer.Log.Formatter

/-!
# `address.cpp`, `Endian.h`: addresses

* `byteswap`, `byteswapOnLittleEndian` : of `Endian.h`, on a machine with the byte order `o`;
* `CreateMask` : its arithmetic in `int`, with the faults of a shift and of an overflow;
* `IPv4Address`, `IPv6Address` : the members of their `m_addr`, `Create`, `insert`, `broadcastAddress`,
  `networdAddress`, `subnetMask`, `getPort`, `setPort`;
* `Address` : what `operator<`, `operator==` and `operator!=` read of an object of any class, the memory at `getAddr()`
  and `getAddrLen()`.

`inet_pton` is a parameter, from a text to `Pton`.
-/

namespace QWebServer

open Lib

/-! ## `Endian.h` -/

/-- `byteswap`: `bswap_16`, `bswap_32` or `bswap_64`. -/
def byteswap {n : Nat} (value : BitVec n) : BitVec n := swapBytes value

def byteswapOnLittleEndian {n : Nat} (o : ByteOrder) (t : BitVec n) : BitVec n :=
  match o with
  | .little => byteswap t
  | .big => t

section
variable {n : Nat}

theorem byteswapOnLittleEndian_and (o : ByteOrder) (v w : BitVec n) :
    byteswapOnLittleEndian o (v &&& w) = byteswapOnLittleEndian o v &&& byteswapOnLittleEndian o w := by
  cases o with
  | little => exact swapBytes_and v w
  | big => rfl

theorem byteswapOnLittleEndian_or (o : ByteOrder) (v w : BitVec n) :
    byteswapOnLittleEndian o (v ||| w) = byteswapOnLittleEndian o v ||| byteswapOnLittleEndian o w := by
  cases o with
  | little => exact swapBytes_or v w
  | big => rfl

theorem byteswapOnLittleEndian_not (o : ByteOrder) (hn : n % 8 = 0) (v : BitVec n) :
    byteswapOnLittleEndian o (~~~v) = ~~~byteswapOnLittleEndian o v := by
  cases o with
  | little => exact swapBytes_not hn v
  | big => rfl

theorem byteswapOnLittleEndian_twice (o : ByteOrder) (hn : n % 8 = 0) (v : BitVec n) :
    byteswapOnLittleEndian o (byteswapOnLittleEndian o v) = v := by
  cases o with
  | little => exact swapBytes_swapBytes hn v
  | big => rfl

/-- A word that memory holds, brought to host order, has its first byte in memory as the most significant one. -/
theorem byteswapOnLittleEndian_ofBytes (o : ByteOrder) (hn : n % 8 = 0) (b : Nat → BitVec 8) :
    byteswapOnLittleEndian o (ofBytes o n b) = ofBytes .big n b := by
  cases o with
  | little => exact swapBytes_ofBytes hn b
  | big => rfl

theorem byteswapOnLittleEndian_eq_zero (o : ByteOrder) (hn : n % 8 = 0) {v : BitVec n} :
    byteswapOnLittleEndian o v = 0 ↔ v = 0 := by
  have hzero : byteswapOnLittleEndian o (0 : BitVec n) = 0 := by
    cases o with
    | little =>
      apply BitVec.eq_of_getLsbD_eq
      intro i hi
      show (swapBytes (0#n)).getLsbD i = (0#n).getLsbD i
      rw [getLsbD_swapBytes _ hi, BitVec.getLsbD_zero, BitVec.getLsbD_zero]
    | big => rfl
  constructor
  · intro h
    rw [← byteswapOnLittleEndian_twice o hn v, h, hzero]
  · rintro rfl
    exact hzero

end

/-! ## Masks -/

/-- Undefined behaviour: a shift by the width of `int` or more, an overflow of `int`, an index outside `s6_addr`, and a
write over a `shared_ptr`. -/
inductive Address.Fault
  | shiftWidth
  | signedOverflow
  | outOfBounds (i : Nat)
  | clobbered
  deriving DecidableEq

/-- `x << n` in `int`, for a positive `x`. The bit 31 may be shifted to: the result is the negative number with these
bits. -/
def intShl (x : BitVec 32) (n : Nat) : Except Address.Fault (BitVec 32) :=
  if 32 ≤ n then .error .shiftWidth else .ok (x <<< n)

/-- `x - y` in `int`. -/
def intSub (x y : BitVec 32) : Except Address.Fault (BitVec 32) :=
  if x.ssubOverflow y then .error .signedOverflow else .ok (x - y)

/-- `CreateMask<T>` for a type of `w` bits. The shift count is a `size_t`. -/
def CreateMask (w : Nat) (bits : BitVec 32) : Except Address.Fault (BitVec w) := do
  let one ← intShl 1 (BitVec.ofNat 64 w - bits.setWidth 64).toNat
  let mask ← intSub one 1
  return mask.setWidth w

/-! ## `inet_pton` -/

/-- A call of `inet_pton`: it returns 1 and stores `bytes`, or it returns 0 for an invalid text, or -1 for a family that
is not supported. -/
inductive Pton (k : Nat)
  | valid (bytes : Vector (BitVec 8) k)
  | invalid
  | unsupported

def Pton.rt {k : Nat} : Pton k → Int
  | valid _ => 1
  | invalid => 0
  | unsupported => -1

/-! ## `IPv4Address` -/

def AF_INET : BitVec 16 := 2

def AF_INET6 : BitVec 16 := 10

/-- `IPv4Address`: its `sockaddr_in`. The port and the address are as the machine reads them from memory. -/
structure IPv4Address where
  family : BitVec 16
  port : BitVec 16
  addr : BitVec 32
  zero : Vector (BitVec 8) 8 := Vector.replicate 8 0
  deriving DecidableEq

namespace IPv4Address

/-- `IPv4Address::IPv4Address(uint32_t, uint16_t)`. -/
def new (o : ByteOrder) (address : BitVec 32 := 0) (port : BitVec 16 := 0) : IPv4Address where
  family := AF_INET
  port := byteswapOnLittleEndian o port
  addr := byteswapOnLittleEndian o address

/-- The memory of `sin_addr`. -/
def bytes (o : ByteOrder) (x : IPv4Address) : Vector (BitVec 8) 4 := Vector.ofFn fun i => byteAt o x.addr i

def Create (o : ByteOrder) (inet_pton : Text → Pton 4) (address : Text) (port : BitVec 16) : Option IPv4Address :=
  let res := { new o with port := byteswapOnLittleEndian o port, family := AF_INET }
  let rt := inet_pton address
  let res := match rt with
    | .valid b => { res with addr := ofBytes o 32 fun i => b.toList.getD i 0 }
    | _ => res
  if rt.rt < 0 then none else some res

def insert (o : ByteOrder) (x : IPv4Address) : Text :=
  let addr := x.addr
  decimal ((addr >>> 24) &&& 0xff).toNat ++ ['.'] ++ decimal ((addr >>> 16) &&& 0xff).toNat ++ ['.'] ++
    decimal ((addr >>> 8) &&& 0xff).toNat ++ ['.'] ++ decimal (addr &&& 0xff).toNat ++ [':'] ++
    decimal (byteswapOnLittleEndian o x.port).toNat

def toString (o : ByteOrder) (x : IPv4Address) : Text := x.insert o

def broadcastAddress (o : ByteOrder) (x : IPv4Address) (prefixLen : BitVec 32) :
    Except Address.Fault (Option IPv4Address) :=
  if 32 < prefixLen then .ok none
  else do
    let mask ← CreateMask 32 prefixLen
    return some { x with addr := x.addr ||| byteswapOnLittleEndian o mask }

def networdAddress (o : ByteOrder) (x : IPv4Address) (prefixLen : BitVec 32) :
    Except Address.Fault (Option IPv4Address) :=
  if 32 < prefixLen then .ok none
  else do
    let mask ← CreateMask 32 prefixLen
    return some { x with addr := x.addr &&& ~~~byteswapOnLittleEndian o mask }

def subnetMask (o : ByteOrder) (prefixLen : BitVec 32) : Except Address.Fault IPv4Address := do
  let mask ← CreateMask 32 prefixLen
  return { family := AF_INET, port := 0, addr := ~~~byteswapOnLittleEndian o mask }

def getPort (o : ByteOrder) (x : IPv4Address) : BitVec 32 := (byteswapOnLittleEndian o x.port).setWidth 32

def setPort (o : ByteOrder) (x : IPv4Address) (v : BitVec 16) : IPv4Address :=
  { x with port := byteswapOnLittleEndian o v }

end IPv4Address

/-! ## `IPv6Address` -/

/-- The 16 bytes `s6_addr`. -/
abbrev S6Addr := Vector (BitVec 8) 16

/-- An assignment to `s6_addr[i]`. -/
def S6Addr.assign (a : S6Addr) (i : Nat) (f : BitVec 8 → BitVec 8) : Except Address.Fault S6Addr :=
  if h : i < 16 then .ok (a.set i (f a[i])) else .error (.outOfBounds i)

/-- The loop `for(i = lo; i < hi; i++)` over assignments to `s6_addr[i]`. -/
def S6Addr.assignRange (a : S6Addr) (lo hi : Nat) (f : BitVec 8 → BitVec 8) : Except Address.Fault S6Addr :=
  (List.range' lo (hi - lo)).foldlM (fun a i => a.assign i f) a

/-- `IPv6Address`: its `sockaddr_in6`. -/
structure IPv6Address where
  family : BitVec 16
  port : BitVec 16
  flowinfo : BitVec 32 := 0
  addr : S6Addr
  scopeId : BitVec 32 := 0
  deriving DecidableEq

namespace IPv6Address

/-- `IPv6Address::IPv6Address()`. -/
def new : IPv6Address where
  family := AF_INET6
  port := 0
  addr := Vector.replicate 16 0

/-- `IPv6Address::IPv6Address(const uint8_t[16], uint16_t)`. -/
def ofAddress (o : ByteOrder) (address : S6Addr) (port : BitVec 16 := 0) : IPv6Address :=
  { new with port := byteswapOnLittleEndian o port, addr := address }

/-- `IPv6Address::Create`. It hands `inet_pton` the place of the pointer `res`, not that of `sin6_addr`: a text that is
valid is written over the pointer, which is destroyed on return. -/
def Create (inet_pton : Text → Pton 16) (address : Text) (_port : BitVec 16) :
    Except Address.Fault (Option IPv6Address) :=
  match inet_pton address with
  | .valid _ => .error .clobbered
  | .invalid => .ok none
  | .unsupported => .ok none

/-- `data[i]` of `insert`: the 16-bit word at `s6_addr + 2 * i`. -/
def data (o : ByteOrder) (x : IPv6Address) (i : Nat) : BitVec 16 :=
  ofBytes o 16 fun k => x.addr.toList.getD (2 * i + k) 0

/-- `os << std::hex << n`. -/
def hex (n : Nat) : Text := Nat.toDigits 16 n

/-- The body of the loop of `insert`: the text and `used_Zero`. -/
def insertGroup (o : ByteOrder) (x : IPv6Address) (s : Text × Bool) (i : Nat) : Text × Bool :=
  if x.data o i = 0 ∧ s.2 = false then s
  else
    let s := if i ≠ 0 ∧ x.data o (i - 1) = 0 ∧ s.2 = false then (s.1 ++ [':'], true) else s
    let os := if i ≠ 0 then s.1 ++ [':'] else s.1
    (os ++ hex (byteswapOnLittleEndian o (x.data o i)).toNat, s.2)

def insert (o : ByteOrder) (x : IPv6Address) : Text :=
  let s := (List.range 8).foldl (x.insertGroup o) (['['], false)
  let os := if s.2 = false ∧ x.data o 7 = 0 then s.1 ++ [':', ':'] else s.1
  os ++ [']', ':'] ++ decimal (byteswapOnLittleEndian o x.port).toNat

def broadcastAddress (x : IPv6Address) (prefixLen : BitVec 32) : Except Address.Fault IPv6Address := do
  let mask ← CreateMask 8 (prefixLen % 8)
  let tmp ← x.addr.assign (prefixLen / 8).toNat fun b => b ||| mask
  let tmp ← tmp.assignRange ((prefixLen / 8).toNat + 1) 16 fun b => b ||| 0xff
  return { x with addr := tmp }

def networdAddress (x : IPv6Address) (prefixLen : BitVec 32) : Except Address.Fault IPv6Address := do
  let mask ← CreateMask 8 (prefixLen % 8)
  let tmp ← x.addr.assign (prefixLen / 8).toNat fun b => b &&& ~~~mask
  let tmp ← tmp.assignRange ((prefixLen / 8).toNat + 1) 16 fun b => b ||| 0x00
  return { x with addr := tmp }

def subnetMask (prefixLen : BitVec 32) : Except Address.Fault IPv6Address := do
  let mask ← CreateMask 8 (prefixLen % 8)
  let subnet ← new.addr.assign (prefixLen / 8).toNat fun _ => ~~~mask
  let subnet ← subnet.assignRange 0 (prefixLen / 8).toNat fun _ => 0xff
  return { new with addr := subnet }

def getPort (o : ByteOrder) (x : IPv6Address) : BitVec 32 := (byteswapOnLittleEndian o x.port).setWidth 32

def setPort (o : ByteOrder) (x : IPv6Address) (v : BitVec 16) : IPv6Address :=
  { x with port := byteswapOnLittleEndian o v }

end IPv6Address

/-! ## Comparison -/

/-- An `Address` as its operators read it: the memory at `getAddr()`, and `getAddrLen()`. -/
structure Address where
  getAddr : Nat → BitVec 8
  getAddrLen : BitVec 32

/-- `memcmp`: the difference of the first two bytes that differ. -/
def memcmp (a b : Nat → BitVec 8) (n : Nat) : Int :=
  match (List.range n).find? fun i => a i != b i with
  | none => 0
  | some i => ((a i).toNat : Int) - (b i).toNat

namespace Address

def lt (a rhs : Address) : Bool :=
  let minlen := min a.getAddrLen.toNat rhs.getAddrLen.toNat
  let res := memcmp a.getAddr rhs.getAddr minlen
  if res < 0 then true
  else if res > 0 then false
  else if a.getAddrLen < rhs.getAddrLen then true
  else false

def eq (a rhs : Address) : Bool :=
  a.getAddrLen == rhs.getAddrLen && (memcmp a.getAddr rhs.getAddr a.getAddrLen.toNat != 0)

def ne (a rhs : Address) : Bool := !a.eq rhs

/-- The bytes of an object, with what is behind it in memory. -/
def overlay (bytes : List (BitVec 8)) (behind : Nat → BitVec 8) (i : Nat) : BitVec 8 := bytes.getD i (behind i)

end Address

/-- The bytes of a word as memory has them. -/
def wordBytes {n : Nat} (o : ByteOrder) (v : BitVec n) : List (BitVec 8) := (List.range (n / 8)).map (byteAt o v)

/-- `IPv4Address::getAddr` and `getAddrLen`. -/
def IPv4Address.toAddress (o : ByteOrder) (x : IPv4Address) (behind : Nat → BitVec 8) : Address where
  getAddr := Address.overlay (wordBytes o x.family ++ wordBytes o x.port ++ wordBytes o x.addr ++ x.zero.toList) behind
  getAddrLen := 16

/-- `IPv6Address::getAddr` and `getAddrLen`. -/
def IPv6Address.toAddress (o : ByteOrder) (x : IPv6Address) (behind : Nat → BitVec 8) : Address where
  getAddr := Address.overlay (wordBytes o x.family ++ wordBytes o x.port ++ wordBytes o x.flowinfo ++ x.addr.toList ++
    wordBytes o x.scopeId) behind
  getAddrLen := 28

end QWebServer
