import QWebServer.Lib.Ones
import QWebServer.Lib.Multimap
import QWebServer.Address.Cidr
import QWebServer.Address.Lookup

/-!
# `address.cpp`: the addresses of the network interfaces

* `CountBytes` : its loop, `toNat_CountBytes` : it counts the set bits;
* `Ifaddrs` : what `getifaddrs` lists, with the memory at `ifa_netmask`;
* `Interfaces.visit` : the body of the loop, `Interfaces.ofFamily`, `GetInterfaceAddresses` : the two functions;
* `Readable` : the pointers that the loop follows are not null;
* `Reported` : an address with its prefix length, against the interface it comes from: an interface's own mask is what
  `subnetMask` makes of the prefix length when it is one of leading ones;
* `interfaces` : the addresses of one interface are reported in their order, each as it should be.
-/

namespace QWebServer

open Lib

/-! ## `CountBytes` -/

theorem toNat_and_sub_one_lt {w : Nat} {value : BitVec w} (h : value ≠ 0) :
    (value &&& (value - 1)).toNat < value.toNat := by
  have hle : (value &&& (value - 1)).toNat ≤ (value - 1).toNat := by
    rw [BitVec.toNat_and]
    exact Nat.and_le_right
  have hne : value.toNat ≠ 0 := fun h0 => h (BitVec.eq_of_toNat_eq h0)
  rw [toNat_sub_one h] at hle
  omega

/-- `CountBytes`: its loop, from `result` on. -/
def CountBytes {w : Nat} (value : BitVec w) (result : BitVec 32 := 0) : BitVec 32 :=
  if _h : value = 0 then result else CountBytes (value &&& (value - 1)) (result + 1)
termination_by value.toNat
decreasing_by exact toNat_and_sub_one_lt _h

/-- **`CountBytes` counts the set bits.** -/
theorem CountBytes_eq {w : Nat} (value : BitVec w) (result : BitVec 32) :
    CountBytes value result = result + BitVec.ofNat 32 (ones value) := by
  fun_induction CountBytes value result with
  | case1 result =>
    rw [ones_zero]
    exact (BitVec.add_zero result).symm
  | case2 value result h ih =>
    rw [ih, BitVec.add_assoc, ← ones_and_sub_one h, Nat.add_comm (ones _) 1, BitVec.ofNat_add]
    rfl

/-! ## The interfaces -/

def AF_UNSPEC : Int32 := 0

/-- `sa_family`, as the `int` it is compared as. -/
def Sockaddr.sa_family : Sockaddr → Int32
  | .inet _ => AF_INET.toNat.toInt32
  | .inet6 _ => AF_INET6.toNat.toInt32
  | .other x => x.family.toNat.toInt32

/-- `ifaddrs`: its name, what is at `ifa_addr`, and the bytes at `ifa_netmask`. -/
structure Ifaddrs where
  name : Text
  addr : Option Sockaddr
  netmask : Option (Nat → BitVec 8)

namespace Interfaces

/-- Undefined behaviour: `ifa_addr` or `ifa_netmask` is null where it is followed. -/
inductive Fault
  | nullPointer
  deriving DecidableEq

/-- An `Address::ptr` with its prefix length. -/
abbrev Entry := AnyAddress × BitVec 32

/-- `((sockaddr_in*)ifa_netmask)->sin_addr.s_addr`. -/
def s_addr (o : ByteOrder) (netmask : Nat → BitVec 8) : BitVec 32 := ofBytes o 32 fun k => netmask (4 + k)

/-- `((sockaddr_in6*)ifa_netmask)->sin6_addr.s6_addr[i]`. -/
def s6_addr (netmask : Nat → BitVec 8) (i : Nat) : BitVec 8 := netmask (8 + i)

def deref {α : Type} (p : Option α) : Except Fault α :=
  match p with
  | none => .error .nullPointer
  | some a => .ok a

/-- The switch of `GetInterfaceAddresses`: `addr` and `prefix_len` after it. -/
def switch (o : ByteOrder) (next : Ifaddrs) (ifa_addr : Sockaddr) : Except Fault (Option AnyAddress × BitVec 32) :=
  match ifa_addr with
  | .inet _ => do
    let netmask ← deref next.netmask
    return (AnyAddress.Create (some ifa_addr), CountBytes (s_addr o netmask))
  | .inet6 _ => do
    let netmask ← deref next.netmask
    return (AnyAddress.Create (some ifa_addr),
      (List.range 16).foldl (fun prefix_len i => prefix_len + CountBytes (s6_addr netmask i)) 0)
  | .other _ => return (none, BitVec.allOnes 32)

/-- The body of its loop, for the interface `next`. -/
def visit (o : ByteOrder) (family : Int32) (result : Multimap Text Entry) (next : Ifaddrs) :
    Except Fault (Multimap Text Entry) := do
  let ifa_addr ← deref next.addr
  if family ≠ AF_UNSPEC ∧ family ≠ ifa_addr.sa_family then return result
  let r ← switch o next ifa_addr
  return r.1.elim result fun addr => result.insert next.name (addr, r.2)

/-- `Address::GetInterfaceAddresses` with a multimap: what it returns, and `result` after it. -/
def ofFamily (o : ByteOrder) (getifaddrs : Except Int32 (List Ifaddrs)) (result : Multimap Text Entry)
    (family : Int32) : Except Fault (Bool × Multimap Text Entry) :=
  match getifaddrs with
  | .error _ => return (false, result)
  | .ok results => do
    let result ← results.foldlM (visit o family) result
    return (!result.isEmpty, result)

end Interfaces

open Interfaces in
/-- `Address::GetInterfaceAddresses` with the name of an interface: what it returns, and `result` after it. -/
def GetInterfaceAddresses (o : ByteOrder) (getifaddrs : Except Int32 (List Ifaddrs)) (result : List Entry)
    (iface : Text) (family : Int32) : Except Fault (Bool × List Entry) := do
  if iface.isEmpty ∨ iface = ['*'] then
    let result := if family = AF_INET.toNat.toInt32 ∨ family = AF_UNSPEC then
      result ++ [(.ipv4 (IPv4Address.new o), 0)] else result
    let result := if family = AF_INET6.toNat.toInt32 ∨ family = AF_UNSPEC then
      result ++ [(.ipv6 IPv6Address.new, 0)] else result
    return (true, result)
  let results ← ofFamily o getifaddrs .empty family
  if !results.1 then return (false, result)
  let result := result ++ results.2.equalRange iface
  return (!result.isEmpty, result)

namespace Interfaces

/-! ## Prefix lengths -/

section
variable {o : ByteOrder} {netmask : Nat → BitVec 8}

theorem toNat_CountBytes {w : Nat} (hw : w < 2 ^ 32) (value : BitVec w) : (CountBytes value).toNat = ones value := by
  have hle := ones_le value
  rw [CountBytes_eq, BitVec.toNat_add, BitVec.toNat_ofNat]
  show (0 + ones value % 2 ^ 32) % 2 ^ 32 = ones value
  omega

theorem toNat_CountBytes_s_addr :
    (CountBytes (s_addr o netmask)).toNat = ∑ k ∈ Finset.range 4, ones (netmask (4 + k)) := by
  rw [toNat_CountBytes (by decide)]
  exact ones_ofBytes (m := 4) (fun k => netmask (4 + k)) o

theorem toNat_foldl_s6_addr :
    ((List.range 16).foldl (fun prefix_len i => prefix_len + CountBytes (s6_addr netmask i)) 0).toNat =
      ∑ k ∈ Finset.range 16, ones (s6_addr netmask k) := by
  have hle : ∀ k, ones (s6_addr netmask k) ≤ 8 := fun k => ones_le _
  have hrange : ∀ n ≤ 16, ((List.range n).foldl (fun prefix_len i => prefix_len + CountBytes (s6_addr netmask i))
      (0 : BitVec 32)).toNat = ∑ k ∈ Finset.range n, ones (s6_addr netmask k) ∧
      ∑ k ∈ Finset.range n, ones (s6_addr netmask k) ≤ 8 * n := by
    intro n hn
    induction n with
    | zero => exact ⟨rfl, le_refl _⟩
    | succ n ih =>
      obtain ⟨heq, hsum⟩ := ih (by omega)
      have hn8 := hle n
      rw [List.range_succ, List.foldl_append, Finset.sum_range_succ]
      refine ⟨?_, by omega⟩
      show (_ + CountBytes (s6_addr netmask n)).toNat = _
      rw [BitVec.toNat_add, heq, toNat_CountBytes (by decide)]
      exact Nat.mod_eq_of_lt (by omega)
  exact (hrange 16 (le_refl _)).1

end

/-! ## Masks -/

/-- The functions of a prefix length do what the interface's own mask says. -/
structure Masks (o : ByteOrder) (x : IPv4Address) (mask prefixLen : BitVec 32) : Prop where
  subnetMask : IPv4Address.subnetMask o prefixLen = .ok { family := AF_INET, port := 0, addr := mask }
  networdAddress : x.networdAddress o prefixLen = .ok (some { x with addr := x.addr &&& mask })
  broadcastAddress : x.broadcastAddress o prefixLen = .ok (some { x with addr := x.addr ||| ~~~mask })

section
variable {o : ByteOrder} {netmask : Nat → BitVec 8} {n : Nat}

theorem leading_iff {b : Nat → BitVec 8} (hn : n ≤ 32) :
    Leading b 4 n ↔ ofBytes .big 32 b = ~~~lowOnes 32 (32 - n) := by
  have hmask : ∀ k < 32, (~~~lowOnes 32 (32 - n)).getMsbD k = decide (k < n) := by
    intro k hk
    rw [BitVec.getMsbD_not, getMsbD_lowOnes (by omega) hk]
    by_cases hlt : k < n
    · have hge : ¬ 32 - (32 - n) ≤ k := by omega
      simp [hk, hlt, hge]
    · have hge : 32 - (32 - n) ≤ k := by omega
      simp [hlt, hge]
  constructor
  · intro h
    apply BitVec.eq_of_getMsbD_eq
    intro k hk
    rw [hmask k hk]
    exact (getMsbD_ofBytes_big b (m := 4) hk).trans (h k hk)
  · intro h k hk
    rw [← hmask k hk, ← h]
    exact (getMsbD_ofBytes_big b (m := 4) hk).symm

/-- A mask of leading ones is the one that `subnetMask` makes of their number. -/
theorem s_addr_eq_iff (hn : n ≤ 32) :
    s_addr o netmask = ~~~byteswapOnLittleEndian o (lowOnes 32 (32 - n)) ↔ Leading (fun k => netmask (4 + k)) 4 n := by
  have hhost : byteswapOnLittleEndian o (s_addr o netmask) = ofBytes .big 32 fun k => netmask (4 + k) :=
    byteswapOnLittleEndian_ofBytes o (by decide) _
  rw [leading_iff hn, ← hhost]
  constructor
  · intro h
    rw [h, byteswapOnLittleEndian_not o (by decide), byteswapOnLittleEndian_twice o (by decide)]
  · intro h
    rw [← byteswapOnLittleEndian_not o (by decide), ← h, byteswapOnLittleEndian_twice o (by decide)]

/-- `subnetMask` makes a mask from the prefix length 2 on, and this one. -/
theorem two_le_of_subnetMask {prefixLen : BitVec 32} {mask : IPv4Address} (hp : prefixLen.toNat ≤ 32)
    (h : IPv4Address.subnetMask o prefixLen = .ok mask) :
    2 ≤ prefixLen.toNat ∧ mask.addr = ~~~byteswapOnLittleEndian o (lowOnes 32 (32 - prefixLen.toNat)) := by
  by_cases h2 : 2 ≤ prefixLen.toNat
  · rw [IPv4Address.subnetMask_eq (CreateMask_eq hp (by omega))] at h
    cases h
    exact ⟨h2, rfl⟩
  · have hcases : prefixLen = 0 ∨ prefixLen = 1 := by
      rcases (by omega : prefixLen.toNat = 0 ∨ prefixLen.toNat = 1) with h | h
      · exact Or.inl (BitVec.eq_of_toNat_eq h)
      · exact Or.inr (BitVec.eq_of_toNat_eq h)
    unfold IPv4Address.subnetMask at h
    rcases hcases with rfl | rfl
    · rw [show CreateMask 32 0 = .error .shiftWidth by decide] at h
      cases h
    · rw [show CreateMask 32 1 = .error .signedOverflow by decide] at h
      cases h

/-- **The functions of an IPv4 interface's prefix length** do what its mask says, when that has two leading ones or more
and no other. -/
theorem masks_iff (x : IPv4Address) : Masks o x (s_addr o netmask) (CountBytes (s_addr o netmask)) ↔
    ∃ n, 2 ≤ n ∧ n ≤ 32 ∧ Leading (fun k => netmask (4 + k)) 4 n := by
  have hcount : (CountBytes (s_addr o netmask)).toNat = ∑ k ∈ Finset.range 4, ones (netmask (4 + k)) :=
    toNat_CountBytes_s_addr
  have hle : (CountBytes (s_addr o netmask)).toNat ≤ 32 := by
    rw [toNat_CountBytes (by decide)]
    exact ones_le _
  constructor
  · intro h
    obtain ⟨h2, haddr⟩ := two_le_of_subnetMask hle h.subnetMask
    exact ⟨_, h2, hle, (s_addr_eq_iff hle).mp haddr⟩
  · rintro ⟨n, h2, hn, hlead⟩
    have hlen : (CountBytes (s_addr o netmask)).toNat = n := hcount.trans (hlead.sum_ones hn)
    have hmask := (s_addr_eq_iff (o := o) hn).mpr hlead
    have hcreate : CreateMask 32 (CountBytes (s_addr o netmask)) = .ok (lowOnes 32 (32 - n)) := by
      rw [CreateMask_eq hle (by omega), hlen]
    refine ⟨?_, ?_, ?_⟩
    · rw [IPv4Address.subnetMask_eq hcreate, ← hmask]
    · rw [IPv4Address.networdAddress_eq hle hcreate, ← hmask]
    · rw [IPv4Address.broadcastAddress_eq hle hcreate]
      refine congrArg (fun a => Except.ok (some { x with addr := x.addr ||| a })) ?_
      rw [hmask, BitVec.not_not]

/-- **The mask of an IPv6 interface's prefix length** is its own, when that has leading ones, at most 127, and no
other. -/
theorem subnetMask_iff {prefixLen : BitVec 32}
    (hlen : prefixLen.toNat = ∑ k ∈ Finset.range 16, ones (s6_addr netmask k)) :
    IPv6Address.subnetMask prefixLen =
        .ok { IPv6Address.new with addr := Vector.ofFn fun i => s6_addr netmask i } ↔
      ∃ n < 128, Leading (s6_addr netmask) 16 n := by
  have hle : prefixLen.toNat ≤ 128 := by
    rw [hlen, ← ones_ofBytes (m := 16) _ .big]
    exact ones_le _
  have hmask : ∀ n, S6Addr.mask n = (Vector.ofFn fun i : Fin 16 => s6_addr netmask i) ↔
      Leading (s6_addr netmask) 16 n := by
    intro n
    constructor
    · intro h k hk
      have hbit := S6Addr.bit_mask n ⟨k, hk⟩
      rw [h] at hbit
      rw [← hbit]
      show _ = ((Vector.ofFn fun i : Fin 16 => s6_addr netmask i)[k / 8]).getMsbD (k % 8)
      rw [Vector.getElem_ofFn]
    · intro h
      apply Vector.ext
      intro i hi
      apply BitVec.eq_of_getMsbD_eq
      intro j hj
      have hbit := S6Addr.bit_mask n ⟨8 * i + j, by omega⟩
      have hdiv : (8 * i + j) / 8 = i := by omega
      have hmod : (8 * i + j) % 8 = j := by omega
      have hlead := h (8 * i + j) (by omega)
      rw [hdiv, hmod] at hlead
      rw [Vector.getElem_ofFn, hlead, ← hbit]
      show _ = ((S6Addr.mask n)[(8 * i + j) / 8]).getMsbD ((8 * i + j) % 8)
      simp only [hdiv, hmod]
  constructor
  · intro h
    have hlt : prefixLen.toNat < 128 := by
      by_contra hge
      have h128 : prefixLen = 128 := BitVec.eq_of_toNat_eq (by show prefixLen.toNat = 128; omega)
      rw [h128, show IPv6Address.subnetMask 128 = .error (.outOfBounds 16) by decide] at h
      cases h
    rw [IPv6Address.subnetMask_eq hlt] at h
    exact ⟨_, hlt, (hmask _).mp (congrArg IPv6Address.addr (Except.ok.inj h))⟩
  · rintro ⟨n, hn, hlead⟩
    have hn' : prefixLen.toNat = n := hlen.trans (hlead.sum_ones (by omega))
    rw [IPv6Address.subnetMask_eq (by omega), hn', (hmask n).mpr hlead]

end

/-! ## The interfaces of a family -/

/-- The interface has an address, of the family that is asked for and one that `GetInterfaceAddresses` reports. -/
def listed (family : Int32) (i : Ifaddrs) : Bool :=
  i.addr.any fun
    | .inet x => family = AF_UNSPEC || family = (Sockaddr.inet x).sa_family
    | .inet6 x => family = AF_UNSPEC || family = (Sockaddr.inet6 x).sa_family
    | .other _ => false

/-- The pointers that are followed for the interface are not null. -/
def Readable (family : Int32) (i : Ifaddrs) : Prop := i.addr.isSome ∧ (listed family i → i.netmask.isSome)

/-- The entry is what the interface says: its address, and a prefix length that fits its mask. -/
inductive Reported (o : ByteOrder) (i : Ifaddrs) : Entry → Prop
  | ipv4 {x : IPv4Address} {netmask : Nat → BitVec 8} {prefixLen : BitVec 32} (addr : i.addr = some (.inet x))
      (mask : i.netmask = some netmask)
      (length : ∀ n ≤ 32, Leading (fun k => netmask (4 + k)) 4 n → prefixLen.toNat = n)
      (masks : Masks o x (s_addr o netmask) prefixLen ↔
        ∃ n, 2 ≤ n ∧ n ≤ 32 ∧ Leading (fun k => netmask (4 + k)) 4 n) : Reported o i (.ipv4 x, prefixLen)
  | ipv6 {x : IPv6Address} {netmask : Nat → BitVec 8} {prefixLen : BitVec 32} (addr : i.addr = some (.inet6 x))
      (mask : i.netmask = some netmask)
      (length : ∀ n ≤ 128, Leading (s6_addr netmask) 16 n → prefixLen.toNat = n)
      (masks : IPv6Address.subnetMask prefixLen =
          .ok { IPv6Address.new with addr := Vector.ofFn fun i => s6_addr netmask i } ↔
        ∃ n < 128, Leading (s6_addr netmask) 16 n) : Reported o i (.ipv6 x, prefixLen)

section
variable {o : ByteOrder} {family : Int32} {i : Ifaddrs}

theorem reported_ipv4 {x : IPv4Address} {netmask : Nat → BitVec 8} (haddr : i.addr = some (.inet x))
    (hmask : i.netmask = some netmask) : Reported o i (.ipv4 x, CountBytes (s_addr o netmask)) := by
  refine .ipv4 haddr hmask (fun n hn hlead => ?_) (masks_iff x)
  exact toNat_CountBytes_s_addr.trans (hlead.sum_ones hn)

theorem reported_ipv6 {x : IPv6Address} {netmask : Nat → BitVec 8} (haddr : i.addr = some (.inet6 x))
    (hmask : i.netmask = some netmask) : Reported o i (.ipv6 x,
      (List.range 16).foldl (fun prefix_len k => prefix_len + CountBytes (s6_addr netmask k)) 0) := by
  refine .ipv6 haddr hmask (fun n hn hlead => ?_) (subnetMask_iff toNat_foldl_s6_addr)
  exact toNat_foldl_s6_addr.trans (hlead.sum_ones hn)

/-- A step of the loop reports the interface if it is listed, and fails if it cannot be read. -/
theorem visit_cases (o : ByteOrder) (family : Int32) (i : Ifaddrs) :
    (∃ e, Reported o i e ∧ listed family i = true ∧ Readable family i ∧
      ∀ result, visit o family result i = .ok (result.insert i.name e)) ∨
    (listed family i = false ∧ Readable family i ∧ ∀ result, visit o family result i = .ok result) ∨
    (¬ Readable family i ∧ ∀ result, visit o family result i = .error .nullPointer) := by
  obtain ⟨name, addr, netmask⟩ := i
  cases addr with
  | none => exact Or.inr (Or.inr ⟨fun h => absurd h.1 (by simp), fun _ => rfl⟩)
  | some a =>
    by_cases hfam : family ≠ AF_UNSPEC ∧ family ≠ a.sa_family
    · have hlisted : listed family ⟨name, some a, netmask⟩ = false := by
        cases a with
        | inet x => simpa [listed] using hfam
        | inet6 x => simpa [listed] using hfam
        | other x => rfl
      refine Or.inr (Or.inl ⟨hlisted, ⟨rfl, fun h => ?_⟩, fun _ => if_pos hfam⟩)
      rw [hlisted] at h
      cases h
    · have hin : family = AF_UNSPEC ∨ family = a.sa_family := by
        by_contra h
        exact hfam (not_or.mp h)
      cases a with
      | other x =>
        refine Or.inr (Or.inl ⟨rfl, ⟨rfl, fun h => by cases h⟩, fun _ => if_neg hfam⟩)
      | inet x =>
        have hlisted : listed family ⟨name, some (.inet x), netmask⟩ = true := by simpa [listed] using hin
        cases netmask with
        | none => exact Or.inr (Or.inr ⟨fun h => absurd (h.2 hlisted) (by simp), fun _ => if_neg hfam⟩)
        | some netmask =>
          exact Or.inl ⟨_, reported_ipv4 rfl rfl, hlisted, ⟨rfl, fun _ => rfl⟩, fun _ => if_neg hfam⟩
      | inet6 x =>
        have hlisted : listed family ⟨name, some (.inet6 x), netmask⟩ = true := by simpa [listed] using hin
        cases netmask with
        | none => exact Or.inr (Or.inr ⟨fun h => absurd (h.2 hlisted) (by simp), fun _ => if_neg hfam⟩)
        | some netmask =>
          exact Or.inl ⟨_, reported_ipv6 rfl rfl, hlisted, ⟨rfl, fun _ => rfl⟩, fun _ => if_neg hfam⟩

/-- **The loop**, where every pointer may be followed: the listed interfaces are inserted in their order. -/
theorem foldlM_visit {ifs : List Ifaddrs} (h : ∀ i ∈ ifs, Readable family i) : ∃ es : List (Text × Entry),
    (∀ result, ifs.foldlM (visit o family) result = .ok (es.foldl (fun m e => m.insert e.1 e.2) result)) ∧
    List.Forall₂ (fun i e => e.1 = i.name ∧ Reported o i e.2) (ifs.filter (listed family)) es := by
  induction ifs with
  | nil => exact ⟨[], fun _ => rfl, .nil⟩
  | cons i ifs ih =>
    obtain ⟨es, hfold, hrel⟩ := ih fun j hj => h j (List.mem_cons_of_mem _ hj)
    rcases visit_cases o family i with ⟨e, hrep, hlisted, -, hvisit⟩ | ⟨hlisted, -, hvisit⟩ | ⟨hnot, -⟩
    · refine ⟨(i.name, e) :: es, fun result => ?_, ?_⟩
      · rw [List.foldlM_cons, hvisit]
        exact hfold _
      · rw [List.filter_cons_of_pos hlisted]
        exact .cons ⟨rfl, hrep⟩ hrel
    · refine ⟨es, fun result => ?_, ?_⟩
      · rw [List.foldlM_cons, hvisit]
        exact hfold _
      · rw [List.filter_cons_of_neg (by rw [hlisted]; exact Bool.false_ne_true)]
        exact hrel
    · exact absurd (h i (List.mem_cons_self ..)) hnot

theorem foldlM_visit_named {ifs : List Ifaddrs} (h : ∀ i ∈ ifs, Readable family i) (iface : Text) :
    ∃ results, ifs.foldlM (visit o family) .empty = .ok results ∧
      List.Forall₂ (Reported o) ((ifs.filter (listed family)).filter fun i => i.name = iface)
        (results.equalRange iface) ∧
      (results.isEmpty = true ↔ ifs.filter (listed family) = []) := by
  obtain ⟨es, hfold, hrel⟩ := foldlM_visit (o := o) h
  refine ⟨_, hfold .empty, ?_, ?_⟩
  · rw [Multimap.equalRange_foldl, Multimap.equalRange_empty, List.nil_append, List.forall₂_map_right_iff]
    refine List.Forall₂.imp (fun _ _ h => h.2) (List.rel_filter ?_ hrel)
    intro i e hie
    simp only [decide_eq_true_eq, hie.1]
  · rw [Multimap.isEmpty_foldl, ← List.length_eq_zero_iff, hrel.length_eq, List.length_eq_zero_iff]
    exact List.isEmpty_iff

/-- Where the loop comes to its end, every pointer that it follows is not null. -/
theorem readable_of_foldlM {ifs : List Ifaddrs} {result r : Multimap Text Entry}
    (h : ifs.foldlM (visit o family) result = .ok r) : ∀ i ∈ ifs, Readable family i := by
  induction ifs generalizing result with
  | nil => exact fun i hi => absurd hi (List.not_mem_nil)
  | cons i ifs ih =>
    rw [List.foldlM_cons] at h
    have hcase : Readable family i ∧ ∃ result', visit o family result i = .ok result' := by
      rcases visit_cases o family i with ⟨e, -, -, hread, hvisit⟩ | ⟨-, hread, hvisit⟩ | ⟨-, hvisit⟩
      · exact ⟨hread, _, hvisit result⟩
      · exact ⟨hread, _, hvisit result⟩
      · rw [hvisit] at h
        cases h
    obtain ⟨hread, result', hvisit⟩ := hcase
    rw [hvisit] at h
    intro j hj
    rcases List.mem_cons.mp hj with rfl | hj
    · exact hread
    · exact ih h j hj

end

end Interfaces

open Interfaces in
theorem GetInterfaceAddresses_named (o : ByteOrder) (ifs : List Ifaddrs) (result : List Entry) {iface : Text}
    (hempty : iface ≠ []) (hall : iface ≠ ['*']) (family : Int32) :
    GetInterfaceAddresses o (.ok ifs) result iface family =
      (ifs.foldlM (visit o family) .empty).bind fun results =>
        if results.isEmpty then .ok (false, result)
        else .ok (!(result ++ results.equalRange iface).isEmpty, result ++ results.equalRange iface) := by
  have hname : ¬ (iface.isEmpty = true ∨ iface = ['*']) := by
    rw [List.isEmpty_iff]
    exact not_or.mpr ⟨hempty, hall⟩
  unfold GetInterfaceAddresses ofFamily
  rw [if_neg hname]
  cases hfold : ifs.foldlM (visit o family) .empty with
  | error e => simp [hfold, bind, Except.bind]
  | ok results => cases h : results.isEmpty <;> simp [hfold, h, bind, Except.bind, pure, Except.pure]

open Interfaces in
/-- **The addresses of an interface.** The call comes to its end exactly when no pointer that it follows is null. It
then reports the interfaces with the name and the family, in the order of `getifaddrs`, each with its address and a
prefix length that its mask has. -/
theorem interfaces (o : ByteOrder) (ifs : List Ifaddrs) (result : List Entry) {iface : Text} (hempty : iface ≠ [])
    (hall : iface ≠ ['*']) (family : Int32) :
    (∃ found reported, GetInterfaceAddresses o (.ok ifs) result iface family = .ok (found, result ++ reported) ∧
      List.Forall₂ (Reported o) ((ifs.filter (listed family)).filter fun i => i.name = iface) reported ∧
      (found = true ↔ ifs.filter (listed family) ≠ [] ∧ result ++ reported ≠ [])) ↔
    ∀ i ∈ ifs, Readable family i := by
  rw [GetInterfaceAddresses_named o ifs result hempty hall]
  constructor
  · rintro ⟨found, reported, heq, -, -⟩
    cases hfold : ifs.foldlM (visit o family) (Multimap.empty) with
    | error e =>
      rw [hfold] at heq
      cases heq
    | ok r => exact readable_of_foldlM hfold
  · intro hread
    obtain ⟨results, hfold, hreports, hnone⟩ := foldlM_visit_named (o := o) hread iface
    rw [hfold]
    show ∃ found reported, (if results.isEmpty = true then _ else _) = _ ∧ _
    generalize results.equalRange iface = reported at hreports
    by_cases hlisted : ifs.filter (listed family) = []
    · -- nothing is listed: `result` stays as it is, and the call returns false
      rw [hlisted] at hreports
      cases hreports
      rw [if_pos (hnone.mpr hlisted), hlisted]
      exact ⟨false, [], by rw [List.append_nil], .nil, by simp⟩
    · rw [if_neg (mt hnone.mp hlisted)]
      refine ⟨_, reported, rfl, hreports, ?_⟩
      rw [Bool.not_eq_true', List.isEmpty_eq_false_iff]
      exact ⟨fun h => ⟨hlisted, h⟩, fun h => h.2⟩

/-- The loopback, the link layer of `eth0`, and its address 192.168.10.10 with the mask 255.255.255.0. -/
def Interfaces.lan : List Ifaddrs :=
  [⟨"lo".toList, some (.inet (IPv4Address.new .little 0x7F000001)), some fun k => [2, 0, 0, 0, 255].getD k 0⟩,
    ⟨"eth0".toList, some (.other ⟨17, Vector.replicate 14 0⟩), none⟩,
    ⟨"eth0".toList, some (.inet (IPv4Address.new .little 0xC0A80A0A)),
      some fun k => [2, 0, 0, 0, 255, 255, 255].getD k 0⟩]

open Interfaces in
theorem interfaces_lan : ∃ found reported,
    GetInterfaceAddresses .little (.ok lan) [] "eth0".toList AF_UNSPEC = .ok (found, [] ++ reported) ∧
      List.Forall₂ (Reported .little) ((lan.filter (listed AF_UNSPEC)).filter fun i => i.name = "eth0".toList)
        reported ∧
      (found = true ↔ lan.filter (listed AF_UNSPEC) ≠ [] ∧ [] ++ reported ≠ []) :=
  (interfaces .little lan [] (by decide) (by decide) AF_UNSPEC).mpr (by simp [lan, Readable, listed])

end QWebServer
