import QWebServer.Address.Unix

/-!
# `address.cpp`: looking up a host

* `AnyAddress` : the objects behind an `Address::ptr`, `AnyAddress.Create` : `Address::Create`;
* `bracketed`, `atColon`, `splitHost` : how `Lookup` cuts the host into a node and a service, the latter a pointer into
  the host;
* `arguments` : what it hands to `getaddrinfo`, `Lookup` : the whole function;
* `Shape` : the texts a host may be, with what should be handed on, `arguments_iff` : when it is.
-/

namespace QWebServer

open Lib

structure UnknownAddress where
  family : BitVec 16
  data : Vector (BitVec 8) 14

/-- What a `sockaddr` holds, by its `sa_family`. -/
inductive Sockaddr
  | inet (x : IPv4Address)
  | inet6 (x : IPv6Address)
  | other (x : UnknownAddress)

/-- The objects behind an `Address::ptr`. -/
inductive AnyAddress
  | ipv4 (x : IPv4Address)
  | ipv6 (x : IPv6Address)
  | unix (x : UnixAddress)
  | unknown (x : UnknownAddress)

def AnyAddress.Create : Option Sockaddr → Option AnyAddress
  | none => none
  | some (.inet x) => some (.ipv4 x)
  | some (.inet6 x) => some (.ipv6 x)
  | some (.other x) => some (.unknown x)

/-- The fields of `addrinfo` that `Lookup` sets. -/
structure Hints where
  family : Int32
  type : Int32
  protocol : Int32

namespace Address

/-! ## The host -/

/-- The part of `Lookup` for a host that starts with a bracket: `node`, and `service` as a place in the host. -/
def bracketed (host : Text) : Text × Option Nat :=
  if host.head? = some '[' then
    match memchr (host.drop 1) ']' with
    | some e => ((host.drop 1).take e, if host[e + 2]? = some ':' then some (e + 3) else none)
    | none => ([], none)
  else ([], none)

/-- The part of `Lookup` for an empty `node`. Where there is a second colon, `service` stays at the first one. -/
def atColon (host : Text) : Text × Option Nat :=
  match memchr host ':' with
  | none => ([], none)
  | some s =>
    if (memchr (host.drop (s + 1)) ':').isNone then (host.take s, some (s + 1)) else ([], some s)

/-- `node` and `service` before `getaddrinfo`. -/
def splitHost (host : Text) : Text × Option Nat :=
  let r := bracketed host
  let r := if r.1.isEmpty then atColon host else r
  (if r.1.isEmpty then host else r.1, r.2)

/-- What `getaddrinfo` reads at `node.c_str()` and at `service`. -/
def arguments (host : Text) : Text × Option Text :=
  let r := splitHost host
  (cstr r.1, r.2.map fun i => cstr (host.drop i))

/-- `Address::Lookup`: what it returns, and `result` after it. -/
def Lookup (getaddrinfo : Text → Option Text → Hints → Except Int32 (List Sockaddr)) (result : List (Option AnyAddress))
    (host : Text) (family type protocol : Int32) : Bool × List (Option AnyAddress) :=
  match getaddrinfo (arguments host).1 (arguments host).2 { family, type, protocol } with
  | .error _ => (false, result)
  | .ok results =>
    let result := result ++ results.map fun next => AnyAddress.Create (some next)
    (!result.isEmpty, result)

/-! ## The texts of a host -/

/-- The texts: an address in brackets with and without a port, a name with and without one, and an address with colons
in it. -/
inductive Shape
  | bracketPort (v p : Text) (hv : v ≠ []) (hfree : ']' ∉ v)
  | bracket (v : Text) (hv : v ≠ []) (hfree : ']' ∉ v)
  | hostPort (h p : Text) (hh : h ≠ []) (hcolon : ':' ∉ h) (hport : ':' ∉ p) (hopen : h.head? ≠ some '[')
  | plain (h : Text) (hcolon : ':' ∉ h) (hopen : h.head? ≠ some '[')
  | bare (h : Text) (hcolons : 2 ≤ h.count ':') (hopen : h.head? ≠ some '[')

namespace Shape

/-- The host. -/
def host : Shape → Text
  | bracketPort v p _ _ => '[' :: (v ++ ']' :: ':' :: p)
  | bracket v _ _ => '[' :: (v ++ [']'])
  | hostPort h p _ _ _ _ => h ++ ':' :: p
  | plain h _ _ => h
  | bare h _ _ => h

def names : Shape → Text × Option Text
  | bracketPort v p _ _ => (v, some p)
  | bracket v _ _ => (v, none)
  | hostPort h p _ _ _ _ => (h, some p)
  | plain h _ _ => (h, none)
  | bare h _ _ => (h, none)

/-- The host is an address with colons in it, without brackets. -/
def isBare : Shape → Bool
  | bare .. => true
  | _ => false

end Shape

section
variable {v p h : Text}

theorem splitHost_of_bracketed {host node : Text} {service : Option Nat} (hb : bracketed host = (node, service))
    (hnode : node ≠ []) : splitHost host = (node, service) := by
  have hempty : node.isEmpty = false := by simpa using hnode
  simp [splitHost, hb, hempty]

theorem splitHost_of_atColon {host : Text} (hopen : host.head? ≠ some '[') :
    splitHost host = (if (atColon host).1.isEmpty then host else (atColon host).1, (atColon host).2) := by
  simp [splitHost, bracketed, hopen]

theorem splitHost_bracketPort (hv : v ≠ []) (hfree : ']' ∉ v) :
    splitHost ('[' :: (v ++ ']' :: ':' :: p)) = (v, some (v.length + 3)) := by
  refine splitHost_of_bracketed ?_ hv
  simp [bracketed, memchr_append hfree]

theorem splitHost_bracket (hv : v ≠ []) (hfree : ']' ∉ v) : splitHost ('[' :: (v ++ [']'])) = (v, none) := by
  refine splitHost_of_bracketed ?_ hv
  simp [bracketed, memchr_append hfree]

theorem splitHost_hostPort (hh : h ≠ []) (hcolon : ':' ∉ h) (hport : ':' ∉ p) (hopen : h.head? ≠ some '[') :
    splitHost (h ++ ':' :: p) = (h, some (h.length + 1)) := by
  have hopen' : (h ++ ':' :: p).head? ≠ some '[' := by rwa [List.head?_append_of_ne_nil _ hh]
  have hat : atColon (h ++ ':' :: p) = (h, some (h.length + 1)) := by
    simp [atColon, memchr_append hcolon, memchr_eq_none.mpr hport]
  have hempty : h.isEmpty = false := by simpa using hh
  rw [splitHost_of_atColon hopen', hat, hempty]
  rfl

theorem splitHost_plain (hcolon : ':' ∉ h) (hopen : h.head? ≠ some '[') : splitHost h = (h, none) := by
  have hat : atColon h = ([], none) := by
    rw [atColon, memchr_eq_none.mpr hcolon]
  rw [splitHost_of_atColon hopen, hat]
  rfl

/-- With two colons `service` is left at the first one. -/
theorem splitHost_bare (hcolons : 2 ≤ h.count ':') (hopen : h.head? ≠ some '[') :
    ∃ i, splitHost h = (h, some i) := by
  have hmem : ':' ∈ h := List.count_pos_iff.mp (by omega)
  obtain ⟨u, w, rfl, hu⟩ := List.eq_append_cons_of_mem hmem
  have hw : ':' ∈ w := by
    rw [List.count_append, List.count_cons_self, List.count_eq_zero_of_not_mem hu] at hcolons
    exact List.count_pos_iff.mp (by omega)
  have hsecond : memchr w ':' ≠ none := fun hnone => memchr_eq_none.mp hnone hw
  have hat : atColon (u ++ ':' :: w) = ([], some u.length) := by
    simp [atColon, memchr_append hu, hsecond]
  rw [splitHost_of_atColon hopen, hat]
  exact ⟨_, rfl⟩

end

/-- **`Lookup` cuts the host as it should, unless a NUL is in it or it is an address with colons in it and without
brackets**: it hands on the rest of such an address, from the first colon on, as the service. -/
theorem arguments_iff (s : Shape) : arguments s.host = s.names ↔ '\x00' ∉ s.host ∧ s.isBare = false := by
  cases s with
  | bracketPort v p hv hfree =>
    have hargs : arguments ('[' :: (v ++ ']' :: ':' :: p)) = (cstr v, some (cstr p)) := by
      simp [arguments, splitHost_bracketPort hv hfree]
    simp [Shape.host, Shape.names, Shape.isBare, hargs, cstr_eq_self]
  | bracket v hv hfree =>
    have hargs : arguments ('[' :: (v ++ [']'])) = (cstr v, none) := by
      simp [arguments, splitHost_bracket hv hfree]
    simp [Shape.host, Shape.names, Shape.isBare, hargs, cstr_eq_self]
  | hostPort h p hh hcolon hport hopen =>
    have hargs : arguments (h ++ ':' :: p) = (cstr h, some (cstr p)) := by
      simp [arguments, splitHost_hostPort hh hcolon hport hopen]
    simp [Shape.host, Shape.names, Shape.isBare, hargs, cstr_eq_self]
  | plain h hcolon hopen =>
    have hargs : arguments h = (cstr h, none) := by
      simp [arguments, splitHost_plain hcolon hopen]
    simp [Shape.host, Shape.names, Shape.isBare, hargs, cstr_eq_self]
  | bare h hcolons hopen =>
    obtain ⟨i, hi⟩ := splitHost_bare hcolons hopen
    have hargs : arguments h = (cstr h, some (cstr (h.drop i))) := by
      simp [arguments, hi]
    simp [Shape.host, Shape.names, Shape.isBare, hargs]

/-- The host `fe80::1`: the service is `::1`. -/
theorem not_arguments_bare : ¬ ∀ s : Shape, arguments s.host = s.names := by
  intro hall
  have hargs := hall (.bare "fe80::1".toList (by decide) (by decide))
  have hservice : arguments "fe80::1".toList = ("fe80::1".toList, some "::1".toList) := by decide
  have hnone : ("fe80::1".toList, some "::1".toList) = ("fe80::1".toList, none) := hservice.symm.trans hargs
  cases hnone

end Address

end QWebServer
