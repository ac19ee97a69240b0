import QWebServer.Address.Model
import QWebServer.Lib.CString

/-!
# `address.cpp`: addresses of Unix sockets

* `UnixAddress` : `m_addr` and `m_length`, the constructors, `getAddrLen`, `setAddlen`, `getPath`, `insert`;
* `stored` : what of a path is to be in `sun_path`;
* `KeepsPath` : the address has the path it was made from, `keepsPath_iff` : when it has.

The type of `m_length` has 32 bits, and the length of a path has not.
-/

namespace QWebServer

open Lib

def AF_UNIX : BitVec 16 := 1

/-- `offsetof(sockaddr_un, sun_path)`. -/
def sunPathOffset : Nat := 2

/-- `sizeof(sun_path)`. -/
def sunPathSize : Nat := 108

/-- `UnixAddress`: its `sockaddr_un` and `m_length`. -/
structure UnixAddress where
  family : BitVec 16
  sunPath : Text
  length : BitVec 32
  size : sunPath.length = sunPathSize

namespace UnixAddress

inductive Exception
  | pathTooLong
  deriving DecidableEq

/-- `memset` and `memcpy(&m_addr.sun_path, s, n)`. -/
def copy (s : Text) (n : Nat) : Text :=
  (s.take n ++ List.replicate sunPathSize '\x00').take sunPathSize

theorem length_copy (s : Text) (n : Nat) : (copy s n).length = sunPathSize := by
  rw [copy, List.length_take, List.length_append, List.length_replicate]
  exact Nat.min_eq_left (Nat.le_add_left _ _)

/-- `UnixAddress::UnixAddress()`. -/
def new : UnixAddress where
  family := AF_UNIX
  sunPath := copy [] 0
  length := BitVec.ofNat 32 (sunPathOffset + (sunPathSize - 1))
  size := length_copy [] 0

/-- `m_length` of `UnixAddress(path)` before the offset is added: a `size_t` that is cut to 32 bits, and one less for a
path that starts with NUL. -/
def pathLength (path : Text) : BitVec 32 :=
  let length := BitVec.ofNat 32 (path.length + 1)
  if path.head? = some '\x00' then length - 1 else length

/-- `UnixAddress::UnixAddress(const std::string&)`. -/
def ofPath (path : Text) : Except Exception UnixAddress :=
  let length := pathLength path
  if length.toNat > sunPathSize then .error .pathTooLong
  else .ok {
    family := AF_UNIX
    sunPath := copy (path ++ ['\x00']) length.toNat
    length := length + BitVec.ofNat 32 sunPathOffset
    size := length_copy _ _ }

def getAddrLen (x : UnixAddress) : BitVec 32 := x.length

def setAddlen (x : UnixAddress) (v : BitVec 32) : UnixAddress := { x with length := v }

def pathText (x : UnixAddress) : Text :=
  if x.length.toNat > sunPathOffset ∧ x.sunPath.head? = some '\x00' then
    ['\\', '0'] ++ (x.sunPath.drop 1).take (x.length.toNat - sunPathOffset - 1)
  else cstr x.sunPath

def getPath (x : UnixAddress) : Text := x.pathText

def insert (x : UnixAddress) : Text := x.pathText

def toString (x : UnixAddress) : Text := x.insert

/-- The bytes that `sun_path` should have: the path with a NUL behind it, or a path that starts with NUL alone. -/
def stored (path : Text) : Text := if path.head? = some '\x00' then path else path ++ ['\x00']

structure KeepsPath (path : Text) : Prop where
  throws : ofPath path = .error .pathTooLong ↔ sunPathSize < (stored path).length
  pathname : ∀ x, ofPath path = .ok x → '\x00' ∉ path → x.getPath = path ∧ x.toString = path
  abstract : ∀ x rest, ofPath path = .ok x → path = '\x00' :: rest →
    x.getPath = ['\\', '0'] ++ rest ∧ x.toString = ['\\', '0'] ++ rest
  addrLen : ∀ x, ofPath path = .ok x → x.getAddrLen.toNat = sunPathOffset + (stored path).length

/-! ## The constructor -/

theorem toNat_pathLength (path : Text) : (pathLength path).toNat = (stored path).length % 2 ^ 32 := by
  unfold pathLength stored
  split_ifs with h
  · rw [BitVec.toNat_sub, BitVec.toNat_ofNat]
    show (2 ^ 32 - 1 + (path.length + 1) % 2 ^ 32) % 2 ^ 32 = path.length % 2 ^ 32
    omega
  · rw [BitVec.toNat_ofNat, List.length_append]
    rfl

theorem copy_stored {path : Text} (hfit : (stored path).length ≤ sunPathSize) :
    copy (path ++ ['\x00']) (stored path).length =
      stored path ++ List.replicate (sunPathSize - (stored path).length) '\x00' := by
  have htake : (path ++ ['\x00']).take (stored path).length = stored path := by
    unfold stored
    split_ifs with h
    · rw [List.take_left]
    · rw [List.take_length]
  rw [copy, htake, List.take_append, List.take_of_length_le hfit, List.take_replicate,
    Nat.min_eq_left (Nat.sub_le _ _)]

/-- **The constructor, where the stored bytes fit.** -/
theorem ofPath_eq {path : Text} (hfit : (stored path).length ≤ sunPathSize) :
    ∃ x, ofPath path = .ok x ∧ x.length.toNat = sunPathOffset + (stored path).length ∧
      x.sunPath = stored path ++ List.replicate (sunPathSize - (stored path).length) '\x00' := by
  have hsize : sunPathSize = 108 := rfl
  have hlen : (pathLength path).toNat = (stored path).length := by
    rw [toNat_pathLength, Nat.mod_eq_of_lt (by omega)]
  unfold ofPath
  simp only [hlen, if_neg (Nat.not_lt.mpr hfit)]
  refine ⟨_, rfl, ?_, copy_stored hfit⟩
  rw [BitVec.toNat_add, hlen]
  show ((stored path).length + 2) % 2 ^ 32 = 2 + (stored path).length
  omega

theorem ofPath_eq_error {path : Text} :
    ofPath path = .error .pathTooLong ↔ sunPathSize < (stored path).length % 2 ^ 32 := by
  rw [← toNat_pathLength]
  unfold ofPath
  dsimp only
  split_ifs with h
  · simpa using h
  · simpa using h

/-! ## Paths -/

theorem pathText_pathname {x : UnixAddress} {path t : Text} (hpath : path ≠ []) (hnul : '\x00' ∉ path)
    (hsun : x.sunPath = path ++ '\x00' :: t) : x.pathText = path := by
  have hhead : x.sunPath.head? ≠ some '\x00' := by
    rw [hsun, List.head?_append_of_ne_nil _ hpath]
    exact fun hh => hnul (List.mem_of_head? hh)
  rw [pathText, if_neg fun h => hhead h.2, hsun, cstr_append hnul]

theorem pathText_abstract {x : UnixAddress} {rest t : Text} (hlen : x.length.toNat = sunPathOffset + (rest.length + 1))
    (hsun : x.sunPath = '\x00' :: rest ++ t) : x.pathText = ['\\', '0'] ++ rest := by
  have htwo : sunPathOffset = 2 := rfl
  have hcount : x.length.toNat - sunPathOffset - 1 = rest.length := by omega
  rw [pathText, if_pos ⟨by omega, by rw [hsun]; rfl⟩, hcount, hsun]
  simp

theorem getPath_empty : ∃ x, ofPath [] = .ok x ∧ x.getPath = ['\\', '0'] := ⟨_, rfl, rfl⟩

/-- **An address keeps its path unless the path is empty, or so long that its length comes back below the size of
`sun_path` in 32 bits.** -/
theorem keepsPath_iff (path : Text) :
    KeepsPath path ↔
      path ≠ [] ∧ (sunPathSize < (stored path).length → sunPathSize < (stored path).length % 2 ^ 32) := by
  constructor
  · intro h
    constructor
    · rintro rfl
      obtain ⟨x, hx, hpath⟩ := getPath_empty
      have hkept := (h.pathname x hx (by simp)).1
      rw [hpath] at hkept
      cases hkept
    · intro hlong
      exact ofPath_eq_error.mp (h.throws.mpr hlong)
  · rintro ⟨hne, hlong⟩
    have hthrows : ofPath path = .error .pathTooLong ↔ sunPathSize < (stored path).length := by
      rw [ofPath_eq_error]
      exact ⟨fun h => Nat.lt_of_lt_of_le h (Nat.mod_le _ _), hlong⟩
    have hok : ∀ x, ofPath path = .ok x → x.length.toNat = sunPathOffset + (stored path).length ∧
        x.sunPath = stored path ++ List.replicate (sunPathSize - (stored path).length) '\x00' := by
      intro x hx
      have hfit : (stored path).length ≤ sunPathSize := by
        by_contra hno
        rw [hthrows.mpr (Nat.not_le.mp hno)] at hx
        cases hx
      obtain ⟨x', hx', hlen, hsun⟩ := ofPath_eq hfit
      obtain rfl := Except.ok.inj (hx'.symm.trans hx)
      exact ⟨hlen, hsun⟩
    refine ⟨hthrows, fun x hx hnul => ?_, fun x rest hx he => ?_, fun x hx => (hok x hx).1⟩
    · obtain ⟨-, hsun⟩ := hok x hx
      have hstored : stored path = path ++ ['\x00'] := if_neg fun hh => hnul (List.mem_of_head? hh)
      rw [hstored, List.append_assoc] at hsun
      have hkept := pathText_pathname hne hnul hsun
      exact ⟨hkept, hkept⟩
    · obtain ⟨hlen, hsun⟩ := hok x hx
      have hstored : stored path = '\x00' :: rest := by
        rw [he]
        rfl
      rw [hstored] at hlen hsun
      have hkept := pathText_abstract hlen hsun
      exact ⟨hkept, hkept⟩

/-- The empty path: `getPath` returns `\0`. -/
theorem not_keepsPath_empty : ¬ ∀ path, KeepsPath path := by
  intro hall
  obtain ⟨x, hx, hpath⟩ := getPath_empty
  have hkept := ((hall []).pathname x hx (by simp)).1
  rw [hpath] at hkept
  cases hkept

end UnixAddress

end QWebServer
