import QWebServer.Address.Model
import QWebServer.Lib.Inet6Text

/-!
# Addresses and their texts

* `groups` : the eight groups of an IPv6 address, `Written` : what the loop of `IPv6Address::insert` has written of the
  first groups (`insertGroup_written`);
* `insert_reads` : the text is read back as the address;
* `dotted` : the text of an IPv4 address, `insert_eq` : `IPv4Address::insert` writes that of the word in memory order,
  `textAgrees_iff` : when it is that of the address;
* `Reports`, `reports_iff` : when the functions `Create` report failure as they should.
-/

namespace QWebServer

open Lib

namespace IPv6Address

/-! ## IPv6 -/

def group (x : IPv6Address) (i : Nat) : Nat :=
  2 ^ 8 * (x.addr.toList.getD (2 * i) 0).toNat + (x.addr.toList.getD (2 * i + 1) 0).toNat

def groups (x : IPv6Address) : List Nat := (List.range 8).map x.group

theorem toNat_ofBytes_big (b : Nat → BitVec 8) : (ofBytes .big 16 b).toNat = 2 ^ 8 * (b 0).toNat + (b 1).toNat := by
  have happend : ofBytes .big 16 b = b 0 ++ b 1 := by
    apply BitVec.eq_of_getLsbD_eq
    intro i hi
    rw [getLsbD_ofBytes .big b hi, BitVec.getLsbD_append]
    by_cases hlo : i < 8
    · have hdiv : ByteOrder.big.place 16 (i / 8) = 1 := by
        show 16 / 8 - 1 - i / 8 = 1
        omega
      rw [if_pos hlo, hdiv, Nat.mod_eq_of_lt hlo]
    · have hdiv : ByteOrder.big.place 16 (i / 8) = 0 := by
        show 16 / 8 - 1 - i / 8 = 0
        omega
      have hmod : i % 8 = i - 8 := by omega
      rw [if_neg hlo, hdiv, hmod]
  rw [happend, BitVec.toNat_append, ← Nat.shiftLeft_add_eq_or_of_lt (b 1).isLt, Nat.shiftLeft_eq, Nat.mul_comm]

theorem toNat_data (o : ByteOrder) (x : IPv6Address) (i : Nat) :
    (byteswapOnLittleEndian o (x.data o i)).toNat = x.group i := by
  rw [data, byteswapOnLittleEndian_ofBytes o (by decide), toNat_ofBytes_big]
  rfl

theorem data_eq_zero (o : ByteOrder) (x : IPv6Address) (i : Nat) : x.data o i = 0#16 ↔ x.group i = 0 := by
  have hswap : x.data o i = 0#16 ↔ byteswapOnLittleEndian o (x.data o i) = 0#16 :=
    (byteswapOnLittleEndian_eq_zero o (by decide)).symm
  rw [hswap, ← toNat_data o, BitVec.toNat_eq]
  rfl

theorem group_lt (x : IPv6Address) (i : Nat) : x.group i < 2 ^ 16 := by
  rw [← toNat_data .big]
  exact (byteswapOnLittleEndian .big (x.data .big i)).isLt

section
variable (o : ByteOrder) {x : IPv6Address} {i : Nat} (os : Text)

/-- A group that is zero is passed over as long as no double colon is written. -/
theorem insertGroup_skip (h : x.group i = 0) : x.insertGroup o (os, false) i = (os, false) :=
  if_pos ⟨(data_eq_zero o x i).mpr h, rfl⟩

theorem insertGroup_first (h : x.group 0 ≠ 0) : x.insertGroup o (os, false) 0 = (os ++ hex (x.group 0), false) := by
  simp [insertGroup, data_eq_zero, toNat_data, h]

/-- The first group behind zeros is written with the double colon before it. -/
theorem insertGroup_gap (h : x.group (i + 1) ≠ 0) (hprev : x.group i = 0) :
    x.insertGroup o (os, false) (i + 1) = (os ++ ':' :: ':' :: hex (x.group (i + 1)), true) := by
  simp [insertGroup, data_eq_zero, toNat_data, h, hprev]

theorem insertGroup_next (h : x.group (i + 1) ≠ 0) (hprev : x.group i ≠ 0) :
    x.insertGroup o (os, false) (i + 1) = (os ++ ':' :: hex (x.group (i + 1)), false) := by
  simp [insertGroup, data_eq_zero, toNat_data, h, hprev]

theorem insertGroup_used : x.insertGroup o (os, true) (i + 1) = (os ++ ':' :: hex (x.group (i + 1)), true) := by
  simp [insertGroup, toNat_data]

end

/-- What the loop has written of the groups `done`: without a double colon yet, where zeros at the end are held back, or
with it. -/
inductive Written (done : List Nat) : Text × Bool → Prop
  | held (l : List Nat) (k : Nat) (hdone : done = l ++ List.replicate k 0) (hl : 0 ∉ l) :
      Written done ('[' :: joined l, false)
  | gap (l : List Nat) (k : Nat) (r : List Nat) (hdone : done = l ++ List.replicate k 0 ++ r) (hk : 0 < k)
      (hr : r ≠ []) : Written done ('[' :: (joined l ++ ':' :: ':' :: joined r), true)

theorem held_iff {done l : List Nat} {k a : Nat} (hl : 0 ∉ l) (h : done ++ [a] = l ++ List.replicate k 0) :
    a = 0 ↔ 0 < k := by
  have hlast := congrArg List.getLast? h
  rw [List.getLast?_concat] at hlast
  cases k with
  | zero =>
    rw [List.replicate_zero, List.append_nil] at hlast
    constructor
    · rintro rfl
      exact absurd (List.mem_of_getLast? hlast.symm) hl
    · intro hk
      cases hk
  | succ k =>
    rw [List.replicate_succ', ← List.append_assoc, List.getLast?_concat] at hlast
    simpa using hlast

/-- **The body of the loop** writes the next group. -/
theorem insertGroup_written (o : ByteOrder) (x : IPv6Address) {i : Nat} {s : Text × Bool}
    (h : Written ((List.range i).map x.group) s) :
    Written ((List.range (i + 1)).map x.group) (x.insertGroup o s i) := by
  rw [List.range_succ, List.map_append, List.map_singleton]
  cases h with
  | gap l k r hdone hk hr =>
    cases i with
    | zero => simp [hr] at hdone
    | succ i =>
      rw [insertGroup_used, List.cons_append, List.append_assoc, List.cons_append, List.cons_append, hex,
        ← joined_snoc hr]
      exact .gap l k _ (by rw [hdone, List.append_assoc]) hk (by simp)
  | held l k hdone hl =>
    by_cases hzero : x.group i = 0
    · rw [insertGroup_skip o _ hzero]
      exact .held l (k + 1) (by rw [hdone, hzero, List.replicate_succ', List.append_assoc]) hl
    · cases i with
      | zero =>
        obtain ⟨rfl, rfl⟩ : l = [] ∧ k = 0 := by simpa using hdone.symm
        rw [insertGroup_first o _ hzero]
        have hw : Written [x.group 0] ('[' :: joined [x.group 0], false) := .held _ 0 rfl (by simpa using Ne.symm hzero)
        simpa [hex] using hw
      | succ i =>
        have hheld : x.group i = 0 ↔ 0 < k := by
          rw [List.range_succ, List.map_append, List.map_singleton] at hdone
          exact held_iff hl hdone
        by_cases hk : 0 < k
        · rw [insertGroup_gap o _ hzero (hheld.mpr hk), List.cons_append, hex, ← joined_singleton]
          exact .gap l k _ (by rw [hdone]) hk (by simp)
        · obtain rfl : k = 0 := by omega
          rw [List.replicate_zero, List.append_nil] at hdone
          have hlnil : l ≠ [] := by
            rintro rfl
            simp at hdone
          rw [insertGroup_next o _ hzero fun hp => hk (hheld.mp hp), List.cons_append, hex, ← joined_snoc hlnil]
          exact .held _ 0 (by simp [hdone]) (by simp [hl, Ne.symm hzero])

theorem foldl_written (o : ByteOrder) (x : IPv6Address) (n : Nat) :
    Written ((List.range n).map x.group) ((List.range n).foldl (x.insertGroup o) (['['], false)) := by
  induction n with
  | zero => exact .held [] 0 rfl (by simp)
  | succ n ih =>
    have hstep := insertGroup_written o x ih
    rwa [List.range_succ, List.foldl_append, ← List.range_succ]

/-- The text between the brackets, with the double colon for zeros at the end. -/
theorem written_reads {x : IPv6Address} {s : Text × Bool} (h : Written x.groups s) :
    ∃ body, (if s.2 = false ∧ x.group 7 = 0 then s.1 ++ [':', ':'] else s.1) = '[' :: body ∧ ']' ∉ body ∧
      gaps body ≤ 1 ∧ readAddress body = some x.groups := by
  have hlt : ∀ a ∈ x.groups, a < 2 ^ 16 := by
    intro a ha
    obtain ⟨i, -, rfl⟩ := List.mem_map.mp ha
    exact x.group_lt i
  have hlen : x.groups.length = 8 := by simp [groups]
  have hbracket : ∀ l, ']' ∉ joined l := by
    intro l hl
    rcases mem_joined hl with hc | ⟨d, hd, hc⟩
    · cases hc
    · revert hc
      revert d
      decide
  cases h with
  | gap l k r hdone hk hr =>
    rw [hdone] at hlt hlen ⊢
    refine ⟨_, if_neg (by simp), ?_, (gaps_gap l r).le, ?_⟩
    · simp [hbracket]
    · exact readAddress_gap (fun a ha => hlt a (by simp [ha])) (fun a ha => hlt a (by simp [ha])) hk
        (by simpa [Nat.add_assoc] using hlen)
  | held l k hdone hl =>
    have hheld : x.group 7 = 0 ↔ 0 < k := by
      have hsplit : (List.range 7).map x.group ++ [x.group 7] = l ++ List.replicate k 0 := hdone
      exact held_iff hl hsplit
    rw [hdone] at hlt hlen ⊢
    by_cases hk : 0 < k
    · refine ⟨joined l ++ ':' :: ':' :: joined [], ?_, ?_, (gaps_gap l []).le, ?_⟩
      · rw [if_pos ⟨rfl, hheld.mpr hk⟩]
        rfl
      · simp [hbracket]
      · have hl16 : ∀ a ∈ l, a < 2 ^ 16 := fun a ha => hlt a (by simp [ha])
        have hread := readAddress_gap (r := []) hl16 (by simp) hk (by simpa using hlen)
        rwa [List.append_nil] at hread
    · obtain rfl : k = 0 := by omega
      rw [List.replicate_zero, List.append_nil] at hlt hlen ⊢
      refine ⟨joined l, if_neg fun hc => hk (hheld.mp hc.2), hbracket l, ?_, readAddress_joined hlt hlen⟩
      rw [gaps_joined]
      exact Nat.zero_le 1

/-- **The text of an IPv6 address is read back.** What `insert` writes between the brackets has at most one double colon
and denotes the groups of the address; behind them stands the port. -/
theorem insert_reads (o : ByteOrder) (x : IPv6Address) :
    ∃ body, x.insert o = '[' :: body ++ [']', ':'] ++ decimal (x.getPort o).toNat ∧ ']' ∉ body ∧ gaps body ≤ 1 ∧
      readAddress body = some x.groups := by
  obtain ⟨body, hbody, hbracket, hgaps, hread⟩ := written_reads (foldl_written o x 8)
  refine ⟨body, ?_, hbracket, hgaps, hread⟩
  have hport : (x.getPort o).toNat = (byteswapOnLittleEndian o x.port).toNat := by
    have hlt := (byteswapOnLittleEndian o x.port).isLt
    rw [getPort, BitVec.toNat_setWidth, Nat.mod_eq_of_lt (by omega)]
  have hseven : x.data o 7 = 0 ↔ x.group 7 = 0 := data_eq_zero o x 7
  rw [hport, ← hbody, insert]
  simp only [hseven]

end IPv6Address

namespace IPv4Address

/-! ## IPv4 -/

/-- The octet `k` of an address, the least significant one first. -/
def octet (a : BitVec 32) (k : Nat) : BitVec 8 := a.extractLsb' (8 * k) 8

/-- The octets of an address in network order. -/
def octets (a : BitVec 32) : Vector (BitVec 8) 4 := Vector.ofFn fun i => octet a (3 - i)

/-- The numbers of the octets from the most to the least significant one, with dots between them. -/
def dotted (a : BitVec 32) : Text := ['.'].intercalate ((octets a).toList.map fun b => decimal b.toNat)

theorem toList_octets (a : BitVec 32) : (octets a).toList = [octet a 3, octet a 2, octet a 1, octet a 0] := by
  rw [octets, Vector.toList_ofFn]
  rfl

theorem octet_eq (a : BitVec 32) (k : Nat) : ((a >>> (8 * k)) &&& 0xff).toNat = (octet a k).toNat := by
  rw [octet, BitVec.toNat_and, BitVec.toNat_ushiftRight, BitVec.extractLsb'_toNat]
  show a.toNat >>> (8 * k) &&& 2 ^ 8 - 1 = _
  rw [Nat.and_two_pow_sub_one_eq_mod]

/-- `insert` writes the octets of the word `s_addr` as the machine reads it. -/
theorem insert_eq (o : ByteOrder) (x : IPv4Address) :
    x.insert o = dotted x.addr ++ ':' :: decimal (byteswapOnLittleEndian o x.port).toNat := by
  have h0 : (x.addr &&& 0xff).toNat = (octet x.addr 0).toNat := octet_eq x.addr 0
  have h1 : ((x.addr >>> 8) &&& 0xff).toNat = (octet x.addr 1).toNat := octet_eq x.addr 1
  have h2 : ((x.addr >>> 16) &&& 0xff).toNat = (octet x.addr 2).toNat := octet_eq x.addr 2
  have h3 : ((x.addr >>> 24) &&& 0xff).toNat = (octet x.addr 3).toNat := octet_eq x.addr 3
  unfold insert
  simp only [h0, h1, h2, h3]
  simp [dotted, toList_octets, List.intercalate_cons_cons]

theorem decimal_injective {m n : Nat} (h : decimal m = decimal n) : m = n := by
  have hread := congrArg (fun s => Nat.ofDigitChars 10 s 0) h
  simpa [decimal] using hread

theorem dot_notMem_decimal (n : Nat) : '.' ∉ decimal n := by
  intro h
  have hdigit := Nat.isDigit_of_mem_toDigits (by decide) (by decide) h
  cases hdigit

theorem dotted_injective {a b : BitVec 32} (h : dotted a = dotted b) : (octets a).toList = (octets b).toList := by
  have hsplit : ∀ d : BitVec 32, (dotted d).splitOn '.' = (octets d).toList.map fun b => decimal b.toNat := by
    intro d
    refine List.splitOn_intercalate '.' ?_ (by simp [toList_octets])
    intro s hs
    obtain ⟨e, -, rfl⟩ := List.mem_map.mp hs
    exact dot_notMem_decimal e.toNat
  have hmap := (hsplit a).symm.trans ((congrArg (List.splitOn '.') h).trans (hsplit b))
  have hinj : Function.Injective fun b : BitVec 8 => decimal b.toNat :=
    fun b d hbd => BitVec.eq_of_toNat_eq (decimal_injective hbd)
  exact List.map_injective_iff.mpr hinj hmap

theorem octet_byteswap (a : BitVec 32) {k : Nat} (hk : k < 4) : octet (byteswap a) k = octet a (3 - k) := by
  apply BitVec.eq_of_getLsbD_eq
  intro i hi
  rw [octet, octet, BitVec.getLsbD_extractLsb', BitVec.getLsbD_extractLsb', byteswap, getLsbD_swapBytes _ (by omega)]
  congr 2
  unfold swapIndex
  omega

/-- The text of the address with its octets in reverse order is the same exactly when they read the same backwards. -/
theorem dotted_byteswap_iff (a : BitVec 32) :
    dotted (byteswap a) = dotted a ↔ octet a 0 = octet a 3 ∧ octet a 1 = octet a 2 := by
  have hswap : (octets (byteswap a)).toList = [octet a 0, octet a 1, octet a 2, octet a 3] := by
    simp [toList_octets, octet_byteswap]
  constructor
  · intro h
    have hoctets := dotted_injective h
    rw [hswap, toList_octets] at hoctets
    simp only [List.cons.injEq] at hoctets
    exact ⟨hoctets.1, hoctets.2.1⟩
  · rintro ⟨h0, h1⟩
    rw [dotted, dotted, hswap, toList_octets, h0, h1]

/-- The text of the address `a` with the port `p`, from the constructor and from `Create`, on a little-endian
machine. -/
structure TextAgrees (inet_pton : Text → Pton 4) (a : BitVec 32) (p : BitVec 16) : Prop where
  new : (IPv4Address.new .little a p).toString .little = dotted a ++ ':' :: decimal p.toNat
  create : ∃ x, IPv4Address.Create .little inet_pton (dotted a) p = some x ∧
    x.toString .little = dotted a ++ ':' :: decimal p.toNat

/-- `inet_pton` leaves the octets in network order, which a little-endian machine reads as the word with its bytes in
reverse order. -/
theorem ofBytes_octets (a : BitVec 32) : ofBytes .little 32 (fun i => (octets a).toList.getD i 0) = byteswap a := by
  apply BitVec.eq_of_getLsbD_eq
  intro i hi
  rw [getLsbD_ofBytes .little _ hi, byteswap, getLsbD_swapBytes _ hi]
  have hbyte : ∀ j < 4, (octets a).toList.getD j 0 = octet a (3 - j) := by
    intro j hj
    rw [toList_octets]
    interval_cases j <;> rfl
  show ((octets a).toList.getD (i / 8) 0).getLsbD (i % 8) = _
  rw [hbyte (i / 8) (by omega), octet, BitVec.getLsbD_extractLsb']
  have hlt : i % 8 < 8 := Nat.mod_lt i (by decide)
  have hindex : 8 * (3 - i / 8) + i % 8 = swapIndex 32 i := by
    unfold swapIndex
    omega
  rw [hindex, decide_eq_true hlt, Bool.true_and]

/-- **The text of an IPv4 address agrees with it exactly when its octets read the same backwards**: `insert` does not
bring the address to host order. -/
theorem textAgrees_iff {inet_pton : Text → Pton 4} {a : BitVec 32} (hpton : inet_pton (dotted a) = .valid (octets a))
    (p : BitVec 16) : TextAgrees inet_pton a p ↔ octet a 0 = octet a 3 ∧ octet a 1 = octet a 2 := by
  have hport : byteswapOnLittleEndian .little (byteswapOnLittleEndian .little p) = p :=
    byteswapOnLittleEndian_twice .little (by decide) p
  have hnew : (IPv4Address.new .little a p).toString .little = dotted (byteswap a) ++ ':' :: decimal p.toNat := by
    rw [toString, insert_eq, IPv4Address.new, hport]
    rfl
  have hcreate : ∃ x, IPv4Address.Create .little inet_pton (dotted a) p = some x ∧
      x.toString .little = dotted (byteswap a) ++ ':' :: decimal p.toNat := by
    refine ⟨{ IPv4Address.new .little with port := byteswapOnLittleEndian .little p, addr := byteswap a }, ?_, ?_⟩
    · unfold Create
      simp only [hpton, ofBytes_octets]
      rfl
    · rw [toString, insert_eq, hport]
  rw [← dotted_byteswap_iff]
  constructor
  · intro h
    exact List.append_cancel_right (hnew.symm.trans h.new)
  · intro h
    rw [h] at hnew hcreate
    exact ⟨hnew, hcreate⟩

/-- 10.7.7.10, whose octets read the same backwards. -/
theorem textAgrees_iff_palindrome : TextAgrees
    (fun t => if t = dotted 0x0A07070A then .valid (octets 0x0A07070A) else .invalid) 0x0A07070A 80 :=
  (textAgrees_iff (if_pos rfl) 80).mpr (by decide)

/-- 192.168.1.1 with the port 80 is written as `1.1.168.192:80`. -/
theorem not_textAgrees_reversed : ¬ ∀ (inet_pton : Text → Pton 4) (a : BitVec 32) (p : BitVec 16),
    inet_pton (dotted a) = .valid (octets a) → TextAgrees inet_pton a p := by
  intro hall
  have htext := (hall (fun t => if t = dotted 0xC0A80101 then .valid (octets 0xC0A80101) else .invalid) 0xC0A80101 80
    (if_pos rfl)).new
  have hwritten : (IPv4Address.new .little 0xC0A80101 80).toString .little = "1.1.168.192:80".toList := by
    decide +kernel
  have hdotted : dotted 0xC0A80101 ++ ':' :: decimal (80 : BitVec 16).toNat = "192.168.1.1:80".toList := by
    decide +kernel
  rw [hwritten, hdotted] at htext
  revert htext
  decide

end IPv4Address

/-! ## `Create` -/

/-- The functions `Create` return null exactly when `inet_pton` does not return 1, and else the address it stored with
the given port. -/
structure Reports (o : ByteOrder) (pton4 : Text → Pton 4) (pton6 : Text → Pton 16) (address : Text) (port : BitVec 16) :
    Prop where
  null4 : IPv4Address.Create o pton4 address port = none ↔ (pton4 address).rt ≠ 1
  some4 : ∀ b, pton4 address = .valid b → ∃ x, IPv4Address.Create o pton4 address port = some x ∧
    x.family = AF_INET ∧ x.bytes o = b ∧ x.getPort o = port.setWidth 32
  null6 : IPv6Address.Create pton6 address port = .ok none ↔ (pton6 address).rt ≠ 1
  some6 : ∀ b, pton6 address = .valid b → ∃ x, IPv6Address.Create pton6 address port = .ok (some x) ∧
    x.family = AF_INET6 ∧ x.addr = b ∧ x.getPort o = port.setWidth 32

theorem IPv4Address.bytes_ofBytes (o : ByteOrder) (x : IPv4Address) (b : Vector (BitVec 8) 4) :
    { x with addr := ofBytes o 32 fun i => b.toList.getD i 0 }.bytes o = b := by
  apply Vector.ext
  intro i hi
  rw [IPv4Address.bytes, Vector.getElem_ofFn, byteAt_ofBytes o _ hi]
  simp [hi]

theorem IPv4Address.create_valid (o : ByteOrder) {pton4 : Text → Pton 4} {address : Text} {b : Vector (BitVec 8) 4}
    (h : pton4 address = .valid b) (port : BitVec 16) :
    ∃ x, IPv4Address.Create o pton4 address port = some x ∧ x.family = AF_INET ∧ x.bytes o = b ∧
      x.getPort o = port.setWidth 32 := by
  unfold IPv4Address.Create
  rw [h, if_neg (by simp [Pton.rt])]
  refine ⟨_, rfl, rfl, IPv4Address.bytes_ofBytes o _ b, ?_⟩
  show (byteswapOnLittleEndian o (byteswapOnLittleEndian o port)).setWidth 32 = _
  rw [byteswapOnLittleEndian_twice o (by decide)]

theorem IPv4Address.create_eq_none_iff (o : ByteOrder) (pton4 : Text → Pton 4) (address : Text) (port : BitVec 16) :
    IPv4Address.Create o pton4 address port = none ↔ (pton4 address).rt = -1 := by
  unfold IPv4Address.Create
  cases pton4 address with
  | valid b => simp [Pton.rt]
  | invalid => simp [Pton.rt]
  | unsupported => simp [Pton.rt]

/-- **`Create` reports failure as it should for a text that is a valid IPv4 address and no valid IPv6 address**, and for
no other: `IPv4Address::Create` takes the answer 0 for a success, and `IPv6Address::Create` never returns an address. -/
theorem reports_iff (o : ByteOrder) (pton4 : Text → Pton 4) (pton6 : Text → Pton 16) (address : Text)
    (port : BitVec 16) :
    Reports o pton4 pton6 address port ↔ (pton4 address).rt ≠ 0 ∧ (pton6 address).rt ≠ 1 := by
  constructor
  · intro h
    constructor
    · intro hrt
      have hnull := h.null4.mpr (by rw [hrt]; decide)
      rw [IPv4Address.create_eq_none_iff, hrt] at hnull
      cases hnull
    · intro hrt
      cases hp : pton6 address with
      | valid b =>
        obtain ⟨x, hx, -⟩ := h.some6 b hp
        rw [IPv6Address.Create, hp] at hx
        cases hx
      | invalid =>
        rw [hp] at hrt
        cases hrt
      | unsupported =>
        rw [hp] at hrt
        cases hrt
  · rintro ⟨h4, h6⟩
    refine ⟨?_, fun b hb => IPv4Address.create_valid o hb port, ?_, fun b hb => absurd (by rw [hb]; rfl) h6⟩
    · rw [IPv4Address.create_eq_none_iff]
      cases hp : pton4 address with
      | valid b => simp [Pton.rt]
      | invalid => exact absurd (by rw [hp]; rfl) h4
      | unsupported => simp [Pton.rt]
    · rw [IPv6Address.Create]
      cases hp : pton6 address with
      | valid b => exact absurd (by rw [hp]; rfl) h6
      | invalid => simp [Pton.rt]
      | unsupported => simp [Pton.rt]

/-- A text that is no address: `IPv4Address::Create` returns 0.0.0.0. -/
theorem not_reports_invalid : ¬ ∀ (o : ByteOrder) (pton4 : Text → Pton 4) (pton6 : Text → Pton 16) (address : Text)
    (port : BitVec 16), Reports o pton4 pton6 address port := by
  intro hall
  have hnull := (hall .little (fun _ => .invalid) (fun _ => .invalid) "no address".toList 80).null4.mpr (by decide)
  have hsome : IPv4Address.Create .little (fun _ => .invalid) "no address".toList 80 =
      some (IPv4Address.new .little 0 80) := rfl
  rw [hsome] at hnull
  cases hnull

end QWebServer
