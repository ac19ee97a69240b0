import QWebServer.Address.Model

/-!
# Network, broadcast address and subnet mask

* `CreateMask_eq` : the mask that `CreateMask` makes where its arithmetic is defined, `lowOnes` of the bits that the
  prefix leaves;
* `CidrLaws` : what the three functions of an `IPv4Address` should return, `cidrLaws_iff` : they do from the prefix
  length 2 on;
* `assignRange_eq` : the loops over `s6_addr`;
* `IsNetwork`, `isNetwork_iff` : `IPv6Address::networdAddress` clears the byte at the boundary and leaves the bytes
  behind it;
* `IsBroadcast`, `isBroadcast_iff` : `IPv6Address::broadcastAddress` and `subnetMask`, up to the prefix length 127.

The bits of an address are counted from its most significant one.
-/

namespace QWebServer

open Lib

/-! ## `CreateMask` -/

/-- The word of `w` bits whose `k` least significant bits are set. -/
def lowOnes (w k : Nat) : BitVec w := (BitVec.allOnes k).setWidth w

theorem getMsbD_lowOnes {w k i : Nat} (hk : k ≤ w) (hi : i < w) : (lowOnes w k).getMsbD i = decide (w - k ≤ i) := by
  rw [lowOnes, BitVec.getMsbD_setWidth, BitVec.getMsbD_allOnes]
  by_cases h : w - k ≤ i
  · have hlt : i + k - w < k := by omega
    simp [h, hlt]
  · simp [h]

theorem byte_ff : (0xff : BitVec 8) = BitVec.allOnes 8 := by decide

theorem intSub_two_pow {k : Nat} (hk : k < 31) : intSub (1#32 <<< k) 1 = .ok (lowOnes 32 k) := by
  have hpow : 2 ^ k < 2 ^ 31 := Nat.pow_lt_pow_right (by decide) hk
  have hpos : 0 < 2 ^ k := Nat.two_pow_pos k
  have hnat : (1#32 <<< k).toNat = 2 ^ k := by
    rw [BitVec.toNat_shiftLeft, Nat.shiftLeft_eq]
    show 1 * 2 ^ k % 2 ^ 32 = 2 ^ k
    rw [Nat.one_mul, Nat.mod_eq_of_lt (by omega)]
  have hint : (1#32 <<< k).toInt = 2 ^ k := by
    rw [BitVec.toInt_eq_toNat_of_lt (by omega), hnat]
    norm_cast
  unfold intSub
  rw [if_neg]
  · congr 1
    apply BitVec.eq_of_toNat_eq
    rw [lowOnes, BitVec.toNat_setWidth, BitVec.toNat_allOnes, BitVec.toNat_sub, hnat]
    show (2 ^ 32 - 1 + 2 ^ k) % 2 ^ 32 = (2 ^ k - 1) % 2 ^ 32
    omega
  · have hone : (1 : BitVec 32).toInt = 1 := by decide
    have hz : (2 : Int) ^ k < 2 ^ 31 := by exact_mod_cast hpow
    have hz' : (0 : Int) < 2 ^ k := by exact_mod_cast hpos
    simp only [BitVec.ssubOverflow, hint, hone, Bool.or_eq_true, decide_eq_true_eq]
    omega

/-- **`CreateMask`**, where at most 30 bits are left of the word. -/
theorem CreateMask_eq {w : Nat} {bits : BitVec 32} (hb : bits.toNat ≤ w)
    (hk : w - bits.toNat < 31) : CreateMask w bits = .ok (lowOnes w (w - bits.toNat)) := by
  have hcount : (BitVec.ofNat 64 w - bits.setWidth 64).toNat = w - bits.toNat := by
    rw [BitVec.toNat_sub, BitVec.toNat_ofNat, BitVec.toNat_setWidth]
    omega
  have hset : (lowOnes 32 (w - bits.toNat)).setWidth w = lowOnes w (w - bits.toNat) := by
    apply BitVec.eq_of_getLsbD_eq
    intro i hi
    simp only [lowOnes, BitVec.getLsbD_setWidth, BitVec.getLsbD_allOnes]
    by_cases h : i < w - bits.toNat
    · have hlt : i < 32 := by omega
      simp [h, hlt]
    · simp [h]
  have hshl : intShl 1 (w - bits.toNat) = .ok (1#32 <<< (w - bits.toNat)) := if_neg (by omega)
  unfold CreateMask
  rw [hcount, hshl]
  show (intSub (1#32 <<< (w - bits.toNat)) 1 >>= fun mask => .ok (mask.setWidth w)) = _
  rw [intSub_two_pow hk, ← hset]
  rfl

/-! ## IPv4 -/

namespace IPv4Address

/-- The address in host order. -/
def host (o : ByteOrder) (x : IPv4Address) : BitVec 32 := byteswapOnLittleEndian o x.addr

/-- The laws of a prefix: what `subnetMask`, `networdAddress` and `broadcastAddress` return for it, in host order. -/
structure CidrLaws (o : ByteOrder) (x : IPv4Address) (prefixLen : BitVec 32) (mask network broadcast : IPv4Address) :
    Prop where
  createMask : ∃ m, CreateMask 32 prefixLen = .ok m
  subnetMask : IPv4Address.subnetMask o prefixLen = .ok mask
  networdAddress : x.networdAddress o prefixLen = .ok (some network)
  broadcastAddress : x.broadcastAddress o prefixLen = .ok (some broadcast)
  mask_bits : ∀ k < 32, (mask.host o).getMsbD k = decide (k < prefixLen.toNat)
  network_eq : network.host o = x.host o &&& mask.host o
  broadcast_eq : broadcast.host o = x.host o ||| ~~~mask.host o
  network_le : network.host o ≤ x.host o
  le_broadcast : x.host o ≤ broadcast.host o
  network_idem : network.networdAddress o prefixLen = .ok (some network)
  broadcast_idem : broadcast.broadcastAddress o prefixLen = .ok (some broadcast)
  network_port : network.port = x.port ∧ network.family = x.family
  broadcast_port : broadcast.port = x.port ∧ broadcast.family = x.family

section
variable {o : ByteOrder} {x : IPv4Address} {prefixLen : BitVec 32} {m : BitVec 32}

theorem not_gt_of_toNat_le (hp : prefixLen.toNat ≤ 32) : ¬ 32 < prefixLen := by
  rw [BitVec.lt_def]
  exact Nat.not_lt.mpr hp

theorem networdAddress_eq (hp : prefixLen.toNat ≤ 32) (hm : CreateMask 32 prefixLen = .ok m) :
    x.networdAddress o prefixLen = .ok (some { x with addr := x.addr &&& ~~~byteswapOnLittleEndian o m }) := by
  unfold networdAddress
  rw [if_neg (not_gt_of_toNat_le hp), hm]
  rfl

theorem broadcastAddress_eq (hp : prefixLen.toNat ≤ 32) (hm : CreateMask 32 prefixLen = .ok m) :
    x.broadcastAddress o prefixLen = .ok (some { x with addr := x.addr ||| byteswapOnLittleEndian o m }) := by
  unfold broadcastAddress
  rw [if_neg (not_gt_of_toNat_le hp), hm]
  rfl

theorem subnetMask_eq (hm : CreateMask 32 prefixLen = .ok m) :
    subnetMask o prefixLen = .ok { family := AF_INET, port := 0, addr := ~~~byteswapOnLittleEndian o m } := by
  unfold subnetMask
  rw [hm]
  rfl

theorem cidrLaws_of_mask (hp : prefixLen.toNat ≤ 32)
    (hm : CreateMask 32 prefixLen = .ok (lowOnes 32 (32 - prefixLen.toNat))) :
    ∃ mask network broadcast, CidrLaws o x prefixLen mask network broadcast := by
  generalize hl : lowOnes 32 (32 - prefixLen.toNat) = l at hm
  have hand : byteswapOnLittleEndian o (x.addr &&& ~~~byteswapOnLittleEndian o l) = x.host o &&& ~~~l := by
    rw [byteswapOnLittleEndian_and, byteswapOnLittleEndian_not o (by decide),
      byteswapOnLittleEndian_twice o (by decide), host]
  have hor : byteswapOnLittleEndian o (x.addr ||| byteswapOnLittleEndian o l) = x.host o ||| l := by
    rw [byteswapOnLittleEndian_or, byteswapOnLittleEndian_twice o (by decide), host]
  have hnot : byteswapOnLittleEndian o (~~~byteswapOnLittleEndian o l) = ~~~l := by
    rw [byteswapOnLittleEndian_not o (by decide), byteswapOnLittleEndian_twice o (by decide)]
  refine ⟨_, _, _, ⟨⟨l, hm⟩, subnetMask_eq hm, networdAddress_eq hp hm, broadcastAddress_eq hp hm, ?_, ?_, ?_, ?_, ?_,
    ?_, ?_, ⟨rfl, rfl⟩, ⟨rfl, rfl⟩⟩⟩
  · intro k hk
    show (byteswapOnLittleEndian o (~~~byteswapOnLittleEndian o l)).getMsbD k = _
    rw [hnot, BitVec.getMsbD_not, ← hl, getMsbD_lowOnes (by omega) hk]
    by_cases hlt : k < prefixLen.toNat
    · have hge : ¬ 32 - (32 - prefixLen.toNat) ≤ k := by omega
      simp [hk, hlt, hge]
    · have hge : 32 - (32 - prefixLen.toNat) ≤ k := by omega
      simp [hlt, hge]
  · show byteswapOnLittleEndian o _ = x.host o &&& byteswapOnLittleEndian o (~~~byteswapOnLittleEndian o l)
    rw [hand, hnot]
  · show byteswapOnLittleEndian o _ = x.host o ||| ~~~byteswapOnLittleEndian o (~~~byteswapOnLittleEndian o l)
    rw [hor, hnot, BitVec.not_not]
  · show byteswapOnLittleEndian o (x.addr &&& _) ≤ x.host o
    rw [hand, BitVec.le_def, BitVec.toNat_and]
    exact Nat.and_le_left
  · show x.host o ≤ byteswapOnLittleEndian o (x.addr ||| _)
    rw [hor, BitVec.le_def, BitVec.toNat_or]
    exact Nat.left_le_or
  · rw [networdAddress_eq hp hm, BitVec.and_assoc, BitVec.and_self]
  · rw [broadcastAddress_eq hp hm, BitVec.or_assoc, BitVec.or_self]

end

/-- **The CIDR laws of an IPv4 address hold from the prefix length 2 on.** -/
theorem cidrLaws_iff (o : ByteOrder) (x : IPv4Address) {prefixLen : BitVec 32} (hp : prefixLen.toNat ≤ 32) :
    (∃ mask network broadcast, CidrLaws o x prefixLen mask network broadcast) ↔ 2 ≤ prefixLen.toNat := by
  constructor
  · rintro ⟨mask, network, broadcast, hlaws⟩
    obtain ⟨m, hm⟩ := hlaws.createMask
    by_contra hlt
    have hcases : prefixLen = 0 ∨ prefixLen = 1 := by
      rcases (by omega : prefixLen.toNat = 0 ∨ prefixLen.toNat = 1) with h | h
      · exact Or.inl (BitVec.eq_of_toNat_eq h)
      · exact Or.inr (BitVec.eq_of_toNat_eq h)
    -- `1 << 32` for the first, and the least `int` minus one for the second
    rcases hcases with rfl | rfl
    · have hfault : CreateMask 32 0 = .error .shiftWidth := by decide
      rw [hfault] at hm
      cases hm
    · have hfault : CreateMask 32 1 = .error .signedOverflow := by decide
      rw [hfault] at hm
      cases hm
  · intro h2
    exact cidrLaws_of_mask hp (CreateMask_eq hp (by omega))

/-- 192.168.1.77 with the prefix length 26. -/
theorem cidrLaws_iff_26 :
    ∃ mask network broadcast, CidrLaws .little (new .little 0xC0A8014D 80) 26 mask network broadcast :=
  (cidrLaws_iff .little (new .little 0xC0A8014D 80) (by decide)).mpr (by decide)

/-- The prefix length 0, where the shift count is the width of `int`. -/
theorem not_cidrLaws_zero : ¬ ∀ (o : ByteOrder) (x : IPv4Address) (prefixLen : BitVec 32), prefixLen.toNat ≤ 32 →
    ∃ mask network broadcast, CidrLaws o x prefixLen mask network broadcast := by
  intro hall
  obtain ⟨mask, network, broadcast, hlaws⟩ := hall .little (new .little 0xC0A8014D 80) 0 (by decide)
  have hfault : IPv4Address.subnetMask .little 0 = .error .shiftWidth := by decide
  have hmask := hlaws.subnetMask
  rw [hfault] at hmask
  cases hmask

end IPv4Address

/-! ## IPv6 -/

namespace S6Addr

/-- The bit `k` of an address. -/
def bit (a : S6Addr) (k : Fin 128) : Bool := (a.get ⟨k / 8, by omega⟩).getMsbD (k % 8)

/-- The bytes from `lo` on, up to `hi`, changed by `f`. -/
def mapRange (a : S6Addr) (lo hi : Nat) (f : BitVec 8 → BitVec 8) : S6Addr :=
  Vector.ofFn fun i => if lo ≤ i.val ∧ i.val < hi then f a[i] else a[i]

theorem getElem_mapRange (a : S6Addr) (lo hi : Nat) (f : BitVec 8 → BitVec 8) {j : Nat} (hj : j < 16) :
    (a.mapRange lo hi f)[j] = if lo ≤ j ∧ j < hi then f a[j] else a[j] := by
  rw [mapRange, Vector.getElem_ofFn]
  rfl

theorem assign_eq (a : S6Addr) {i : Nat} (hi : i < 16) (f : BitVec 8 → BitVec 8) :
    a.assign i f = .ok (a.mapRange i (i + 1) f) := by
  unfold assign
  rw [dif_pos hi]
  refine congrArg Except.ok ?_
  apply Vector.ext
  intro j hj
  rw [Vector.getElem_set, getElem_mapRange]
  by_cases h : i = j
  · subst h
    rw [if_pos rfl, if_pos (by omega)]
  · rw [if_neg h, if_neg (by omega)]

/-- **The loops over `s6_addr`** that stay inside it. -/
theorem assignRange_eq {hi : Nat} (hhi : hi ≤ 16) (f : BitVec 8 → BitVec 8) (lo : Nat) (a : S6Addr) :
    a.assignRange lo hi f = .ok (a.mapRange lo hi f) := by
  unfold assignRange
  induction hn : hi - lo generalizing lo a with
  | zero =>
    show Except.ok a = _
    refine congrArg Except.ok ?_
    apply Vector.ext
    intro j hj
    rw [getElem_mapRange, if_neg (by omega)]
  | succ n ih =>
    rw [List.range'_succ, List.foldlM_cons, assign_eq a (by omega)]
    show (List.range' (lo + 1) n).foldlM (fun a i => a.assign i f) (a.mapRange lo (lo + 1) f) = _
    rw [ih (lo + 1) (a.mapRange lo (lo + 1) f) (by omega)]
    refine congrArg Except.ok ?_
    apply Vector.ext
    intro j hj
    rw [getElem_mapRange, getElem_mapRange, getElem_mapRange]
    by_cases hlo : j = lo
    · rw [if_neg (by omega), if_pos (by omega), if_pos (by omega)]
    · by_cases hin : lo ≤ j ∧ j < hi
      · rw [if_pos (by omega), if_neg (by omega), if_pos hin]
      · rw [if_neg (by omega), if_neg (by omega), if_neg hin]

/-- The mask of the first `n` bits. -/
def mask (n : Nat) : S6Addr :=
  Vector.ofFn fun i => if i.val < n / 8 then 0xff else if i.val = n / 8 then ~~~lowOnes 8 (8 - n % 8) else 0

theorem getElem_mask (n : Nat) {i : Nat} (hi : i < 16) :
    (mask n)[i] = if i < n / 8 then 0xff else if i = n / 8 then ~~~lowOnes 8 (8 - n % 8) else 0 := by
  rw [mask, Vector.getElem_ofFn]

theorem bit_mask (n : Nat) (k : Fin 128) : (mask n).bit k = decide (k.val < n) := by
  have hr : k.val % 8 < 8 := Nat.mod_lt _ (by decide)
  show ((mask n)[k.val / 8]).getMsbD (k.val % 8) = _
  rw [getElem_mask]
  by_cases h1 : k.val / 8 < n / 8
  · have hlt : k.val < n := by omega
    rw [if_pos h1, byte_ff, BitVec.getMsbD_allOnes]
    simp [hr, hlt]
  · rw [if_neg h1]
    by_cases h2 : k.val / 8 = n / 8
    · rw [if_pos h2, BitVec.getMsbD_not, getMsbD_lowOnes (by omega) hr]
      have hiff : 8 - (8 - n % 8) ≤ k.val % 8 ↔ ¬ k.val < n := by omega
      by_cases hlt : k.val < n <;> simp [hr, hiff, hlt]
    · have hge : ¬ k.val < n := by omega
      rw [if_neg h2]
      simp [hge]

/-- The byte at the boundary of the first `n` bits, cut by the mask. -/
def clearAt (a : S6Addr) (n : Nat) : S6Addr :=
  Vector.ofFn fun i => if i.val = n / 8 then a[i] &&& (mask n)[i] else a[i]

theorem getElem_clearAt (a : S6Addr) (n : Nat) {i : Nat} (hi : i < 16) :
    (a.clearAt n)[i] = if i = n / 8 then a[i] &&& (mask n)[i] else a[i] := by
  rw [clearAt, Vector.getElem_ofFn]
  rfl

theorem clearAt_clearAt (a : S6Addr) (n : Nat) : (a.clearAt n).clearAt n = a.clearAt n := by
  apply Vector.ext
  intro i hi
  rw [getElem_clearAt, getElem_clearAt]
  by_cases h : i = n / 8
  · rw [if_pos h, if_pos h, BitVec.and_assoc, BitVec.and_self]
  · rw [if_neg h, if_neg h]

/-- Where the bytes behind the boundary are zero, the mask cuts no more than `clearAt`. -/
theorem clearAt_eq_and {a : S6Addr} {n : Nat} (hzero : ∀ i : Fin 16, n / 8 < i.val → a[i] = 0) (i : Fin 16) :
    (a.clearAt n)[i] = a[i] &&& (mask n)[i] := by
  rw [Fin.getElem_fin, getElem_clearAt]
  by_cases h2 : i.val = n / 8
  · rw [if_pos h2]
    rfl
  · rw [if_neg h2, Fin.getElem_fin, Fin.getElem_fin, getElem_mask, if_neg h2]
    by_cases h1 : i.val < n / 8
    · rw [if_pos h1, byte_ff, BitVec.and_allOnes]
    · rw [if_neg h1]
      exact (hzero i (by omega)).trans BitVec.and_zero.symm

theorem bit_and {a b d : S6Addr} (h : ∀ i : Fin 16, d[i] = a[i] &&& b[i]) (k : Fin 128) :
    d.bit k = (a.bit k && b.bit k) := by
  have hb : d.get ⟨k / 8, by omega⟩ = a.get ⟨k / 8, by omega⟩ &&& b.get ⟨k / 8, by omega⟩ := h ⟨k / 8, by omega⟩
  rw [bit, hb, BitVec.getMsbD_and]
  rfl

end S6Addr

namespace IPv6Address

section
variable {prefixLen : BitVec 32}

theorem CreateMask_byte (prefixLen : BitVec 32) :
    CreateMask 8 (prefixLen % 8) = .ok (lowOnes 8 (8 - prefixLen.toNat % 8)) := by
  have hmod : (prefixLen % 8).toNat = prefixLen.toNat % 8 := BitVec.toNat_umod
  have hlt := Nat.mod_lt prefixLen.toNat (by decide : 8 > 0)
  rw [CreateMask_eq (by omega) (by omega), hmod]

theorem byteIndex (prefixLen : BitVec 32) : (prefixLen / 8).toNat = prefixLen.toNat / 8 := BitVec.toNat_udiv

/-- The shape of the three functions: an assignment at the boundary, then a loop. -/
theorem assign_then_range {a : S6Addr} {i lo hi : Nat} (hi16 : i < 16) (hhi : hi ≤ 16) (f g : BitVec 8 → BitVec 8)
    (k : S6Addr → IPv6Address) :
    (do
      let a ← a.assign i f
      let a ← S6Addr.assignRange a lo hi g
      return k a) = Except.ok (k ((a.mapRange i (i + 1) f).mapRange lo hi g)) := by
  rw [S6Addr.assign_eq a hi16]
  show (do
    let a ← S6Addr.assignRange (a.mapRange i (i + 1) f) lo hi g
    return k a) = _
  rw [S6Addr.assignRange_eq hhi]
  rfl

theorem subnetMask_eq (hp : prefixLen.toNat < 128) :
    subnetMask prefixLen = .ok { new with addr := S6Addr.mask prefixLen.toNat } := by
  unfold subnetMask
  rw [CreateMask_byte, byteIndex]
  refine (assign_then_range (by omega) (by omega) _ _ fun a => { new with addr := a }).trans ?_
  refine congrArg (fun a => Except.ok { new with addr := a }) ?_
  apply Vector.ext
  intro i hi
  rw [S6Addr.getElem_mapRange, S6Addr.getElem_mapRange, S6Addr.getElem_mask]
  by_cases h1 : i < prefixLen.toNat / 8
  · rw [if_pos ⟨Nat.zero_le _, h1⟩, if_pos h1]
  · rw [if_neg (by omega), if_neg h1]
    by_cases h2 : i = prefixLen.toNat / 8
    · rw [if_pos (by omega), if_pos h2]
    · rw [if_neg (by omega), if_neg h2]
      simp [new]

/-- **`broadcastAddress`** sets the bits that the mask leaves. -/
theorem broadcastAddress_eq (x : IPv6Address) (hp : prefixLen.toNat < 128) :
    x.broadcastAddress prefixLen =
      .ok { x with addr := Vector.ofFn fun i => x.addr[i] ||| ~~~(S6Addr.mask prefixLen.toNat)[i] } := by
  unfold broadcastAddress
  rw [CreateMask_byte, byteIndex]
  refine (assign_then_range (by omega) (by omega) _ _ fun a => { x with addr := a }).trans ?_
  refine congrArg (fun a => Except.ok { x with addr := a }) ?_
  apply Vector.ext
  intro i hi
  rw [S6Addr.getElem_mapRange, S6Addr.getElem_mapRange, Vector.getElem_ofFn]
  show _ = x.addr[i] ||| ~~~(S6Addr.mask prefixLen.toNat)[i]
  rw [S6Addr.getElem_mask]
  by_cases h1 : i < prefixLen.toNat / 8
  · rw [if_neg (by omega), if_neg (by omega), if_pos h1, byte_ff]
    simp
  · by_cases h2 : i = prefixLen.toNat / 8
    · rw [if_neg (by omega), if_pos (by omega), if_neg h1, if_pos h2, BitVec.not_not]
    · rw [if_pos (by omega), if_neg (by omega), if_neg h1, if_neg h2, byte_ff]
      simp

/-- **`networdAddress`** clears the byte at the boundary, and nothing else. -/
theorem networdAddress_eq (x : IPv6Address) (hp : prefixLen.toNat < 128) :
    x.networdAddress prefixLen = .ok { x with addr := x.addr.clearAt prefixLen.toNat } := by
  unfold networdAddress
  rw [CreateMask_byte, byteIndex]
  refine (assign_then_range (by omega) (by omega) _ _ fun a => { x with addr := a }).trans ?_
  refine congrArg (fun a => Except.ok { x with addr := a }) ?_
  apply Vector.ext
  intro i hi
  rw [S6Addr.getElem_mapRange, S6Addr.getElem_mapRange, S6Addr.getElem_clearAt, S6Addr.getElem_mask]
  by_cases h2 : i = prefixLen.toNat / 8
  · rw [if_neg (by omega), if_pos (by omega), if_pos h2, if_neg (by omega), if_pos h2]
  · rw [if_neg (by omega : ¬ (prefixLen.toNat / 8 ≤ i ∧ i < prefixLen.toNat / 8 + 1)), if_neg h2]
    simp

end

/-- The network address of a prefix: the bits of the prefix and no others, with the port and the family, as the mask
gives it, and once and for all. -/
structure IsNetwork (x : IPv6Address) (prefixLen : BitVec 32) (network mask : IPv6Address) : Prop where
  networdAddress : x.networdAddress prefixLen = .ok network
  subnetMask : IPv6Address.subnetMask prefixLen = .ok mask
  kept : ∀ k : Fin 128, k.val < prefixLen.toNat → network.addr.bit k = x.addr.bit k
  cleared : ∀ k : Fin 128, prefixLen.toNat ≤ k.val → network.addr.bit k = false
  port : network.port = x.port ∧ network.family = x.family
  and_eq : ∀ i : Fin 16, network.addr[i] = x.addr[i] &&& mask.addr[i]
  idem : network.networdAddress prefixLen = .ok network

/-- **`networdAddress` returns the network address exactly when the bytes behind the one at the boundary are zero
already**: its loop puts nothing into them. -/
theorem isNetwork_iff (x : IPv6Address) {prefixLen : BitVec 32} (hp : prefixLen.toNat ≤ 127) :
    (∃ network mask, IsNetwork x prefixLen network mask) ↔
      ∀ i : Fin 16, prefixLen.toNat / 8 < i.val → x.addr[i] = 0 := by
  have hnet : x.networdAddress prefixLen = _ := x.networdAddress_eq (by omega)
  have hmask : IPv6Address.subnetMask prefixLen = _ := subnetMask_eq (by omega)
  constructor
  · rintro ⟨network, mask, h⟩ i hi
    have hand := h.and_eq i
    obtain rfl := Except.ok.inj (hnet.symm.trans h.networdAddress)
    obtain rfl := Except.ok.inj (hmask.symm.trans h.subnetMask)
    have hzero : (S6Addr.mask prefixLen.toNat)[i.val] = 0 := by
      rw [S6Addr.getElem_mask, if_neg (by omega), if_neg (by omega)]
    rw [Fin.getElem_fin, Fin.getElem_fin, Fin.getElem_fin, S6Addr.getElem_clearAt, if_neg (by omega), hzero] at hand
    rw [Fin.getElem_fin, hand]
    exact BitVec.and_zero
  · intro hzero
    have hand := S6Addr.clearAt_eq_and hzero
    refine ⟨_, _, hnet, hmask, fun k hk => ?_, fun k hk => ?_, ⟨rfl, rfl⟩, hand, ?_⟩
    · rw [S6Addr.bit_and hand, S6Addr.bit_mask]
      simp [hk]
    · rw [S6Addr.bit_and hand, S6Addr.bit_mask]
      simp [hk]
    · rw [networdAddress_eq _ (by omega), S6Addr.clearAt_clearAt]

/-- `2001:dbf::`. -/
def documentation : IPv6Address :=
  { new with addr := #v[0x20, 0x01, 0x0d, 0xbf, 0, 0, 0, 0, 0, 0, 0, 0, 0, 0, 0, 0] }

/-- With the prefix length 29 three bits of the byte at the boundary are cleared. -/
theorem isNetwork_iff_documentation : ∃ network mask, IsNetwork documentation 29 network mask ∧
    network.addr[3] = 0xb8 := by
  have hp : (29 : BitVec 32).toNat ≤ 127 := by decide
  obtain ⟨network, mask, h⟩ := (isNetwork_iff documentation hp).mpr (by decide)
  obtain rfl : network = _ := Except.ok.inj (h.networdAddress.symm.trans (documentation.networdAddress_eq (by decide)))
  exact ⟨_, mask, h, by decide⟩

/-- `::1` with the prefix length 64 stays as it is. -/
theorem not_isNetwork_loopback : ¬ ∀ (x : IPv6Address) (prefixLen : BitVec 32), prefixLen.toNat ≤ 127 →
    ∃ network mask, IsNetwork x prefixLen network mask := by
  intro hall
  have hloop : ({ new with addr := #v[0, 0, 0, 0, 0, 0, 0, 0, 0, 0, 0, 0, 0, 0, 0, 1] } : IPv6Address).networdAddress
      64 = .ok { new with addr := #v[0, 0, 0, 0, 0, 0, 0, 0, 0, 0, 0, 0, 0, 0, 0, 1] } := by decide
  obtain ⟨network, mask, h⟩ :=
    hall { new with addr := #v[0, 0, 0, 0, 0, 0, 0, 0, 0, 0, 0, 0, 0, 0, 0, 1] } 64 (by decide)
  obtain rfl := Except.ok.inj (hloop.symm.trans h.networdAddress)
  have hbit := h.cleared 127 (by decide)
  revert hbit
  decide

structure IsBroadcast (x : IPv6Address) (prefixLen : BitVec 32) (broadcast mask : IPv6Address) : Prop where
  broadcastAddress : x.broadcastAddress prefixLen = .ok broadcast
  subnetMask : IPv6Address.subnetMask prefixLen = .ok mask
  mask_bits : ∀ k : Fin 128, mask.addr.bit k = decide (k.val < prefixLen.toNat)
  or_eq : ∀ i : Fin 16, broadcast.addr[i] = x.addr[i] ||| ~~~mask.addr[i]

/-- **`broadcastAddress` and `subnetMask` return what they should, inside `s6_addr`, for every prefix length but 128.**
There the byte at the boundary is the one behind the last. -/
theorem isBroadcast_iff (x : IPv6Address) {prefixLen : BitVec 32} (hp : prefixLen.toNat ≤ 128) :
    (∃ broadcast mask, IsBroadcast x prefixLen broadcast mask) ↔ prefixLen.toNat ≠ 128 := by
  constructor
  · rintro ⟨broadcast, mask, h⟩ h128
    obtain rfl : prefixLen = 128 := BitVec.eq_of_toNat_eq h128
    have hfault : IPv6Address.subnetMask 128 = .error (.outOfBounds 16) := by decide
    have hmask := h.subnetMask
    rw [hfault] at hmask
    cases hmask
  · intro hne
    refine ⟨_, _, x.broadcastAddress_eq (by omega), subnetMask_eq (by omega), S6Addr.bit_mask _, fun i => ?_⟩
    rw [Fin.getElem_fin, Vector.getElem_ofFn]

theorem isBroadcast_iff_documentation : ∃ broadcast mask, IsBroadcast documentation 32 broadcast mask :=
  (isBroadcast_iff documentation (by decide)).mpr (by decide)

/-- `subnetMask(128)` writes to `s6_addr[16]`. -/
theorem not_isBroadcast_128 : ¬ ∀ (x : IPv6Address) (prefixLen : BitVec 32), prefixLen.toNat ≤ 128 →
    ∃ broadcast mask, IsBroadcast x prefixLen broadcast mask := by
  intro hall
  obtain ⟨broadcast, mask, h⟩ := hall documentation 128 (by decide)
  have hfault : documentation.broadcastAddress 128 = .error (.outOfBounds 16) := by decide
  have hbroadcast := h.broadcastAddress
  rw [hfault] at hbroadcast
  cases hbroadcast

end IPv6Address

end QWebServer
