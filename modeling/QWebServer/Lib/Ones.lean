import QWebServer.Lib.Bytes

/-!
# The set bits of a word

* `bits`, `ones` : the places of the set bits of a word, and how many there are;
* `bits_and_sub_one` : `v &&& (v - 1)` clears the lowest set bit, `ones_and_sub_one` : so it has one set bit less;
* `ones_ofBytes` : the set bits of a word in memory are those of its bytes, in either order;
* `Leading b m n` : the first `n` bits of the `m` bytes `b` are set and the others are not, the bits of a byte from the
  most significant one, `Leading.sum_ones` : then there are `n` set bits.
-/

namespace QWebServer.Lib

section
variable {w : ℕ}

/-- The places of the set bits, counted from the least significant one. -/
def bits (v : BitVec w) : Finset ℕ := (Finset.range w).filter fun i => v.getLsbD i = true

def ones (v : BitVec w) : ℕ := (bits v).card

theorem mem_bits {v : BitVec w} {i : ℕ} : i ∈ bits v ↔ v.getLsbD i = true := by
  rw [bits, Finset.mem_filter, Finset.mem_range]
  exact and_iff_right_of_imp BitVec.lt_of_getLsbD

theorem ones_le (v : BitVec w) : ones v ≤ w := by
  have hle := Finset.card_filter_le (Finset.range w) fun i => v.getLsbD i = true
  rwa [Finset.card_range] at hle

theorem ones_zero : ones (0 : BitVec w) = 0 := by
  rw [ones, Finset.card_eq_zero, Finset.eq_empty_iff_forall_notMem]
  intro i hi
  rw [mem_bits, BitVec.ofNat_eq_ofNat, BitVec.getLsbD_zero] at hi
  cases hi

theorem toNat_sub_one {v : BitVec w} (hv : v ≠ 0) : (v - 1).toNat = v.toNat - 1 := by
  have hne : v.toNat ≠ 0 := fun h => hv (BitVec.eq_of_toNat_eq h)
  have hlt := v.isLt
  have hw : 1 < 2 ^ w := by omega
  have hone : (1 : BitVec w).toNat = 1 := Nat.mod_eq_of_lt hw
  rw [BitVec.toNat_sub, hone, show 2 ^ w - 1 + v.toNat = v.toNat - 1 + 2 ^ w by omega, Nat.add_mod_right]
  exact Nat.mod_eq_of_lt (by omega)

/-- **`v &&& (v - 1)` clears the lowest set bit.** -/
theorem bits_and_sub_one {v : BitVec w} (hv : v ≠ 0) : ∃ t ∈ bits v, bits (v &&& (v - 1)) = (bits v).erase t := by
  have hne : v.toNat ≠ 0 := fun h => hv (BitVec.eq_of_toNat_eq h)
  obtain ⟨t, u, ⟨k, rfl⟩, hu⟩ := Nat.exists_eq_two_pow_mul_odd hne
  have hpos := Nat.two_pow_pos t
  have hval : v.toNat = 2 ^ (t + 1) * k + 2 ^ t := by rw [hu, pow_succ]; ring
  have hsub : (v - 1).toNat = 2 ^ (t + 1) * k + (2 ^ t - 1) := by rw [toNat_sub_one hv, hval]; omega
  have hlow : 2 ^ t < 2 ^ (t + 1) := Nat.pow_lt_pow_right (by decide) (by omega)
  have hbit : ∀ i, v.getLsbD i = if i < t + 1 then decide (t = i) else k.testBit (i - (t + 1)) := by
    intro i
    rw [BitVec.getLsbD, hval, Nat.testBit_two_pow_mul_add _ hlow, Nat.testBit_two_pow]
  have hbit' : ∀ i, (v - 1).getLsbD i = if i < t + 1 then decide (i < t) else k.testBit (i - (t + 1)) := by
    intro i
    rw [BitVec.getLsbD, hsub, Nat.testBit_two_pow_mul_add _ (by omega), Nat.testBit_two_pow_sub_one]
  refine ⟨t, ?_, ?_⟩
  · rw [mem_bits, hbit, if_pos (by omega)]
    exact decide_eq_true rfl
  · ext i
    rw [Finset.mem_erase, mem_bits, mem_bits, BitVec.getLsbD_and, hbit, hbit']
    by_cases hi : i < t + 1
    · rw [if_pos hi, if_pos hi]
      simp only [Bool.and_eq_true, decide_eq_true_eq]
      omega
    · rw [if_neg hi, if_neg hi, Bool.and_self]
      exact ⟨fun h => ⟨by omega, h⟩, fun h => h.2⟩

theorem ones_and_sub_one {v : BitVec w} (hv : v ≠ 0) : ones (v &&& (v - 1)) + 1 = ones v := by
  obtain ⟨t, ht, heq⟩ := bits_and_sub_one hv
  rw [ones, heq]
  exact Finset.card_erase_add_one ht

end

/-! ## The bytes of a word -/

section
variable {m : ℕ} (b : ℕ → BitVec 8)

/-- The set bits of a word whose byte `k`, counted from the least significant one, is `c k`. -/
theorem ones_eq_sum {c : ℕ → BitVec 8} {v : BitVec (8 * m)}
    (hv : ∀ i < 8 * m, v.getLsbD i = (c (i / 8)).getLsbD (i % 8)) : ones v = ∑ k ∈ Finset.range m, ones (c k) := by
  have hmaps : ∀ i ∈ bits v, i / 8 ∈ Finset.range m := by
    intro i hi
    have hlt := BitVec.lt_of_getLsbD (mem_bits.mp hi)
    rw [Finset.mem_range]
    omega
  rw [ones, Finset.card_eq_sum_card_fiberwise hmaps]
  refine Finset.sum_congr rfl fun k hk => ?_
  have hk : k < m := Finset.mem_range.mp hk
  refine Finset.card_nbij' (fun i => i % 8) (fun j => 8 * k + j) ?_ ?_ ?_ ?_
  · intro i hi
    obtain ⟨hi, hdiv⟩ := Finset.mem_filter.mp hi
    have hset := mem_bits.mp hi
    rw [hv i (BitVec.lt_of_getLsbD hset), hdiv] at hset
    exact mem_bits.mpr hset
  · intro j hj
    have hset := mem_bits.mp hj
    have hlt := BitVec.lt_of_getLsbD hset
    have hdiv : (8 * k + j) / 8 = k := by omega
    have hmod : (8 * k + j) % 8 = j := by omega
    refine Finset.mem_filter.mpr ⟨mem_bits.mpr ?_, hdiv⟩
    show v.getLsbD (8 * k + j) = true
    rw [hv _ (by omega), hdiv, hmod]
    exact hset
  · intro i hi
    obtain ⟨-, hdiv⟩ := Finset.mem_filter.mp hi
    show 8 * k + i % 8 = i
    omega
  · intro j hj
    have hlt := BitVec.lt_of_getLsbD (mem_bits.mp hj)
    show (8 * k + j) % 8 = j
    omega

/-- **The set bits of a word in memory** are those of its bytes. -/
theorem ones_ofBytes (o : ByteOrder) : ones (ofBytes o (8 * m) b) = ∑ k ∈ Finset.range m, ones (b k) := by
  have hm : 8 * m / 8 = m := by omega
  rw [ones_eq_sum (c := fun k => b (o.place (8 * m) k)) fun i hi => getLsbD_ofBytes o b hi]
  have hplace : ∀ k ∈ Finset.range m, o.place (8 * m) k ∈ Finset.range m := by
    intro k hk
    have hlt := o.place_lt (n := 8 * m) (k := k) (by rw [hm]; exact Finset.mem_range.mp hk)
    rw [hm] at hlt
    exact Finset.mem_range.mpr hlt
  have hinv : ∀ k ∈ Finset.range m, o.place (8 * m) (o.place (8 * m) k) = k := by
    intro k hk
    exact o.place_place (by rw [hm]; exact Finset.mem_range.mp hk)
  exact Finset.sum_nbij' (o.place (8 * m)) (o.place (8 * m)) hplace hplace hinv hinv fun _ _ => rfl

/-! ## Leading ones -/

/-- The first `n` bits of the `m` bytes are set, and the others are not. -/
def Leading (m n : ℕ) : Prop := ∀ k < 8 * m, (b (k / 8)).getMsbD (k % 8) = decide (k < n)

/-- The bits of memory, from the first byte on, are those of the word from the most significant one on. -/
theorem getMsbD_ofBytes_big {k : ℕ} (hk : k < 8 * m) :
    (ofBytes .big (8 * m) b).getMsbD k = (b (k / 8)).getMsbD (k % 8) := by
  have hplace : ByteOrder.place .big (8 * m) ((8 * m - 1 - k) / 8) = k / 8 := by
    show 8 * m / 8 - 1 - (8 * m - 1 - k) / 8 = k / 8
    omega
  have hmod : (8 * m - 1 - k) % 8 = 8 - 1 - k % 8 := by omega
  have hlt : k % 8 < 8 := Nat.mod_lt _ (by decide)
  rw [BitVec.getMsbD_eq_getLsbD, BitVec.getMsbD_eq_getLsbD, getLsbD_ofBytes _ b (by omega), hplace, hmod,
    decide_eq_true hk, decide_eq_true hlt]

theorem Leading.sum_ones {b : ℕ → BitVec 8} {n : ℕ} (h : Leading b m n) (hn : n ≤ 8 * m) :
    ∑ k ∈ Finset.range m, ones (b k) = n := by
  rw [← ones_ofBytes b .big]
  have hbits : bits (ofBytes .big (8 * m) b) = Finset.Ico (8 * m - n) (8 * m) := by
    ext i
    rw [mem_bits, Finset.mem_Ico]
    constructor
    · intro hset
      have hlt := BitVec.lt_of_getLsbD hset
      have hmsb := getMsbD_ofBytes_big b (m := m) (k := 8 * m - 1 - i) (by omega)
      rw [h _ (by omega), BitVec.getMsbD_eq_getLsbD, show 8 * m - 1 - (8 * m - 1 - i) = i by omega, hset] at hmsb
      simp only [Bool.and_true, decide_eq_decide] at hmsb
      omega
    · rintro ⟨hlo, hhi⟩
      have hmsb := getMsbD_ofBytes_big b (m := m) (k := 8 * m - 1 - i) (by omega)
      rw [h _ (by omega), BitVec.getMsbD_eq_getLsbD, show 8 * m - 1 - (8 * m - 1 - i) = i by omega,
        decide_eq_true (by omega), decide_eq_true (by omega), Bool.true_and] at hmsb
      exact hmsb
  rw [ones, hbits, Nat.card_Ico]
  omega

end

end QWebServer.Lib
