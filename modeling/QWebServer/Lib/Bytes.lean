import Mathlib

/-!
# Words and their bytes in memory

* `ByteOrder` : the order of the bytes of a word in memory;
* `swapBytes` : the bytes of a word in reverse order, an involution that commutes with the bitwise operations;
* `byteAt`, `ofBytes` : the bytes of a word as memory has them, and the word memory holds (`byteAt_ofBytes`).

Bit `i` of a word is bit `i % 8` of its byte `i / 8`, counted from the least significant one.
-/

namespace QWebServer.Lib

/-- The order of the bytes of a word in memory. -/
inductive ByteOrder
  | little
  | big
  deriving DecidableEq

section
variable {n : ℕ}

/-- The bit that `swapBytes` moves to the position `i` of a word of `n` bits. -/
def swapIndex (n i : ℕ) : ℕ := (n / 8 - 1 - i / 8) * 8 + i % 8

theorem swapIndex_lt {i : ℕ} (hn : n % 8 = 0) (hi : i < n) : swapIndex n i < n := by
  unfold swapIndex
  omega

theorem swapIndex_swapIndex {i : ℕ} (hn : n % 8 = 0) (hi : i < n) : swapIndex n (swapIndex n i) = i := by
  unfold swapIndex
  omega

def swapBytes (v : BitVec n) : BitVec n := BitVec.ofFnLE fun i => v.getLsbD (swapIndex n i)

theorem getLsbD_swapBytes (v : BitVec n) {i : ℕ} (hi : i < n) :
    (swapBytes v).getLsbD i = v.getLsbD (swapIndex n i) := by
  rw [swapBytes, BitVec.getLsbD_ofFnLE, dif_pos hi]

theorem swapBytes_swapBytes (hn : n % 8 = 0) (v : BitVec n) : swapBytes (swapBytes v) = v := by
  apply BitVec.eq_of_getLsbD_eq
  intro i hi
  rw [getLsbD_swapBytes _ hi, getLsbD_swapBytes _ (swapIndex_lt hn hi), swapIndex_swapIndex hn hi]

theorem swapBytes_and (v w : BitVec n) : swapBytes (v &&& w) = swapBytes v &&& swapBytes w := by
  apply BitVec.eq_of_getLsbD_eq
  intro i hi
  simp only [BitVec.getLsbD_and, getLsbD_swapBytes _ hi]

theorem swapBytes_or (v w : BitVec n) : swapBytes (v ||| w) = swapBytes v ||| swapBytes w := by
  apply BitVec.eq_of_getLsbD_eq
  intro i hi
  simp only [BitVec.getLsbD_or, getLsbD_swapBytes _ hi]

theorem swapBytes_not (hn : n % 8 = 0) (v : BitVec n) : swapBytes (~~~v) = ~~~swapBytes v := by
  apply BitVec.eq_of_getLsbD_eq
  intro i hi
  simp only [BitVec.getLsbD_not, getLsbD_swapBytes _ hi, hi, swapIndex_lt hn hi, decide_true]

/-! ## Memory -/

/-- The position among the bytes of a word, the least significant one first, of its byte `k` in memory. -/
def ByteOrder.place (o : ByteOrder) (n k : ℕ) : ℕ :=
  match o with
  | .little => k
  | .big => n / 8 - 1 - k

theorem ByteOrder.place_lt (o : ByteOrder) {k : ℕ} (hk : k < n / 8) : o.place n k < n / 8 := by
  cases o with
  | little => exact hk
  | big =>
    show n / 8 - 1 - k < n / 8
    omega

theorem ByteOrder.place_place (o : ByteOrder) {k : ℕ} (hk : k < n / 8) : o.place n (o.place n k) = k := by
  cases o with
  | little => rfl
  | big =>
    show n / 8 - 1 - (n / 8 - 1 - k) = k
    omega

/-- The byte `k` of a word in memory. -/
def byteAt (o : ByteOrder) (v : BitVec n) (k : ℕ) : BitVec 8 := v.extractLsb' (8 * o.place n k) 8

/-- The word of `n` bits whose bytes in memory are `b`. -/
def ofBytes (o : ByteOrder) (n : ℕ) (b : ℕ → BitVec 8) : BitVec n :=
  BitVec.ofFnLE fun i => (b (o.place n (i / 8))).getLsbD (i % 8)

theorem getLsbD_ofBytes (o : ByteOrder) (b : ℕ → BitVec 8) {i : ℕ} (hi : i < n) :
    (ofBytes o n b).getLsbD i = (b (o.place n (i / 8))).getLsbD (i % 8) := by
  rw [ofBytes, BitVec.getLsbD_ofFnLE, dif_pos hi]

theorem extractLsb'_ofBytes (o : ByteOrder) (b : ℕ → BitVec 8) {j : ℕ} (hj : j < n / 8) :
    (ofBytes o n b).extractLsb' (8 * j) 8 = b (o.place n j) := by
  apply BitVec.eq_of_getLsbD_eq
  intro i hi
  rw [BitVec.getLsbD_extractLsb', getLsbD_ofBytes o b (by omega)]
  have hdiv : (8 * j + i) / 8 = j := by omega
  have hmod : (8 * j + i) % 8 = i := by omega
  simp [hi, hdiv, hmod]

theorem byteAt_ofBytes (o : ByteOrder) (b : ℕ → BitVec 8) {k : ℕ} (hk : k < n / 8) :
    byteAt o (ofBytes o n b) k = b k := by
  rw [byteAt, extractLsb'_ofBytes o b (o.place_lt hk), o.place_place hk]

theorem swapBytes_ofBytes (hn : n % 8 = 0) (b : ℕ → BitVec 8) :
    swapBytes (ofBytes .little n b) = ofBytes .big n b := by
  apply BitVec.eq_of_getLsbD_eq
  intro i hi
  rw [getLsbD_swapBytes _ hi, getLsbD_ofBytes _ b (swapIndex_lt hn hi), getLsbD_ofBytes _ b hi]
  have hdiv : swapIndex n i / 8 = n / 8 - 1 - i / 8 := by
    unfold swapIndex
    omega
  have hmod : swapIndex n i % 8 = i % 8 := by
    unfold swapIndex
    omega
  rw [hdiv, hmod]
  rfl

end

end QWebServer.Lib
