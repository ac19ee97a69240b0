import QWebServer.Address.Model

/-!
# The comparison of addresses

* `view` : the bytes an address is compared by;
* `lt_iff` : `operator<` is the lexicographic order of these bytes, and so a strict total order;
* `eq_iff` : `operator==` holds of addresses of one length whose bytes differ, as it takes the result of `memcmp` for a
  truth value;
* `Lawful` : the laws of the three operators, `lawful_never` : no addresses meet them.
-/

namespace QWebServer.Address

/-- The bytes at `getAddr()`, as many as `getAddrLen()` says. -/
def view (a : Address) : List Nat := (List.range a.getAddrLen.toNat).map fun i => (a.getAddr i).toNat

theorem length_view (a : Address) : a.view.length = a.getAddrLen.toNat := by simp [view]

theorem getElem_view (a : Address) {i : Nat} (hi : i < a.view.length) : a.view[i] = (a.getAddr i).toNat := by
  simp [view]

/-! ## `memcmp` -/

theorem memcmp_eq_zero {a b : Nat → BitVec 8} {n : Nat} : memcmp a b n = 0 ↔ ∀ i < n, a i = b i := by
  unfold memcmp
  cases h : (List.range n).find? fun i => a i != b i with
  | none =>
    rw [List.find?_range_eq_none] at h
    simpa using h
  | some i =>
    obtain ⟨hne, hi, -⟩ := List.find?_range_eq_some.mp h
    rw [List.mem_range] at hi
    have hne' : (a i).toNat ≠ (b i).toNat := by
      rw [← BitVec.toNat_ne]
      simpa using hne
    constructor
    · intro hzero
      dsimp only at hzero
      omega
    · intro hall
      exact absurd (congrArg BitVec.toNat (hall i hi)) hne'

theorem memcmp_neg {a b : Nat → BitVec 8} {n : Nat} :
    memcmp a b n < 0 ↔ ∃ i < n, (∀ j < i, a j = b j) ∧ (a i).toNat < (b i).toNat := by
  unfold memcmp
  cases h : (List.range n).find? fun i => a i != b i with
  | none =>
    rw [List.find?_range_eq_none] at h
    constructor
    · intro hneg
      exact absurd hneg (Int.lt_irrefl 0)
    · rintro ⟨i, hi, -, hlt⟩
      have heq : a i = b i := by simpa using h i hi
      rw [heq] at hlt
      exact absurd hlt (Nat.lt_irrefl _)
  | some i =>
    obtain ⟨hne, hi, hbefore⟩ := List.find?_range_eq_some.mp h
    rw [List.mem_range] at hi
    dsimp only
    constructor
    · intro hneg
      exact ⟨i, hi, fun j hj => by simpa using hbefore j hj, by omega⟩
    · rintro ⟨k, hk, heq, hlt⟩
      -- the first two bytes that differ are at `i`, so `k` is not before it, and it is not behind it
      obtain rfl : k = i := by
        rcases Nat.lt_trichotomy k i with hki | hki | hki
        · have hsame : a k = b k := by simpa using hbefore k hki
          rw [hsame] at hlt
          exact absurd hlt (Nat.lt_irrefl _)
        · exact hki
        · exact absurd (heq i hki) (by simpa using hne)
      omega

/-! ## `operator<` -/

theorem lt_eq_true (a b : Address) : a.lt b = true ↔
    memcmp a.getAddr b.getAddr (min a.getAddrLen.toNat b.getAddrLen.toNat) < 0 ∨
      memcmp a.getAddr b.getAddr (min a.getAddrLen.toNat b.getAddrLen.toNat) = 0 ∧
        a.getAddrLen.toNat < b.getAddrLen.toNat := by
  unfold lt
  dsimp only
  split_ifs with hneg hpos hlen
  · simp [hneg]
  · simp only [false_iff]
    omega
  · rw [BitVec.lt_def] at hlen
    simp only [true_iff]
    omega
  · rw [BitVec.lt_def] at hlen
    simp only [false_iff]
    omega

/-- The bytes of the shorter address are the first ones of the other. -/
theorem view_eq_take {a b : Address} (h : a.getAddrLen.toNat < b.getAddrLen.toNat) :
    a.view = b.view.take a.view.length ↔ ∀ i < a.getAddrLen.toNat, a.getAddr i = b.getAddr i := by
  rw [length_view, view, view, ← List.map_take, List.take_range, Nat.min_eq_left h.le, List.map_inj_left]
  simp only [List.mem_range, BitVec.toNat_inj]

/-- **`operator<` is the lexicographic order of the bytes.** -/
theorem lt_iff (a b : Address) : a.lt b = true ↔ a.view < b.view := by
  rw [lt_eq_true, List.lt_iff_exists, or_comm]
  refine or_congr ?_ ?_
  · rw [length_view b, memcmp_eq_zero, length_view a]
    refine and_congr_left fun hlt => ?_
    rw [Nat.min_eq_left hlt.le, ← length_view a, view_eq_take hlt, length_view]
  · rw [memcmp_neg]
    constructor
    · rintro ⟨i, hi, heq, hlt⟩
      rw [Nat.lt_min] at hi
      refine ⟨i, by rw [length_view]; exact hi.1, by rw [length_view]; exact hi.2, fun j hj => ?_, ?_⟩
      · rw [getElem_view, getElem_view, heq j hj]
      · rw [getElem_view, getElem_view]
        exact hlt
    · rintro ⟨i, h₁, h₂, heq, hlt⟩
      rw [getElem_view, getElem_view] at hlt
      refine ⟨i, ?_, fun j hj => ?_, hlt⟩
      · rw [length_view] at h₁ h₂
        exact Nat.lt_min.mpr ⟨h₁, h₂⟩
      · have hj' := heq j hj
        rw [getElem_view, getElem_view] at hj'
        exact BitVec.eq_of_toNat_eq hj'

theorem lt_transitive {a b d : Address} (hab : a.lt b = true) (hbd : b.lt d = true) : a.lt d = true := by
  rw [lt_iff] at *
  exact hab.trans hbd

theorem lt_eq_false (a b : Address) : a.lt b = false ↔ b.view ≤ a.view := by
  rw [← not_lt, ← lt_iff, Bool.not_eq_true]

/-! ## `operator==` -/

theorem view_inj {a b : Address} : a.view = b.view ↔
    a.getAddrLen = b.getAddrLen ∧ ∀ i < a.getAddrLen.toNat, a.getAddr i = b.getAddr i := by
  constructor
  · intro h
    have hlen : a.getAddrLen = b.getAddrLen := by
      apply BitVec.eq_of_toNat_eq
      rw [← length_view, h, length_view]
    rw [view, view, hlen, List.map_inj_left] at h
    refine ⟨hlen, fun i hi => BitVec.eq_of_toNat_eq (h i ?_)⟩
    rw [List.mem_range, ← hlen]
    exact hi
  · rintro ⟨hlen, hall⟩
    rw [view, view, ← hlen, List.map_inj_left]
    intro i hi
    rw [hall i (List.mem_range.mp hi)]

/-- **`operator==` holds of addresses of one length that differ.** -/
theorem eq_iff (a b : Address) : a.eq b = true ↔ a.getAddrLen = b.getAddrLen ∧ a.view ≠ b.view := by
  unfold eq
  rw [Bool.and_eq_true, beq_iff_eq, bne_iff_ne]
  refine and_congr_right fun hlen => ?_
  rw [Ne, memcmp_eq_zero, Ne, view_inj]
  simp [hlen]

/-- Exactly one of `a < b`, `b < a` and `a == b` holds. -/
def OneOf (a b : Address) : Prop :=
  a.lt b = true ∧ b.lt a = false ∧ a.eq b = false ∨ a.lt b = false ∧ b.lt a = true ∧ a.eq b = false ∨
    a.lt b = false ∧ b.lt a = false ∧ a.eq b = true

/-- The laws of the operators for three addresses. -/
structure Lawful (a b d : Address) : Prop where
  trichotomy : OneOf a b
  trans : a.lt b = true → b.lt d = true → a.lt d = true
  refl : a.eq a = true
  symm : a.eq b = true → b.eq a = true
  eqTrans : a.eq b = true → b.eq d = true → a.eq d = true
  agree : a.eq b = true ↔ a.getAddrLen = b.getAddrLen ∧ ∀ i < a.getAddrLen.toNat, a.getAddr i = b.getAddr i
  ne : a.ne b = true ↔ ¬ a.eq b = true

/-- Among addresses of different lengths exactly one of the three holds, among those of one length never. -/
theorem oneOf_iff (a b : Address) : OneOf a b ↔ a.getAddrLen ≠ b.getAddrLen := by
  constructor
  · intro h hlen
    by_cases hv : a.view = b.view
    · have hnab : ¬ a.lt b = true := by rw [lt_iff, hv]; exact lt_irrefl _
      have hnba : ¬ b.lt a = true := by rw [lt_iff, hv]; exact lt_irrefl _
      have hneq : ¬ a.eq b = true := fun he => ((eq_iff a b).mp he).2 hv
      rcases h with ⟨h, -⟩ | ⟨-, h, -⟩ | ⟨-, -, h⟩
      · exact hnab h
      · exact hnba h
      · exact hneq h
    · have heq : a.eq b = true := (eq_iff a b).mpr ⟨hlen, hv⟩
      rcases h with ⟨-, -, h⟩ | ⟨-, -, h⟩ | ⟨hab, hba, -⟩
      · rw [heq] at h
        cases h
      · rw [heq] at h
        cases h
      · rw [lt_eq_false] at hab hba
        exact hv (le_antisymm hba hab)
  · intro hlen
    have hneq : a.eq b = false := by
      rw [← Bool.not_eq_true, eq_iff]
      exact fun h => hlen h.1
    have hv : a.view ≠ b.view := fun h => hlen (view_inj.mp h).1
    rcases lt_or_gt_of_ne hv with hlt | hlt
    · exact Or.inl ⟨(lt_iff a b).mpr hlt, (lt_eq_false b a).mpr hlt.le, hneq⟩
    · exact Or.inr (Or.inl ⟨(lt_eq_false a b).mpr hlt.le, (lt_iff b a).mpr hlt, hneq⟩)

/-- **The operators never obey their laws**: no address is equal to itself, and exactly one of `a < b`, `b < a` and
`a == b` holds only of addresses of different lengths. The order itself is transitive. -/
theorem lawful_never (a b d : Address) :
    ¬ Lawful a b d ∧ (OneOf a b ↔ a.getAddrLen ≠ b.getAddrLen) ∧
      (a.lt b = true → b.lt d = true → a.lt d = true) :=
  ⟨fun h => ((eq_iff a a).mp h.refl).2 rfl, oneOf_iff a b, lt_transitive⟩

/-- The address 0.0.0.0:0 is not equal to itself. -/
theorem not_lawful_any : ¬ ∀ a b d : Address, Lawful a b d := by
  intro hall
  have hrefl := (hall ((IPv4Address.new .little).toAddress .little fun _ => 0)
    ((IPv4Address.new .little).toAddress .little fun _ => 0)
    ((IPv4Address.new .little).toAddress .little fun _ => 0)).refl
  have hne : ((IPv4Address.new .little).toAddress .little fun _ => 0).eq
      ((IPv4Address.new .little).toAddress .little fun _ => 0) = false := by decide +kernel
  rw [hne] at hrefl
  cases hrefl

end QWebServer.Address
