import Mathlib.Data.List.Sort

/-!
# Ordered sets as sequences

A set kept in the order of a strict total order `lt` on the keys of its elements is the list of its elements in
iteration order, and an iterator is a position.

* `lowerBound` : the first position whose element is not before the key;
* `find`, `insert` : the search and the insertion that go through it (an insertion of an equivalent element changes
  nothing);
* `Sorted` : strictly increasing keys. On a sorted sequence `find` meets every member (`find_mem`), `insert` keeps the
  order and adds one element (`sorted_insert`, `perm_insert`), it lands at the front exactly when the new key is
  before all others (`insert_front`), and `lowerBound` cuts the sequence in two (`take_lowerBound`, `drop_lowerBound`).
-/

namespace QWebServer.Lib.OrderedSet

section Order
variable {α β : Type} (lt : β → β → Prop) (key : α → β)

/-- Strictly increasing keys. -/
def Sorted (l : List α) : Prop := l.Pairwise fun a b => lt (key a) (key b)

variable {lt key}

theorem Sorted.congr {key' : α → β} {l : List α} (h : Sorted lt key l) (hk : ∀ a ∈ l, key' a = key a) :
    Sorted lt key' l := by
  refine List.Pairwise.imp_of_mem (fun {a b} ha hb hab => ?_) h
  rw [hk a ha, hk b hb]
  exact hab

theorem Sorted.erase [DecidableEq α] {l : List α} (h : Sorted lt key l) (a : α) : Sorted lt key (l.erase a) :=
  h.sublist List.erase_sublist

variable [IsStrictTotalOrder β lt]

theorem Sorted.nodup {l : List α} (h : Sorted lt key l) : l.Nodup := by
  refine List.Pairwise.imp (fun {a b} hab he => ?_) h
  rw [he] at hab
  exact irrefl_of lt _ hab

/-- The head of a sorted sequence has the least key. -/
theorem Sorted.head_le {a : α} {l : List α} (h : Sorted lt key (a :: l)) : ∀ x ∈ a :: l, ¬ lt (key x) (key a) := by
  intro x hx hlt
  rcases List.mem_cons.mp hx with rfl | hx
  · exact irrefl_of lt _ hlt
  · exact irrefl_of lt _ (trans_of lt hlt (List.rel_of_pairwise_cons h hx))

/-- In a sequence with nondecreasing values that are at least `n`, what follows the run of values `n` is above it. -/
theorem lt_of_mem_drop_takeWhile (f : α → Nat) {n : Nat} : ∀ {l : List α}, l.Pairwise (fun a b => f a ≤ f b) →
    (∀ a ∈ l, n ≤ f a) → ∀ a ∈ l.drop (l.takeWhile fun a => f a == n).length, n < f a
  | [], _, _ => by simp
  | b :: l, hs, hn => by
    intro a ha
    obtain ⟨hb, hs⟩ := List.pairwise_cons.mp hs
    by_cases he : f b = n
    · rw [List.takeWhile_cons_of_pos (by simpa using he)] at ha
      exact lt_of_mem_drop_takeWhile f hs (fun a ha => hn a (by simp [ha])) a ha
    · rw [List.takeWhile_cons_of_neg (by simpa using he)] at ha
      have hlt : n < f b := lt_of_le_of_ne (hn b (by simp)) (Ne.symm he)
      rcases List.mem_cons.mp ha with rfl | ha
      · exact hlt
      · exact lt_of_lt_of_le hlt (hb a ha)

end Order

section Search
variable {α β : Type} (lt : β → β → Prop) [DecidableRel lt] (key : α → β)

/-- The position of the first element whose key is not before `b`. -/
def lowerBound (b : β) (l : List α) : Nat := l.findIdx fun a => !decide (lt (key a) b)

/-- The position of the element equivalent to the key `b`. -/
def find (b : β) (l : List α) : Option Nat :=
  match l[lowerBound lt key b l]? with
  | some a => if lt b (key a) then none else some (lowerBound lt key b l)
  | none => none

/-- Insertion: the new sequence and the position of the element. -/
def insert (a : α) (l : List α) : List α × Nat :=
  match find lt key (key a) l with
  | some i => (l, i)
  | none => (l.insertIdx (lowerBound lt key (key a) l) a, lowerBound lt key (key a) l)

variable {lt key}

theorem lowerBound_le (b : β) (l : List α) : lowerBound lt key b l ≤ l.length := List.findIdx_le_length

theorem take_lowerBound {b : β} {l : List α} : ∀ a ∈ l.take (lowerBound lt key b l), lt (key a) b := by
  intro a ha
  obtain ⟨i, hi, rfl⟩ := List.mem_take_iff_getElem.mp ha
  unfold lowerBound at hi
  have := List.not_of_lt_findIdx (lt_of_lt_of_le hi (min_le_left _ _))
  simpa using this

theorem not_lt_lowerBound {b : β} {l : List α} {x : α} (h : l[lowerBound lt key b l]? = some x) : ¬ lt (key x) b := by
  obtain ⟨hb, hx⟩ := List.getElem?_eq_some_iff.mp h
  unfold lowerBound at hb hx
  have := List.findIdx_getElem (w := hb)
  rw [hx] at this
  simpa using this

/-- An element behind all others is inserted at the end. -/
theorem insert_last {l : List α} {a : α} (h : ∀ x ∈ l, lt (key x) (key a)) : (insert lt key a l).1 = l ++ [a] := by
  have hlb : lowerBound lt key (key a) l = l.length := List.findIdx_eq_length.mpr fun x hx => by simpa using h x hx
  have hfind : find lt key (key a) l = none := by simp [find, hlb]
  rw [insert, hfind, hlb]
  exact List.insertIdx_length_self

variable [IsStrictTotalOrder β lt]

theorem drop_lowerBound {b : β} {l : List α} (h : Sorted lt key l) :
    ∀ a ∈ l.drop (lowerBound lt key b l), ¬ lt (key a) b := by
  intro a ha hlt
  obtain ⟨i, hi, rfl⟩ := List.mem_drop_iff_getElem.mp ha
  have hb : lowerBound lt key b l < l.length := by omega
  have h0 := not_lt_lowerBound (List.getElem?_eq_getElem hb)
  rcases Nat.eq_zero_or_pos i with rfl | hpos
  · exact h0 hlt
  · exact h0 (trans_of lt (List.pairwise_iff_getElem.mp h _ _ hb (by omega) (by omega)) hlt)

theorem lowerBound_split {l₁ l₂ : List α} {a : α} (h : Sorted lt key (l₁ ++ a :: l₂)) :
    lowerBound lt key (key a) (l₁ ++ a :: l₂) = l₁.length := by
  have h1 : ∀ x ∈ l₁, lt (key x) (key a) := fun x hx => (List.pairwise_append.mp h).2.2 x hx a (by simp)
  have hlen : l₁.findIdx (fun x => !decide (lt (key x) (key a))) = l₁.length :=
    List.findIdx_eq_length.mpr fun x hx => by simpa using h1 x hx
  rw [lowerBound, List.findIdx_append, hlen, if_neg (lt_irrefl _)]
  simp [List.findIdx_cons, irrefl_of lt]

/-- **`find` meets every member**, and erasing what it met erases the member. -/
theorem find_mem [DecidableEq α] {l : List α} (h : Sorted lt key l) {a : α} (ha : a ∈ l) :
    ∃ i, find lt key (key a) l = some i ∧ l[i]? = some a ∧ l.eraseIdx i = l.erase a := by
  obtain ⟨l₁, l₂, rfl⟩ := List.append_of_mem ha
  have hn : a ∉ l₁ := by
    have := List.nodup_append.mp h.nodup
    exact fun hx => this.2.2 a hx a (by simp) rfl
  refine ⟨l₁.length, ?_, by simp, ?_⟩
  · simp [find, lowerBound_split h, irrefl_of lt]
  · rw [List.eraseIdx_append_of_length_le (le_refl _), List.erase_append_right _ hn]
    simp

theorem find_none {l : List α} {b : β} (h : ∀ a ∈ l, key a ≠ b) : find lt key b l = none := by
  unfold find
  cases hx : l[lowerBound lt key b l]? with
  | none => rfl
  | some x =>
    rcases trichotomous_of lt (key x) b with h' | h' | h'
    · exact absurd h' (not_lt_lowerBound hx)
    · exact absurd h' (h x (List.mem_of_getElem? hx))
    · simp [h']

theorem insert_new {l : List α} {a : α} (ha : ∀ x ∈ l, key x ≠ key a) :
    insert lt key a l = (l.insertIdx (lowerBound lt key (key a) l) a, lowerBound lt key (key a) l) := by
  rw [insert, find_none ha]

theorem perm_insert {l : List α} {a : α} (ha : ∀ x ∈ l, key x ≠ key a) : (insert lt key a l).1.Perm (a :: l) := by
  rw [insert_new ha]
  exact List.perm_insertIdx a l (lowerBound_le _ _)

theorem mem_insert {l : List α} {a : α} (ha : ∀ x ∈ l, key x ≠ key a) {x : α} :
    x ∈ (insert lt key a l).1 ↔ x = a ∨ x ∈ l := by
  rw [(perm_insert ha).mem_iff, List.mem_cons]

theorem insertIdx_eq_append {l : List α} {a : α} {i : Nat} (hi : i ≤ l.length) :
    l.insertIdx i a = l.take i ++ a :: l.drop i := by
  induction l generalizing i with
  | nil =>
    obtain rfl : i = 0 := by simpa using hi
    rfl
  | cons b l ih =>
    cases i with
    | zero => rfl
    | succ i => simp [List.insertIdx_succ_cons, ih (by simpa using hi)]

theorem sorted_insert {l : List α} (h : Sorted lt key l) {a : α} (ha : ∀ x ∈ l, key x ≠ key a) :
    Sorted lt key (insert lt key a l).1 := by
  have hafter : ∀ x ∈ l.drop (lowerBound lt key (key a) l), lt (key a) (key x) := fun x hx => by
    rcases trichotomous_of lt (key x) (key a) with h' | h' | h'
    · exact absurd h' (drop_lowerBound h x hx)
    · exact absurd h' (ha x (List.mem_of_mem_drop hx))
    · exact h'
  have hsplit : Sorted lt key (l.take (lowerBound lt key (key a) l) ++ l.drop (lowerBound lt key (key a) l)) := by
    rw [List.take_append_drop]
    exact h
  obtain ⟨h1, h2, h3⟩ := List.pairwise_append.mp hsplit
  rw [insert_new ha]
  dsimp only
  rw [insertIdx_eq_append (lowerBound_le _ _)]
  refine List.pairwise_append.mpr ⟨h1, List.pairwise_cons.mpr ⟨hafter, h2⟩, fun x hx y hy => ?_⟩
  rcases List.mem_cons.mp hy with rfl | hy
  · exact take_lowerBound x hx
  · exact h3 x hx y hy

/-- An insertion keeps the order, also where there is an equivalent element. -/
theorem Sorted.insert {l : List α} (h : Sorted lt key l) (a : α) : Sorted lt key (insert lt key a l).1 := by
  classical
  by_cases ha : ∃ x ∈ l, key x = key a
  · obtain ⟨x, hx, hk⟩ := ha
    obtain ⟨i, hi, -, -⟩ := find_mem h hx
    rw [hk] at hi
    rw [OrderedSet.insert, hi]
    exact h
  · exact sorted_insert h fun x hx hk => ha ⟨x, hx, hk⟩

/-- The insertion lands at the front exactly when the new key is before all others. -/
theorem insert_front {l : List α} (h : Sorted lt key l) {a : α} (ha : ∀ x ∈ l, key x ≠ key a) :
    (insert lt key a l).2 = 0 ↔ ∀ x ∈ l, lt (key a) (key x) := by
  rw [insert_new ha]
  dsimp only
  constructor
  · intro h0 x hx
    rcases trichotomous_of lt (key x) (key a) with h' | h' | h'
    · exact absurd h' (drop_lowerBound h x (by rw [h0]; simpa using hx))
    · exact absurd h' (ha x hx)
    · exact h'
  · intro hall
    by_contra hne
    have hlen : lowerBound lt key (key a) l ≤ l.length := lowerBound_le _ _
    have hm : l[0] ∈ l.take (lowerBound lt key (key a) l) :=
      List.mem_take_iff_getElem.mpr ⟨0, by omega, rfl⟩
    exact irrefl_of lt _ (trans_of lt (take_lowerBound _ hm) (hall _ (List.getElem_mem (by omega))))

end Search

end QWebServer.Lib.OrderedSet
