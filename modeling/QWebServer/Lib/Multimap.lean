import Mathlib.Data.List.Sort

/-!
# Multimaps

* `Multimap` : the entries of an ordered multimap in iteration order, sorted by their keys;
* `insert` : an entry goes behind those with the same key, `equalRange` : the entries with a key;
* `equalRange_eq_filter`, `equalRange_insert`, `equalRange_foldl` : the entries with a key are those inserted with it,
  in the order of their insertion.
-/

namespace QWebServer.Lib

/-- A multimap: its entries in iteration order. -/
structure Multimap (κ α : Type) [LinearOrder κ] where
  entries : List (κ × α)
  sorted : entries.Pairwise fun a b => a.1 ≤ b.1

namespace Multimap

variable {κ α : Type} [LinearOrder κ]

theorem sorted_nil : ([] : List (κ × α)).Pairwise fun a b => a.1 ≤ b.1 := List.Pairwise.nil

def empty : Multimap κ α := ⟨[], sorted_nil⟩

def isEmpty (m : Multimap κ α) : Bool := m.entries.isEmpty

/-- The entries before the upper bound of a key, and `behind` : those from it on. -/
def upTo (m : Multimap κ α) (k : κ) : List (κ × α) := m.entries.takeWhile fun e => !decide (k < e.1)

def behind (m : Multimap κ α) (k : κ) : List (κ × α) := m.entries.dropWhile fun e => !decide (k < e.1)

theorem upTo_append_behind (m : Multimap κ α) (k : κ) : m.upTo k ++ m.behind k = m.entries :=
  List.takeWhile_append_dropWhile

theorem le_of_mem_upTo {m : Multimap κ α} {k : κ} {e : κ × α} (he : e ∈ m.upTo k) : e.1 ≤ k := by
  have hall := List.all_eq_true.mp List.all_takeWhile e he
  simpa using hall

theorem lt_of_mem_behind {m : Multimap κ α} {k : κ} {e : κ × α} (he : e ∈ m.behind k) : k < e.1 := by
  have hs : (m.behind k).Pairwise fun a b => a.1 ≤ b.1 := m.sorted.sublist (List.dropWhile_sublist _)
  cases hd : m.behind k with
  | nil =>
    rw [hd] at he
    cases he
  | cons a l =>
    rw [hd] at hs he
    have ha : k < a.1 := by
      have hnot := List.head?_dropWhile_not (fun e : κ × α => !decide (k < e.1)) m.entries
      have hdrop : m.entries.dropWhile (fun e => !decide (k < e.1)) = a :: l := hd
      rw [hdrop] at hnot
      simpa using hnot
    rcases List.mem_cons.mp he with rfl | he
    · exact ha
    · exact lt_of_lt_of_le ha (List.rel_of_pairwise_cons hs he)

theorem sorted_insert (m : Multimap κ α) (k : κ) (v : α) :
    (m.upTo k ++ (k, v) :: m.behind k).Pairwise fun a b => a.1 ≤ b.1 := by
  have hs := m.sorted
  rw [← m.upTo_append_behind k, List.pairwise_append] at hs
  obtain ⟨hup, hbehind, -⟩ := hs
  refine List.pairwise_append.mpr ⟨hup, List.pairwise_cons.mpr ⟨fun e he => ?_, hbehind⟩, fun a ha e he => ?_⟩
  · exact le_of_lt (lt_of_mem_behind he)
  · have hle := le_of_mem_upTo ha
    rcases List.mem_cons.mp he with rfl | he
    · exact hle
    · exact le_trans hle (le_of_lt (lt_of_mem_behind he))

/-- Insertion, at the upper bound of the key. -/
def insert (m : Multimap κ α) (k : κ) (v : α) : Multimap κ α :=
  ⟨m.upTo k ++ (k, v) :: m.behind k, m.sorted_insert k v⟩

/-- The values between the lower and the upper bound of a key. -/
def equalRange (m : Multimap κ α) (k : κ) : List α :=
  ((m.entries.dropWhile fun e => decide (e.1 < k)).takeWhile fun e => !decide (k < e.1)).map Prod.snd

theorem dropWhile_of_le {l : List (κ × α)} {k : κ} (h : ∀ e ∈ l, k ≤ e.1) :
    l.dropWhile (fun e => decide (e.1 < k)) = l := by
  cases l with
  | nil => rfl
  | cons a l => exact List.dropWhile_cons_of_neg (by simpa using h a (by simp))

/-- Between the bounds of a key are the entries with the key. -/
theorem equalRange_eq_filter (m : Multimap κ α) (k : κ) :
    m.equalRange k = (m.entries.filter fun e => decide (e.1 = k)).map Prod.snd := by
  obtain ⟨l, hl⟩ := m
  unfold equalRange
  refine congrArg (List.map Prod.snd) ?_
  show (l.dropWhile fun e => decide (e.1 < k)).takeWhile _ = l.filter _
  induction l with
  | nil => rfl
  | cons a l ih =>
    obtain ⟨ha, hl⟩ := List.pairwise_cons.mp hl
    rcases lt_trichotomy a.1 k with hlt | heq | hgt
    · rw [List.dropWhile_cons_of_pos (by simpa using hlt), List.filter_cons_of_neg (by simpa using ne_of_lt hlt)]
      exact ih hl
    · rw [List.dropWhile_cons_of_neg (by simp [heq]), List.takeWhile_cons_of_pos (by simp [heq]),
        List.filter_cons_of_pos (by simpa using heq), ← ih hl, dropWhile_of_le]
      intro e he
      rw [← heq]
      exact ha e he
    · rw [List.dropWhile_cons_of_neg (by simpa using le_of_lt hgt), List.takeWhile_cons_of_neg (by simpa using hgt)]
      symm
      rw [List.filter_eq_nil_iff]
      intro e he
      have hle : a.1 ≤ e.1 := by
        rcases List.mem_cons.mp he with rfl | he
        · exact le_refl _
        · exact ha e he
      simpa using ne_of_gt (lt_of_lt_of_le hgt hle)

theorem equalRange_empty (k : κ) : (empty : Multimap κ α).equalRange k = [] := rfl

/-- **An insertion adds to the range of its key, at the end, and to no other.** -/
theorem equalRange_insert (m : Multimap κ α) (k : κ) (v : α) (j : κ) :
    (m.insert k v).equalRange j = if k = j then m.equalRange j ++ [v] else m.equalRange j := by
  rw [equalRange_eq_filter, equalRange_eq_filter, ← m.upTo_append_behind k]
  show ((m.upTo k ++ (k, v) :: m.behind k).filter _).map _ = _
  rw [List.filter_append, List.filter_append]
  by_cases hj : k = j
  · have hnil : (m.behind k).filter (fun e => decide (e.1 = j)) = [] := by
      rw [List.filter_eq_nil_iff]
      intro e he
      have hlt := lt_of_mem_behind he
      rw [hj] at hlt
      simpa using ne_of_gt hlt
    rw [if_pos hj, List.filter_cons_of_pos (by simpa using hj), hnil, List.append_nil, List.map_append]
    rfl
  · rw [if_neg hj, List.filter_cons_of_neg (by simpa using hj)]

theorem isEmpty_insert (m : Multimap κ α) (k : κ) (v : α) : (m.insert k v).isEmpty = false := by
  show (m.upTo k ++ (k, v) :: m.behind k).isEmpty = false
  simp

/-- The range of a key, after insertions one after the other. -/
theorem equalRange_foldl (l : List (κ × α)) (m : Multimap κ α) (j : κ) :
    (l.foldl (fun m e => m.insert e.1 e.2) m).equalRange j =
      m.equalRange j ++ (l.filter fun e => decide (e.1 = j)).map Prod.snd := by
  induction l generalizing m with
  | nil => exact (List.append_nil _).symm
  | cons e l ih =>
    rw [List.foldl_cons, ih, equalRange_insert]
    by_cases hj : e.1 = j
    · rw [if_pos hj, List.filter_cons_of_pos (by simpa using hj), List.map_cons, List.append_assoc]
      rfl
    · rw [if_neg hj, List.filter_cons_of_neg (by simpa using hj)]

theorem isEmpty_foldl (l : List (κ × α)) (m : Multimap κ α) :
    (l.foldl (fun m e => m.insert e.1 e.2) m).isEmpty = (m.isEmpty && l.isEmpty) := by
  induction l generalizing m with
  | nil => exact (Bool.and_true _).symm
  | cons e l ih =>
    rw [List.foldl_cons, ih, isEmpty_insert, Bool.false_and]
    exact (Bool.and_false _).symm

end Multimap

end QWebServer.Lib
