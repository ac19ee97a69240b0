import Mathlib.Data.List.TakeWhile

/-!
# Texts behind pointers

* `cstr` : what a function reads at a pointer to a text, up to the first NUL;
* `memchr` : the place of the first occurrence of a character.
-/

namespace QWebServer.Lib

/-- The text that ends at the first NUL. -/
def cstr (s : List Char) : List Char := s.takeWhile fun c => c ≠ '\x00'

theorem forall_ne_nul {s : List Char} : (∀ c ∈ s, decide (c ≠ '\x00') = true) ↔ '\x00' ∉ s := by
  simp only [decide_eq_true_eq]
  constructor
  · intro h hmem
    exact h _ hmem rfl
  · rintro h c hc rfl
    exact h hc

theorem cstr_eq_self {s : List Char} : cstr s = s ↔ '\x00' ∉ s := by
  rw [cstr, List.takeWhile_eq_self_iff]
  exact forall_ne_nul

theorem cstr_append {s : List Char} (h : '\x00' ∉ s) (t : List Char) : cstr (s ++ '\x00' :: t) = s := by
  rw [cstr, List.takeWhile_append_of_pos (forall_ne_nul.mpr h)]
  simp

/-- `memchr(s, c, s.size())`: the place of the first `c`. -/
def memchr (s : List Char) (c : Char) : Option Nat := s.idxOf? c

theorem memchr_eq_none {s : List Char} {c : Char} : memchr s c = none ↔ c ∉ s := List.idxOf?_eq_none_iff

theorem memchr_append {s : List Char} {c : Char} (h : c ∉ s) (t : List Char) :
    memchr (s ++ c :: t) c = some s.length := by
  unfold memchr
  induction s with
  | nil => simp [List.idxOf?_cons]
  | cons d s ih =>
    rw [List.mem_cons, not_or] at h
    have hne : (d == c) = false := by simpa using Ne.symm h.1
    rw [List.cons_append, List.idxOf?_cons, hne, ih h.2]
    rfl

end QWebServer.Lib
