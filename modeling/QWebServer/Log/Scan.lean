import Mathlib.Data.List.TakeDrop
import QWebServer.Log.Formatter

/-!
# The loops of `LogFormatter::init`

`init` goes over the pattern with an index: an outer loop over its characters and, after a `%`, an inner one with the
variables `n`, `format_status`, `format_begin`, `str` and `fmt`.

* `substr` : of `std::string`;
* `Scan`, `scan` : the variables of the inner loop and the loop, `Outer`, `outer` : those of the outer one;
* `LogFormatter.run` : `init` by these loops;
* `scan_eq` : the inner loop reads what `spec` reads of the rest of the pattern;
* `run_eq` : the loops compute `LogFormatter.init`.
-/

namespace QWebServer

/-- `s.substr(pos, len)`. -/
def substr (s : Text) (pos len : Nat) : Text := (s.drop pos).take len

structure Scan where
  n : Nat
  formatStatus : Nat := 0
  formatBegin : Nat := 0
  str : Text := []
  fmt : Text := []

/-- The inner loop, for the `%` at `i`. Every round but the last moves `n`, so that `k` bounds the rounds left. -/
def scan (pattern : Text) (i : Nat) : Nat → Scan → Scan
  | 0, s => s
  | k + 1, s =>
    match pattern[s.n]? with
    | none => s
    | some c =>
      if s.formatStatus = 0 ∧ ¬ c.isAlpha ∧ c ≠ '\x7b' ∧ c ≠ '\x7d' then
        { s with str := substr pattern (i + 1) (s.n - i - 1) }
      else if s.formatStatus = 0 ∧ c = '\x7b' then
        scan pattern i k
          { s with str := substr pattern (i + 1) (s.n - i - 1), formatStatus := 1, formatBegin := s.n, n := s.n + 1 }
      else if s.formatStatus = 1 ∧ c = '\x7d' then
        { s with fmt := substr pattern (s.formatBegin + 1) (s.n - s.formatBegin - 1), formatStatus := 0, n := s.n + 1 }
      else
        let s := { s with n := s.n + 1 }
        scan pattern i k
          (if s.n = pattern.length ∧ s.str.isEmpty then { s with str := pattern.drop (i + 1) } else s)

structure Outer where
  vec : List Piece := []
  nstr : Text := []
  error : Bool := false

def outer (pattern : Text) : Nat → Nat → Outer → Outer
  | 0, _, s => s
  | k + 1, i, s =>
    match pattern[i]? with
    | none => s
    | some c =>
      if c ≠ '%' then outer pattern k (i + 1) { s with nstr := s.nstr ++ [c] }
      else if pattern[i + 1]? = some '%' then outer pattern k (i + 2) { s with nstr := s.nstr ++ ['%'] }
      else
        let r := scan pattern i (pattern.length - (i + 1)) { n := i + 1 }
        if r.formatStatus = 0 then
          outer pattern k r.n { s with vec := s.vec ++ flush s.nstr ++ [.item r.str r.fmt], nstr := [] }
        else outer pattern k (i + 1) { s with vec := s.vec ++ [.text "pattern error".toList], error := true }

/-- `LogFormatter::init` by its loops: `m_items` and `m_error`. -/
def LogFormatter.run (f : LogFormatter) : List FormatItem × Bool :=
  let s := outer f.pattern f.pattern.length 0 {}
  let vec := s.vec ++ flush s.nstr
  (vec.map fun p => p.toItem.1, s.error || vec.any fun p => p.toItem.2)

/-! ## The inner loop -/

section
variable {pattern : Text} {i : Nat}

theorem substr_succ {pos n : Nat} (hpos : pos ≤ n) {c : Char} (hc : pattern[n]? = some c) :
    substr pattern pos (n + 1 - pos) = substr pattern pos (n - pos) ++ [c] := by
  have hlen : n + 1 - pos = n - pos + 1 := by omega
  unfold substr
  rw [hlen, List.take_add_one, List.getElem?_drop, Nat.add_sub_cancel' hpos, hc]
  rfl

theorem drop_of_getElem? {n : Nat} {c : Char} (hc : pattern[n]? = some c) :
    n < pattern.length ∧ pattern.drop n = c :: pattern.drop (n + 1) := by
  obtain ⟨hn, rfl⟩ := List.getElem?_eq_some_iff.mp hc
  exact ⟨hn, List.drop_eq_getElem_cons hn⟩

theorem exists_getElem? {n k : Nat} (h : n + (k + 1) = pattern.length) : ∃ c, pattern[n]? = some c :=
  ⟨pattern[n], List.getElem?_eq_getElem (by omega)⟩

/-- The end of a round that neither breaks nor continues. -/
def Scan.next (pattern : Text) (i : Nat) (s : Scan) : Scan :=
  if s.n + 1 = pattern.length ∧ s.str.isEmpty then { s with n := s.n + 1, str := pattern.drop (i + 1) }
  else { s with n := s.n + 1 }

section
variable {s : Scan} {k : Nat} {c : Char}

@[simp] theorem Scan.next_n : (s.next pattern i).n = s.n + 1 := by
  unfold Scan.next
  split <;> rfl

@[simp] theorem Scan.next_formatStatus : (s.next pattern i).formatStatus = s.formatStatus := by
  unfold Scan.next
  split <;> rfl

@[simp] theorem Scan.next_formatBegin : (s.next pattern i).formatBegin = s.formatBegin := by
  unfold Scan.next
  split <;> rfl

@[simp] theorem Scan.next_fmt : (s.next pattern i).fmt = s.fmt := by
  unfold Scan.next
  split <;> rfl

theorem Scan.next_str (h : s.n + 1 ≠ pattern.length) : (s.next pattern i).str = s.str := by
  unfold Scan.next
  rw [if_neg fun hc => h hc.1]

theorem Scan.next_str_end (h : s.n + 1 = pattern.length) (hstr : s.str = []) :
    (s.next pattern i).str = pattern.drop (i + 1) := by
  unfold Scan.next
  rw [if_pos ⟨h, by rw [hstr]; rfl⟩]

theorem scan_break (hc : pattern[s.n]? = some c) (hstatus : s.formatStatus = 0) (halpha : c.isAlpha = false)
    (hopen : c ≠ '\x7b') (hclose : c ≠ '\x7d') :
    scan pattern i (k + 1) s = { s with str := substr pattern (i + 1) (s.n - i - 1) } := by
  simp [scan, hc, hstatus, halpha, hopen, hclose]

theorem scan_open (hc : pattern[s.n]? = some '\x7b') (hstatus : s.formatStatus = 0) :
    scan pattern i (k + 1) s = scan pattern i k
      { s with str := substr pattern (i + 1) (s.n - i - 1), formatStatus := 1, formatBegin := s.n, n := s.n + 1 } := by
  simp [scan, hc, hstatus]

theorem scan_close (hc : pattern[s.n]? = some '\x7d') (hstatus : s.formatStatus = 1) :
    scan pattern i (k + 1) s = { s with
      fmt := substr pattern (s.formatBegin + 1) (s.n - s.formatBegin - 1), formatStatus := 0, n := s.n + 1 } := by
  simp [scan, hc, hstatus]

theorem scan_letter (hc : pattern[s.n]? = some c) (hstatus : s.formatStatus = 0) (hopen : c ≠ '\x7b')
    (hletter : c.isAlpha = true ∨ c = '\x7d') : scan pattern i (k + 1) s = scan pattern i k (s.next pattern i) := by
  have hno : ¬ (¬ c.isAlpha ∧ c ≠ '\x7b' ∧ c ≠ '\x7d') := by
    rintro ⟨halpha, -, hclose⟩
    rcases hletter with h | h
    · exact halpha h
    · exact hclose h
  rw [scan, hc]
  dsimp only
  rw [if_neg fun h => hno h.2, if_neg fun h => hopen h.2, if_neg fun h => by omega]
  rfl

theorem scan_inside (hc : pattern[s.n]? = some c) (hstatus : s.formatStatus = 1) (hclose : c ≠ '\x7d') :
    scan pattern i (k + 1) s = scan pattern i k (s.next pattern i) := by
  rw [scan, hc]
  dsimp only
  rw [if_neg fun h => by omega, if_neg fun h => by omega, if_neg fun h => hclose h.2]
  rfl

end

/-- What the inner loop in `format_status` 1 leaves, by what `braced` reads. -/
def ClosesAs (pattern : Text) (s r : Scan) : Option (Text × List Char) → Prop
  | some (f, rest) => r.formatStatus = 0 ∧ r.str = s.str ∧
      r.fmt = substr pattern (s.formatBegin + 1) (s.n - (s.formatBegin + 1)) ++ f ∧ pattern.drop r.n = rest
  | none => r.formatStatus = 1

/-- **The inner loop in `format_status` 1** looks for the closing brace. -/
theorem scan_braced {k : Nat} : ∀ {s : Scan}, s.formatStatus = 1 → s.formatBegin < s.n → s.n + k = pattern.length →
    ClosesAs pattern s (scan pattern i k s) (braced (pattern.drop s.n)) := by
  induction k with
  | zero =>
    intro s hstatus hbegin hlen
    rw [List.drop_eq_nil_of_le (by omega)]
    exact hstatus
  | succ k ih =>
    intro s hstatus hbegin hlen
    obtain ⟨c, hc⟩ := exists_getElem? hlen
    obtain ⟨hn, hdrop⟩ := drop_of_getElem? hc
    rw [hdrop, braced]
    by_cases hclose : c = '\x7d'
    · subst hclose
      have hfmt : s.n - s.formatBegin - 1 = s.n - (s.formatBegin + 1) := by omega
      rw [if_pos rfl, scan_close hc hstatus, hfmt]
      exact ⟨rfl, rfl, (List.append_nil _).symm, rfl⟩
    · rw [if_neg hclose, scan_inside hc hstatus hclose]
      have hrec := ih (s := s.next pattern i) (by simpa using hstatus) (by simp; omega) (by simp; omega)
      rw [Scan.next_n] at hrec
      cases hb : braced (pattern.drop (s.n + 1)) with
      | none =>
        rw [hb] at hrec
        exact hrec
      | some r =>
        obtain ⟨f, rest⟩ := r
        rw [hb] at hrec
        obtain ⟨h0, hstr, hfmt, hrest⟩ := hrec
        -- the closing brace is still to come, so that this was not the last character
        have hne : s.n + 1 ≠ pattern.length := by
          intro hend
          rw [List.drop_eq_nil_of_le (by omega)] at hb
          cases hb
        refine ⟨h0, hstr.trans (Scan.next_str hne), ?_, hrest⟩
        rw [hfmt, Scan.next_formatBegin, Scan.next_n, substr_succ (by omega) hc, List.append_assoc]
        rfl

/-- What the inner loop leaves, by what `spec` reads. -/
def ReadsAs (pattern : Text) (i : Nat) (s r : Scan) : Option (Text × Text × List Char) → Prop
  | some (str, fmt, rest) => r.formatStatus = 0 ∧ r.str = substr pattern (i + 1) (s.n - (i + 1)) ++ str ∧
      r.fmt = fmt ∧ pattern.drop r.n = rest
  | none => r.formatStatus = 1

/-- An opening brace: the loop goes on in `format_status` 1. -/
theorem scan_spec_open {k : Nat} {s : Scan} (hc : pattern[s.n]? = some '\x7b') (hstatus : s.formatStatus = 0)
    (hlen : s.n + (k + 1) = pattern.length) :
    ReadsAs pattern i s (scan pattern i (k + 1) s) ((braced (pattern.drop (s.n + 1))).map fun r => ([], r.1, r.2)) := by
  have hsub : s.n - i - 1 = s.n - (i + 1) := by omega
  have hlen' : s.n + 1 + k = pattern.length := by omega
  rw [scan_open hc hstatus, hsub]
  have hrec := scan_braced (i := i) (s := { s with
    str := substr pattern (i + 1) (s.n - (i + 1)), formatStatus := 1, formatBegin := s.n, n := s.n + 1 })
    rfl (Nat.lt_succ_self _) hlen'
  dsimp only at hrec
  cases hb : braced (pattern.drop (s.n + 1)) with
  | none =>
    rw [hb] at hrec
    exact hrec
  | some r =>
    obtain ⟨f, rest⟩ := r
    rw [hb] at hrec
    obtain ⟨h0, hstr, hfmt, hrest⟩ := hrec
    refine ⟨h0, by rw [hstr, List.append_nil], ?_, hrest⟩
    rw [hfmt, Nat.sub_self]
    rfl

theorem ReadsAs.letter {s r : Scan} {c : Char} (hc : pattern[s.n]? = some c) (hi : i < s.n)
    {q : Option (Text × Text × List Char)} (h : ReadsAs pattern i (s.next pattern i) r q) :
    ReadsAs pattern i s r (q.map fun p => (c :: p.1, p.2.1, p.2.2)) := by
  cases q with
  | none => exact h
  | some p =>
    obtain ⟨str, fmt, rest⟩ := p
    obtain ⟨h0, hstr, hfmt, hrest⟩ := h
    refine ⟨h0, ?_, hfmt, hrest⟩
    rw [hstr, Scan.next_n, substr_succ (by omega) hc, List.append_assoc]
    rfl

/-- **The inner loop** reads what `spec` reads. Before the end of the pattern `str` is empty as long as only letters are
read, and at the end it is what follows the `%`. -/
theorem scan_spec {k : Nat} : ∀ {s : Scan}, s.formatStatus = 0 → s.fmt = [] → i < s.n → s.n + k = pattern.length →
    (s.str = if s.n = pattern.length then pattern.drop (i + 1) else []) →
    ReadsAs pattern i s (scan pattern i k s) (spec (pattern.drop s.n)) := by
  induction k with
  | zero =>
    intro s hstatus hfmt hi hlen hstr
    rw [if_pos (by omega)] at hstr
    have hall : substr pattern (i + 1) (s.n - (i + 1)) = pattern.drop (i + 1) := by
      unfold substr
      rw [List.take_of_length_le]
      rw [List.length_drop]
      omega
    have hend : pattern.drop s.n = [] := List.drop_eq_nil_of_le (by omega)
    rw [hend]
    exact ⟨hstatus, by rw [hall, List.append_nil]; exact hstr, hfmt, hend⟩
  | succ k ih =>
    intro s hstatus hfmt hi hlen hstr
    obtain ⟨c, hc⟩ := exists_getElem? hlen
    obtain ⟨hn, hdrop⟩ := drop_of_getElem? hc
    rw [if_neg (by omega)] at hstr
    rw [hdrop, spec]
    by_cases hopen : c = '\x7b'
    · subst hopen
      rw [if_pos rfl]
      exact scan_spec_open hc hstatus hlen
    · rw [if_neg hopen]
      by_cases hletter : c.isAlpha = true ∨ c = '\x7d'
      · rw [if_pos (by simpa using hletter), scan_letter hc hstatus hopen hletter]
        have hstr' : (s.next pattern i).str = if s.n + 1 = pattern.length then pattern.drop (i + 1) else [] := by
          split_ifs with hend
          · exact Scan.next_str_end hend hstr
          · rw [Scan.next_str hend, hstr]
        have hrec := ih (s := s.next pattern i) (by simpa using hstatus) (by simpa using hfmt) (by simp; omega)
          (by simp; omega) (by rw [Scan.next_n]; exact hstr')
        rw [Scan.next_n] at hrec
        exact hrec.letter hc hi
      · rw [not_or, Bool.not_eq_true] at hletter
        have hsub : s.n - i - 1 = s.n - (i + 1) := by omega
        rw [if_neg (by simp [hletter.1, hletter.2]), scan_break hc hstatus hletter.1 hopen hletter.2, hsub]
        exact ⟨hstatus, (List.append_nil _).symm, hfmt, hdrop⟩

theorem scan_start (hi : i < pattern.length) :
    ReadsAs pattern i { n := i + 1 } (scan pattern i (pattern.length - (i + 1)) { n := i + 1 })
      (spec (pattern.drop (i + 1))) := by
  refine scan_spec rfl rfl (Nat.lt_succ_self i) ?_ ?_
  · show i + 1 + (pattern.length - (i + 1)) = pattern.length
    omega
  · show [] = if i + 1 = pattern.length then pattern.drop (i + 1) else []
    split_ifs with hend
    · exact (List.drop_eq_nil_of_le (by omega)).symm
    · rfl

/-! ## The outer loop -/

theorem braced_length {p : List Char} {f : Text} {rest : List Char} (h : braced p = some (f, rest)) :
    rest.length ≤ p.length := by
  induction p generalizing f with
  | nil => cases h
  | cons c p ih =>
    rw [braced] at h
    split_ifs at h with hc
    · cases h
      simp
    · obtain ⟨⟨f', rest'⟩, hb, he⟩ := Option.map_eq_some_iff.mp h
      cases he
      exact Nat.le_succ_of_le (ih hb)

theorem spec_length {p : List Char} {str fmt : Text} {rest : List Char} (h : spec p = some (str, fmt, rest)) :
    rest.length ≤ p.length := by
  induction p generalizing str fmt with
  | nil =>
    cases h
    exact Nat.le_refl _
  | cons c p ih =>
    rw [spec] at h
    split_ifs at h with hopen hletter
    · obtain ⟨⟨f, rest'⟩, hb, he⟩ := Option.map_eq_some_iff.mp h
      cases he
      exact Nat.le_succ_of_le (braced_length hb)
    · obtain ⟨⟨str', fmt', rest'⟩, hp, he⟩ := Option.map_eq_some_iff.mp h
      cases he
      exact Nat.le_succ_of_le (ih hp)
    · cases h
      exact Nat.le_refl _

theorem outer_char {k : Nat} {s : Outer} {c : Char} (hc : pattern[i]? = some c) (hne : c ≠ '%') :
    outer pattern (k + 1) i s = outer pattern k (i + 1) { s with nstr := s.nstr ++ [c] } := by
  rw [outer, hc]
  exact if_pos hne

theorem outer_escape {k : Nat} {s : Outer} (hc : pattern[i]? = some '%') (hnext : pattern[i + 1]? = some '%') :
    outer pattern (k + 1) i s = outer pattern k (i + 2) { s with nstr := s.nstr ++ ['%'] } := by
  rw [outer, hc]
  dsimp only
  rw [if_neg (by simp), if_pos hnext]

/-- A round of the outer loop at a `%` whose brace is not closed. -/
theorem outer_error {k : Nat} {s : Outer} (hc : pattern[i]? = some '%') (hnext : pattern[i + 1]? ≠ some '%')
    (hp : spec (pattern.drop (i + 1)) = none) :
    outer pattern (k + 1) i s =
      outer pattern k (i + 1) { s with vec := s.vec ++ [.text "pattern error".toList], error := true } := by
  have hscan := scan_start (drop_of_getElem? hc).1
  rw [hp] at hscan
  have hstatus : (scan pattern i (pattern.length - (i + 1)) { n := i + 1 }).formatStatus = 1 := hscan
  rw [outer, hc]
  dsimp only
  rw [if_neg (by simp), if_neg hnext, if_neg (by rw [hstatus]; decide)]

/-- A round of the outer loop at a `%` that begins an item. -/
theorem outer_item {k : Nat} {s : Outer} {str fmt : Text} {rest : List Char} (hc : pattern[i]? = some '%')
    (hnext : pattern[i + 1]? ≠ some '%') (hp : spec (pattern.drop (i + 1)) = some (str, fmt, rest)) :
    ∃ n, pattern.drop n = rest ∧ outer pattern (k + 1) i s =
      outer pattern k n { s with vec := s.vec ++ flush s.nstr ++ [.item str fmt], nstr := [] } := by
  have hscan := scan_start (drop_of_getElem? hc).1
  rw [hp] at hscan
  obtain ⟨hstatus, hstr, hfmt, hdrop⟩ := hscan
  rw [Nat.sub_self] at hstr
  refine ⟨_, hdrop, ?_⟩
  rw [outer, hc]
  dsimp only
  rw [if_neg (by simp), if_neg hnext, if_pos hstatus, hstr, hfmt]
  rfl

/-- Where the length of the rest bounds the rounds, a rest with a character leaves a round. -/
theorem exists_succ_of_length_le {c : Char} {p : List Char} {k : Nat} (h : (c :: p).length ≤ k) :
    ∃ k', k = k' + 1 ∧ p.length ≤ k' := by
  rw [List.length_cons] at h
  exact ⟨k - 1, by omega, by omega⟩

/-- **The outer loop** makes the entries that `pieces` makes of the rest of the pattern. -/
theorem outer_eq {k : Nat} : ∀ {i j : Nat} {s : Outer}, pattern.length ≤ i + k → (pattern.drop i).length ≤ j →
    (outer pattern k i s).vec ++ flush (outer pattern k i s).nstr = s.vec ++ (pieces j (pattern.drop i) s.nstr).1 ∧
      (outer pattern k i s).error = (s.error || (pieces j (pattern.drop i) s.nstr).2) := by
  have hend : ∀ {i j : Nat} {s : Outer}, pattern.drop i = [] →
      s.vec ++ flush s.nstr = s.vec ++ (pieces j (pattern.drop i) s.nstr).1 ∧
        s.error = (s.error || (pieces j (pattern.drop i) s.nstr).2) := by
    intro i j s hnil
    rw [hnil]
    cases j <;> simp [pieces]
  induction k with
  | zero =>
    intro i j s hk hj
    exact hend (List.drop_eq_nil_of_le (by omega))
  | succ k ih =>
    intro i j s hk hj
    cases hc : pattern[i]? with
    | none =>
      rw [outer, hc]
      exact hend (List.drop_eq_nil_of_le (List.getElem?_eq_none_iff.mp hc))
    | some c =>
      obtain ⟨hi, hdrop⟩ := drop_of_getElem? hc
      rw [hdrop] at hj
      obtain ⟨j, rfl, hleft⟩ := exists_succ_of_length_le hj
      have htail : (pattern.drop (i + 1)).tail = pattern.drop (i + 2) := List.tail_drop
      rw [hdrop, pieces, List.head?_drop, htail]
      by_cases hpercent : c ≠ '%'
      · rw [outer_char hc hpercent, if_pos hpercent]
        exact ih (by omega) hleft
      · obtain rfl : c = '%' := not_not.mp hpercent
        rw [if_neg hpercent]
        by_cases hnext : pattern[i + 1]? = some '%'
        · rw [outer_escape hc hnext, if_pos hnext]
          refine ih (by omega) ?_
          rw [List.length_drop] at hleft ⊢
          omega
        · rw [if_neg hnext]
          cases hp : spec (pattern.drop (i + 1)) with
          | none =>
            rw [outer_error hc hnext hp]
            obtain ⟨hvec, herror⟩ := ih (i := i + 1) (j := j)
              (s := { s with vec := s.vec ++ [.text "pattern error".toList], error := true }) (by omega) hleft
            exact ⟨by rw [hvec, List.append_assoc]; rfl, by rw [herror]; simp⟩
          | some r =>
            obtain ⟨str, fmt, rest⟩ := r
            have hrest := spec_length hp
            obtain ⟨n, rfl, hround⟩ := outer_item (k := k) (s := s) hc hnext hp
            rw [List.length_drop, List.length_drop] at hrest
            rw [List.length_drop] at hleft
            rw [hround]
            obtain ⟨hvec, herror⟩ := ih (i := n) (j := j)
              (s := { s with vec := s.vec ++ flush s.nstr ++ [.item str fmt], nstr := [] })
              (by omega) (by rw [List.length_drop]; omega)
            exact ⟨by rw [hvec]; simp, herror⟩

end

/-- **The loops compute `init`.** -/
theorem LogFormatter.run_eq (f : LogFormatter) : f.run = f.init := by
  have hfuel : f.pattern.length ≤ 0 + f.pattern.length := by omega
  obtain ⟨hvec, herror⟩ := outer_eq (i := 0) (j := f.pattern.length) (s := {}) hfuel (by simp)
  unfold run init
  simp only [hvec, herror]
  simp

end QWebServer
