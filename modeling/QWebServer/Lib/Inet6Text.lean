import Mathlib.Algebra.Group.Nat.Defs
import Mathlib.Data.List.Basic
import Mathlib.Data.List.Induction

/-!
# Texts of eight 16-bit groups

A text is groups of up to four hexadecimal digits with colons between them, where one double colon may stand for one or
more groups that are zero.

* `readHex`, `readGroup`, `readGroups`, `readAddress` : the reader of such texts;
* `joined` : groups written in lower case with colons between them;
* `gaps` : the number of double colons in a text, `cutGap` : a text cut at the first of them;
* `readAddress_joined`, `readAddress_gap` : what is written without and with a double colon is read back.
-/

namespace QWebServer.Lib

/-! ## Numbers -/

def hexValue (c : Char) : Option Nat :=
  if 48 ≤ c.toNat ∧ c.toNat ≤ 57 then some (c.toNat - 48)
  else if 97 ≤ c.toNat ∧ c.toNat ≤ 102 then some (c.toNat - 87)
  else if 65 ≤ c.toNat ∧ c.toNat ≤ 70 then some (c.toNat - 55)
  else none

def readHex (s : List Char) : Option Nat := s.foldlM (fun n c => (hexValue c).map fun d => 16 * n + d) 0

theorem hexValue_digitChar : ∀ d < 16, hexValue d.digitChar = some d := by decide

theorem colon_ne_digitChar : ∀ d < 16, d.digitChar ≠ ':' := by decide

theorem readHex_snoc (s : List Char) {n d : Nat} (h : readHex s = some n) (hd : d < 16) :
    readHex (s ++ [d.digitChar]) = some (16 * n + d) := by
  unfold readHex at h ⊢
  rw [List.foldlM_append, h]
  simp [hexValue_digitChar d hd]

theorem readHex_toDigits (n : Nat) : readHex (Nat.toDigits 16 n) = some n := by
  induction n using Nat.strongRecOn with
  | ind n ih =>
    rw [Nat.toDigits_eq_if (by decide)]
    split_ifs with hn
    · exact (readHex_snoc [] rfl hn).trans (by simp)
    · rw [readHex_snoc _ (ih (n / 16) (by omega)) (Nat.mod_lt n (by decide)), Nat.div_add_mod]

theorem mem_toDigits {n : Nat} {c : Char} (h : c ∈ Nat.toDigits 16 n) : ∃ d < 16, c = d.digitChar := by
  induction n using Nat.strongRecOn with
  | ind n ih =>
    rw [Nat.toDigits_eq_if (by decide)] at h
    split_ifs at h with hn
    · exact ⟨n, hn, List.mem_singleton.mp h⟩
    · rcases List.mem_append.mp h with h | h
      · exact ih (n / 16) (by omega) h
      · exact ⟨n % 16, Nat.mod_lt n (by decide), List.mem_singleton.mp h⟩

theorem colon_notMem_toDigits (n : Nat) : ':' ∉ Nat.toDigits 16 n := by
  intro h
  obtain ⟨d, hd, hc⟩ := mem_toDigits h
  exact colon_ne_digitChar d hd hc.symm

/-! ## Groups -/

/-- The number of a group: one to four hexadecimal digits. -/
def readGroup (s : List Char) : Option Nat := if s = [] ∨ 4 < s.length then none else readHex s

/-- The numbers of the groups between colons; the empty text has none. -/
def readGroups (s : List Char) : Option (List Nat) := if s = [] then some [] else (s.splitOn ':').mapM readGroup

/-- A text cut at its first double colon. -/
def cutGap : List Char → Option (List Char × List Char)
  | [] => none
  | c :: s => if c = ':' ∧ s.head? = some ':' then some ([], s.tail) else (cutGap s).map fun r => (c :: r.1, r.2)

/-- The eight groups of a text. A double colon stands for the groups that are missing, at least one. -/
def readAddress (s : List Char) : Option (List Nat) :=
  match cutGap s with
  | none => (readGroups s).bind fun l => if l.length = 8 then some l else none
  | some (s, t) => (readGroups s).bind fun l => (readGroups t).bind fun r =>
    if l.length + r.length < 8 then some (l ++ List.replicate (8 - l.length - r.length) 0 ++ r) else none

/-- Groups with colons between them. -/
def joined (l : List Nat) : List Char := [':'].intercalate (l.map (Nat.toDigits 16))

@[simp] theorem joined_nil : joined [] = [] := rfl

@[simp] theorem joined_singleton (a : Nat) : joined [a] = Nat.toDigits 16 a := by simp [joined]

theorem joined_cons_cons (a b : Nat) (l : List Nat) :
    joined (a :: b :: l) = Nat.toDigits 16 a ++ ':' :: joined (b :: l) := by
  simp [joined, List.intercalate_cons_cons]

theorem joined_snoc {l : List Nat} (hl : l ≠ []) (a : Nat) :
    joined (l ++ [a]) = joined l ++ ':' :: Nat.toDigits 16 a := by
  induction l with
  | nil => exact absurd rfl hl
  | cons b l ih =>
    cases l with
    | nil => simp [joined_cons_cons]
    | cons d l =>
      have hrec := ih (by simp)
      rw [List.cons_append, List.cons_append, joined_cons_cons, ← List.cons_append, hrec, joined_cons_cons]
      simp

theorem mem_joined {l : List Nat} {c : Char} (h : c ∈ joined l) : c = ':' ∨ ∃ d < 16, c = d.digitChar := by
  induction l with
  | nil => cases h
  | cons a l ih =>
    cases l with
    | nil =>
      rw [joined_singleton] at h
      exact Or.inr (mem_toDigits h)
    | cons b l =>
      rw [joined_cons_cons] at h
      rcases List.mem_append.mp h with h | h
      · exact Or.inr (mem_toDigits h)
      · rcases List.mem_cons.mp h with h | h
        · exact Or.inl h
        · exact ih h

theorem joined_eq_nil {l : List Nat} : joined l = [] ↔ l = [] := by
  cases l with
  | nil => simp
  | cons a l =>
    cases l with
    | nil => simp
    | cons b l => simp [joined_cons_cons]

theorem readGroup_toDigits {a : Nat} (ha : a < 2 ^ 16) : readGroup (Nat.toDigits 16 a) = some a := by
  have hlen : (Nat.toDigits 16 a).length ≤ 4 := (Nat.length_toDigits_le_iff (by decide) (by decide)).mpr ha
  rw [readGroup, if_neg (by simpa using hlen), readHex_toDigits]

theorem mapM_readGroup {l : List Nat} (hl : ∀ a ∈ l, a < 2 ^ 16) :
    (l.map (Nat.toDigits 16)).mapM readGroup = some l := by
  induction l with
  | nil => rfl
  | cons a l ih =>
    obtain ⟨ha, hl⟩ := List.forall_mem_cons.mp hl
    rw [List.map_cons, List.mapM_cons, readGroup_toDigits ha, ih hl]
    rfl

theorem readGroups_joined {l : List Nat} (hl : ∀ a ∈ l, a < 2 ^ 16) : readGroups (joined l) = some l := by
  unfold readGroups
  by_cases hnil : l = []
  · subst hnil
    rfl
  · have hcolon : ∀ s ∈ l.map (Nat.toDigits 16), ':' ∉ s := by
      intro s hs
      obtain ⟨a, -, rfl⟩ := List.mem_map.mp hs
      exact colon_notMem_toDigits a
    rw [if_neg (fun h => hnil (joined_eq_nil.mp h)), joined, List.splitOn_intercalate ':' hcolon (by simpa using hnil),
      mapM_readGroup hl]

/-! ## Double colons -/

/-- The number of places where a colon follows a colon. -/
def gaps : List Char → Nat
  | [] => 0
  | c :: s => (if c = ':' ∧ s.head? = some ':' then 1 else 0) + gaps s

theorem gaps_append (s t : List Char) :
    gaps (s ++ t) = gaps s + gaps t + if s.getLast? = some ':' ∧ t.head? = some ':' then 1 else 0 := by
  induction s with
  | nil => simp [gaps]
  | cons c s ih =>
    rw [List.cons_append, gaps, gaps, ih]
    cases s with
    | nil =>
      by_cases h : c = ':' ∧ t.head? = some ':' <;> simp [gaps, h]
      omega
    | cons d s =>
      rw [List.getLast?_cons_cons, List.cons_append, List.head?_cons, List.head?_cons]
      omega

theorem gaps_eq_zero_of_notMem {s : List Char} (h : ':' ∉ s) : gaps s = 0 := by
  induction s with
  | nil => rfl
  | cons c s ih =>
    rw [List.mem_cons, not_or] at h
    rw [gaps, ih h.2, if_neg fun hc => h.1 hc.1.symm]

theorem cutGap_append {s : List Char} (hs : gaps s = 0) (hlast : s.getLast? ≠ some ':') (t : List Char) :
    cutGap (s ++ ':' :: ':' :: t) = some (s, t) := by
  induction s with
  | nil => simp [cutGap]
  | cons c s ih =>
    rw [gaps] at hs
    have hno : ¬ (c = ':' ∧ s.head? = some ':') := fun h => by simp [h] at hs
    have hno' : ¬ (c = ':' ∧ (s ++ ':' :: ':' :: t).head? = some ':') := by
      cases s with
      | nil =>
        rintro ⟨rfl, -⟩
        exact hlast rfl
      | cons d s => exact hno
    have hlast' : s.getLast? ≠ some ':' := by
      cases s with
      | nil => simp
      | cons d s => rwa [List.getLast?_cons_cons] at hlast
    rw [List.cons_append, cutGap, if_neg hno', ih (by omega) hlast']
    rfl

theorem cutGap_eq_none {s : List Char} (hs : gaps s = 0) : cutGap s = none := by
  induction s with
  | nil => rfl
  | cons c s ih =>
    rw [gaps] at hs
    rw [cutGap, if_neg (fun h => by simp [h] at hs), ih (by omega)]
    rfl

theorem head?_joined (l : List Nat) : (joined l).head? ≠ some ':' := by
  have hdigits : ∀ (a : Nat) (s : List Char), (Nat.toDigits 16 a ++ s).head? ≠ some ':' := by
    intro a s hh
    rw [List.head?_append_of_ne_nil _ Nat.toDigits_ne_nil] at hh
    exact colon_notMem_toDigits a (List.mem_of_head? hh)
  cases l with
  | nil => simp
  | cons a l =>
    cases l with
    | nil => simpa using hdigits a []
    | cons b l =>
      rw [joined_cons_cons]
      exact hdigits a _

theorem getLast?_joined (l : List Nat) : (joined l).getLast? ≠ some ':' := by
  have hdigits : ∀ a : Nat, (Nat.toDigits 16 a).getLast? ≠ some ':' :=
    fun a hh => colon_notMem_toDigits a (List.mem_of_getLast? hh)
  induction l using List.reverseRecOn with
  | nil => simp
  | append_singleton l a _ =>
    by_cases hl : l = []
    · subst hl
      simpa using hdigits a
    · rw [joined_snoc hl, List.getLast?_append_of_ne_nil _ (by simp), List.getLast?_cons_of_ne_nil Nat.toDigits_ne_nil]
      exact hdigits a

theorem gaps_joined (l : List Nat) : gaps (joined l) = 0 := by
  induction l with
  | nil => rfl
  | cons a l ih =>
    cases l with
    | nil =>
      rw [joined_singleton]
      exact gaps_eq_zero_of_notMem (colon_notMem_toDigits a)
    | cons b l =>
      have hlast : (Nat.toDigits 16 a).getLast? ≠ some ':' := by simpa using getLast?_joined [a]
      rw [joined_cons_cons, gaps_append, gaps_eq_zero_of_notMem (colon_notMem_toDigits a), gaps, ih,
        if_neg fun h => head?_joined _ h.2, if_neg fun h => hlast h.1]

theorem gaps_gap (l r : List Nat) : gaps (joined l ++ ':' :: ':' :: joined r) = 1 := by
  rw [gaps_append, if_neg fun h => getLast?_joined l h.1, gaps, if_pos ⟨rfl, rfl⟩, gaps,
    if_neg fun h => head?_joined r h.2, gaps_joined, gaps_joined]

/-! ## Reading back -/

/-- **Eight groups** written out are read back. -/
theorem readAddress_joined {l : List Nat} (hl : ∀ a ∈ l, a < 2 ^ 16) (hlen : l.length = 8) :
    readAddress (joined l) = some l := by
  unfold readAddress
  rw [cutGap_eq_none (gaps_joined l), readGroups_joined hl]
  simp [hlen]

/-- **A double colon** is read as the zero groups it was written for. -/
theorem readAddress_gap {l r : List Nat} {k : Nat} (hl : ∀ a ∈ l, a < 2 ^ 16) (hr : ∀ a ∈ r, a < 2 ^ 16) (hk : 0 < k)
    (hlen : l.length + k + r.length = 8) :
    readAddress (joined l ++ ':' :: ':' :: joined r) = some (l ++ List.replicate k 0 ++ r) := by
  have hzeros : 8 - l.length - r.length = k := by omega
  have hlt : l.length + r.length < 8 := by omega
  unfold readAddress
  rw [cutGap_append (gaps_joined l) (getLast?_joined l)]
  simp [readGroups_joined hl, readGroups_joined hr, hlt, hzeros]

end QWebServer.Lib
