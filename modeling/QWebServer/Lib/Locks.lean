import Mathlib.Algebra.BigOperators.Group.Finset.Basic
import Mathlib.Data.Finset.Max
import Mathlib.Data.Fintype.Basic
import QWebServer.Lib.Run

/-!
# Threads that take locks in an order

* `LockAct` : a thread takes a lock, to read or to write, or gives it back; `Locks` : what each thread has left to do
  and what it holds; `locking` : one thread at a time makes its next step, a taking when the lock is free for it;
* `Ranked` : each lock a thread takes is above those it holds, it gives back what it holds, and holds nothing in the
  end;
* `Block` : a piece of code that may run wherever everything held is below a rank, with the rules `Block.append`,
  `Block.holding` and `Block.flatMap`;
* `InOrder` : the order is kept, and what one thread holds to write no other one holds, `Run.inOrder` : so it is in
  every run; `InOrder.progress` : some thread can go on, `Run.completes` : all threads can get to their ends,
  `Run.length_add_remaining` : in as many steps as they have.
-/

namespace QWebServer.Lib

inductive LockMode
  | read
  | write
  deriving DecidableEq

inductive LockAct (ℓ : Type)
  | take (l : ℓ) (m : LockMode)
  | give (l : ℓ)

/-- The threads `τ`: what they have left to do, and what they hold. -/
structure Locks (τ ℓ : Type) where
  code : τ → List (LockAct ℓ)
  held : τ → List (ℓ × LockMode) := fun _ => []

section
variable {τ ℓ : Type}

/-- A lock may be taken when nobody holds it, and to read also when others read. -/
def Locks.Free (s : Locks τ ℓ) (l : ℓ) (m : LockMode) : Prop :=
  ∀ u, ∀ h ∈ s.held u, h.1 = l → m = .read ∧ h.2 = .read

def Locks.CanGo (s : Locks τ ℓ) (t : τ) : Prop :=
  match s.code t with
  | [] => False
  | .take l m :: _ => s.Free l m
  | .give _ :: _ => True

instance [Fintype τ] [DecidableEq ℓ] (s : Locks τ ℓ) (t : τ) : Decidable (s.CanGo t) :=
  match hc : s.code t with
  | [] => isFalse (by simp [Locks.CanGo, hc])
  | .take l m :: _ =>
    decidable_of_iff (∀ u, ∀ h ∈ s.held u, h.1 = l → m = .read ∧ h.2 = .read) (by simp [Locks.CanGo, Locks.Free, hc])
  | .give _ :: _ => isTrue (by simp [Locks.CanGo, hc])

variable [DecidableEq τ] [DecidableEq ℓ]

def LockAct.after (held : List (ℓ × LockMode)) : LockAct ℓ → List (ℓ × LockMode)
  | .take l m => (l, m) :: held
  | .give l => held.eraseP (·.1 = l)

def Locks.go (s : Locks τ ℓ) (t : τ) : Locks τ ℓ :=
  match s.code t with
  | [] => s
  | a :: code =>
    { code := Function.update s.code t code, held := Function.update s.held t (a.after (s.held t)) }

variable (rank : ℓ → Nat)

omit [DecidableEq τ] in
/-- With `held` in hand, the code takes locks in the order of their ranks and gives back all. -/
def Ranked : List (ℓ × LockMode) → List (LockAct ℓ) → Prop
  | held, [] => held = []
  | held, .take l m :: code => (∀ h ∈ held, rank h.1 < rank l) ∧ Ranked ((l, m) :: held) code
  | held, .give l :: code => (∃ m, (l, m) ∈ held) ∧ Ranked (held.eraseP (·.1 = l)) code

omit rank in
/-- The threads, with `code` to do and nothing in hand at the start. -/
def locking (code : τ → List (LockAct ℓ)) : Machine (Locks τ ℓ) τ Unit Empty where
  init s := s = { code }
  enabled := Locks.CanGo
  step s t := .ok ((), s.go t)

omit rank in
instance [Fintype τ] (code : τ → List (LockAct ℓ)) (s : Locks τ ℓ) (t : τ) : Decidable ((locking code).enabled s t) :=
  inferInstanceAs (Decidable (s.CanGo t))

/-! ## Code that follows the order -/

section
variable {rank}
omit [DecidableEq τ]

/-- A piece of code that leaves in hand what was there, and may run where all of that is below `r`. -/
def Block (rank : ℓ → Nat) (r : Nat) (a : List (LockAct ℓ)) : Prop :=
  ∀ held rest, (∀ h ∈ held, rank h.1 < r) → Ranked rank held rest → Ranked rank held (a ++ rest)

theorem Block.nil (r : Nat) : Block rank r ([] : List (LockAct ℓ)) := fun _ _ _ h => h

theorem Block.append {r : Nat} {a b : List (LockAct ℓ)} (ha : Block rank r a) (hb : Block rank r b) :
    Block rank r (a ++ b) := by
  intro held rest hheld hrest
  rw [List.append_assoc]
  exact ha held _ hheld (hb held rest hheld hrest)

theorem Block.mono {r r' : Nat} {a : List (LockAct ℓ)} (h : Block rank r' a) (hr : r ≤ r') : Block rank r a :=
  fun held rest hheld => h held rest fun x hx => (hheld x hx).trans_le hr

/-- A piece of code for each element of a list. -/
theorem Block.flatMap {α : Type} {r : Nat} {l : List α} {f : α → List (LockAct ℓ)} (h : ∀ x ∈ l, Block rank r (f x)) :
    Block rank r (l.flatMap f) := by
  induction l with
  | nil => exact .nil r
  | cons x l ih =>
    rw [List.flatMap_cons]
    exact (h x (by simp)).append (ih fun y hy => h y (by simp [hy]))

def holding (l : ℓ) (m : LockMode) (a : List (LockAct ℓ)) : List (LockAct ℓ) := .take l m :: a ++ [.give l]

/-- **Nesting**: what runs with a lock in hand takes locks above it only. -/
theorem Block.holding {l : ℓ} {m : LockMode} {a : List (LockAct ℓ)} (h : Block rank (rank l + 1) a) :
    Block rank (rank l) (holding l m a) := by
  intro held rest hheld hrest
  simp only [Lib.holding, List.cons_append, List.append_assoc, List.nil_append]
  refine ⟨hheld, h _ _ ?_ ?_⟩
  · intro x hx
    rcases List.mem_cons.mp hx with rfl | hx
    · exact Nat.lt_succ_self _
    · exact (hheld x hx).trans (Nat.lt_succ_self _)
  · refine ⟨⟨m, List.mem_cons_self⟩, ?_⟩
    rw [List.eraseP_cons_of_pos (by simp)]
    exact hrest

theorem Block.ranked {r : Nat} {a : List (LockAct ℓ)} (h : Block rank r a) : Ranked rank [] a := by
  have := h [] [] (by simp) rfl
  rwa [List.append_nil] at this

end

/-! ## One step -/

/-- The code of every thread follows the order with what the thread holds, and what one thread holds to write, no other
one holds. -/
structure InOrder (s : Locks τ ℓ) : Prop where
  ranked : ∀ t, Ranked rank (s.held t) (s.code t)
  exclusive : ∀ t u l m, (l, .write) ∈ s.held t → (l, m) ∈ s.held u → t = u

variable {rank} {s : Locks τ ℓ} {t : τ}

omit [DecidableEq τ] [DecidableEq ℓ] in
theorem Locks.CanGo.cons (h : s.CanGo t) : ∃ a code, s.code t = a :: code := by
  unfold CanGo at h
  cases hc : s.code t with
  | nil => simp [hc] at h
  | cons a code => exact ⟨a, code, rfl⟩

theorem Locks.go_eq {a : LockAct ℓ} {code : List (LockAct ℓ)} (hc : s.code t = a :: code) :
    s.go t = { code := Function.update s.code t code, held := Function.update s.held t (a.after (s.held t)) } := by
  unfold go
  rw [hc]

/-- What a thread holds after its step, it held before, or it has just taken it. -/
theorem LockAct.mem_after {held : List (ℓ × LockMode)} {a : LockAct ℓ} {x : ℓ × LockMode} (h : x ∈ a.after held) :
    x ∈ held ∨ a = .take x.1 x.2 := by
  cases a with
  | take l m =>
    rcases List.mem_cons.mp h with rfl | h
    · exact .inr rfl
    · exact .inl h
  | give l => exact .inl (List.mem_of_mem_eraseP h)

theorem InOrder.go (hi : InOrder rank s) (hg : s.CanGo t) : InOrder rank (s.go t) := by
  obtain ⟨a, code, hc⟩ := hg.cons
  have hranked := hi.ranked t
  rw [hc] at hranked
  rw [Locks.go_eq hc]
  constructor
  · intro u
    by_cases hu : u = t
    · subst hu
      simp only [Function.update_self]
      cases a with
      | take l m => exact hranked.2
      | give l => exact hranked.2
    · simp only [Function.update_of_ne hu]
      exact hi.ranked u
  · -- a lock that is taken just now was free for that
    have hfree : ∀ l m, a = .take l m → s.Free l m := by
      rintro l m rfl
      unfold Locks.CanGo at hg
      rwa [hc] at hg
    have hnew : ∀ u x, x ∈ Function.update s.held t (a.after (s.held t)) u →
        x ∈ s.held u ∨ u = t ∧ a = .take x.1 x.2 := by
      intro u x hx
      by_cases hu : u = t
      · subst hu
        rw [Function.update_self] at hx
        rcases LockAct.mem_after hx with h | h
        · exact .inl h
        · exact .inr ⟨rfl, h⟩
      · rw [Function.update_of_ne hu] at hx
        exact .inl hx
    intro v u l m hv hu
    rcases hnew v _ hv with hv' | ⟨hvt, hv'⟩
    · rcases hnew u _ hu with hu' | ⟨-, hu'⟩
      · exact hi.exclusive v u l m hv' hu'
      · cases (hfree _ _ hu' v _ hv' rfl).2
    · rcases hnew u _ hu with hu' | ⟨hut, -⟩
      · cases (hfree _ _ hv' u _ hu' rfl).1
      · rw [hvt, hut]

variable {code : τ → List (LockAct ℓ)} {h : List (Entry (Locks τ ℓ) τ Unit)}

theorem Run.inOrder (hr : Run (locking code) h s) (hcode : ∀ t, Ranked rank [] (code t)) : InOrder rank s := by
  apply hr.invariant
  · rintro _ rfl
    exact ⟨hcode, fun _ _ _ _ => nofun⟩
  · intro s t o s' hi hg hs
    cases hs
    exact hi.go hg

/-! ## Progress -/

omit [DecidableEq τ] in
/-- **No deadlock**: where some thread has work left, some thread can make its next step. -/
theorem InOrder.progress [Fintype τ] (hi : InOrder rank s) (hwork : ∃ t, s.code t ≠ []) : ∃ t, s.CanGo t := by
  by_contra hstuck
  push Not at hstuck
  -- a thread that cannot go on waits for a lock
  have hwaits : ∀ t, s.code t ≠ [] → ∃ l m code, s.code t = .take l m :: code := by
    intro t ht
    have := hstuck t
    unfold Locks.CanGo at this
    cases hc : s.code t with
    | nil => exact absurd hc ht
    | cons a code =>
      cases a with
      | take l m => exact ⟨l, m, code, rfl⟩
      | give l => simp [hc] at this
  let waiting := Finset.univ.filter fun t => (s.code t).isEmpty = false
  let wants : τ → Nat := fun t => match s.code t with
    | .take l _ :: _ => rank l
    | _ => 0
  obtain ⟨w, hw⟩ := hwork
  obtain ⟨t, ht, hmax⟩ := waiting.exists_max_image wants ⟨w, by simpa [waiting] using hw⟩
  have htc : s.code t ≠ [] := by simpa [waiting] using ht
  obtain ⟨l, m, code, hc⟩ := hwaits t htc
  -- whoever holds that lock waits for a higher one
  refine hstuck t ?_
  unfold Locks.CanGo
  rw [hc]
  intro u x hx hxl
  have hu := hi.ranked u
  have huc : s.code u ≠ [] := by
    intro hnil
    rw [hnil] at hu
    rw [show s.held u = [] from hu] at hx
    cases hx
  obtain ⟨l', m', code', hc'⟩ := hwaits u huc
  rw [hc'] at hu
  have hlt := hu.1 x hx
  have hle := hmax u (by simpa [waiting] using huc)
  simp only [wants, hc, hc', hxl] at hle hlt
  omega

def Locks.remaining [Fintype τ] (s : Locks τ ℓ) : Nat := ∑ t, (s.code t).length

theorem Locks.CanGo.remaining [Fintype τ] (hg : s.CanGo t) : (s.go t).remaining + 1 = s.remaining := by
  obtain ⟨a, code, hc⟩ := hg.cons
  rw [go_eq hc]
  simp only [Locks.remaining]
  rw [← Finset.add_sum_erase _ _ (Finset.mem_univ t),
    ← Finset.add_sum_erase Finset.univ (fun u => (s.code u).length) (Finset.mem_univ t), hc, Function.update_self]
  have hrest : ∑ u ∈ Finset.univ.erase t, (Function.update s.code t code u).length =
      ∑ u ∈ Finset.univ.erase t, (s.code u).length := by
    apply Finset.sum_congr rfl
    intro u hu
    rw [Function.update_of_ne (Finset.ne_of_mem_erase hu)]
  rw [hrest, List.length_cons]
  omega

omit [DecidableEq τ] [DecidableEq ℓ] in
theorem remaining_eq_zero [Fintype τ] : s.remaining = 0 ↔ ∀ t, s.code t = [] := by
  simp [Locks.remaining]

/-- A run makes the steps that the threads have at its start, and the rest of them is left. -/
theorem Run.length_add_remaining [Fintype τ] (hr : Run (locking code) h s) :
    h.length + s.remaining = Locks.remaining { code } := by
  induction hr with
  | start hs =>
    cases hs
    exact Nat.zero_add _
  | step _ he hs ih =>
    cases hs
    have hrem := Locks.CanGo.remaining he
    rw [List.length_append, List.length_singleton]
    omega

/-- **Completion**: from every state of a run, all threads can get to their ends. -/
theorem Run.completes [Fintype τ] (hr : Run (locking code) h s) (hcode : ∀ t, Ranked rank [] (code t)) :
    ∃ h' s', Run (locking code) (h ++ h') s' ∧ ∀ t, s'.code t = [] ∧ s'.held t = [] := by
  induction hn : s.remaining generalizing h s with
  | zero =>
    have hdone := remaining_eq_zero.mp hn
    refine ⟨[], s, by rwa [List.append_nil], fun t => ⟨hdone t, ?_⟩⟩
    have hranked := (hr.inOrder hcode).ranked t
    rwa [hdone t] at hranked
  | succ n ih =>
    have hwork : ∃ t, s.code t ≠ [] := by
      by_contra hnone
      push Not at hnone
      rw [remaining_eq_zero.mpr hnone] at hn
      omega
    obtain ⟨t, hg⟩ := (hr.inOrder hcode).progress hwork
    have hrem := hg.remaining
    obtain ⟨h', s', hr', hend⟩ := ih (Run.step hr hg rfl) (by omega)
    rw [List.append_assoc] at hr'
    exact ⟨_, s', hr', hend⟩

end

end QWebServer.Lib
