import Mathlib.Algebra.Order.BigOperators.Group.Finset
import Mathlib.Data.Fintype.Basic
import QWebServer.Lib.Run

/-!
# `mutex.h`: sections under a `CASLock`

* `Action`, `Body` : a section is a list of steps on the shared data and the registers of its thread;
* `testAndSet`, `clear` : the flag of the lock; `step` : the next step of a thread, where a round of the loop in `lock`
  is one step, and so is each action of the body;
* `perform` : a whole section at once, `performAll` : sections one after the other;
* `entered` : the sections whose `lock` returned, in order;
* `Sequential` : the data is what these sections make of it, one after the other, the last one perhaps not to its end;
  `sequential` : so it is in every run, `settles` : and from every state all sections come to their ends.
-/

namespace QWebServer

open Lib

namespace CASLock

/-- A step on the shared data `σ` and the registers `ρ` of a thread. -/
abbrev Action (σ ρ : Type) : Type := σ × ρ → σ × ρ

/-- What is done between the constructor and the destructor of a guard. -/
abbrev Body (σ ρ : Type) : Type := List (Action σ ρ)

/-- Where a thread is: outside, in the loop of `lock`, or inside with the rest of its body. -/
inductive Pc (σ ρ : Type)
  | out
  | spin
  | inside (rest : Body σ ρ)

end CASLock

/-- `CASLock`, with the data it guards and the threads that use it. -/
structure CASLock (τ σ ρ : Type) where
  mutex : Bool := false
  shared : σ
  regs : τ → ρ
  pc : τ → CASLock.Pc σ ρ := fun _ => .out
  todo : τ → List (CASLock.Body σ ρ)

namespace CASLock

variable {τ σ ρ : Type}

/-- `atomic_flag_test_and_set`: the old value, and the flag is set. -/
def testAndSet (s : CASLock τ σ ρ) : Bool × CASLock τ σ ρ := (s.mutex, { s with mutex := true })

/-- `unlock`: `atomic_flag_clear`. -/
def unlock (s : CASLock τ σ ρ) : CASLock τ σ ρ := { s with mutex := false }

def Busy (s : CASLock τ σ ρ) (t : τ) : Prop :=
  match s.pc t, s.todo t with
  | .out, [] => False
  | _, _ => True

instance (s : CASLock τ σ ρ) (t : τ) : Decidable (s.Busy t) :=
  match hpc : s.pc t, htodo : s.todo t with
  | .out, [] => isFalse (by simp [Busy, hpc, htodo])
  | .out, _ :: _ => isTrue (by simp [Busy, hpc, htodo])
  | .spin, _ => isTrue (by simp [Busy, hpc])
  | .inside _, _ => isTrue (by simp [Busy, hpc])

section
variable [DecidableEq τ]

def setPc (s : CASLock τ σ ρ) (t : τ) (pc : Pc σ ρ) : CASLock τ σ ρ := { s with pc := Function.update s.pc t pc }

def act (t : τ) (d : σ × (τ → ρ)) (a : Action σ ρ) : σ × (τ → ρ) :=
  ((a (d.1, d.2 t)).1, Function.update d.2 t (a (d.1, d.2 t)).2)

def data (s : CASLock τ σ ρ) : σ × (τ → ρ) := (s.shared, s.regs)

def setData (s : CASLock τ σ ρ) (d : σ × (τ → ρ)) : CASLock τ σ ρ := { s with shared := d.1, regs := d.2 }

/-- The next step of the thread `t`: the call of `lock`, a round of its loop, an action, or `unlock`. -/
def step (s : CASLock τ σ ρ) (t : τ) : CASLock τ σ ρ :=
  match s.pc t, s.todo t with
  | .out, _ => s.setPc t .spin
  | .spin, [] => s
  | .spin, body :: bodies =>
    let (old, s) := s.testAndSet
    if old then s else { s.setPc t (.inside body) with todo := Function.update s.todo t bodies }
  | .inside [], _ => s.unlock.setPc t .out
  | .inside (a :: rest), _ => (s.setData (act t s.data a)).setPc t (.inside rest)

/-- The threads with their sections to do, on the data `d`. -/
def machine (d : σ × (τ → ρ)) (todo : τ → List (Body σ ρ)) : Machine (CASLock τ σ ρ) τ Unit Empty where
  init s := s = { shared := d.1, regs := d.2, todo }
  enabled := Busy
  step s t := .ok ((), s.step t)

instance (d : σ × (τ → ρ)) (todo : τ → List (Body σ ρ)) (s : CASLock τ σ ρ) (t : τ) :
    Decidable ((machine d todo).enabled s t) :=
  inferInstanceAs (Decidable (s.Busy t))

def perform (d : σ × (τ → ρ)) (x : τ × Body σ ρ) : σ × (τ → ρ) := x.2.foldl (act x.1) d

/-- Sections one after the other. -/
def performAll (d : σ × (τ → ρ)) (xs : List (τ × Body σ ρ)) : σ × (τ → ρ) := xs.foldl perform d

def enters (e : Entry (CASLock τ σ ρ) τ Unit) : Option (τ × Body σ ρ) :=
  match e.pre.pc e.inp, e.pre.todo e.inp with
  | .spin, body :: _ => if e.pre.mutex then none else some (e.inp, body)
  | _, _ => none

/-- The sections whose `lock` returned, in order. -/
def entered (h : List (Entry (CASLock τ σ ρ) τ Unit)) : List (τ × Body σ ρ) := h.filterMap enters

def Pc.isInside : Pc σ ρ → Bool
  | .inside _ => true
  | _ => false

/-- **The sections are atomic.** The flag is clear and nobody is inside, and the data is what the sections made of it,
one after the other; or it is set, one thread is inside, and of its section, the last one, a part is done. -/
inductive Sequential (d : σ × (τ → ρ)) (xs : List (τ × Body σ ρ)) (s : CASLock τ σ ρ) : Prop
  | clear (hflag : s.mutex = false) (hout : ∀ t, (s.pc t).isInside = false) (hdata : s.data = performAll d xs)
  | set (hflag : s.mutex = true) {ys : List (τ × Body σ ρ)} {t : τ} {done rest : Body σ ρ}
      (hxs : xs = ys ++ [(t, done ++ rest)]) (hin : s.pc t = .inside rest)
      (hout : ∀ u, u ≠ t → (s.pc u).isInside = false) (hdata : s.data = perform (performAll d ys) (t, done))

/-! ## One step -/

/-- The steps of the thread `t`, with the section that it enters. -/
inductive Move (s : CASLock τ σ ρ) (t : τ) : Option (τ × Body σ ρ) → CASLock τ σ ρ → Prop
  | call {body : Body σ ρ} {bodies : List (Body σ ρ)} (hpc : s.pc t = .out) (htodo : s.todo t = body :: bodies) :
      Move s t none (s.setPc t .spin)
  | round (hpc : s.pc t = .spin) (hflag : s.mutex = true ∨ s.todo t = []) : Move s t none s
  | enter {body : Body σ ρ} {bodies : List (Body σ ρ)} (hpc : s.pc t = .spin) (hflag : s.mutex = false)
      (htodo : s.todo t = body :: bodies) :
      Move s t (some (t, body))
        { s.setPc t (.inside body) with mutex := true, todo := Function.update s.todo t bodies }
  | act {a : Action σ ρ} {rest : Body σ ρ} (hpc : s.pc t = .inside (a :: rest)) :
      Move s t none ((s.setData (CASLock.act t s.data a)).setPc t (.inside rest))
  | leave (hpc : s.pc t = .inside []) : Move s t none (s.unlock.setPc t .out)

/-- **What a step does.** -/
theorem step_move {s : CASLock τ σ ρ} {t : τ} (hb : s.Busy t) : Move s t (enters ⟨s, t, (), s.step t⟩) (s.step t) := by
  unfold Busy at hb
  unfold step enters
  cases hpc : s.pc t with
  | out =>
    cases htodo : s.todo t with
    | nil => simp [hpc, htodo] at hb
    | cons body bodies => exact .call hpc htodo
  | spin =>
    cases htodo : s.todo t with
    | nil => exact .round hpc (.inr htodo)
    | cons body bodies =>
      cases hflag : s.mutex with
      | true =>
        have hs : { s with mutex := true } = s := by rw [← hflag]
        simp only [testAndSet, hflag, if_true, hs]
        exact .round hpc (.inl hflag)
      | false =>
        simp only [testAndSet, hflag, Bool.false_eq_true, if_false]
        exact .enter hpc hflag htodo
  | inside rest =>
    cases rest with
    | nil => exact .leave hpc
    | cons a rest => exact .act hpc

theorem performAll_snoc (d : σ × (τ → ρ)) (xs : List (τ × Body σ ρ)) (x : τ × Body σ ρ) :
    performAll d (xs ++ [x]) = perform (performAll d xs) x := by
  simp [performAll]

theorem perform_snoc (d : σ × (τ → ρ)) (t : τ) (done : Body σ ρ) (a : Action σ ρ) :
    perform d (t, done ++ [a]) = act t (perform d (t, done)) a := by
  simp [perform]

variable {d : σ × (τ → ρ)} {xs : List (τ × Body σ ρ)} {s s' : CASLock τ σ ρ} {t : τ} {x : Option (τ × Body σ ρ)}

omit [DecidableEq τ] in
theorem not_inside {v : τ} {rest : Body σ ρ} (h : (s.pc v).isInside = false) : s.pc v ≠ .inside rest := by
  intro hpc
  rw [hpc] at h
  cases h

/-- A thread that goes to the loop of `lock` or out of its section is not inside. -/
theorem update_isInside {u : τ} {pc : Pc σ ρ} (hpc : pc.isInside = false) (h : u ≠ t → (s.pc u).isInside = false) :
    (Function.update s.pc t pc u).isInside = false := by
  by_cases hu : u = t
  · rw [hu, Function.update_self]
    exact hpc
  · rw [Function.update_of_ne hu]
    exact h hu

theorem Sequential.move (hs : Sequential d xs s) (hm : Move s t x s') : Sequential d (xs ++ x.toList) s' := by
  cases hs with
  | clear hflag hout hdata =>
    cases hm with
    | call hpc htodo =>
      rw [Option.toList_none, List.append_nil]
      exact .clear hflag (fun u => update_isInside rfl fun _ => hout u) hdata
    | round hpc hround =>
      rw [Option.toList_none, List.append_nil]
      exact .clear hflag hout hdata
    | @enter body bodies hpc hclear htodo =>
      have hxs : xs ++ [(t, body)] = xs ++ [(t, [] ++ body)] := rfl
      refine .set rfl hxs (Function.update_self t _ s.pc) (fun u hu => ?_) hdata
      show (Function.update s.pc t _ u).isInside = false
      rw [Function.update_of_ne hu]
      exact hout u
    | act hpc => exact absurd hpc (not_inside (hout t))
    | leave hpc => exact absurd hpc (not_inside (hout t))
  | @set hflag ys v done rest hxs hin hout hdata =>
    cases hm with
    | call hpc htodo =>
      have hv : v ≠ t := by
        rintro rfl
        rw [hin] at hpc
        cases hpc
      rw [Option.toList_none, List.append_nil]
      refine .set hflag hxs ?_ (fun u hu => update_isInside rfl fun _ => hout u hu) hdata
      exact (Function.update_of_ne hv _ _).trans hin
    | round hpc hround =>
      rw [Option.toList_none, List.append_nil]
      exact .set hflag hxs hin hout hdata
    | enter hpc hclear htodo =>
      rw [hflag] at hclear
      cases hclear
    | @act a rest' hpc =>
      obtain rfl : t = v := by
        by_contra hne
        exact not_inside (hout t hne) hpc
      obtain rfl : rest = a :: rest' := Pc.inside.inj (hin.symm.trans hpc)
      have hxs' : xs = ys ++ [(t, (done ++ [a]) ++ rest')] := by
        rw [hxs, List.append_assoc]
        rfl
      rw [Option.toList_none, List.append_nil]
      refine .set hflag hxs' (Function.update_self t _ _) (fun u hu => ?_) ?_
      · show (Function.update s.pc t _ u).isInside = false
        rw [Function.update_of_ne hu]
        exact hout u hu
      · rw [perform_snoc, ← hdata]
        rfl
    | leave hpc =>
      obtain rfl : t = v := by
        by_contra hne
        exact not_inside (hout t hne) hpc
      obtain rfl : rest = [] := Pc.inside.inj (hin.symm.trans hpc)
      rw [Option.toList_none, List.append_nil]
      refine .clear rfl (fun u => update_isInside rfl fun hu => hout u hu) ?_
      rw [hxs, List.append_nil, performAll_snoc, ← hdata]
      rfl

/-! ## Runs -/

/-- Each thread enters its sections in their order, and one in the loop of `lock` has one to enter. -/
structure InTurn (todo : τ → List (Body σ ρ)) (xs : List (τ × Body σ ρ)) (s : CASLock τ σ ρ) : Prop where
  order : ∀ t, todo t = (xs.filter (·.1 = t)).map (·.2) ++ s.todo t
  spins : ∀ t, s.pc t = .spin → s.todo t ≠ []

variable {todo : τ → List (Body σ ρ)}

theorem InTurn.move (hi : InTurn todo xs s) (hm : Move s t x s') : InTurn todo (xs ++ x.toList) s' := by
  have hspin : ∀ (pc : Pc σ ρ) (u : τ), pc ≠ .spin ∨ s.todo t ≠ [] →
      Function.update s.pc t pc u = .spin → s.todo u ≠ [] := by
    intro pc u hpc hu
    by_cases hut : u = t
    · subst hut
      rw [Function.update_self] at hu
      exact hpc.resolve_left fun h => h hu
    · rw [Function.update_of_ne hut] at hu
      exact hi.spins u hu
  cases hm with
  | call hpc htodo =>
    rw [Option.toList_none, List.append_nil]
    exact ⟨hi.order, fun u hu => hspin .spin u (.inr (by simp [htodo])) hu⟩
  | round hpc hround =>
    rw [Option.toList_none, List.append_nil]
    exact hi
  | @enter body bodies hpc hclear htodo =>
    constructor
    · intro u
      show todo u = ((xs ++ [(t, body)]).filter (·.1 = u)).map (·.2) ++ Function.update s.todo t bodies u
      rw [hi.order u, List.filter_append, List.map_append, List.append_assoc]
      congr 1
      by_cases hu : t = u
      · subst hu
        simp [htodo]
      · rw [Function.update_of_ne (Ne.symm hu)]
        simp [hu]
    · intro u hu
      show Function.update s.todo t bodies u ≠ []
      have hut : u ≠ t := by
        rintro rfl
        exact absurd ((Function.update_self u _ s.pc).symm.trans hu) nofun
      rw [Function.update_of_ne hut]
      exact hi.spins u ((Function.update_of_ne hut _ _).symm.trans hu)
  | @act a rest hpc =>
    rw [Option.toList_none, List.append_nil]
    exact ⟨hi.order, fun u hu => hspin (.inside rest) u (.inl nofun) hu⟩
  | leave hpc =>
    rw [Option.toList_none, List.append_nil]
    exact ⟨hi.order, fun u hu => hspin .out u (.inl nofun) hu⟩

variable {h : List (Entry (CASLock τ σ ρ) τ Unit)}

omit [DecidableEq τ] in
theorem entered_snoc (h : List (Entry (CASLock τ σ ρ) τ Unit)) (e : Entry (CASLock τ σ ρ) τ Unit) :
    entered (h ++ [e]) = entered h ++ (enters e).toList := by
  rw [entered, List.filterMap_append]
  cases he : enters e <;> simp [entered, he]

theorem run_sequential (hr : Run (machine d todo) h s) : Sequential d (entered h) s ∧ InTurn todo (entered h) s := by
  induction hr with
  | start hs =>
    cases hs
    exact ⟨.clear rfl (fun _ => rfl) rfl, fun _ => rfl, fun _ => nofun⟩
  | step _ he hs ih =>
    cases hs
    rw [entered_snoc]
    exact ⟨ih.1.move (step_move he), ih.2.move (step_move he)⟩

/-! ## Progress -/

/-- The steps of a thread up to its end, failed rounds of the loop apart. -/
def cost (pc : Pc σ ρ) (todo : List (Body σ ρ)) : Nat :=
  match pc with
  | .out => todo.flatten.length + 3 * todo.length
  | .spin => todo.flatten.length + 3 * todo.length - 1
  | .inside rest => todo.flatten.length + 3 * todo.length + rest.length + 1

variable [Fintype τ]

/-- The steps of all threads. -/
def remaining (s : CASLock τ σ ρ) : Nat := ∑ t, cost (s.pc t) (s.todo t)

/-- One thread comes nearer to its end and the others stay where they are. -/
theorem remaining_lt (hpc : ∀ u, u ≠ t → s'.pc u = s.pc u ∧ s'.todo u = s.todo u)
    (hlt : cost (s'.pc t) (s'.todo t) < cost (s.pc t) (s.todo t)) : s'.remaining < s.remaining := by
  apply Finset.sum_lt_sum
  · intro u _
    by_cases hu : u = t
    · rw [hu]
      exact hlt.le
    · rw [(hpc u hu).1, (hpc u hu).2]
  · exact ⟨t, Finset.mem_univ t, hlt⟩

/-- A step that is not a failed round of the loop comes nearer to the end. -/
theorem Move.nearer (hm : Move s t x s') (hround : s.pc t = .spin → s.mutex = false ∧ s.todo t ≠ []) :
    s'.remaining < s.remaining := by
  cases hm with
  | call hpc htodo =>
    refine remaining_lt (t := t) (fun u hu => ⟨Function.update_of_ne hu _ _, rfl⟩) ?_
    show cost (Function.update s.pc t _ t) (s.todo t) < _
    rw [Function.update_self, hpc, htodo]
    simp only [cost, List.flatten_cons, List.length_append, List.length_cons]
    omega
  | round hpc hflag =>
    obtain ⟨hclear, htodo⟩ := hround hpc
    rcases hflag with h | h
    · rw [hclear] at h
      cases h
    · exact absurd h htodo
  | @enter body bodies hpc hflag htodo =>
    refine remaining_lt (t := t) (fun u hu => ⟨Function.update_of_ne hu _ _, Function.update_of_ne hu _ _⟩) ?_
    show cost (Function.update s.pc t _ t) (Function.update s.todo t bodies t) < _
    rw [Function.update_self, Function.update_self, hpc, htodo]
    simp only [cost, List.flatten_cons, List.length_append, List.length_cons]
    omega
  | act hpc =>
    refine remaining_lt (t := t) (fun u hu => ⟨Function.update_of_ne hu _ _, rfl⟩) ?_
    show cost (Function.update s.pc t _ t) (s.todo t) < _
    rw [Function.update_self, hpc]
    simp only [cost, List.length_cons]
    omega
  | leave hpc =>
    refine remaining_lt (t := t) (fun u hu => ⟨Function.update_of_ne hu _ _, rfl⟩) ?_
    show cost (Function.update s.pc t _ t) (s.todo t) < _
    rw [Function.update_self, hpc]
    simp only [cost]
    omega

omit [Fintype τ] in
/-- **Somebody comes nearer**: the thread inside, or, with the flag clear, anyone. -/
theorem Sequential.chosen (hs : Sequential d xs s) (hi : InTurn todo xs s) (hb : ∃ t, s.Busy t) :
    ∃ t, s.Busy t ∧ (s.pc t = .spin → s.mutex = false ∧ s.todo t ≠ []) := by
  cases hs with
  | clear hflag hout hdata =>
    obtain ⟨t, ht⟩ := hb
    exact ⟨t, ht, fun hpc => ⟨hflag, hi.spins t hpc⟩⟩
  | @set hflag ys t done rest hxs hin hout hdata =>
    refine ⟨t, by simp [Busy, hin], fun hpc => ?_⟩
    rw [hin] at hpc
    cases hpc

omit [Fintype τ] [DecidableEq τ] in
theorem not_busy (hb : ¬ s.Busy t) : s.pc t = .out ∧ s.todo t = [] := by
  unfold Busy at hb
  split at hb
  · exact ⟨by assumption, by assumption⟩
  · exact absurd trivial hb

theorem settles (hr : Run (machine d todo) h s) :
    ∃ h' s', Run (machine d todo) (h ++ h') s' ∧ ∀ t, ¬ s'.Busy t := by
  induction hn : s.remaining using Nat.strong_induction_on generalizing h s with
  | _ n ih =>
    by_cases hb : ∃ t, s.Busy t
    · obtain ⟨hseq, hturn⟩ := run_sequential hr
      obtain ⟨t, ht, hround⟩ := hseq.chosen hturn hb
      have hlt := (step_move ht).nearer hround
      rw [hn] at hlt
      obtain ⟨h', s', hr', hend⟩ := ih _ hlt (Run.step hr ht rfl) rfl
      rw [List.append_assoc] at hr'
      exact ⟨_, s', hr', hend⟩
    · exact ⟨[], s, by rwa [List.append_nil], fun t ht => hb ⟨t, ht⟩⟩

/-- **Sections under a `CASLock` are atomic.** In every run the data is what the sections make of it one after the
other, in the order in which their `lock` returned, and each thread's sections are in their order; at most one thread is
inside. From every state all sections can come to their ends, and then the data is what all of them make of it. -/
theorem sequential (d : σ × (τ → ρ)) (todo : τ → List (Body σ ρ)) {h : List (Entry (CASLock τ σ ρ) τ Unit)}
    {s : CASLock τ σ ρ} (hr : Run (machine d todo) h s) :
    Sequential d (entered h) s ∧
      (∀ t, todo t = ((entered h).filter (·.1 = t)).map (·.2) ++ s.todo t) ∧
      ∃ h' s', Run (machine d todo) (h ++ h') s' ∧ (∀ t, ¬ s'.Busy t) ∧
        s'.data = performAll d (entered (h ++ h')) ∧
        ∀ t, todo t = ((entered (h ++ h')).filter (·.1 = t)).map (·.2) := by
  obtain ⟨hseq, hturn⟩ := run_sequential hr
  obtain ⟨h', s', hr', hend⟩ := settles hr
  obtain ⟨hseq', hturn'⟩ := run_sequential hr'
  refine ⟨hseq, hturn.order, h', s', hr', hend, ?_, fun t => ?_⟩
  · cases hseq' with
    | clear hflag hout hdata => exact hdata
    | @set hflag ys t done rest hxs hin hout hdata =>
      rw [(not_busy (hend t)).1] at hin
      cases hin
  · rw [hturn'.order t, (not_busy (hend t)).2, List.append_nil]

end

/-- A counter is read, and then written with one more. -/
def increment : Body Nat Nat := [fun x => (x.1, x.1), fun x => (x.2 + 1, x.2)]

/-- Two threads increment a counter; the second one spins while the first one is inside. No increment is lost. -/
theorem sequential_increments : ∃ h s, Run (machine (0, fun _ => 0) fun _ : Bool => [increment]) h s ∧ s.shared = 2 ∧
    Sequential (0, fun _ => 0) (entered h) s := by
  obtain ⟨h, s, hr, hp⟩ := Run.of_replay (machine (0, fun _ => 0) fun _ : Bool => [increment]) rfl
    [true, true, false, false, true, false, true, true, false, false, false, false]
    (fun r => decide (r.2.shared = 2)) (by decide)
  exact ⟨h, s, hr, of_decide_eq_true hp, (sequential _ _ hr).1⟩

end CASLock

end QWebServer
