import QWebServer.Lib.Run
import QWebServer.Config.Registry

/-!
# Variables that several threads look up

* `Lookups`, `machine` : `Config::Lookup` with a default value, its search without the lock and the rest under it as two
  steps, `Config::Lookup` and `LookupBase` without one, of all threads in any order;
* `Answered` : what a call returns against the variables at that time;
* `Given h name p` : the variable `p` was returned for the name;
* `Fills`, `one_variable_iff` : a name has one variable in a whole run exactly when every insertion finds the name
  absent.

The variables are told apart by their objects, `ρ` is what `dynamic_pointer_cast` sees of their types.
-/

namespace QWebServer

open Lib

/-- A call of `Lookup` between its search and its lock: whether `it` is the end. -/
structure Lookups.Pending (ρ : Type) where
  name : Text
  type : ρ
  found : Bool

/-- `GetDatas()`, the types of the variables made so far, and the calls on the way. -/
structure Lookups (ρ : Type) where
  datas : Text → Option Nat
  type : Nat → ρ
  next : Nat
  pending : Nat → Option (Lookups.Pending ρ)

namespace Lookups

variable {ρ : Type}

/-- The search of a call on a thread, the rest of it, and the calls that create nothing. -/
inductive Op (ρ : Type)
  | find (t : Nat) (name : Text) (type : ρ)
  | rest (t : Nat)
  | lookup (name : Text) (type : ρ)
  | base (name : Text)

/-- What a step returns: nothing yet, a pointer to a variable of a type, a pointer to one of any type, or an
exception. -/
inductive Reply (ρ : Type)
  | going
  | var (name : Text) (type : ρ) (p : Option Nat)
  | base (name : Text) (p : Option Nat)
  | invalidArgument (name : Text)

section
variable [DecidableEq ρ]

/-- `std::dynamic_pointer_cast<ConfigVar<T>>(p)`. -/
def cast (s : Lookups ρ) (type : ρ) (p : Option Nat) : Option Nat := p.filter fun p => s.type p = type

/-- The part of `Lookup` under the write lock. -/
def locked (s : Lookups ρ) (x : Pending ρ) : Reply ρ × Lookups ρ :=
  if x.found then (.var x.name x.type (s.cast x.type (s.datas x.name)), s)
  else if validName x.name then
    (.var x.name x.type (some s.next), { s with
      datas := Function.update s.datas x.name (some s.next)
      type := Function.update s.type s.next x.type
      next := s.next + 1 })
  else (.invalidArgument x.name, s)

def step (s : Lookups ρ) : Op ρ → Reply ρ × Lookups ρ
  | .find t name type =>
    (.going, { s with pending := Function.update s.pending t (some ⟨name, type, (s.datas name).isSome⟩) })
  | .rest t => (s.pending t).elim (.going, s) fun x => { s with pending := Function.update s.pending t none }.locked x
  | .lookup name type => (.var name type (s.cast type (s.datas name)), s)
  | .base name => (.base name (s.datas name), s)

/-- A thread makes one call at a time. -/
def enabled (s : Lookups ρ) : Op ρ → Prop
  | .find t _ _ => s.pending t = none
  | .rest t => s.pending t ≠ none
  | _ => True

def machine (ρ : Type) [DecidableEq ρ] : Machine (Lookups ρ) (Op ρ) (Reply ρ) Empty where
  init s := s.datas = (fun _ => none) ∧ s.next = 0 ∧ s.pending = fun _ => none
  enabled := enabled
  step s op := .ok (s.step op)

abbrev Calls (ρ : Type) := List (Entry (Lookups ρ) (Op ρ) (Reply ρ))

/-- The reply hands out the variable `p` for the name. -/
def Reply.Gives (name : Text) (p : Nat) : Reply ρ → Prop
  | var name' _ p' => name' = name ∧ p' = some p
  | base name' p' => name' = name ∧ p' = some p
  | _ => False

def Given (h : Calls ρ) (name : Text) (p : Nat) : Prop := ∃ e ∈ h, e.out.Gives name p

/-- What is returned, against the variables after the step: a variable has the name and the type that were asked for,
and is a null pointer only where the name has no variable or one of another type; the exception is for a name with other
characters, which has no variable. -/
def Answered (s : Lookups ρ) : Reply ρ → Prop
  | .going => True
  | .var name type (some p) => s.datas name = some p ∧ s.type p = type ∧ validName name = true
  | .var name type none => ∀ p, s.datas name = some p → s.type p ≠ type
  | .base name p => s.datas name = p
  | .invalidArgument name => validName name = false ∧ s.datas name = none

/-- The part under the lock inserts at a name that is absent. -/
def Fills (s : Lookups ρ) : Op ρ → Prop
  | .rest t => ∀ x, s.pending t = some x → x.found = false → validName x.name = true → s.datas x.name = none
  | _ => True

/-! ## The steps -/

variable {s : Lookups ρ} {h : Calls ρ}

theorem cast_eq_some {type : ρ} {o : Option Nat} {p : Nat} : s.cast type o = some p ↔ o = some p ∧ s.type p = type := by
  rw [cast, Option.filter_eq_some_iff, decide_eq_true_eq]

theorem cast_eq_none {type : ρ} {o : Option Nat} : s.cast type o = none ↔ ∀ p, o = some p → s.type p ≠ type := by
  rw [cast, Option.filter_eq_none_iff]
  simp

/-- The variables of the map are made, and their names are valid. -/
def Sound (s : Lookups ρ) : Prop := ∀ name p, s.datas name = some p → p < s.next ∧ validName name = true

structure Same (s s' : Lookups ρ) : Prop where
  datas : s'.datas = s.datas
  type : s'.type = s.type
  next : s'.next = s.next

/-- **What a step does**: it leaves the variables and returns what is in the map, or it makes a variable. -/
inductive Moved (s s' : Lookups ρ) (op : Op ρ) (r : Reply ρ) : Prop
  | same (hsame : s.Same s') (hanswer : s'.Answered r) (hgives : ∀ name p, r.Gives name p → s.datas name = some p)
      (hfills : s.Fills op)
  | made {t : Nat} {x : Pending ρ} (hop : op = .rest t) (hpending : s.pending t = some x) (hfound : x.found = false)
      (hname : validName x.name = true) (hreply : r = .var x.name x.type (some s.next))
      (hdatas : s'.datas = Function.update s.datas x.name (some s.next))
      (htype : s'.type = Function.update s.type s.next x.type) (hnext : s'.next = s.next + 1)

theorem answered_cast (hs : s.Sound) (name : Text) (type : ρ) :
    s.Answered (.var name type (s.cast type (s.datas name))) := by
  cases hc : s.cast type (s.datas name) with
  | none => exact cast_eq_none.mp hc
  | some p =>
    obtain ⟨hp, htype⟩ := cast_eq_some.mp hc
    exact ⟨hp, htype, (hs name p hp).2⟩

theorem gives_cast {name name' : Text} {type : ρ} {p : Nat}
    (hg : (Reply.var name type (s.cast type (s.datas name))).Gives name' p) : s.datas name' = some p := by
  obtain ⟨rfl, hp⟩ := hg
  exact (cast_eq_some.mp hp).1

theorem step_moved (hs : s.Sound) (op : Op ρ) : Moved s (s.step op).2 op (s.step op).1 := by
  cases op with
  | find t name type => exact .same ⟨rfl, rfl, rfl⟩ trivial (fun _ _ hg => False.elim hg) trivial
  | lookup name type => exact .same ⟨rfl, rfl, rfl⟩ (answered_cast hs name type) (fun _ _ => gives_cast) trivial
  | base name =>
    refine .same ⟨rfl, rfl, rfl⟩ rfl (fun name' p hg => ?_) trivial
    obtain ⟨rfl, hp⟩ := hg
    exact hp
  | rest t =>
    have hstep : s.step (.rest t) =
        (s.pending t).elim (.going, s) fun x => { s with pending := Function.update s.pending t none }.locked x := rfl
    rw [hstep]
    cases hx : s.pending t with
    | none =>
      refine .same ⟨rfl, rfl, rfl⟩ trivial (fun _ _ hg => False.elim hg) fun x hpending => ?_
      rw [hx] at hpending
      cases hpending
    | some x =>
      show Moved s (locked { s with pending := Function.update s.pending t none } x).2 (.rest t)
        (locked { s with pending := Function.update s.pending t none } x).1
      unfold locked
      by_cases hfound : x.found = true
      · rw [if_pos hfound]
        refine .same ⟨rfl, rfl, rfl⟩ (answered_cast hs x.name x.type) (fun _ _ => gives_cast) fun y hy hnot => ?_
        rw [hx] at hy
        cases hy
        rw [hfound] at hnot
        cases hnot
      · rw [if_neg hfound]
        rw [Bool.not_eq_true] at hfound
        by_cases hname : validName x.name = true
        · rw [if_pos hname]
          exact .made rfl hx hfound hname rfl rfl rfl rfl
        · rw [if_neg hname]
          have habsent : s.datas x.name = none := by
            rw [Option.eq_none_iff_forall_ne_some]
            exact fun p hp => hname (hs x.name p hp).2
          refine .same ⟨rfl, rfl, rfl⟩ ⟨Bool.eq_false_iff.mpr hname, habsent⟩ (fun _ _ hg => False.elim hg)
            fun y hy _ _ => ?_
          rw [hx] at hy
          cases hy
          exact habsent

omit [DecidableEq ρ] in
theorem Sound.step {s' : Lookups ρ} {op : Op ρ} {r : Reply ρ} (hs : s.Sound) (hm : Moved s s' op r) : s'.Sound := by
  cases hm with
  | same hsame =>
    intro name p hp
    rw [hsame.datas] at hp
    rw [hsame.next]
    exact hs name p hp
  | @made t x _ _ _ hname _ hdatas _ hnext =>
    intro name p hp
    rw [hdatas, Function.update_apply] at hp
    rw [hnext]
    split_ifs at hp with hn
    · cases hp
      rw [hn]
      exact ⟨Nat.lt_succ_self _, hname⟩
    · exact ⟨Nat.lt_succ_of_lt (hs name p hp).1, (hs name p hp).2⟩

theorem moved_of_step {s' : Lookups ρ} {op : Op ρ} {r : Reply ρ} (hs : s.Sound)
    (h : (machine ρ).step s op = .ok (r, s')) : Moved s s' op r := by
  have heq : s.step op = (r, s') := Except.ok.inj h
  have hm := step_moved hs op
  rw [heq] at hm
  exact hm

theorem run_sound (hr : Run (machine ρ) h s) : s.Sound := by
  refine hr.invariant ?_ fun s op r t hs _ hstep => ?_
  · rintro s ⟨hdatas, -, -⟩ name p hp
    rw [hdatas] at hp
    cases hp
  · exact hs.step (moved_of_step hs hstep)

theorem run_moved {e : Entry (Lookups ρ) (Op ρ) (Reply ρ)} (hr : Run (machine ρ) h e.pre)
    (he : (machine ρ).Steps e) : Moved e.pre e.post e.inp e.out :=
  moved_of_step (run_sound hr) he.2

/-! ## The variables of a name -/

omit [DecidableEq ρ] in
theorem given_concat {e : Entry (Lookups ρ) (Op ρ) (Reply ρ)} {name : Text} {p : Nat} :
    Given (h ++ [e]) name p ↔ Given h name p ∨ e.out.Gives name p := by
  unfold Given
  simp only [List.mem_append, List.mem_singleton, or_and_right, exists_or, exists_eq_left]

/-- What has been returned against the map: the variables in it have been returned, and those that have been returned
are made; where every insertion found its name absent, they are still in it. -/
structure Kept (h : Calls ρ) (s : Lookups ρ) : Prop where
  given : ∀ name p, s.datas name = some p → Given h name p
  made : ∀ name p, Given h name p → p < s.next
  stays : (∀ e ∈ h, e.pre.Fills e.inp) → ∀ name p, Given h name p → s.datas name = some p

omit [DecidableEq ρ] in
theorem not_given_nil {name : Text} {p : Nat} : ¬ Given ([] : Calls ρ) name p := by
  rintro ⟨e, he, -⟩
  cases he

theorem run_kept (hr : Run (machine ρ) h s) : Kept h s := by
  induction hr with
  | start hinit =>
    obtain ⟨hdatas, -, -⟩ := hinit
    refine ⟨fun name p hp => ?_, fun name p hg => absurd hg not_given_nil, fun _ name p hg => absurd hg not_given_nil⟩
    rw [hdatas] at hp
    cases hp
  | @step h s s' op r hr he hstep ih =>
    have hs := run_sound hr
    have hm : Moved s s' op r := run_moved (e := ⟨s, op, r, s'⟩) hr ⟨he, hstep⟩
    cases hm with
    | same hsame _ hgives _ =>
      refine ⟨fun name p hp => ?_, fun name p hg => ?_, fun hfills name p hg => ?_⟩
      · rw [hsame.datas] at hp
        exact given_concat.mpr (.inl (ih.given name p hp))
      · rw [hsame.next]
        rcases given_concat.mp hg with hg | hg
        · exact ih.made name p hg
        · exact (hs name p (hgives name p hg)).1
      · rw [hsame.datas]
        rcases given_concat.mp hg with hg | hg
        · exact ih.stays (fun e he => hfills e (List.mem_append_left _ he)) name p hg
        · exact hgives name p hg
    | @made t x hop hpending hfound hname hreply hdatas _ hnext =>
      have hgives : ∀ name p, r.Gives name p ↔ name = x.name ∧ p = s.next := by
        intro name p
        rw [hreply]
        show x.name = name ∧ some s.next = some p ↔ _
        rw [Option.some_inj, eq_comm, eq_comm (a := s.next)]
      refine ⟨fun name p hp => ?_, fun name p hg => ?_, fun hfills name p hg => ?_⟩
      · rw [hdatas, Function.update_apply] at hp
        rw [given_concat]
        split_ifs at hp with hn
        · exact .inr ((hgives name p).mpr ⟨hn, (Option.some.inj hp).symm⟩)
        · exact .inl (ih.given name p hp)
      · rw [hnext]
        rcases given_concat.mp hg with hg | hg
        · exact Nat.lt_succ_of_lt (ih.made name p hg)
        · rw [((hgives name p).mp hg).2]
          exact Nat.lt_succ_self _
      · rw [hdatas, Function.update_apply]
        rcases given_concat.mp hg with hg | hg
        · have hp := ih.stays (fun e he => hfills e (List.mem_append_left _ he)) name p hg
          rw [if_neg]
          · exact hp
          · -- the insertion finds the name absent
            rintro rfl
            have hfill : s.Fills op := hfills ⟨s, op, r, s'⟩ (by simp)
            rw [hop] at hfill
            rw [hfill x hpending hfound hname] at hp
            cases hp
        · obtain ⟨hn, rfl⟩ := (hgives name p).mp hg
          rw [if_pos hn]

/-- An insertion that finds its name present gives the name a second variable. -/
theorem fills_of_single {e : Entry (Lookups ρ) (Op ρ) (Reply ρ)} (hr : Run (machine ρ) h e.pre)
    (he : (machine ρ).Steps e) (hone : ∀ name p q, Given (h ++ [e]) name p → Given (h ++ [e]) name q → p = q) :
    e.pre.Fills e.inp := by
  cases run_moved hr he with
  | same _ _ _ hfills => exact hfills
  | @made t x hop hpending _ _ hreply =>
    have hk := run_kept hr
    rw [hop]
    intro y hy _ _
    rw [hpending] at hy
    cases hy
    rw [Option.eq_none_iff_forall_ne_some]
    intro p hp
    have hgiven := hk.given x.name p hp
    have hgives : e.out.Gives x.name e.pre.next := by
      rw [hreply]
      exact ⟨rfl, rfl⟩
    have hsame := hone x.name p e.pre.next (given_concat.mpr (.inl hgiven)) (given_concat.mpr (.inr hgives))
    exact absurd (hk.made x.name p hgiven) (by omega)

omit [DecidableEq ρ] in
theorem answered_of_moved {s' : Lookups ρ} {op : Op ρ} {r : Reply ρ} (hm : Moved s s' op r) : s'.Answered r := by
  cases hm with
  | same _ hanswer => exact hanswer
  | @made t x _ _ _ hname hreply hdatas htype =>
    rw [hreply]
    refine ⟨?_, ?_, hname⟩
    · rw [hdatas, Function.update_self]
    · rw [htype, Function.update_self]

/-- **One variable for a name.** Whatever the threads look up, in any order, a variable that is returned has the name
and the type that were asked for, and the exception is for names with other characters only. All that is returned for a
name in a run is one variable exactly when every insertion of the run finds its name absent. -/
theorem one_variable_iff (hr : Run (machine ρ) h s) : (∀ e ∈ h, e.post.Answered e.out) ∧
    ((∀ name p q, Given h name p → Given h name q → p = q) ↔ ∀ e ∈ h, e.pre.Fills e.inp) := by
  refine ⟨fun e he => ?_, fun hone e he => ?_, fun hfills name p q hp hq => ?_⟩
  · obtain ⟨h₁, hr₁, hsteps⟩ := hr.mem he
    exact answered_of_moved (run_moved hr₁ hsteps)
  · obtain ⟨h₁, h₂, rfl⟩ := List.append_of_mem he
    have hsub : ∀ name p, Given (h₁ ++ [e]) name p → Given (h₁ ++ e :: h₂) name p := by
      rintro name p ⟨e', he', hg⟩
      exact ⟨e', by simp only [List.mem_append, List.mem_cons] at he' ⊢; tauto, hg⟩
    have hcut := hr.cut rfl
    exact fills_of_single hcut.1 hcut.2 fun name p q hp hq => hone name p q (hsub name p hp) (hsub name q hq)
  · have hstays := (run_kept hr).stays hfills name
    exact Option.some.inj ((hstays p hp).symm.trans (hstays q hq))

end

def empty : Lookups Unit where
  datas _ := none
  type _ := ()
  next := 0
  pending _ := none

/-- Two threads that both search before one of them inserts. -/
theorem one_variable_iff_raced : ∃ h s, Run (machine Unit) h s ∧
    ¬ ∀ name p q, Given h name p → Given h name q → p = q := by
  have hr := Run.start (M := machine Unit) (s := empty) ⟨rfl, rfl, rfl⟩
  have hr := hr.step (i := .find 0 "port".toList ()) (by exact rfl) rfl
  have hr := hr.step (i := .find 1 "port".toList ()) (by exact rfl) rfl
  have hr := hr.step (i := .rest 0) (by exact Option.some_ne_none _) rfl
  have hr := hr.step (i := .rest 1) (by exact Option.some_ne_none _) rfl
  refine ⟨_, _, hr, fun hone => ?_⟩
  have hfills := (one_variable_iff hr).2.mp hone _ (List.mem_append_right _ (List.mem_singleton_self _))
  have habsent := hfills ⟨"port".toList, (), false⟩ rfl rfl (by decide)
  cases habsent

end Lookups

end QWebServer
