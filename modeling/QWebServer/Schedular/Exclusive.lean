import Mathlib.Data.Fintype.Basic
import QWebServer.Schedular.Hands

/-!
# Exclusive execution of fibers

The workers of a scheduler run beside the fibers' own suspension steps, and fibers come back into the queue through
`triggerEvent`, the sleep timers and the `READY` requeue only.

* `Exclusive` : no two workers execute a fiber, and a fiber is swapped in with its context saved;
* `Pc.suspends` : the worker is between the store of `YieldToHold` and its own update after the swap;
* `Settled` : a scan takes no entry of such a fiber, `exclusive` : runs of such steps keep `Exclusive`;
* `exclusive_fails` : a fiber that is triggered between the two is executed by two workers.
-/

namespace QWebServer.Schedular

open Lib

variable {τ κ : Type}

def Pc.executes : Pc κ → Option Addr
  | .exec f _ _ => some f
  | _ => none

def Pc.swapsIn : Pc κ → Option Addr
  | .swapIn _ f _ => some f
  | .load _ f _ => some f
  | _ => none

/-- No fiber is executed by two workers, and one that is swapped in has its context saved. -/
structure Exclusive (s : Schedular τ κ) : Prop where
  one : ∀ t t' f, (s.workers t).pc.executes = some f → (s.workers t').pc.executes = some f → t = t'
  saved : ∀ t f, (s.workers t).pc.swapsIn = some f → (s.fibers f).saved = true

/-- The fiber that has stored `HOLD` in `YieldToHold`, while the worker has not made the update after the swap yet. -/
def Pc.suspends : Pc κ → Option Addr
  | .exec f _ (.leaving .hold) => some f
  | .back f _ .hold => some f
  | .check f _ .hold => some f
  | .update f _ => some f
  | _ => none

/-- The first entry that the worker `t` does not skip. -/
def next (ids : Threads τ) (s : Schedular τ κ) (t : τ) : Option (Item κ) :=
  s.queue.find? fun x => ¬ Skips (ids.id t) s.fibers x

/-- A scan does not take an entry of a fiber that a worker still suspends. -/
def Settled (ids : Threads τ) (s : Schedular τ κ) : Label τ κ → Prop
  | .work t _ => (s.workers t).pc.scans = true → ∀ x ∈ next ids s t, ∀ f ∈ x.ft.fiber,
      ∀ v, (s.workers v).pc.suspends ≠ some f
  | _ => True

instance [Fintype τ] (ids : Threads τ) (s : Schedular τ κ) : (l : Label τ κ) → Decidable (Settled ids s l)
  | .work _ _ => inferInstanceAs (Decidable (_ → _))
  | .act _ _ => isTrue trivial
  | .schedule _ => isTrue trivial
  | .newFiber _ _ => isTrue trivial
  | .trigger _ => isTrue trivial

/-- What a worker has in its hand and is queued all the same is a fiber that it suspends, or one that is executed. -/
theorem Inv.suspends {s : Schedular τ κ} (hi : Inv s) {v : τ} {f : Addr} (hh : s.Holds v f) (hq : 0 < s.tokens f)
    (hne : (s.fibers f).state ≠ .exec) : (s.workers v).pc.suspends = some f := by
  obtain ⟨hf, hwait⟩ := (hi.worker v).quiet f hh hq
  have hst := (hi.worker v).state f hf
  cases hpc : (s.workers v).pc with
  | exec g via p =>
    rw [hpc] at hf hwait hst
    obtain rfl : g = f := Option.some.inj hf
    cases p with
    | running => exact absurd hst hne
    | published => exact absurd hst hne
    | leaving o =>
      obtain rfl : o = .hold := hwait
      rfl
  | back g via o =>
    rw [hpc] at hf hwait
    obtain rfl : o = .hold := hwait
    exact hf
  | check g via o =>
    rw [hpc] at hf hwait
    obtain rfl : o = .hold := hwait
    exact hf
  | update g via =>
    rw [hpc] at hf
    exact hf
  | _ =>
    rw [hpc] at hwait
    exact hwait.elim

theorem Pc.fiber_of_executes {pc : Pc κ} {f : Addr} (h : pc.executes = some f) : pc.fiber = some f := by
  cases pc with
  | exec g via p => exact h
  | _ => cases h

theorem Pc.fiber_of_swapsIn {pc : Pc κ} {f : Addr} (h : pc.swapsIn = some f) : pc.fiber = some f ∧ ¬ pc.runs := by
  cases pc with
  | swapIn x g via => exact ⟨h, id⟩
  | load x g via => exact ⟨h, id⟩
  | _ => cases h

theorem Inv.excludes {s : Schedular τ κ} (hi : Inv s) : Exclusive s := by
  constructor
  · intro t t' f h h'
    exact hi.one t t' f (.inl (Pc.fiber_of_executes h)) (.inl (Pc.fiber_of_executes h'))
  · intro t f h
    obtain ⟨hf, hruns⟩ := Pc.fiber_of_swapsIn h
    by_contra hsv
    exact hruns ((hi.here rfl hf).2.2.1 (by simpa using hsv))

theorem Inv.clear {ids : Threads τ} {s : Schedular τ κ} {l : Label τ κ} (hi : Inv s) (hs : Settled ids s l) :
    Clear ids s l := by
  cases l with
  | work t a =>
    intro hpc p x r f hq hskip hx hf v hv
    have hnext : next ids s t = some x := by
      apply List.find?_eq_some_iff_append.mpr
      exact ⟨by simpa using hx, p, r, hq, by simpa using hskip⟩
    apply hs (by simp [hpc, Pc.scans]) x hnext f hf v
    apply hi.suspends hv
    · exact tokens_pos_of_mem (x := x) (by simp [hq]) hf
    · exact fun hst => hx (.inr ⟨f, hf, hst⟩)
  | _ => trivial

/-! ## Runs -/

/-- The framework's steps: callbacks are scheduled, fibers come back when they are triggered, or as `READY`. -/
def Framework (s : Schedular τ κ) : Label τ κ → Prop
  | .schedule fts => ∀ ft ∈ fts, ft.fiber = none
  | .newFiber a _ => a ∉ s.created
  | .trigger f => f ∈ s.waiting
  | .work t a => Ready s (.work t a)
  | .act t x => Ready s (.act t x)

instance (s : Schedular τ κ) : (l : Label τ κ) → Decidable (Framework s l)
  | .schedule fts => inferInstanceAs (Decidable (∀ ft ∈ fts, ft.fiber = none))
  | .newFiber a _ => inferInstanceAs (Decidable (a ∉ s.created))
  | .trigger f => inferInstanceAs (Decidable (f ∈ s.waiting))
  | .work t a => inferInstanceAs (Decidable (Ready s (.work t a)))
  | .act t x => inferInstanceAs (Decidable (Ready s (.act t x)))

theorem Framework.ready {s : Schedular τ κ} {l : Label τ κ} (h : Framework s l) : Ready s l := by
  cases l with
  | work t a => exact h
  | act t x => exact h
  | _ => trivial

theorem Framework.proper {s : Schedular τ κ} {l : Label τ κ} (h : Framework s l) : Proper s l := by
  cases l with
  | schedule fts =>
    have hnil : fts.filterMap (·.fiber) = [] := List.filterMap_eq_nil_iff.mpr h
    refine ⟨by simp [hnil], fun f hf => ?_⟩
    rw [hnil] at hf
    cases hf
  | _ => exact h

section
variable [DecidableEq τ]

def framework (ids : Threads τ) : Machine (Schedular τ κ) (Label τ κ) Reply Fault where
  init := fun s => s = {}
  enabled := Framework
  step := step ids

instance (ids : Threads τ) (s : Schedular τ κ) (l : Label τ κ) : Decidable ((framework ids).enabled s l) :=
  inferInstanceAs (Decidable (Framework s l))

/-- **Exclusive execution.** A run keeps the fibers exclusive as long as no scan takes an entry of a fiber that a worker
still suspends. -/
theorem exclusive (ids : Threads τ) {h : List (Entry (Schedular τ κ) (Label τ κ) Reply)} {s : Schedular τ κ}
    (hr : Run (framework ids) h s) (hs : ∀ e ∈ h, Settled ids e.pre e.inp) : Exclusive s := by
  suffices hi : Inv s from hi.excludes
  refine hr.invariant_of hs ?_ ?_
  · rintro _ rfl
    exact Inv.empty
  · rintro e hi ⟨hen, hstep⟩ hl
    exact hi.move (Framework.proper hen) (hi.clear hl) (step_move (Framework.ready hen) hstep)

end

/-! ## Two workers -/

/-- The worker `false` runs a callback, in the fiber 1, which is published and stores `HOLD` in `YieldToHold`. -/
def suspension : List (Label Bool Nat) :=
  [.schedule [{ cb := some 0 }], .work false 1, .work false 1, .work false 2, .work false 2, .act false .publish,
    .act false .yieldToHold]

/-- The fiber 1 is triggered, and the worker `true` takes it and swaps it in. -/
def resumption : List (Label Bool Nat) :=
  .trigger 1 :: List.replicate 4 (.work true 2)

theorem exclusive_settled : ∃ h s, Run (framework (κ := Nat) twoThreads) h s ∧
    (∀ e ∈ h, Settled twoThreads e.pre e.inp) ∧ (s.workers true).pc.executes = some 1 ∧ Exclusive s := by
  obtain ⟨h, s, hr, hp⟩ := Run.of_replay (framework (κ := Nat) twoThreads) rfl
    (suspension ++ List.replicate 4 (.work false 2) ++ resumption)
    (fun r => decide ((∀ e ∈ r.1, Settled twoThreads e.pre e.inp) ∧ (r.2.workers true).pc.executes = some 1))
    (by decide)
  obtain ⟨hs, hone⟩ := of_decide_eq_true hp
  exact ⟨h, s, hr, hs, hone, exclusive twoThreads hr hs⟩

/-- The fiber 1 is triggered right after its store of `HOLD`: it is swapped in before its context is saved, and then
both workers execute it. -/
theorem exclusive_fails :
    (∃ h s, Run (framework (κ := Nat) twoThreads) h s ∧
      (s.workers true).pc.swapsIn = some 1 ∧ (s.fibers 1).saved = false) ∧
    ∃ h s, Run (framework (κ := Nat) twoThreads) h s ∧
      (s.workers false).pc.executes = some 1 ∧ (s.workers true).pc.executes = some 1 := by
  constructor
  · obtain ⟨h, s, hr, hp⟩ := Run.of_replay (framework (κ := Nat) twoThreads) rfl
      (suspension ++ resumption.dropLast)
      (fun r => decide ((r.2.workers true).pc.swapsIn = some 1 ∧ (r.2.fibers 1).saved = false)) (by decide)
    exact ⟨h, s, hr, of_decide_eq_true hp⟩
  · obtain ⟨h, s, hr, hp⟩ := Run.of_replay (framework (κ := Nat) twoThreads) rfl (suspension ++ resumption)
      (fun r => decide ((r.2.workers false).pc.executes = some 1 ∧ (r.2.workers true).pc.executes = some 1))
      (by decide)
    exact ⟨h, s, hr, of_decide_eq_true hp⟩

end QWebServer.Schedular
