import Mathlib
import QWebServer.Timer.Good

/-!
# When a timer fires early

`listExpiredCb` takes every timer when `detectClockRollover` reports that the clock jumped, and it compares the clock
with `m_previouseTime`, which a call that finds the set empty does not update.

* `ClockRises`, `Hourly`, `Fits` : nondecreasing readings, calls of `listExpiredCb` at most one hour apart, and no
  overflow of the deadlines;
* `NoEarly` : no callback of a run belongs to a timer that is not due;
* `Punctual` : the clock is at most one hour past `m_previouseTime`, or it does not matter;
* `noEarly_iff` : a run has no early callback exactly when each of its calls of `listExpiredCb` is punctual;
* `Delivered` : what becomes of a timer that is taken, `listExpiredCb_exact` : a call takes the timers that are due.
-/

namespace QWebServer.TimerManager

open Lib

variable {κ : Type}

abbrev History (κ : Type) := List (Entry (TimerManager κ) (Call κ) (Reply κ))

def ClockRises (h : History κ) : Prop := h.Pairwise fun e e' => e.inp.now ≤ e'.inp.now

instance (h : History κ) : Decidable (ClockRises h) :=
  inferInstanceAs (Decidable (List.Pairwise _ _))

def listReadings (h : History κ) : List UInt64 :=
  h.filterMap fun e => match e.inp.op with
    | .listExpiredCb _ => some e.inp.now
    | _ => none

/-- Consecutive calls of `listExpiredCb` are at most one hour apart. -/
def Hourly (h : History κ) : Prop := (listReadings h).IsChain fun a b => b.toNat ≤ a.toNat + 3600000

/-- The deadline an operation computes does not overflow. -/
def Fits (m : TimerManager κ) (c : Call κ) : Prop :=
  match c.op with
  | .addTimer _ ms _ _ => ms.toNat + c.now.toNat < 2 ^ 64
  | .refresh t => t ∈ m.timers → c.now.toNat + (m.heap t).ms.toNat < 2 ^ 64
  | .reset t ms fromNow =>
    t ∈ m.timers → (if fromNow then c.now else (m.heap t).next - (m.heap t).ms).toNat + ms.toNat < 2 ^ 64
  | .listExpiredCb _ => ∀ t ∈ m.timers, (m.heap t).recurring = true → (m.heap t).ms.toNat + c.now.toNat < 2 ^ 64
  | .cancel _ => True
  | .getNextTimer => True

instance (m : TimerManager κ) : (c : Call κ) → Decidable (m.Fits c)
  | ⟨now, .addTimer _ ms _ _⟩ => inferInstanceAs (Decidable (ms.toNat + now.toNat < 2 ^ 64))
  | ⟨now, .refresh t⟩ => inferInstanceAs (Decidable (t ∈ m.timers → now.toNat + (m.heap t).ms.toNat < 2 ^ 64))
  | ⟨now, .reset t ms fromNow⟩ => inferInstanceAs (Decidable (t ∈ m.timers →
      (if fromNow then now else (m.heap t).next - (m.heap t).ms).toNat + ms.toNat < 2 ^ 64))
  | ⟨now, .listExpiredCb _⟩ => inferInstanceAs (Decidable (∀ t ∈ m.timers, (m.heap t).recurring = true →
      (m.heap t).ms.toNat + now.toNat < 2 ^ 64))
  | ⟨_, .cancel _⟩ => inferInstanceAs (Decidable True)
  | ⟨_, .getNextTimer⟩ => inferInstanceAs (Decidable True)

/-- No call of `listExpiredCb` returns the callback of a timer that is not due at its reading. -/
def NoEarly (h : History κ) : Prop := ∀ e ∈ h, ∀ r ∈ e.out.cbs, (e.pre.heap r.1).next ≤ e.inp.now

/-- The set is empty, the clock is not more than one hour past `m_previouseTime`, or every pending timer is due. -/
def Punctual (m : TimerManager κ) (now : UInt64) : Prop :=
  m.timers = [] ∨ now ≤ m.previouseTime ∨ now ≤ m.previouseTime + 60 * 60 * 1000 ∨
    ∀ t ∈ m.timers, (m.heap t).next ≤ now

theorem rollsOver_eq_false {m : TimerManager κ} {now : UInt64} :
    m.rollsOver now = false ↔ now ≤ m.previouseTime ∨ now ≤ m.previouseTime + 60 * 60 * 1000 := by
  unfold rollsOver
  rw [Bool.and_eq_false_iff, decide_eq_false_iff_not, decide_eq_false_iff_not, gt_iff_lt, gt_iff_lt, UInt64.not_lt,
    UInt64.not_lt]

/-- What `listExpiredCb` takes is due exactly when the call is punctual. -/
theorem Listed.due_iff {m m' : TimerManager κ} {now : UInt64} {ex : List Addr} (h : Listed m now ex m') :
    (∀ t ∈ ex, (m.heap t).next ≤ now) ↔ m.Punctual now := by
  unfold Punctual
  rw [← or_assoc (a := now ≤ m.previouseTime), ← rollsOver_eq_false]
  constructor
  · intro hdue
    cases hr : m.rollsOver now with
    | false => exact Or.inr (Or.inl rfl)
    | true => exact Or.inr (Or.inr fun t ht => hdue t ((h.mem t).mpr ⟨ht, Or.inl hr⟩))
  · intro hp t ht
    obtain ⟨ht, he⟩ := (h.mem t).mp ht
    rcases hp with hp | hp | hp
    · rw [hp] at ht
      cases ht
    · exact he.resolve_left (by simp [hp])
    · exact hp t ht

/-- **A run fires no timer early exactly when each of its calls of `listExpiredCb` is punctual.** -/
theorem noEarly_iff {h : History κ} {m : TimerManager κ} (hr : Run (machine κ) h m) :
    NoEarly h ↔ ∀ e ∈ h, ∀ probe, e.inp.op = .listExpiredCb probe → e.pre.Punctual e.inp.now := by
  constructor
  · rintro hn ⟨pre, ⟨now, op⟩, out, post⟩ he probe rfl
    obtain ⟨-, hef⟩ := run_effect hr he
    have hc := hn _ he
    dsimp only at hef hc
    cases hef with
    | listed hl => exact hl.due_iff.mp fun t ht => hc _ (List.mem_map_of_mem ht)
  · rintro hp ⟨pre, ⟨now, op⟩, out, post⟩ he r hcb
    obtain ⟨-, hef⟩ := run_effect hr he
    have hpe := hp _ he
    dsimp only at hef hpe hcb
    cases hef with
    | listed hl =>
      obtain ⟨t, ht, rfl⟩ := List.mem_map.mp hcb
      exact hl.due_iff.mpr (hpe _ rfl) t ht
    | _ => cases hcb

/-- A callback added at `2`, with calls of `listExpiredCb` at most one hour apart, on a manager constructed at `0`. -/
theorem noEarly_iff_short : ∃ h m, Run (machine Nat) h m ∧ NoEarly h ∧ h.length = 3 := by
  obtain ⟨h, m, hr, hp⟩ := Run.of_replay (machine Nat) ⟨0, rfl⟩
    [⟨2, .addTimer 4 100 0 false⟩, ⟨50, .listExpiredCb 7⟩, ⟨102, .listExpiredCb 7⟩]
    (fun r => r.1.all (fun e => decide (e.inp.now ≤ e.pre.previouseTime + 60 * 60 * 1000)) && r.1.length == 3)
    (by decide)
  rw [Bool.and_eq_true, List.all_eq_true] at hp
  exact ⟨h, m, hr, (noEarly_iff hr).mpr fun e he _ _ => Or.inr (Or.inr (Or.inl (by simpa using hp.1 e he))),
    by simpa using hp.2⟩

/-- A manager constructed at `0` whose set is empty at the call of `listExpiredCb` at one hour: the timer of one second
added a millisecond later is taken by the next call, at once. -/
theorem early_after_idle_hour : ¬ ∀ (h : History Nat) (m : TimerManager Nat), Run (machine Nat) h m →
    ClockRises h → Hourly h → (∀ e ∈ h, e.pre.Fits e.inp) → NoEarly h := by
  intro hall
  obtain ⟨h, m, hr, hp⟩ := Run.of_replay (machine Nat) ⟨0, rfl⟩
    [⟨3600000, .listExpiredCb 7⟩, ⟨3600001, .addTimer 4 1000 0 false⟩, ⟨3600001, .listExpiredCb 7⟩]
    (fun r => decide (ClockRises r.1) && decide (listReadings r.1 = [3600000, 3600001]) &&
      r.1.all (fun e => decide (e.pre.Fits e.inp)) &&
      r.1.any (fun e => e.out.cbs.any fun c => decide (e.inp.now < (e.pre.heap c.1).next))) (by decide)
  simp only [Bool.and_eq_true, decide_eq_true_eq, List.all_eq_true, List.any_eq_true] at hp
  obtain ⟨⟨⟨hc, hl⟩, hf⟩, e, he, r, hcb, hlt⟩ := hp
  have hourly : Hourly h := by
    unfold Hourly
    rw [hl]
    decide
  have := hall h m hr hc hourly hf e he r hcb
  rw [UInt64.le_iff_toNat_le] at this
  rw [UInt64.lt_iff_toNat_lt] at hlt
  omega

/-! ## What a call returns -/

/-- The set with the timer `t` delivered at `now`: a one-shot timer has left it without its callback, a recurring one
is set again. -/
structure Delivered (m : TimerManager κ) (now : UInt64) (t : Addr) (m' : TimerManager κ) : Prop where
  oneShot : (m.heap t).recurring = false → t ∉ m'.timers ∧ m'.heap t = { m.heap t with cb := none }
  recurring : (m.heap t).recurring = true →
    t ∈ m'.timers ∧ m'.heap t = { m.heap t with next := now + (m.heap t).ms }

def Untouched (m : TimerManager κ) (t : Addr) (m' : TimerManager κ) : Prop :=
  (t ∈ m'.timers ↔ t ∈ m.timers) ∧ m'.heap t = m.heap t

theorem Listed.delivered {m m' : TimerManager κ} {now : UInt64} {ex : List Addr} (h : Listed m now ex m') {t : Addr}
    (ht : t ∈ ex) : Delivered m now t m' := by
  have hin := ((h.mem t).mp ht).1
  constructor
  · intro hr
    constructor
    · intro hin'
      rw [((h.timers t).mp hin').2 ht] at hr
      cases hr
    · rw [h.heap, if_pos ht]
      simp [rearmed, hr]
  · intro hr
    refine ⟨(h.timers t).mpr ⟨hin, fun _ => hr⟩, ?_⟩
    rw [h.heap, if_pos ht]
    simp [rearmed, hr, UInt64.add_comm]

theorem Listed.untouched {m m' : TimerManager κ} {now : UInt64} {ex : List Addr} (h : Listed m now ex m') {t : Addr}
    (ht : t ∉ ex) : Untouched m t m' := by
  refine ⟨?_, by rw [h.heap, if_neg ht]⟩
  rw [h.timers]
  exact ⟨And.left, fun hin => ⟨hin, fun hex => absurd hex ht⟩⟩

theorem Sorted.deadlines {m : TimerManager κ} (hs : m.Sorted) :
    m.timers.Pairwise fun t u => (m.heap t).next ≤ (m.heap u).next := by
  refine List.Pairwise.imp (fun {t u} htu => ?_) hs
  rw [key, key, Timer.before_some] at htu
  rw [UInt64.le_iff_toNat_le]
  omega

/-- **What `listExpiredCb` returns**, wherever the address of `now_timer` falls in the order. Without a rollover it is
the callbacks of the timers that are due, by their deadlines, and nothing else is touched; with one it is the callback
of every timer, once. -/
theorem listExpiredCb_exact {m : TimerManager κ}
    (hs : m.timers.Pairwise fun t u => Timer.Before (m.key t) (m.key u)) (now : UInt64) (probe : Addr) :
    ∃ cbs m', m.listExpiredCb now probe = .ok (cbs, m') ∧
      (m.rollsOver now = false →
        cbs = (m.timers.filter fun t => (m.heap t).next ≤ now).map (fun t => (t, (m.heap t).cb)) ∧
        (cbs.map fun r => (m.heap r.1).next).Pairwise (· ≤ ·) ∧
        (∀ t ∈ m.timers, (m.heap t).next ≤ now → Delivered m now t m') ∧
        ∀ t, (t ∈ m.timers → now < (m.heap t).next) → Untouched m t m') ∧
      (m.rollsOver now = true →
        cbs = m.timers.map (fun t => (t, (m.heap t).cb)) ∧ m.timers.Nodup ∧ ∀ t ∈ m.timers, Delivered m now t m') := by
  obtain ⟨m', h, hl⟩ := listExpiredCb_sorted hs now probe
  refine ⟨_, m', h, fun hr => ?_, fun hr => ?_⟩
  · have hex : ∀ t, m.Expires now t ↔ (m.heap t).next ≤ now := by simp [Expires, hr]
    have heq : m.expired now = m.timers.filter fun t => (m.heap t).next ≤ now :=
      List.filter_congr fun t _ => by simp [hex]
    refine ⟨by rw [heq], ?_, fun t ht hle => hl.delivered ((hl.mem t).mpr ⟨ht, (hex t).mpr hle⟩), fun t hlate => ?_⟩
    · rw [List.map_map, List.pairwise_map]
      exact List.Pairwise.sublist List.filter_sublist (Sorted.deadlines hs)
    · refine hl.untouched fun hin => ?_
      obtain ⟨ht, hle⟩ := (hl.mem t).mp hin
      have hlt := hlate ht
      rw [hex, UInt64.le_iff_toNat_le] at hle
      rw [UInt64.lt_iff_toNat_lt] at hlt
      omega
  · have heq : m.expired now = m.timers := List.filter_eq_self.mpr fun t _ => by simp [Expires, hr]
    rw [heq] at hl ⊢
    exact ⟨rfl, OrderedSet.Sorted.nodup hs, fun t ht => hl.delivered ht⟩

/-- The timers 2 and 8 are due at `5`, the recurring one without a period, and the address of `now_timer` is between
theirs; the timer 4 is not due. -/
def threeTimers : TimerManager Nat where
  heap t := if t = 4 then { next := 6, cb := some 4 } else { recurring := t == 2, next := 5, cb := some t }
  created := [2, 4, 8]
  timers := [2, 8, 4]
  previouseTime := 0

theorem listExpiredCb_exact_between : threeTimers.rollsOver 5 = false ∧
    ∃ m', threeTimers.listExpiredCb 5 3 = .ok ([(2, some 2), (8, some 8)], m') ∧ Delivered threeTimers 5 2 m' ∧
      Untouched threeTimers 4 m' := by
  obtain ⟨cbs, m', h, hdue, -⟩ := listExpiredCb_exact (m := threeTimers) (by decide) 5 3
  obtain ⟨hcbs, -, hdelivered, huntouched⟩ := hdue (by decide)
  refine ⟨by decide, m', ?_, hdelivered 2 (by decide) (by decide), huntouched 4 fun _ => by decide⟩
  rw [h, hcbs]
  rfl

end QWebServer.TimerManager
