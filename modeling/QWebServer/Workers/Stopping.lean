import QWebServer.IOManager.Bookkeeping
import QWebServer.Schedular.Ledger
import QWebServer.Timer.Sections
import QWebServer.Workers.Moves

/-!
# What `stopping` promises

* `Stopped` : no timers, no pending events, no entries, and no `READY` fiber that is swapped out and not pushed;
* `test` : the test of a call of `stopping` that a step makes, `Testing` : a call is before the test `x`;
* `Unraced` : once `stop` has been called, no step adds a timer or an event behind the back of a call that has looked
  for them; and what a call does before its locked test and what a worker does between its `--m_activeThreadCount` and
  its push of a `READY` fiber do not come to overlap;
* `Checked` : `m_activeThreadCount` counts, and what the earlier tests of a call have found still holds;
* `stop_sound` : in runs of such steps `stopping` returns true in states that are `Stopped`, `not_stopped` : where they
  do overlap, the locked test is the next step to a state that is not.
-/

namespace QWebServer

open Lib

namespace Schedular

variable {τ κ : Type}

/-- The fiber that the worker has swapped out, from the return of `swapIn` to the push or the end of the branch. -/
def Pc.swappedOut : Pc κ → Option Addr
  | .back f _ _ => some f
  | .check f _ _ => some f
  | .requeue f _ => some f
  | _ => none

/-- No worker has a `READY` fiber that it has swapped out and not pushed. -/
def Pushed (s : Schedular τ κ) : Prop := ∀ t, ∀ f ∈ (s.workers t).pc.swappedOut, (s.fibers f).state ≠ .ready

instance [Fintype τ] (s : Schedular τ κ) : Decidable s.Pushed :=
  inferInstanceAs (Decidable (∀ t, ∀ f ∈ (s.workers t).pc.swappedOut, (s.fibers f).state ≠ .ready))

/-- The step is a `--m_activeThreadCount` to 0. -/
def clears (s : Schedular τ κ) : Label τ κ → Bool
  | .work t _ =>
    match (s.workers t).pc with
    | .back _ _ _ | .discard => s.activeThreadCount == 1
    | _ => false
  | _ => false

/-- No fiber has become `READY`, and no worker has swapped out another one. -/
theorem Pushed.of {s s' : Schedular τ κ} (h : s.Pushed)
    (hstate : ∀ f, (s'.fibers f).state = .ready → (s.fibers f).state = .ready)
    (hout : ∀ t f, (s'.workers t).pc.swappedOut = some f → (s.workers t).pc.swappedOut = some f) : s'.Pushed := by
  intro t f hf hready
  exact h t f (hout t f hf) (hstate f hready)

theorem state_update {s s' : Schedular τ κ} {a : Addr} {x : Fiber κ} (hfib : s'.fibers = Function.update s.fibers a x)
    (hx : x.state ≠ .ready) : ∀ f, (s'.fibers f).state = .ready → (s.fibers f).state = .ready := by
  intro f hf
  rw [hfib] at hf
  by_cases hfa : f = a
  · rw [hfa, Function.update_self] at hf
    exact absurd hf hx
  · rwa [Function.update_of_ne hfa] at hf

section
variable [DecidableEq τ] {s s' : Schedular τ κ}

theorem swappedOut_update {t : τ} {w : Worker κ} (hw : s'.workers = Function.update s.workers t w)
    (h : ∀ f, w.pc.swappedOut = some f → (s.workers t).pc.swappedOut = some f) :
    ∀ u f, (s'.workers u).pc.swappedOut = some f → (s.workers u).pc.swappedOut = some f := by
  intro u f hf
  rw [hw] at hf
  by_cases hut : u = t
  · rw [hut, Function.update_self] at hf
    rw [hut]
    exact h f hf
  · rwa [Function.update_of_ne hut] at hf

/-- A move to a state with no entry and no active worker. A fiber becomes `READY` in the hand of an active worker only,
and a worker stops being one by its `--m_activeThreadCount`. -/
theorem Move.pushed {ids : Threads τ} {l : Label τ κ} {r : Reply} (hm : Move ids s l r s')
    (hp : s.queue = [] → s.activeThreadCount = 0 → s.Pushed) (hclears : s.clears l = true → s.queue = [] → s.Pushed)
    (hqueue : s'.queue = []) (hcount : s'.activeThreadCount = 0) (hactive : ∀ t, (s'.workers t).pc.active = false) :
    s'.Pushed := by
  have hself : ∀ {t : τ} {w : Worker κ}, s'.workers = Function.update s.workers t w → w.pc.active = false := by
    intro t w hw
    have := hactive t
    rwa [hw, Function.update_self] at this
  cases hm with
  | schedule fts =>
    rw [schedule_eq] at hqueue hcount ⊢
    exact (hp (List.append_eq_nil_iff.mp hqueue).1 hcount).of (fun _ => id) fun _ _ => id
  | newFiber a cb => exact (hp hqueue hcount).of (state_update rfl fun h => by cases h) fun _ _ => id
  | trigger f => exact absurd hqueue (by simp [Schedular.push])
  | idle hpc hscan =>
    obtain ⟨rfl, -⟩ := hscan
    exact (hp hqueue hcount).of (fun _ => id) fun _ _ => id
  | take | resume | reuse | drop | enter | load | save | publish | hold | ready | throw | finish =>
    cases hself rfl
  | create => cases hself (create_workers ..)
  | leave hpc =>
    have hone : s.activeThreadCount = 1 := sub_eq_zero.mp hcount
    refine (hclears ?_ hqueue).of (fun _ => id) (swappedOut_update rfl fun f hf => ?_)
    · simp [clears, hpc, hone]
    · rwa [hpc]
  | discard hpc =>
    have hone : s.activeThreadCount = 1 := sub_eq_zero.mp hcount
    refine (hclears ?_ hqueue).of (fun _ => id) (swappedOut_update rfl fun _ hf => by cases hf)
    simp [clears, hpc, hone]
  | checkReady hpc =>
    refine (hp hqueue hcount).of (fun _ => id) (swappedOut_update rfl fun f hf => ?_)
    rwa [hpc]
  | checkEnd | checkHold | forget =>
    exact (hp hqueue hcount).of (fun _ => id) (swappedOut_update rfl fun _ hf => by cases hf)
  | @requeue t a f via =>
    have hpush : s.queue ++ [⟨s.pushed, { fiber := some f }⟩] = [] := by cases via <;> exact hqueue
    simp at hpush
  | recycle =>
    refine (hp hqueue hcount).of (state_update rfl fun h => ?_) (swappedOut_update rfl fun _ hf => ?_)
    · cases h
    · cases hf
  | @update t a f via =>
    cases via with
    | false =>
      refine (hp hqueue hcount).of (state_update rfl fun h => ?_) (swappedOut_update rfl fun _ hf => ?_)
      · cases h
      · cases hf
    | true =>
      refine (hp hqueue hcount).of (state_update rfl fun h => ?_)
        (swappedOut_update (release_workers ..) fun g hg => ?_)
      · cases h
      · cases hg

end

end Schedular

/-- `getNextTimer` answers `~0` for the empty set, and for a timer as late as can be when the clock is at 0. -/
theorem TimerManager.getNextTimer_max {κ : Type} {m : TimerManager κ} {now : UInt64} (h : (m.getNextTimer now).1 = ~~~0)
    (hclock : now = 0 → ∀ t ∈ m.timers.head?, (m.heap t).next ≠ ~~~0) : m.timers = [] := by
  unfold getNextTimer at h
  dsimp only at h
  cases htimers : m.timers with
  | nil => rfl
  | cons front rest =>
    rw [htimers] at h hclock
    dsimp only at h
    split_ifs at h with hle
    · cases h
    · have hsub : (m.heap front).next - now = ~~~0 := h
      have hlt : now < (m.heap front).next := by simpa using hle
      have hmax : (~~~0 : UInt64).toNat = 2 ^ 64 - 1 := by decide
      have hnat := congrArg UInt64.toNat hsub
      rw [UInt64.toNat_sub_of_le _ _ (UInt64.le_of_lt hlt), hmax] at hnat
      have hbound := (m.heap front).next.toNat_lt
      have hzero : now = 0 := UInt64.toNat_inj.mp (by simp; omega)
      refine absurd (UInt64.toNat_inj.mp ?_) (hclock hzero front rfl)
      rw [hmax]
      omega

namespace Workers

open Schedular (Threads)

variable {τ κ : Type}

/-- What should hold when `stopping` returns true. -/
structure Stopped (s : Workers τ κ) : Prop where
  timers : s.timers.timers = []
  pending : s.iom.pendingEventCount = 0
  queue : s.sched.queue = []
  fibers : ∀ t, ∀ f ∈ (s.sched.workers t).pc.swappedOut, (s.sched.fibers f).state ≠ .ready

/-- `stop` has set its flags. -/
def Called (s : Workers τ κ) : Prop := s.autoStop = true ∧ s.stopping = true

/-- A call of `stopping` is before the test `x`. -/
def Testing (s : Workers τ κ) (x : Test) : Prop := (∃ t, s.idle t = .stopping x) ∨ s.stop = some x

/-- The test of a call of `stopping` that the step makes. -/
def test (s : Workers τ κ) : Label τ κ → Option Test
  | .idle t _ =>
    match s.idle t with
    | .stopping x => some x
    | _ => none
  | .stop _ => s.stop
  | _ => none

/-- The step sets the last of the two flags. -/
def calls (s : Workers τ κ) : Label τ κ → Bool
  | .autoStop => s.stopping
  | .setStopping => s.autoStop
  | _ => false

def Label.now : Label τ κ → UInt64
  | .idle _ now => now
  | .stop now => now
  | _ => 0

/-- The step is a `--m_activeThreadCount` to 0. -/
def clears (s : Workers τ κ) : Label τ κ → Bool
  | .sched l => s.sched.clears l
  | _ => false

def Label.adds : Label τ κ → Bool
  | .timer ⟨_, .addTimer _ _ _ _⟩ => true
  | _ => false

def Label.registers : Label τ κ → Bool
  | .manage (.addEvent _ _ _ _ rt) => rt
  | _ => false

/-- There is no entry and no active worker, but a worker has a `READY` fiber that it has not pushed. -/
def Hidden (s : Workers τ κ) : Prop := s.sched.queue = [] ∧ s.sched.activeThreadCount = 0 ∧ ¬ s.sched.Pushed

/-- Once `stop` has been called, no timer is added while a call of `stopping` is past its first test, and no event
while one is past its second; no first test is made at the time 0 with a first timer at `~0`; no call is before its
locked test when the last active worker does its `--m_activeThreadCount`, with no entry queued, and it or another one
has a `READY` fiber to push; and none goes on to that test while such a fiber is hidden. Where one of these has
happened before, the call is over, or the fiber is pushed, when `stop` sets its flags. -/
structure Unraced (s : Workers τ κ) (l : Label τ κ) : Prop where
  timer : l.adds = true → s.Called → ¬ s.Testing .pending ∧ ¬ s.Testing .locked
  event : l.registers = true → s.Called → ¬ s.Testing .locked
  clock : s.test l = some .timer → s.Called → l.now = 0 → ∀ t ∈ s.timers.timers.head?, (s.timers.heap t).next ≠ ~~~0
  leave : s.clears l = true → s.Called → s.Testing .locked → s.sched.queue = [] → s.sched.Pushed
  reach : s.test l = some .pending → s.Called → s.iom.pendingEventCount = 0 → ¬ s.Hidden
  flags : s.calls l = true → (s.Testing .pending ∨ s.Testing .locked → s.timers.timers = []) ∧
    (s.Testing .locked → s.iom.pendingEventCount = 0 ∧ ¬ s.Hidden)

section
variable [Fintype τ]

instance (s : Workers τ κ) (x : Test) : Decidable (s.Testing x) :=
  inferInstanceAs (Decidable ((∃ t, s.idle t = .stopping x) ∨ s.stop = some x))

instance (s : Workers τ κ) : Decidable s.Called := inferInstanceAs (Decidable (_ ∧ _))

instance (s : Workers τ κ) : Decidable s.Hidden := inferInstanceAs (Decidable (_ ∧ _ ∧ ¬ _))

set_option synthInstance.maxSize 400 in
instance (s : Workers τ κ) (l : Label τ κ) : Decidable (s.Unraced l) :=
  decidable_of_iff
    ((l.adds = true → s.Called → ¬ s.Testing .pending ∧ ¬ s.Testing .locked) ∧
      (l.registers = true → s.Called → ¬ s.Testing .locked) ∧
      (s.test l = some .timer → s.Called → l.now = 0 → ∀ t ∈ s.timers.timers.head?, (s.timers.heap t).next ≠ ~~~0) ∧
      (s.clears l = true → s.Called → s.Testing .locked → s.sched.queue = [] → s.sched.Pushed) ∧
      (s.test l = some .pending → s.Called → s.iom.pendingEventCount = 0 → ¬ s.Hidden) ∧
      (s.calls l = true → (s.Testing .pending ∨ s.Testing .locked → s.timers.timers = []) ∧
        (s.Testing .locked → s.iom.pendingEventCount = 0 ∧ ¬ s.Hidden)))
    ⟨fun ⟨ht, he, hc, hl, hr, hf⟩ => ⟨ht, he, hc, hl, hr, hf⟩,
      fun h => ⟨h.timer, h.event, h.clock, h.leave, h.reach, h.flags⟩⟩

end

theorem test_idle {s : Workers τ κ} {t : τ} {now : UInt64} {x : Test} (hidle : s.idle t = .stopping x) :
    s.test (.idle t now) = some x := by
  simp [test, hidle]

theorem Testing.of_test {s : Workers τ κ} {l : Label τ κ} {x : Test} (h : s.test l = some x) : s.Testing x := by
  cases l with
  | idle t now =>
    unfold test at h
    cases hidle : s.idle t with
    | stopping y => exact .inl ⟨t, by simpa [hidle] using h⟩
    | _ => simp [hidle] at h
  | stop now => exact .inr h
  | _ => cases h

/-- Only a locked test ends a call that returns true, and it changes nothing that `stopping` looks at. -/
theorem Move.returns [DecidableEq τ] {ids : Threads τ} {mem : IOManager.Memory} {s s' : Workers τ κ} {l : Label τ κ}
    (hm : Move ids mem s l true s') :
    s.test l = some .locked ∧ s.schedStopping = true ∧ s'.sched = s.sched ∧ s'.iom = s.iom ∧ s'.timers = s.timers := by
  cases hm with
  | finish hidle hp =>
    obtain ⟨rfl, hb, rfl⟩ := stoppingTest_true hp
    exact ⟨test_idle hidle, hb, rfl, rfl, rfl⟩
  | stopEnd hstop hp =>
    obtain ⟨rfl, hb, rfl⟩ := stoppingTest_true hp
    exact ⟨hstop, hb, rfl, rfl, rfl⟩

/-! ## What the tests have found -/

theorem Testing.of_goto [DecidableEq τ] {s : Workers τ κ} {t : τ} {j : Idle} {y : Test} (h : (s.goto t j).Testing y) :
    s.Testing y ∨ j = .stopping y := by
  rcases h with ⟨u, hu⟩ | h
  · change Function.update s.idle t j u = .stopping y at hu
    by_cases hut : u = t
    · rw [hut, Function.update_self] at hu
      exact .inr hu
    · rw [Function.update_of_ne hut] at hu
      exact .inl (.inl ⟨u, hu⟩)
  · exact .inl (.inr h)

/-- A step of the scheduler leads no worker to a test. -/
theorem idleAfter_stopping [DecidableEq τ] {s : Workers τ κ} {sched : Schedular τ κ} {l : Schedular.Label τ κ} {u : τ}
    {y : Test}
    (h : s.idleAfter sched l u = .stopping y) : s.idle u = .stopping y := by
  cases l with
  | work t a =>
    change Function.update s.idle t _ u = _ at h
    by_cases hut : u = t
    · rw [hut, Function.update_self] at h
      split_ifs at h
    · rwa [Function.update_of_ne hut] at h
  | _ => exact h

section
variable [Fintype τ]

/-- `m_activeThreadCount` counts, and once `stop` has been called, what a call of `stopping` has found still holds. -/
structure Checked (s : Workers τ κ) : Prop where
  manager : ∃ W : IOManager.Waiters Unit Addr κ, s.iom = W.manager
  good : s.timers.Good
  active : s.sched.activeThreadCount = UInt64.ofNat s.sched.activeWorkers
  timers : s.Called → s.Testing .pending ∨ s.Testing .locked → s.timers.timers = []
  pending : s.Called → s.Testing .locked → s.iom.pendingEventCount = 0
  fibers : s.Called → s.Testing .locked → ¬ s.Hidden

variable {ids : Threads τ} {s s' s₁ : Workers τ κ}

theorem Checked.of (hc : s.Checked) (hsched : s'.sched = s.sched) (hiom : s'.iom = s.iom) (hgood : s'.timers.Good)
    (htimers : s'.Called → s'.Testing .pending ∨ s'.Testing .locked → s'.timers.timers = [])
    (hpending : s'.Called → s'.Testing .locked → s.iom.pendingEventCount = 0)
    (hfibers : s'.Called → s'.Testing .locked → ¬ s.Hidden) : s'.Checked where
  manager := by
    rw [hiom]
    exact hc.manager
  good := hgood
  active := by
    rw [hsched]
    exact hc.active
  timers := htimers
  pending h ht := by
    rw [hiom]
    exact hpending h ht
  fibers h ht := by
    unfold Hidden
    rw [hsched]
    exact hfibers h ht

/-- A step that goes to no test but the first. -/
theorem Checked.frame (hc : s.Checked) (hsched : s'.sched = s.sched) (hiom : s'.iom = s.iom)
    (htimers : s'.timers = s.timers) (hcalled : s'.Called → s.Called)
    (htest : ∀ y, s'.Testing y → s.Testing y ∨ y = .timer) : s'.Checked := by
  have hpending : s'.Testing .pending → s.Testing .pending := fun ht => (htest _ ht).resolve_right nofun
  have hlocked : s'.Testing .locked → s.Testing .locked := fun ht => (htest _ ht).resolve_right nofun
  refine hc.of hsched hiom ?_ (fun h ht => ?_) (fun h ht => hc.pending (hcalled h) (hlocked ht))
    fun h ht => hc.fibers (hcalled h) (hlocked ht)
  · rw [htimers]
    exact hc.good
  · rw [htimers]
    exact hc.timers (hcalled h) (ht.imp hpending hlocked)

/-- A test of `stopping`, which goes on to the next one or not. -/
theorem Checked.tested (hc : s.Checked) {l : Label τ κ} (hu : s.Unraced l) {x : Test} (hx : s.test l = some x)
    {next : Test ⊕ Bool} (hp : s.stoppingTest l.now x = (next, s₁)) (hsched : s'.sched = s₁.sched)
    (hiom : s'.iom = s₁.iom) (htimers : s'.timers = s₁.timers) (hcalled : s'.Called → s.Called)
    (htest : ∀ y, s'.Testing y → s.Testing y ∨ next = .inl y) : s'.Checked := by
  cases x with
  | timer =>
    simp only [stoppingTest, Prod.mk.injEq] at hp
    obtain ⟨rfl, rfl⟩ := hp
    have hsnd : s'.timers = { s.timers with tickled := false } := htimers.trans (s.timers.getNextTimer_snd l.now)
    have hlocked : s'.Testing .locked → s.Testing .locked := by
      intro ht
      refine (htest _ ht).resolve_right fun hnext => ?_
      split_ifs at hnext
      cases hnext
    refine hc.of hsched hiom ?_ (fun h ht => ?_) (fun h ht => hc.pending (hcalled h) (hlocked ht))
      fun h ht => hc.fibers (hcalled h) (hlocked ht)
    · rw [hsnd]
      exact ⟨hc.good.sorted, hc.good.pending, hc.good.created⟩
    · rw [hsnd]
      rcases ht with ht | ht
      · rcases htest _ ht with ht | hnext
        · exact hc.timers (hcalled h) (.inl ht)
        · split_ifs at hnext with hmax
          exact TimerManager.getNextTimer_max hmax (hu.clock hx (hcalled h))
      · exact hc.timers (hcalled h) (.inr (hlocked ht))
  | pending =>
    simp only [stoppingTest, Prod.mk.injEq] at hp
    obtain ⟨rfl, rfl⟩ := hp
    refine hc.of hsched hiom ?_ (fun h ht => ?_) (fun h ht => ?_) fun h ht => ?_
    · rw [htimers]
      exact hc.good
    · -- the call that makes the test has found no timer
      rw [htimers]
      exact hc.timers (hcalled h) (.inl (.of_test hx))
    · rcases htest _ ht with ht | hnext
      · exact hc.pending (hcalled h) ht
      · split_ifs at hnext with hzero
        exact hzero
    · rcases htest _ ht with ht | hnext
      · exact hc.fibers (hcalled h) ht
      · split_ifs at hnext with hzero
        exact hu.reach hx (hcalled h) hzero
  | locked =>
    simp only [stoppingTest, Prod.mk.injEq] at hp
    obtain ⟨rfl, rfl⟩ := hp
    refine hc.frame hsched hiom htimers hcalled fun y hy => .inl ((htest y hy).resolve_right fun hnext => ?_)
    cases hnext

/-- An operation on the timers that adds none keeps the empty set empty. -/
theorem Checked.timer (hc : s.Checked) {c : TimerManager.Call κ} {r : TimerManager.Reply κ} {timers : TimerManager κ}
    (ha : s.timers.Allowed c) (hu : s.Unraced (.timer c)) (h : s.timers.step c = .ok (r, timers)) :
    Checked { s with timers := timers } := by
  have he := TimerManager.step_effect hc.good ha h
  refine ⟨hc.manager, he.good hc.good, hc.active, fun hs ht => ?_, hc.pending, hc.fibers⟩
  refine he.kept_nil hc.good (hc.timers hs ht) ?_
  rintro ⟨a, ms, cb, recurring, hop⟩
  have hadds : (Label.timer c : Label τ κ).adds = true := by
    obtain ⟨now, op⟩ := c
    obtain rfl : op = _ := hop
    rfl
  obtain ⟨hpending, hlocked⟩ := hu.timer hadds hs
  exact ht.elim hpending hlocked

/-- An operation on the events that registers none keeps their number 0. -/
theorem Checked.manage (hc : s.Checked) {mem : IOManager.Memory} {o : IOManager.Op Unit Addr κ}
    {r : IOManager.Reply Unit Addr κ} {iom : IOManager Unit Addr κ} (ha : IOManager.Allowed o)
    (hu : s.Unraced (.manage o)) (h : s.iom.step mem o = .ok (r, iom)) : Checked { s with iom := iom } := by
  obtain ⟨W, hW⟩ := hc.manager
  rw [hW] at h
  obtain ⟨W', rfl, he⟩ := IOManager.step_effect ha h
  refine ⟨⟨W', rfl⟩, hc.good, hc.active, hc.timers, fun hs ht => ?_, hc.fibers⟩
  have hzero : UInt64.ofNat W.total = 0 := by
    have := hc.pending hs ht
    rwa [hW] at this
  have htotal : W.total = 0 := by
    have := congrArg UInt64.toNat hzero
    rwa [UInt64.toNat_ofNat_of_lt' W.total_lt] at this
  have hle := he.total_le fun fd e cb caller ho => by
    subst ho
    exact hu.event rfl hs ht
  have htotal' : W'.total = 0 := by omega
  show UInt64.ofNat W'.total = 0
  rw [htotal']
  rfl

theorem Checked.callTickle (hc : s.Checked) (caller : Option τ) (need : Bool) :
    (s.callTickle caller need).Checked := by
  cases need with
  | false => exact hc
  | true => exact hc.frame rfl rfl rfl id fun _ => .inl

theorem Checked.stopped (hc : s.Checked) {l : Label τ κ} (htest : s.test l = some .locked)
    (hstop : s.schedStopping = true) : s.Stopped := by
  have hx : s.Testing .locked := .of_test htest
  unfold schedStopping at hstop
  simp only [Bool.and_eq_true, List.isEmpty_iff, beq_iff_eq] at hstop
  obtain ⟨⟨⟨hauto, hstopping⟩, hqueue⟩, hactive⟩ := hstop
  have hcalled : s.Called := ⟨hauto, hstopping⟩
  have hpushed : s.sched.Pushed := by
    by_contra hne
    exact hc.fibers hcalled hx ⟨hqueue, hactive, hne⟩
  exact ⟨hc.timers hcalled (.inr hx), hc.pending hcalled hx, hqueue, hpushed⟩

variable [DecidableEq τ]

theorem Checked.sched (hc : s.Checked) {sched : Schedular τ κ} {l : Schedular.Label τ κ} {r : Schedular.Reply}
    (hu : s.Unraced (.sched l)) (he : s.sched.Ready l) (h : s.sched.step ids l = .ok (r, sched)) :
    Checked ({ s with sched := sched, idle := s.idleAfter sched l }) := by
  have hm := Schedular.step_move he h
  have hactive : sched.activeThreadCount = UInt64.ofNat sched.activeWorkers := by
    unfold Schedular.activeWorkers
    rcases hm.counter with ⟨hw, hcount⟩ | ⟨t, w, hw, hcount⟩
    · rw [hw, hcount]
      exact hc.active
    · rw [hw]
      exact counter_update hc.active hcount
  have htesting : ∀ {y : Test}, Testing { s with sched := sched, idle := s.idleAfter sched l } y → s.Testing y :=
    fun ht => ht.imp_left fun ⟨u, hu⟩ => ⟨u, idleAfter_stopping hu⟩
  refine ⟨hc.manager, hc.good, hactive, fun hs ht => hc.timers hs (ht.imp htesting htesting),
    fun hs ht => hc.pending hs (htesting ht), ?_⟩
  rintro hs ht ⟨hqueue, hcount, hne⟩
  have hx := htesting ht
  refine hne (hm.pushed (fun hq hz => ?_) (fun hclears hq => hu.leave hclears hs hx hq) hqueue hcount ?_)
  · by_contra hne
    exact hc.fibers hs hx ⟨hq, hz, hne⟩
  · intro t
    have hzero := counter_toNat hactive ids.card_lt
    rw [hcount] at hzero
    by_contra hact
    exact countAt_ne_zero (p := fun w : Schedular.Worker κ => w.pc.active = true) (t := t) (by simpa using hact)
      hzero.symm

theorem Checked.move {mem : IOManager.Memory} {l : Label τ κ} {b : Bool} (hc : s.Checked) (hu : s.Unraced l)
    (hm : Move ids mem s l b s') : s'.Checked := by
  cases hm with
  | sched hready h => exact (hc.sched hu hready h).callTickle _ _
  | enter hidle => exact hc.frame rfl rfl rfl id fun y hy => hy.of_goto.imp id fun hj => (Idle.stopping.inj hj).symm
  | wait | wake | leave | rescan | again => exact hc.frame rfl rfl rfl id fun y hy => hy.of_goto.imp id nofun
  | test hidle hp =>
    obtain ⟨timers, rfl⟩ := stoppingTest_timers hp
    refine hc.tested hu (test_idle hidle) hp rfl rfl rfl id fun y hy => ?_
    exact hy.of_goto.imp id fun hj => by rw [Idle.stopping.inj hj]
  | stay hidle hp | finish hidle hp =>
    obtain ⟨timers, rfl⟩ := stoppingTest_timers hp
    exact hc.tested hu (test_idle hidle) hp rfl rfl rfl id fun y hy => .inl (hy.of_goto.resolve_right nofun)
  | read =>
    generalize s.pipe - 256 = pipe
    exact hc.frame rfl rfl rfl id fun _ => .inl
  | tickle =>
    unfold Workers.tickle
    split_ifs <;> exact hc.frame rfl rfl rfl id fun _ => .inl
  | noTickle => exact hc
  | timer ha h => exact (hc.timer ha hu h).callTickle _ _
  | manage ha h => exact hc.manage ha hu h
  | autoStop =>
    exact ⟨hc.manager, hc.good, hc.active, fun hs => (hu.flags hs.2).1, fun hs ht => ((hu.flags hs.2).2 ht).1,
      fun hs ht => ((hu.flags hs.2).2 ht).2⟩
  | setStopping =>
    exact ⟨hc.manager, hc.good, hc.active, fun hs => (hu.flags hs.1).1, fun hs ht => ((hu.flags hs.1).2 ht).1,
      fun hs ht => ((hu.flags hs.1).2 ht).2⟩
  | stopTickle => exact hc.callTickle none true
  | stopCall hstop =>
    refine hc.frame rfl rfl rfl id fun y hy => ?_
    exact hy.imp .inl fun hy => (Option.some.inj hy).symm
  | stopTest hstop hp =>
    obtain ⟨timers, rfl⟩ := stoppingTest_timers hp
    refine hc.tested hu hstop hp rfl rfl rfl id fun y hy => ?_
    exact hy.imp .inl fun hy => by rw [Option.some.inj hy]
  | stopEnd hstop hp =>
    obtain ⟨timers, rfl⟩ := stoppingTest_timers hp
    exact hc.tested hu hstop hp rfl rfl rfl id fun y hy => .inl (.inl (hy.resolve_right nofun))

theorem run_checked {mem : IOManager.Memory} {h : List (Entry (Workers τ κ) (Label τ κ) Bool)}
    (hr : Run (machine ids mem) h s) (hu : ∀ e ∈ h, e.pre.Unraced e.inp) : s.Checked := by
  refine hr.invariant_of hu ?_ fun e hc hs hue => hc.move hue (step_move hs.1 hs.2)
  rintro _ ⟨now, rfl⟩
  obtain ⟨W, hW, -⟩ := IOManager.new_manager (σ := Unit) (φ := Addr) (κ := κ)
  refine ⟨⟨W, hW⟩, TimerManager.new_good now, ?_, nofun, nofun, nofun⟩
  have hzero : Schedular.activeWorkers ({} : Schedular τ κ) = 0 := countAt_eq_zero fun _ => nofun
  show _ = UInt64.ofNat (Schedular.activeWorkers {})
  rw [hzero]
  rfl

/-- **Stop detection.** In a run of unraced steps there is no timer, no pending event, no entry of the queue and no
`READY` fiber between `swapOut` and its push whenever `stopping` returns true. -/
theorem stop_sound {mem : IOManager.Memory} {h : List (Entry (Workers τ κ) (Label τ κ) Bool)}
    (hr : Run (machine ids mem) h s) (hu : ∀ e ∈ h, e.pre.Unraced e.inp) : ∀ e ∈ h, e.out = true → e.post.Stopped := by
  intro e he hout
  obtain ⟨h₁, h₂, rfl⟩ := List.append_of_mem he
  obtain ⟨hr₁, hen, hs⟩ := hr.cut rfl
  have hc := run_checked hr₁ fun e' he' => hu e' (List.mem_append_left _ he')
  rw [hout] at hs
  obtain ⟨htest, hstop, hsched, hiom, htimers⟩ := (step_move hen hs).returns
  obtain ⟨htim, hpend, hqueue, hfib⟩ := hc.stopped htest hstop
  refine ⟨?_, ?_, ?_, fun t f hf => ?_⟩
  · rwa [htimers]
  · rwa [hiom]
  · rwa [hsched]
  · rw [hsched] at hf ⊢
    exact hfib t f hf

end

/-- A locked test where a `READY` fiber is hidden. -/
theorem not_stopped [DecidableEq τ] {ids : Threads τ} {mem : IOManager.Memory} {s : Workers τ κ}
    (hcalled : s.Called) (htest : s.Testing .locked) (hh : s.Hidden) :
    ∃ l s', step ids mem s l = .ok (true, s') ∧ ¬ s'.Stopped := by
  have hstop : s.schedStopping = true := by simp [schedStopping, hcalled.1, hcalled.2, hh.1, hh.2.1]
  have hne : ¬ s.Stopped := fun h => hh.2.2 h.fibers
  rcases htest with ⟨t, ht⟩ | hs
  · refine ⟨.idle t 0, { s with term := Function.update s.term t true }.goto t .finished, ?_,
      fun h => hne ⟨h.timers, h.pending, h.queue, h.fibers⟩⟩
    simp [step, idleStep, ht, stoppingTest, hstop]
  · refine ⟨.stop 0, { s with stop := none }, ?_, fun h => hne ⟨h.timers, h.pending, h.queue, h.fibers⟩⟩
    simp [step, stopStep, hs, stoppingTest, hstop]

def setFlags : List (Label Bool Nat) := [.autoStop, .setStopping]

/-- A worker takes a callback and executes it in the fiber 1. -/
def busy : List (Label Bool Nat) :=
  [.sched (.schedule [{ cb := some 0 }]), .tickle 0] ++ [1, 1, 2, 2].map fun a => .sched (.work true a)

/-- The other one has nothing to take and makes the first test of `stopping`. -/
def firstTest : List (Label Bool Nat) := [.sched (.work false 2), .idle false 0, .idle false 0]

/-- The fiber leaves, and its worker goes on to `--m_activeThreadCount`. -/
def leave (x : Schedular.Act) : List (Label Bool Nat) :=
  [.sched (.act true x), .sched (.work true 2), .sched (.work true 2)]

/-- The callback has ended when `stopping` returns true. -/
theorem stop_sound_ended : ∃ h s, Run (machine (κ := Nat) Schedular.twoThreads memory) h s ∧
    (∀ e ∈ h, e.pre.Unraced e.inp) ∧ (∃ e ∈ h, e.out = true) ∧ ∀ e ∈ h, e.out = true → e.post.Stopped := by
  obtain ⟨h, s, hr, hp⟩ := Run.of_replay (machine (κ := Nat) Schedular.twoThreads memory) ⟨0, rfl⟩
    (busy ++ setFlags ++ firstTest ++ leave (.finish false) ++ [.idle false 0, .idle false 0])
    (fun r => decide ((∀ e ∈ r.1, e.pre.Unraced e.inp) ∧ ∃ e ∈ r.1, e.out = true)) (by decide +kernel)
  obtain ⟨hu, hout⟩ := of_decide_eq_true hp
  exact ⟨h, s, hr, hu, hout, stop_sound hr hu⟩

/-- `stopping` returns true although the callback has added a timer after the first test, or an event after the second;
and although it has yielded as `READY` and is not pushed yet. -/
theorem stop_sound_raced :
    (∃ h s, Run (machine (κ := Nat) Schedular.twoThreads memory) h s ∧
      ∃ e ∈ h, e.out = true ∧ e.post.timers.timers ≠ []) ∧
    (∃ h s, Run (machine (κ := Nat) Schedular.twoThreads memory) h s ∧
      ∃ e ∈ h, e.out = true ∧ e.post.iom.pendingEventCount ≠ 0) ∧
    ∃ h s, Run (machine (κ := Nat) Schedular.twoThreads memory) h s ∧
      ∃ e ∈ h, e.out = true ∧ (e.post.sched.workers true).pc.swappedOut = some 1 ∧
        (e.post.sched.fibers 1).state = .ready := by
  refine ⟨?_, ?_, ?_⟩
  · obtain ⟨h, s, hr, hp⟩ := Run.of_replay (machine (κ := Nat) Schedular.twoThreads memory) ⟨0, rfl⟩
      (busy ++ setFlags ++ firstTest ++ [.timer ⟨0, .addTimer 5 10 0 false⟩] ++ leave (.finish false) ++
        [.idle false 0, .idle false 0])
      (fun r => decide (∃ e ∈ r.1, e.out = true ∧ e.post.timers.timers ≠ [])) (by decide +kernel)
    exact ⟨h, s, hr, of_decide_eq_true hp⟩
  · obtain ⟨h, s, hr, hp⟩ := Run.of_replay (machine (κ := Nat) Schedular.twoThreads memory) ⟨0, rfl⟩
      (busy ++ setFlags ++ firstTest ++ [.idle false 0, .manage (.addEvent 5 .read none ⟨some (), 1, .exec⟩ true)] ++
        leave (.finish false) ++ [.idle false 0])
      (fun r => decide (∃ e ∈ r.1, e.out = true ∧ e.post.iom.pendingEventCount ≠ 0)) (by decide +kernel)
    exact ⟨h, s, hr, of_decide_eq_true hp⟩
  · obtain ⟨h, s, hr, hp⟩ := Run.of_replay (machine (κ := Nat) Schedular.twoThreads memory) ⟨0, rfl⟩
      (busy ++ setFlags ++ firstTest ++ leave .yieldToReady ++ [.idle false 0, .idle false 0])
      (fun r => decide (∃ e ∈ r.1, e.out = true ∧ (e.post.sched.workers true).pc.swappedOut = some 1 ∧
        (e.post.sched.fibers 1).state = .ready)) (by decide +kernel)
    exact ⟨h, s, hr, of_decide_eq_true hp⟩

end Workers

end QWebServer
