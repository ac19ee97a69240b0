import QWebServer.Workers.Model

/-!
# The moves of the workers

* `Move` : every step there is, with its guard and the state it leads to, `step_move` : there is no other;
* `callTickle_sched` and so on : what the beginning of a call of `tickle` leaves alone;
* `stoppingTest_timers`, `stoppingTest_true` : a test of `stopping` touches the timers at most, and only the locked one
  is the last of a call that returns true.
-/

namespace QWebServer.Workers

open Lib
open Schedular (Threads)

variable {τ κ : Type}

/-! ## Calls of `tickle` -/

@[simp] theorem callTickle_sched (s : Workers τ κ) (caller : Option τ) (need : Bool) :
    (s.callTickle caller need).sched = s.sched := by
  cases need <;> rfl

@[simp] theorem callTickle_idle (s : Workers τ κ) (caller : Option τ) (need : Bool) :
    (s.callTickle caller need).idle = s.idle := by
  cases need <;> rfl

@[simp] theorem callTickle_idleThreadCount (s : Workers τ κ) (caller : Option τ) (need : Bool) :
    (s.callTickle caller need).idleThreadCount = s.idleThreadCount := by
  cases need <;> rfl

@[simp] theorem callTickle_pipe (s : Workers τ κ) (caller : Option τ) (need : Bool) :
    (s.callTickle caller need).pipe = s.pipe := by
  cases need <;> rfl

theorem callTickle_tickles (s : Workers τ κ) (caller : Option τ) (need : Bool) :
    (s.tickles ≠ [] → (s.callTickle caller need).tickles ≠ []) ∧
      (need = true → (s.callTickle caller need).tickles ≠ []) := by
  unfold callTickle
  cases need <;> simp

/-! ## Tests of `stopping` -/

theorem stoppingTest_timers {s s₁ : Workers τ κ} {now : UInt64} {x : Test} {next : Test ⊕ Bool}
    (hp : s.stoppingTest now x = (next, s₁)) : ∃ timers, s₁ = { s with timers := timers } := by
  cases x with
  | timer =>
    cases hp
    exact ⟨_, rfl⟩
  | pending | locked =>
    cases hp
    exact ⟨s.timers, rfl⟩

theorem stoppingTest_true {s s₁ : Workers τ κ} {now : UInt64} {x : Test}
    (hp : s.stoppingTest now x = (.inr true, s₁)) : x = .locked ∧ s.schedStopping = true ∧ s₁ = s := by
  cases x with
  | timer | pending =>
    simp only [stoppingTest, Prod.mk.injEq] at hp
    obtain ⟨hnext, -⟩ := hp
    split_ifs at hnext
    cases hnext
  | locked =>
    simp only [stoppingTest, Prod.mk.injEq] at hp
    obtain ⟨hnext, rfl⟩ := hp
    exact ⟨rfl, Sum.inr.inj hnext, rfl⟩

/-! ## Moves -/

theorem Enabled.ready {s : Workers τ κ} {l : Schedular.Label τ κ} (he : s.Enabled (.sched l)) : s.sched.Ready l := by
  cases l with
  | work t a => exact he.1.1
  | act t x => exact he
  | _ => trivial

section
variable [DecidableEq τ]

/-- The moves, and whether a call of `stopping` ends and returns true. -/
inductive Move (ids : Threads τ) (mem : IOManager.Memory) (s : Workers τ κ) : Label τ κ → Bool → Workers τ κ → Prop
  | sched {l : Schedular.Label τ κ} {r : Schedular.Reply} {sched : Schedular τ κ} (hready : s.sched.Ready l)
      (h : s.sched.step ids l = .ok (r, sched)) :
      Move ids mem s (.sched l) false
        ({ s with sched := sched, idle := s.idleAfter sched l }.callTickle (caller l) r.tickle)
  | enter {t : τ} {now : UInt64} (hidle : s.idle t = .enter) :
      Move ids mem s (.idle t now) false
        ({ s with idleThreadCount := s.idleThreadCount + 1 }.goto t (.stopping .timer))
  | test {t : τ} {now : UInt64} {x y : Test} {s₁ : Workers τ κ} (hidle : s.idle t = .stopping x)
      (hp : s.stoppingTest now x = (.inl y, s₁)) : Move ids mem s (.idle t now) false (s₁.goto t (.stopping y))
  | stay {t : τ} {now : UInt64} {x : Test} {s₁ : Workers τ κ} (hidle : s.idle t = .stopping x)
      (hp : s.stoppingTest now x = (.inr false, s₁)) : Move ids mem s (.idle t now) false (s₁.goto t .wait)
  | finish {t : τ} {now : UInt64} {x : Test} {s₁ : Workers τ κ} (hidle : s.idle t = .stopping x)
      (hp : s.stoppingTest now x = (.inr true, s₁)) :
      Move ids mem s (.idle t now) true ({ s₁ with term := Function.update s₁.term t true }.goto t .finished)
  | wait {t : τ} {now : UInt64} (hidle : s.idle t = .wait) : Move ids mem s (.idle t now) false (s.goto t .blocked)
  | wake {t : τ} {now : UInt64} (hidle : s.idle t = .blocked) : Move ids mem s (.idle t now) false (s.goto t .woken)
  | leave {t : τ} {now : UInt64} (hidle : s.idle t = .woken) : Move ids mem s (.idle t now) false (s.goto t .leave)
  | rescan {t : τ} {now : UInt64} (hidle : s.idle t = .leave) :
      Move ids mem s (.idle t now) false ({ s with idleThreadCount := s.idleThreadCount - 1 }.goto t .rescan)
  | again {t : τ} {now : UInt64} (hidle : s.idle t = .finished) :
      Move ids mem s (.idle t now) false ({ s with idleThreadCount := s.idleThreadCount - 1 }.goto t .run)
  | read {t : τ} (hidle : s.idle t = .woken) : Move ids mem s (.read t) false { s with pipe := s.pipe - 256 }
  | tickle {k : Nat} {x : Tickle τ} (hk : s.tickles[k]? = some x) : Move ids mem s (.tickle k) false (s.tickle k x)
  | noTickle {k : Nat} : Move ids mem s (.tickle k) false s
  | timer {c : TimerManager.Call κ} {r : TimerManager.Reply κ} {timers : TimerManager κ} (ha : s.timers.Allowed c)
      (h : s.timers.step c = .ok (r, timers)) :
      Move ids mem s (.timer c) false ({ s with timers := timers }.callTickle none r.notified)
  | manage {o : IOManager.Op Unit Addr κ} {r : IOManager.Reply Unit Addr κ} {iom : IOManager Unit Addr κ}
      (ha : IOManager.Allowed o) (h : s.iom.step mem o = .ok (r, iom)) :
      Move ids mem s (.manage o) false { s with iom := iom }
  | autoStop : Move ids mem s .autoStop false { s with autoStop := true }
  | setStopping : Move ids mem s .setStopping false { s with stopping := true }
  | stopTickle : Move ids mem s .stopTickle false (s.callTickle none true)
  | stopCall {now : UInt64} (hstop : s.stop = none) : Move ids mem s (.stop now) false { s with stop := some .timer }
  | stopTest {now : UInt64} {x y : Test} {s₁ : Workers τ κ} (hstop : s.stop = some x)
      (hp : s.stoppingTest now x = (.inl y, s₁)) : Move ids mem s (.stop now) false { s₁ with stop := some y }
  | stopEnd {now : UInt64} {x : Test} {b : Bool} {s₁ : Workers τ κ} (hstop : s.stop = some x)
      (hp : s.stoppingTest now x = (.inr b, s₁)) : Move ids mem s (.stop now) b { s₁ with stop := none }

variable {ids : Threads τ} {mem : IOManager.Memory} {s s' : Workers τ κ} {b : Bool}

theorem idleStep_move {t : τ} {now : UInt64} (ht : s.idle t ≠ .run ∧ s.idle t ≠ .rescan ∧ s.idle t ≠ .ended)
    (h : s.idleStep t now = (b, s')) : Move ids mem s (.idle t now) b s' := by
  obtain ⟨rfl, rfl⟩ := Prod.ext_iff.mp h
  unfold idleStep
  cases hidle : s.idle t with
  | run => exact absurd hidle ht.1
  | rescan => exact absurd hidle ht.2.1
  | ended => exact absurd hidle ht.2.2
  | enter => exact .enter hidle
  | wait => exact .wait hidle
  | blocked => exact .wake hidle
  | woken => exact .leave hidle
  | leave => exact .rescan hidle
  | finished => exact .again hidle
  | stopping x =>
    dsimp only
    cases hp : s.stoppingTest now x with
    | mk next s₁ =>
      rcases next with y | b
      · exact .test hidle hp
      · cases b with
        | false => exact .stay hidle hp
        | true => exact .finish hidle hp

theorem stopStep_move {now : UInt64} (h : s.stopStep now = (b, s')) : Move ids mem s (.stop now) b s' := by
  obtain ⟨rfl, rfl⟩ := Prod.ext_iff.mp h
  unfold stopStep
  cases hstop : s.stop with
  | none => exact .stopCall hstop
  | some x =>
    dsimp only
    cases hp : s.stoppingTest now x with
    | mk next s₁ =>
      rcases next with y | b
      · exact .stopTest hstop hp
      · exact .stopEnd hstop hp

/-- **What a step does.** -/
theorem step_move {l : Label τ κ} (he : s.Enabled l) (h : s.step ids mem l = .ok (b, s')) : Move ids mem s l b s' := by
  cases l with
  | sched l =>
    obtain ⟨⟨r, sched⟩, hs, hr⟩ := bind_eq_ok h
    cases hr
    exact .sched he.ready (mapError_eq_ok hs)
  | idle t now => exact idleStep_move he.1 (Except.ok.inj h)
  | read t =>
    cases h
    exact .read he
  | tickle k =>
    unfold step at h
    cases hk : s.tickles[k]? with
    | none =>
      simp only [hk] at h
      cases h
      exact .noTickle
    | some x =>
      simp only [hk] at h
      cases h
      exact .tickle hk
  | timer c =>
    obtain ⟨⟨r, timers⟩, hs, hr⟩ := bind_eq_ok h
    cases hr
    exact .timer he (mapError_eq_ok hs)
  | manage o =>
    obtain ⟨⟨r, iom⟩, hs, hr⟩ := bind_eq_ok h
    cases hr
    exact .manage he (mapError_eq_ok hs)
  | autoStop =>
    cases h
    exact .autoStop
  | setStopping =>
    cases h
    exact .setStopping
  | stopTickle =>
    cases h
    exact .stopTickle
  | stop now => exact stopStep_move (Except.ok.inj h)

end

end QWebServer.Workers
