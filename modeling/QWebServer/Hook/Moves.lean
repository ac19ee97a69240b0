import QWebServer.Hook.Model

/-!
# The moves of the calls and of what they share

* `cancelTimer_*` : `timer->cancel()` touches the timers only;
* `Advances` : every step of a call, with the place it is made from, `advance_spec` : there is no other;
* `Fires` : every step of a callback, `fire_spec` : there is no other;
* `Move` : every step of anybody, `step_move` : there is no other.
-/

namespace QWebServer.Hook

open Lib

variable {φ κ : Type}

/-! ## `timer->cancel()` -/

theorem cancelTimer_calls (s : Hook φ κ) (c : Call φ) (a : Nat) (c₁ : Call φ) :
    ((s.cancelTimer c).setCall a c₁).calls = s.calls.set a c₁ := by
  unfold cancelTimer
  split <;> rfl

theorem cancelTimer_firings (s : Hook φ κ) (c : Call φ) : (s.cancelTimer c).firings = s.firings := by
  unfold cancelTimer
  split <;> rfl

theorem cancelTimer_iom (s : Hook φ κ) (c : Call φ) : (s.cancelTimer c).iom = s.iom := by
  unfold cancelTimer
  split <;> rfl

theorem cancelTimer_queue (s : Hook φ κ) (c : Call φ) : (s.cancelTimer c).queue = s.queue := by
  unfold cancelTimer
  split <;> rfl

/-! ## A call -/

/-- The step of the call `c`, number `a`, from where it is. -/
inductive Advances [DecidableEq φ] (mem : IOManager.Memory) (s : Hook φ κ) (a : Nat) (c : Call φ) (x : Input) :
    Hook φ κ → Prop
  | io (hpc : c.pc = .io) :
      Advances mem s a c x (s.setCall a { c with pc := if x.again then .arm else .returned })
  | arm (hpc : c.pc = .arm) (ht : c.timeout ≠ -1) :
      Advances mem s a c x
        ({ s with
          timers := (s.timers.addTimer x.timer c.timeout (some (.timeout a c.fd c.event)) false x.now).2 }.setCall a
          { c with pc := .add, timer := some x.timer })
  | armNone (hpc : c.pc = .arm) (ht : c.timeout = -1) :
      Advances mem s a c x (s.setCall a { c with pc := .add, timer := none })
  | add {ret : Int} {m : IOManager Unit φ κ} (hpc : c.pc = .add)
      (h : s.iom.addEvent mem c.fd c.event none { schedular := some (), fiber := c.fiber } x.rt = .ok (ret, m)) :
      Advances mem s a c x ({ s with iom := m }.setCall a { c with pc := if c.kind.added ret then .yield else .failed })
  | failed (hpc : c.pc = .failed) : Advances mem s a c x ((s.cancelTimer c).setCall a { c with pc := .returned })
  | yield (hpc : c.pc = .yield) : Advances mem s a c x (s.setCall a { c with pc := .suspended })
  | wake (hpc : c.pc = .suspended) :
      Advances mem s a c x ({ s with queue := s.queue.erase c.fiber }.setCall a { c with pc := .awake })
  | cancel (hpc : c.pc = .awake) : Advances mem s a c x ((s.cancelTimer c).setCall a { c with pc := .check })
  | check (hpc : c.pc = .check) :
      Advances mem s a c x
        (s.setCall a { c with pc := if c.cancelled ≠ 0 then .returned else c.kind.retry, timer := none })
  | returned (hpc : c.pc = .returned) : Advances mem s a c x s

theorem advance_spec [DecidableEq φ] {mem : IOManager.Memory} {s s' : Hook φ κ} {a : Nat} {c : Call φ} {x : Input}
    (h : s.advance mem a c x = .ok s') : Advances mem s a c x s' := by
  unfold advance at h
  cases hpc : c.pc with
  | arm =>
    simp only [hpc] at h
    split_ifs at h with ht
    · cases h
      exact .arm hpc ht
    · cases h
      exact .armNone hpc (not_not.mp ht)
  | add =>
    simp only [hpc] at h
    obtain ⟨⟨ret, m⟩, hadd, hr⟩ := bind_eq_ok h
    cases hr
    exact .add hpc (mapError_eq_ok hadd)
  | io =>
    simp only [hpc] at h
    cases h
    exact .io hpc
  | failed =>
    simp only [hpc] at h
    cases h
    exact .failed hpc
  | yield =>
    simp only [hpc] at h
    cases h
    exact .yield hpc
  | suspended =>
    simp only [hpc] at h
    cases h
    exact .wake hpc
  | awake =>
    simp only [hpc] at h
    cases h
    exact .cancel hpc
  | check =>
    simp only [hpc] at h
    cases h
    exact .check hpc
  | returned =>
    simp only [hpc] at h
    cases h
    exact .returned hpc

/-! ## A callback -/

/-- The step of the callback `b`, number `k`, from where it is. -/
inductive Fires (s : Hook φ κ) (k : Nat) (b : Firing κ) (rt : Bool) : Hook φ κ → Prop
  | other {q : κ} (hcb : b.cb = .other q) : Fires s k b rt (s.setStage k b .done)
  | onTimer {tinfo : Nat} {fd : Int} {event : IOManager.Event} (hcb : b.cb = .timeout tinfo fd event)
      (hst : b.stage = .onTimer) : Fires s k b rt (s.setStage k b (if s.alive tinfo then .check else .done))
  | check {tinfo : Nat} {fd : Int} {event : IOManager.Event} (hcb : b.cb = .timeout tinfo fd event)
      (hst : b.stage = .check) :
      Fires s k b rt (s.setStage k b (if s.calls[tinfo]?.any (·.cancelled != 0) then .done else .store))
  | store {tinfo : Nat} {fd : Int} {event : IOManager.Event} (hcb : b.cb = .timeout tinfo fd event)
      (hst : b.stage = .store) :
      Fires s k b rt ((s.setCancelled tinfo).setStage k b .cancel)
  | cancel {tinfo : Nat} {fd : Int} {event : IOManager.Event} {ret : Bool}
      {scheduled : List (Unit × FiberAndThread φ κ)} {m : IOManager Unit φ κ}
      (hcb : b.cb = .timeout tinfo fd event) (hst : b.stage = .cancel)
      (h : s.iom.cancelEvent fd event rt = .ok (ret, scheduled, m)) :
      Fires s k b rt (({ s with iom := m }.wake scheduled).setStage k b .done)
  | done {tinfo : Nat} {fd : Int} {event : IOManager.Event} (hcb : b.cb = .timeout tinfo fd event)
      (hst : b.stage = .done) :
      Fires s k b rt s

theorem fire_spec {s s' : Hook φ κ} {k : Nat} {b : Firing κ} {rt : Bool} (h : s.fire k b rt = .ok s') :
    Fires s k b rt s' := by
  unfold fire at h
  cases hcb : b.cb with
  | other q =>
    simp only [hcb] at h
    cases h
    exact .other hcb
  | timeout tinfo fd event =>
    simp only [hcb] at h
    cases hst : b.stage with
    | onTimer =>
      simp only [hst] at h
      cases h
      exact .onTimer hcb hst
    | check =>
      simp only [hst] at h
      cases h
      exact .check hcb hst
    | store =>
      simp only [hst] at h
      cases h
      exact .store hcb hst
    | cancel =>
      simp only [hst] at h
      obtain ⟨⟨ret, scheduled, m⟩, hce, hr⟩ := bind_eq_ok h
      cases hr
      exact .cancel hcb hst (mapError_eq_ok hce)
    | done =>
      simp only [hst] at h
      cases h
      exact .done hcb hst

/-! ## Anybody -/

/-- The steps. A label for a call or a callback that does not exist does nothing. -/
inductive Move [DecidableEq φ] (mem : IOManager.Memory) (s : Hook φ κ) : Label φ κ → Hook φ κ → Prop
  | start (c : Call φ) : Move mem s (.start c) { s with calls := s.calls ++ [c] }
  | call {a : Nat} {c : Call φ} {x : Input} {s₁ : Hook φ κ} (hc : s.calls[a]? = some c) (h : Advances mem s a c x s₁) :
      Move mem s (.call a x) s₁
  | noCall {a : Nat} {x : Input} (hc : s.calls[a]? = none) : Move mem s (.call a x) s
  | expire {now : UInt64} {probe : Addr} {cbs : List (Addr × Option (Callback κ))} {m : TimerManager (Callback κ)}
      (h : s.timers.listExpiredCb now probe = .ok (cbs, m)) :
      Move mem s (.expire now probe)
        { s with
          timers := m
          firings := s.firings ++ cbs.filterMap fun x => x.2.map fun cb => { timer := x.1, cb := cb } }
  | fire {k : Nat} {b : Firing κ} {rt : Bool} {s₁ : Hook φ κ} (hb : s.firings[k]? = some b) (h : Fires s k b rt s₁) :
      Move mem s (.fire k rt) s₁
  | noFiring {k : Nat} {rt : Bool} (hb : s.firings[k]? = none) : Move mem s (.fire k rt) s
  | manage {o : IOManager.Op Unit φ κ} {r : IOManager.Reply Unit φ κ} {m : IOManager Unit φ κ}
      (h : s.iom.step mem o = .ok (r, m)) : Move mem s (.manage o) ({ s with iom := m }.wake r.scheduled)
  | timer {c : TimerManager.Call (Callback κ)} {r : TimerManager.Reply (Callback κ)} {m : TimerManager (Callback κ)}
      (h : s.timers.step c = .ok (r, m)) : Move mem s (.timer c) { s with timers := m }

theorem step_move [DecidableEq φ] {mem : IOManager.Memory} {s s' : Hook φ κ} {l : Label φ κ}
    (h : s.step mem l = .ok ((), s')) : Move mem s l s' := by
  cases l with
  | start c =>
    cases h
    exact .start c
  | call a x =>
    unfold step at h
    cases hc : s.calls[a]? with
    | none =>
      simp only [hc] at h
      cases h
      exact .noCall hc
    | some c =>
      simp only [hc] at h
      obtain ⟨s₁, hs, hr⟩ := bind_eq_ok h
      cases hr
      exact .call hc (advance_spec hs)
  | expire now probe =>
    obtain ⟨s₁, hs, hr⟩ := bind_eq_ok h
    cases hr
    obtain ⟨⟨cbs, m⟩, hl, hr⟩ := bind_eq_ok hs
    cases hr
    exact .expire (mapError_eq_ok hl)
  | fire k rt =>
    unfold step at h
    cases hb : s.firings[k]? with
    | none =>
      simp only [hb] at h
      cases h
      exact .noFiring hb
    | some b =>
      simp only [hb] at h
      obtain ⟨s₁, hs, hr⟩ := bind_eq_ok h
      cases hr
      exact .fire hb (fire_spec hs)
  | manage o =>
    obtain ⟨⟨r, m⟩, hs, hr⟩ := bind_eq_ok h
    cases hr
    exact .manage (mapError_eq_ok hs)
  | timer c =>
    obtain ⟨⟨r, m⟩, hs, hr⟩ := bind_eq_ok h
    cases hr
    exact .timer (mapError_eq_ok hs)

end QWebServer.Hook
