import QWebServer.Hook.Moves
import QWebServer.IOManager.Resumption
import QWebServer.Timer.Delivery

/-!
# No lost timeout

* `Registered` : the event of a call is waited for by its fiber;
* `Fired` : the callback of the timer of this round has run to completion;
* `Timely` : such a callback does not come to its end before the round's `addEvent`, nor because of an earlier round's
  callback, nor with an `epoll_ctl` that fails, while the call still waits;
* `no_lost_timeout` : in runs of such steps a suspended fiber whose timeout has fired is not registered any more, and it
  is scheduled unless somebody deleted its event.
-/

namespace QWebServer.Hook

open Lib IOManager

variable {φ κ : Type}

/-- The event of the call is registered in the manager, with the fiber of the call. -/
def Registered (m : IOManager Unit φ κ) (c : Call φ) : Prop :=
  match m.fdContext c.fd with
  | .ok x => x.events &&& c.event.mask ≠ 0#32 ∧ (x.getContext c.event).fiber = some c.fiber
  | .error _ => False

/-- The callback of the timer of this round has run to completion. -/
def Fired (bs : List (Firing κ)) (c : Call φ) : Prop := ∃ b ∈ bs, c.timer = some b.timer ∧ b.stage = .done

/-- The call has its timer and is before `addEvent`, or its event is registered. -/
def Awaits (m : IOManager Unit φ κ) (c : Call φ) : Prop := c.pc = .add ∨ Registered m c

/-- The call in whose current round the timer of `b` was armed. -/
def current (s : Hook φ κ) (b : Firing κ) : Option (Call φ) :=
  match b.cb with
  | .timeout tinfo _ _ => s.calls[tinfo]?.filter fun c => c.timer = some b.timer
  | .other _ => none

/-- The callback of the current round does not return early at a `cancelled` that is already set while the call waits,
and it does not call `cancelEvent` before the call has made its `addEvent`, nor with an `epoll_ctl` that fails while the
event is registered. -/
def Timely (s : Hook φ κ) : Label φ κ → Prop
  | .fire k rt => ∀ b ∈ s.firings[k]?, ∀ c ∈ s.current b,
      (b.stage = .check → c.cancelled ≠ 0 → ¬ Awaits s.iom c) ∧
        (b.stage = .cancel → c.pc ≠ .add ∧ (Registered s.iom c → rt = true))
  | _ => True

instance [DecidableEq φ] (m : IOManager Unit φ κ) (c : Call φ) : Decidable (Registered m c) :=
  match h : m.fdContext c.fd with
  | .ok x => decidable_of_iff (x.events &&& c.event.mask ≠ 0#32 ∧ (x.getContext c.event).fiber = some c.fiber)
      (by simp [Registered, h])
  | .error _ => isFalse (by simp [Registered, h])

instance (bs : List (Firing κ)) (c : Call φ) : Decidable (Fired bs c) :=
  inferInstanceAs (Decidable (∃ b ∈ bs, c.timer = some b.timer ∧ b.stage = .done))

instance [DecidableEq φ] (m : IOManager Unit φ κ) (c : Call φ) : Decidable (Awaits m c) :=
  inferInstanceAs (Decidable (_ ∨ _))

instance [DecidableEq φ] (s : Hook φ κ) : (l : Label φ κ) → Decidable (Timely s l)
  | .fire k rt => inferInstanceAs (Decidable (∀ b ∈ s.firings[k]?, ∀ c ∈ s.current b,
      (b.stage = .check → c.cancelled ≠ 0 → ¬ Awaits s.iom c) ∧
        (b.stage = .cancel → c.pc ≠ .add ∧ (Registered s.iom c → rt = true))))
  | .start _ => isTrue trivial
  | .call _ _ => isTrue trivial
  | .expire _ _ => isTrue trivial
  | .manage _ => isTrue trivial
  | .timer _ => isTrue trivial

/-! ## The manager -/

section
open Waiters

theorem registered_manager (W : Waiters Unit φ κ) (c : Call φ) :
    Registered W.manager c ↔ ∃ i : Nat, c.fd = i ∧ W.slot i c.event = some ((), .fiber c.fiber) := by
  have hslot : ∀ i : Nat, i < W.size → c.fd = i →
      (Registered W.manager c ↔ W.slot i c.event = some ((), .fiber c.fiber)) := by
    intro i hi hfd
    unfold Registered
    rw [hfd, fdContext_manager W hi]
    simp only [of_events, of_getContext, mask_and_ne]
    cases hw : W.slot i c.event with
    | none => simp
    | some w =>
      obtain ⟨u, task⟩ := w
      cases task <;> simp [EventContext.of]
  constructor
  · intro h
    cases hc : W.manager.fdContext c.fd with
    | error f =>
      unfold Registered at h
      rw [hc] at h
      exact h.elim
    | ok x =>
      obtain ⟨i, hi, hfd⟩ := inTable_of_fdContext hc
      exact ⟨i, hfd, (hslot i hi hfd).mp h⟩
  · rintro ⟨i, hfd, hw⟩
    have hi : i < W.size := by
      by_contra hge
      rw [W.outside i (by omega)] at hw
      cases hw
    exact (hslot i hi hfd).mpr hw

/-- What is registered was so before, or the fiber has just called `addEvent`. -/
theorem registered_of_effect {W W' : Waiters Unit φ κ} {o : Op Unit φ κ} {r : Reply Unit φ κ} (he : Effect W o r W')
    {c : Call φ} (h : Registered W'.manager c) :
    Registered W.manager c ∨ ∃ fd event cb caller rt, o = .addEvent fd event cb caller rt ∧ caller.fiber = c.fiber := by
  obtain ⟨i, hfd, hw⟩ := (registered_manager W' c).mp h
  rcases he.slot hw with hw | ⟨cb, caller, ho, -, -, htask⟩
  · exact .inl ((registered_manager W c).mpr ⟨i, hfd, hw⟩)
  · refine .inr ⟨i, c.event, cb, caller, true, ho, ?_⟩
    cases cb with
    | none => exact (Task.fiber.inj htask).symm
    | some k => cases htask

/-- What is registered stays so or is scheduled, unless it is deleted. -/
theorem registered_or_scheduled {W W' : Waiters Unit φ κ} {o : Op Unit φ κ} {r : Reply Unit φ κ} (he : Effect W o r W')
    (hdel : ¬ o.IsDel) {c : Call φ} (h : Registered W.manager c) :
    Registered W'.manager c ∨ c.fiber ∈ r.scheduled.filterMap (·.2.fiber) := by
  obtain ⟨i, hfd, hw⟩ := (registered_manager W c).mp h
  have hkeep : W'.slot i c.event = W.slot i c.event → Registered W'.manager c := fun heq =>
    (registered_manager W' c).mpr ⟨i, hfd, heq.trans hw⟩
  cases he with
  | quiet hslot => exact .inl (hkeep (by rw [hslot]))
  | @add j e cb caller s _ hs hfree hslot =>
    refine .inl (hkeep ?_)
    rw [hslot]
    by_cases hij : i = j
    · subst hij
      have hne : c.event ≠ e := by
        rintro rfl
        rw [hw] at hfree
        cases hfree
      rw [Function.update_self, Function.update_of_ne hne]
    · rw [Function.update_of_ne hij]
  | drop hocc hslot => exact absurd trivial hdel
  | @resume _ j evs ret _ ho hnd hocc hslot =>
    by_cases hij : i = j
    · subst hij
      by_cases hev : c.event ∈ evs
      · right
        refine List.mem_filterMap.mpr ⟨resume ((), .fiber c.fiber), ?_, rfl⟩
        exact List.mem_filterMap.mpr ⟨c.event, hev, by rw [hw]; rfl⟩
      · refine .inl (hkeep ?_)
        rw [hslot, Function.update_self, clear_of_notMem _ hev]
    · refine .inl (hkeep ?_)
      rw [hslot, Function.update_of_ne hij]

/-- `cancelEvent` for a registered event whose `epoll_ctl` succeeds takes it out. -/
theorem not_registered_of_cancelEvent {W : Waiters Unit φ κ} {c : Call φ} {ret : Bool}
    {calls : List (Unit × FiberAndThread φ κ)} {m : IOManager Unit φ κ}
    (h : W.manager.cancelEvent c.fd c.event true = .ok (ret, calls, m)) (hreg : Registered W.manager c) :
    ¬ Registered m c := by
  obtain ⟨i, hfd, hw⟩ := (registered_manager W c).mp hreg
  have hi : i < W.size := by
    by_contra hge
    rw [W.outside i (by omega)] at hw
    cases hw
  rw [hfd, cancelEvent_manager W hi, if_pos ⟨rfl, by simp [hw]⟩] at h
  cases h
  rw [registered_manager]
  rintro ⟨j, hj, hw'⟩
  obtain rfl : i = j := by omega
  change Function.update W.slot i (clear (W.slot i) [c.event]) i c.event = _ at hw'
  rw [Function.update_self] at hw'
  simp [clear] at hw'

end

/-! ## The timers -/

/-- The timers that were created stay so, with their callbacks as long as they have one. -/
structure Keeps (m m' : TimerManager (Callback κ)) : Prop where
  good : m'.Good
  created : ∀ t ∈ m.created, t ∈ m'.created
  cb : ∀ t ∈ m.created, ∀ k, (m'.heap t).cb = some k → (m.heap t).cb = some k

theorem Keeps.refl {m : TimerManager (Callback κ)} (g : m.Good) : Keeps m m := ⟨g, fun _ h => h, fun _ _ _ h => h⟩

theorem keeps_of_effect {m m' : TimerManager (Callback κ)} {now : UInt64} {op : TimerManager.Op (Callback κ)}
    {r : TimerManager.Reply (Callback κ)} (g : m.Good) (he : TimerManager.Effect m now op r m') : Keeps m m' := by
  refine ⟨he.good g, fun t ht => he.created_mono ht, fun t ht k hk => ?_⟩
  cases he with
  | @added a ms cb recurring ha =>
    have hne : t ≠ a := fun h => ha (h ▸ ht)
    change (Function.update m.heap a _ t).cb = _ at hk
    rwa [Function.update_of_ne hne] at hk
  | @cancelled u hu =>
    by_cases h : t = u
    · simp [h] at hk
    · simpa [h] using hk
  | @refreshed u hu =>
    by_cases h : t = u
    · subst h
      simpa using hk
    · simpa [h] using hk
  | @resetHit u ms fromNow hu =>
    change (Function.update m.heap u (TimerManager.resetTo (m.heap u) ms fromNow now) t).cb = _ at hk
    by_cases h : t = u
    · subst h
      simpa [TimerManager.resetTo] using hk
    · simpa [h] using hk
  | listed hl =>
    rw [hl.heap t] at hk
    split_ifs at hk
    · unfold TimerManager.rearmed at hk
      split_ifs at hk
      · exact hk
    · exact hk
  | cancelMiss | refreshMiss | resetSame | resetMiss | nextTimer => exact hk

theorem keeps_addTimer {m : TimerManager (Callback κ)} (g : m.Good) {t : Addr} (ht : t ∉ m.created) (ms : UInt64)
    (cb : Callback κ) (now : UInt64) :
    Keeps m (m.addTimer t ms (some cb) false now).2 ∧ t ∈ (m.addTimer t ms (some cb) false now).2.created ∧
      ((m.addTimer t ms (some cb) false now).2.heap t).cb = some cb := by
  have hs : m.step ⟨now, .addTimer t ms cb false⟩ =
      .ok ({ notified := (m.addTimer t ms (some cb) false now).1 }, (m.addTimer t ms (some cb) false now).2) := rfl
  have ha : m.Allowed ⟨now, .addTimer t ms cb false⟩ := ht
  refine ⟨keeps_of_effect g (TimerManager.step_effect g ha hs),
    List.mem_append_right _ (List.mem_singleton.mpr rfl), ?_⟩
  show (Function.update m.heap t _ t).cb = some cb
  rw [Function.update_self]

theorem keeps_cancel {m : TimerManager (Callback κ)} (g : m.Good) {t : Addr} (ht : t ∈ m.created) :
    Keeps m (m.cancel t).2 := by
  have hs : m.step ⟨0, .cancel t⟩ = .ok ({ ret := (m.cancel t).1 }, (m.cancel t).2) := rfl
  have ha : m.Allowed ⟨0, .cancel t⟩ := ht
  exact keeps_of_effect g (TimerManager.step_effect g ha hs)

/-! ## The invariant -/

/-- The timers of the calls carry their callbacks, a fiber is in one call at a time, and no call waits whose timeout has
fired. -/
structure Inv (s : Hook φ κ) : Prop where
  iom : ∃ W : Waiters Unit φ κ, s.iom = W.manager
  good : s.timers.Good
  armed : ∀ (a : Nat) (c : Call φ) (t : Addr), s.calls[a]? = some c → c.timer = some t →
    t ∈ s.timers.created ∧ ∀ k, (s.timers.heap t).cb = some k → k = .timeout a c.fd c.event
  fired : ∀ b ∈ s.firings, b.timer ∈ s.timers.created
  owned : ∀ b ∈ s.firings, ∀ (a : Nat) (c : Call φ), s.calls[a]? = some c → c.timer = some b.timer →
    b.cb = .timeout a c.fd c.event
  apart : ∀ (a a' : Nat) (c c' : Call φ), s.calls[a]? = some c → s.calls[a']? = some c' →
    c.pc ≠ .returned → c'.pc ≠ .returned →
    c.fiber = c'.fiber → a = a'
  timely : ∀ (a : Nat) (c : Call φ), s.calls[a]? = some c → c.pc ≠ .returned → Fired s.firings c → ¬ Awaits s.iom c

/-- The call number `a` goes on from `c` to `c'`: with the timer it had, without one, or with a new one. -/
structure Goes (m m' : TimerManager (Callback κ)) (a : Nat) (c c' : Call φ) : Prop where
  same : c'.fd = c.fd ∧ c'.event = c.event ∧ c'.fiber = c.fiber
  returned : c.pc = .returned → c'.pc = .returned
  timer : ∀ t, c'.timer = some t → c.timer = some t ∨
    t ∉ m.created ∧ t ∈ m'.created ∧ (m'.heap t).cb = some (.timeout a c.fd c.event)

theorem Goes.refl (m m' : TimerManager (Callback κ)) (a : Nat) (c : Call φ) : Goes m m' a c c :=
  ⟨⟨rfl, rfl, rfl⟩, id, fun _ h => .inl h⟩

theorem Goes.registered {m m' : TimerManager (Callback κ)} {a : Nat} {c c' : Call φ} (h : Goes m m' a c c')
    (x : IOManager Unit φ κ) : Registered x c' ↔ Registered x c := by
  obtain ⟨⟨h1, h2, h3⟩, -, -⟩ := h
  unfold Registered
  rw [h1, h2, h3]

/-- What a step has to show beyond the calls that go on and the callbacks that do. -/
theorem Inv.of {s s' : Hook φ κ} (hi : Inv s) (hiom : ∃ W : Waiters Unit φ κ, s'.iom = W.manager)
    (hk : Keeps s.timers s'.timers)
    (hcalls : ∀ (a : Nat) (c' : Call φ), s'.calls[a]? = some c' → ∃ c, s.calls[a]? = some c ∧
      Goes s.timers s'.timers a c c')
    (hfirings : ∀ b' ∈ s'.firings, b'.timer ∈ s.timers.created ∧
      ((∃ b ∈ s.firings, b'.timer = b.timer ∧ b'.cb = b.cb) ∨ (s.timers.heap b'.timer).cb = some b'.cb))
    (htimely : ∀ (a : Nat) (c c' : Call φ), s.calls[a]? = some c → s'.calls[a]? = some c' →
      Goes s.timers s'.timers a c c' →
      c'.pc ≠ .returned → Fired s'.firings c' → ¬ Awaits s'.iom c') : Inv s' := by
  refine ⟨hiom, hk.good, ?_, fun b hb => hk.created _ (hfirings b hb).1, ?_, ?_, ?_⟩
  · intro a c' t hc' ht
    obtain ⟨c, hc, hg⟩ := hcalls a c' hc'
    rw [hg.same.1, hg.same.2.1]
    rcases hg.timer t ht with ht | ⟨-, hcr, hcb⟩
    · obtain ⟨hcr, hown⟩ := hi.armed a c t hc ht
      exact ⟨hk.created t hcr, fun k hk' => hown k (hk.cb t hcr k hk')⟩
    · refine ⟨hcr, fun k hk' => ?_⟩
      rw [hcb] at hk'
      exact (Option.some.inj hk').symm
  · intro b' hb' a c' hc' ht
    obtain ⟨c, hc, hg⟩ := hcalls a c' hc'
    obtain ⟨hcr, hfrom⟩ := hfirings b' hb'
    rw [hg.same.1, hg.same.2.1]
    rcases hg.timer _ ht with ht | ⟨hnew, -, -⟩
    · rcases hfrom with ⟨b, hb, htb, hcb⟩ | hcb
      · rw [hcb]
        rw [htb] at ht
        exact hi.owned b hb a c hc ht
      · exact (hi.armed a c _ hc ht).2 _ hcb
    · exact absurd hcr hnew
  · intro a a' c₁ c₂ h₁ h₂ hp₁ hp₂ hf
    obtain ⟨d₁, hd₁, hg₁⟩ := hcalls a c₁ h₁
    obtain ⟨d₂, hd₂, hg₂⟩ := hcalls a' c₂ h₂
    apply hi.apart a a' d₁ d₂ hd₁ hd₂ (fun h => hp₁ (hg₁.returned h)) (fun h => hp₂ (hg₂.returned h))
    rw [← hg₁.same.2.2, ← hg₂.same.2.2, hf]
  · intro a c' hc' hp
    obtain ⟨c, hc, hg⟩ := hcalls a c' hc'
    exact htimely a c c' hc hc' hg hp

/-- The call did not fire, or it waits as little as before. -/
theorem Inv.still {s s' : Hook φ κ} (hi : Inv s) {a : Nat} {c c' : Call φ} (hc : s.calls[a]? = some c)
    (hg : Goes s.timers s'.timers a c c') (hp : c'.pc ≠ .returned) (hfired : Fired s'.firings c' → Fired s.firings c)
    (hadd : c'.pc = .add → c.pc = .add) (hreg : Registered s'.iom c → Registered s.iom c) (hf : Fired s'.firings c') :
    ¬ Awaits s'.iom c' := by
  have hno := hi.timely a c hc (fun h => hp (hg.returned h)) (hfired hf)
  rintro (h | h)
  · exact hno (.inl (hadd h))
  · exact hno (.inr (hreg ((hg.registered _).mp h)))

/-! ## A call goes on -/

theorem getElem?_set_cases {l : List (Call φ)} {a i : Nat} {c₁ c' : Call φ} (h : (l.set a c₁)[i]? = some c') :
    i = a ∧ c' = c₁ ∨ i ≠ a ∧ l[i]? = some c' := by
  by_cases hi : a = i
  · subst hi
    rw [List.getElem?_set_self'] at h
    obtain ⟨_, _, rfl⟩ := Option.map_eq_some_iff.mp h
    exact .inl ⟨rfl, rfl⟩
  · rw [List.getElem?_set_ne hi] at h
    exact .inr ⟨Ne.symm hi, h⟩

theorem Inv.call {s s' : Hook φ κ} (hi : Inv s) {a : Nat} {c c₁ : Call φ} (hc : s.calls[a]? = some c)
    (hcalls : s'.calls = s.calls.set a c₁) (hfirings : s'.firings = s.firings)
    (hiom : ∃ W : Waiters Unit φ κ, s'.iom = W.manager) (hk : Keeps s.timers s'.timers)
    (hg : Goes s.timers s'.timers a c c₁)
    (hother : ∀ (i : Nat) (d : Call φ), i ≠ a → s.calls[i]? = some d → d.pc ≠ .returned →
      Registered s'.iom d → Registered s.iom d)
    (hself : c₁.pc ≠ .returned → Fired s.firings c₁ → ¬ Awaits s'.iom c₁) : Inv s' := by
  apply hi.of hiom hk
  · intro i c' hc'
    rw [hcalls] at hc'
    rcases getElem?_set_cases hc' with ⟨rfl, rfl⟩ | ⟨-, hc'⟩
    · exact ⟨c, hc, hg⟩
    · exact ⟨c', hc', Goes.refl ..⟩
  · intro b hb
    rw [hfirings] at hb
    exact ⟨hi.fired b hb, .inl ⟨b, hb, rfl, rfl⟩⟩
  · intro i d d' hd hd' hgd hp hf
    rw [hcalls] at hd'
    rw [hfirings] at hf
    rcases getElem?_set_cases hd' with ⟨rfl, rfl⟩ | ⟨hne, hd'⟩
    · exact hself hp hf
    · obtain rfl : d = d' := Option.some.inj (hd.symm.trans hd')
      rintro (h | h)
      · exact hi.timely i d hd hp hf (.inl h)
      · exact hi.timely i d hd hp hf (.inr (hother i d hne hd hp h))

/-- The call keeps its timer or has none, and is not before `addEvent`. -/
theorem Inv.go {s s' : Hook φ κ} (hi : Inv s) {a : Nat} {c c₁ : Call φ} (hc : s.calls[a]? = some c)
    (hcalls : s'.calls = s.calls.set a c₁) (hfirings : s'.firings = s.firings) (hiom : s'.iom = s.iom)
    (hk : Keeps s.timers s'.timers) (hp : c.pc ≠ .returned) (hadd : c₁.pc ≠ .add)
    (hsame : c₁.fd = c.fd ∧ c₁.event = c.event ∧ c₁.fiber = c.fiber) (ht : c₁.timer = c.timer ∨ c₁.timer = none) :
    Inv s' := by
  have hg : Goes s.timers s'.timers a c c₁ := by
    refine ⟨hsame, fun h => absurd h hp, fun t h => ?_⟩
    rcases ht with ht | ht
    · exact .inl (ht ▸ h)
    · rw [ht] at h
      cases h
  refine hi.call hc hcalls hfirings ?_ hk hg (fun _ _ _ _ _ h => by rwa [hiom] at h) fun hp₁ hf => ?_
  · rw [hiom]
    exact hi.iom
  · apply hi.still hc hg hp₁
    · rintro ⟨b, hb, hbt, hbs⟩
      rw [hfirings] at hb
      rcases ht with ht | ht
      · exact ⟨b, hb, ht ▸ hbt, hbs⟩
      · rw [ht] at hbt
        cases hbt
    · exact fun h => absurd h hadd
    · rw [hiom]
      exact id
    · rwa [hfirings]

theorem keeps_cancelTimer {s : Hook φ κ} (hi : Inv s) {a : Nat} {c : Call φ} (hc : s.calls[a]? = some c) :
    Keeps s.timers (s.cancelTimer c).timers := by
  unfold cancelTimer
  cases ht : c.timer with
  | none => exact Keeps.refl hi.good
  | some t => exact keeps_cancel hi.good (hi.armed a c t hc ht).1

theorem Inv.arm {s : Hook φ κ} (hi : Inv s) {a : Nat} {c : Call φ} (hc : s.calls[a]? = some c) (hpc : c.pc = .arm)
    {t : Addr} (ht : t ∉ s.timers.created) (now : UInt64) :
    Inv ({ s with timers := (s.timers.addTimer t c.timeout (some (.timeout a c.fd c.event)) false now).2 }.setCall a
      { c with pc := .add, timer := some t }) := by
  obtain ⟨hk, hcr, hcb⟩ := keeps_addTimer hi.good ht c.timeout (.timeout a c.fd c.event) now
  refine hi.call hc rfl rfl hi.iom hk ⟨⟨rfl, rfl, rfl⟩, ?_, ?_⟩ (fun _ _ _ _ _ h => h) fun _ hf => ?_
  · intro h
    rw [hpc] at h
    cases h
  · intro u hu
    obtain rfl : t = u := Option.some.inj hu
    exact .inr ⟨ht, hcr, hcb⟩
  · obtain ⟨b, hb, hbt, -⟩ := hf
    obtain rfl : t = b.timer := Option.some.inj hbt
    exact absurd (hi.fired b hb) ht

theorem Inv.add {mem : Memory} {s : Hook φ κ} (hi : Inv s) {a : Nat} {c : Call φ} (hc : s.calls[a]? = some c)
    (hpc : c.pc = .add) {ret : Int} {rt : Bool} {m : IOManager Unit φ κ} {p : Pc}
    (h : s.iom.addEvent mem c.fd c.event none { schedular := some (), fiber := c.fiber } rt = .ok (ret, m)) :
    Inv ({ s with iom := m }.setCall a { c with pc := p }) := by
  obtain ⟨W, hW⟩ := hi.iom
  rw [hW] at h
  obtain ⟨W', rfl, he⟩ := addEvent_effect rfl h
  have hnr : c.pc ≠ .returned := by
    rw [hpc]
    decide
  refine hi.call hc rfl rfl ⟨W', rfl⟩ (Keeps.refl hi.good) ⟨⟨rfl, rfl, rfl⟩, fun h => absurd h hnr, fun _ h => .inl h⟩
    (fun i d hne hd hp hreg => ?_) fun hp hf => ?_
  · rw [hW]
    rcases registered_of_effect he hreg with hreg | ⟨fd, event, cb, caller, rt', ho, hfib⟩
    · exact hreg
    · cases ho
      exact absurd (hi.apart i a d c hd hc hp hnr hfib.symm) hne
  · exact absurd (.inl hpc) (hi.timely a c hc hnr hf)

theorem Inv.advance [DecidableEq φ] {mem : Memory} {s s' : Hook φ κ} (hi : Inv s) {a : Nat} {c : Call φ} {x : Input}
    (hc : s.calls[a]? = some c) (hx : x.timer ∉ s.timers.created) (h : Advances mem s a c x s') : Inv s' := by
  have hset : ∀ {p p' : Pc} {tm : Option Addr} (q : List φ), c.pc = p → p ≠ .returned → p' ≠ .add →
      tm = c.timer ∨ tm = none → Inv ({ s with queue := q }.setCall a { c with pc := p', timer := tm }) :=
    fun q hpc hp hadd ht => hi.go hc rfl rfl rfl (Keeps.refl hi.good) (hpc ▸ hp) hadd ⟨rfl, rfl, rfl⟩ ht
  have hcancel : ∀ {p p' : Pc}, c.pc = p → p ≠ .returned → p' ≠ .add →
      Inv ((s.cancelTimer c).setCall a { c with pc := p' }) := by
    intro p p' hpc hp hadd
    exact hi.go hc (cancelTimer_calls s c a _) (cancelTimer_firings s c) (cancelTimer_iom s c)
      (keeps_cancelTimer hi hc) (hpc ▸ hp) hadd ⟨rfl, rfl, rfl⟩ (.inl rfl)
  cases h with
  | io hpc =>
    refine hset s.queue hpc (by decide) ?_ (.inl rfl)
    split <;> decide
  | arm hpc => exact hi.arm hc hpc hx x.now
  | armNone hpc =>
    refine hi.call hc rfl rfl hi.iom (Keeps.refl hi.good) ⟨⟨rfl, rfl, rfl⟩, fun h => ?_, nofun⟩ (fun _ _ _ _ _ h => h)
      fun _ hf => ?_
    · rw [hpc] at h
      cases h
    · obtain ⟨b, -, hbt, -⟩ := hf
      cases hbt
  | add hpc hadd => exact hi.add hc hpc hadd
  | failed hpc => exact hcancel hpc (by decide) (by decide)
  | yield hpc => exact hset s.queue hpc (by decide) (by decide) (.inl rfl)
  | wake hpc => exact hset _ hpc (by decide) (by decide) (.inl rfl)
  | cancel hpc => exact hcancel hpc (by decide) (by decide)
  | check hpc =>
    refine hset s.queue hpc (by decide) ?_ (.inr rfl)
    split
    · decide
    · cases c.kind <;> decide
  | returned hpc => exact hi

/-! ## A callback goes on -/

theorem fired_set {bs : List (Firing κ)} {k : Nat} {b : Firing κ} {stage : Stage} {c : Call φ}
    (h : Fired (bs.set k { b with stage := stage }) c) : Fired bs c ∨ c.timer = some b.timer ∧ stage = .done := by
  obtain ⟨b', hb', ht, hs⟩ := h
  rcases List.mem_or_eq_of_mem_set hb' with hb' | rfl
  · exact .inl ⟨b', hb', ht, hs⟩
  · exact .inr ⟨ht, hs⟩

theorem Inv.stage {s s' : Hook φ κ} (hi : Inv s) {k : Nat} {b : Firing κ} {stage : Stage} (hb : s.firings[k]? = some b)
    (hfirings : s'.firings = s.firings.set k { b with stage := stage }) (htimers : s'.timers = s.timers)
    (hiom : ∃ W : Waiters Unit φ κ, s'.iom = W.manager)
    (hcalls : ∀ (a : Nat) (c' : Call φ), s'.calls[a]? = some c' →
      ∃ c n, s.calls[a]? = some c ∧ c' = { c with cancelled := n })
    (hreg : ∀ c : Call φ, Registered s'.iom c → Registered s.iom c)
    (hdone : stage = .done → ∀ (a : Nat) (c : Call φ), s.calls[a]? = some c → c.pc ≠ .returned →
      c.timer = some b.timer → ¬ Awaits s'.iom c) : Inv s' := by
  have hmem : b ∈ s.firings := List.mem_of_getElem? hb
  apply hi.of hiom
  · rw [htimers]
    exact Keeps.refl hi.good
  · intro a c' hc'
    obtain ⟨c, n, hc, rfl⟩ := hcalls a c' hc'
    exact ⟨c, hc, ⟨rfl, rfl, rfl⟩, id, fun _ h => .inl h⟩
  · intro b' hb'
    rw [hfirings] at hb'
    rcases List.mem_or_eq_of_mem_set hb' with hb' | rfl
    · exact ⟨hi.fired b' hb', .inl ⟨b', hb', rfl, rfl⟩⟩
    · exact ⟨hi.fired b hmem, .inl ⟨b, hmem, rfl, rfl⟩⟩
  · intro a c c' hc hc' hg hp hf
    obtain ⟨d, n, hd, rfl⟩ := hcalls a c' hc'
    obtain rfl : c = d := Option.some.inj (hc.symm.trans hd)
    rw [hfirings] at hf
    rcases fired_set hf with hf | ⟨ht, hs⟩
    · rintro (h | h)
      · exact hi.timely a c hc hp hf (.inl h)
      · exact hi.timely a c hc hp hf (.inr (hreg c h))
    · exact hdone hs a c hc hp ht

theorem getElem?_setCancelled {s : Hook φ κ} {tinfo a : Nat} {c' : Call φ}
    (h : (s.setCancelled tinfo).calls[a]? = some c') :
    ∃ c n, s.calls[a]? = some c ∧ c' = { c with cancelled := n } ∧ (n = 0 → c.cancelled = 0) := by
  change (s.calls.modify tinfo _)[a]? = some c' at h
  rw [List.getElem?_modify] at h
  obtain ⟨c, hc, rfl⟩ := Option.map_eq_some_iff.mp h
  by_cases hta : tinfo = a
  · exact ⟨c, ETIMEDOUT, hc, by simp [hta], nofun⟩
  · exact ⟨c, c.cancelled, hc, by simp [hta], id⟩

theorem current_eq {s : Hook φ κ} (hi : Inv s) {b : Firing κ} (hb : b ∈ s.firings) {a : Nat} {c : Call φ}
    (hc : s.calls[a]? = some c) (ht : c.timer = some b.timer) : s.current b = some c := by
  unfold current
  rw [hi.owned b hb a c hc ht]
  simp [hc, ht]

/-- The call of a callback's current timer is the one the callback knows. -/
theorem Inv.owner {s : Hook φ κ} (hi : Inv s) {b : Firing κ} (hb : b ∈ s.firings) {tinfo : Nat} {fd : Int}
    {event : Event}
    (hcb : b.cb = .timeout tinfo fd event) {a : Nat} {c : Call φ} (hc : s.calls[a]? = some c)
    (ht : c.timer = some b.timer) : a = tinfo ∧ c.fd = fd ∧ c.event = event := by
  have hown := hi.owned b hb a c hc ht
  rw [hcb] at hown
  injection hown with h1 h2 h3
  exact ⟨h1.symm, h2.symm, h3.symm⟩

theorem Inv.fire {s s' : Hook φ κ} (hi : Inv s) {k : Nat} {b : Firing κ} {rt : Bool} (hb : s.firings[k]? = some b)
    (ht : Timely s (.fire k rt)) (h : Fires s k b rt s') : Inv s' := by
  have hmem : b ∈ s.firings := List.mem_of_getElem? hb
  have hsame : ∀ (a : Nat) (c' : Call φ), s.calls[a]? = some c' → ∃ c n, s.calls[a]? = some c ∧
    c' = { c with cancelled := n } :=
    fun a c' hc' => ⟨c', c'.cancelled, hc', rfl⟩
  cases h with
  | other hcb =>
    refine hi.stage hb rfl rfl hi.iom hsame (fun _ h => h) fun _ a c hc hp htm => ?_
    have := hi.owned b hmem a c hc htm
    rw [hcb] at this
    cases this
  | onTimer hcb hst =>
    refine hi.stage hb rfl rfl hi.iom hsame (fun _ h => h) fun hd a c hc hp htm => ?_
    obtain ⟨rfl, -, -⟩ := hi.owner hmem hcb hc htm
    have halive : s.alive a = true := by simp [alive, hc, hp]
    rw [if_pos halive] at hd
    cases hd
  | check hcb hst =>
    refine hi.stage hb rfl rfl hi.iom hsame (fun _ h => h) fun hd a c hc hp htm => ?_
    obtain ⟨rfl, -, -⟩ := hi.owner hmem hcb hc htm
    have hset : c.cancelled ≠ 0 := by
      intro hz
      simp [hc, hz] at hd
    exact (ht b hb c (current_eq hi hmem hc htm)).1 hst hset
  | store hcb hst =>
    refine hi.stage hb rfl rfl hi.iom (fun a c' hc' => ?_) (fun _ h => h) fun hd => by cases hd
    obtain ⟨c, n, hc, hcn, -⟩ := getElem?_setCancelled hc'
    exact ⟨c, n, hc, hcn⟩
  | @cancel tinfo fd event ret calls m hcb hst hce =>
    obtain ⟨W, hW⟩ := hi.iom
    rw [hW] at hce
    obtain ⟨W', hW', he⟩ := cancelEvent_effect hce
    have hreg : ∀ c : Call φ, Registered m c → Registered s.iom c := by
      intro c hc
      rw [hW'] at hc
      rcases registered_of_effect he hc with hc | ⟨_, _, _, _, _, ho, -⟩
      · rwa [hW]
      · cases ho
    refine hi.stage hb rfl rfl ⟨W', hW'⟩ hsame hreg fun _ a c hc hp htm => ?_
    obtain ⟨rfl, rfl, rfl⟩ := hi.owner hmem hcb hc htm
    obtain ⟨hnadd, hrt⟩ := (ht b hb c (current_eq hi hmem hc htm)).2 hst
    rintro (hadd | hr)
    · exact hnadd hadd
    · have hbefore := hreg c hr
      rw [hrt hbefore] at hce
      rw [hW] at hbefore
      exact not_registered_of_cancelEvent hce hbefore hr
  | done hcb hst => exact hi

/-! ## The other steps -/

theorem getElem?_concat_cases {l : List (Call φ)} {a : Nat} {c c' : Call φ} (h : (l ++ [c])[a]? = some c') :
    l[a]? = some c' ∨ a = l.length ∧ c' = c := by
  rcases Nat.lt_or_ge a l.length with hlt | hge
  · rw [List.getElem?_append_left hlt] at h
    exact .inl h
  · have hlen := (List.getElem?_eq_some_iff.mp h).1
    rw [List.length_append, List.length_singleton] at hlen
    obtain rfl : a = l.length := by omega
    rw [List.getElem?_concat_length] at h
    exact .inr ⟨rfl, (Option.some.inj h).symm⟩

theorem Inv.start {s : Hook φ κ} (hi : Inv s) {c : Call φ} (ht : c.timer = none) (hout : s.Outside c.fiber) :
    Inv { s with calls := s.calls ++ [c] } := by
  refine ⟨hi.iom, hi.good, ?_, hi.fired, ?_, ?_, ?_⟩
  · intro a c' t hc' ht'
    rcases getElem?_concat_cases hc' with hc' | ⟨-, rfl⟩
    · exact hi.armed a c' t hc' ht'
    · rw [ht] at ht'
      cases ht'
  · intro b hb a c' hc' ht'
    rcases getElem?_concat_cases hc' with hc' | ⟨-, rfl⟩
    · exact hi.owned b hb a c' hc' ht'
    · rw [ht] at ht'
      cases ht'
  · intro a a' c₁ c₂ h₁ h₂ hp₁ hp₂ hf
    rcases getElem?_concat_cases h₁ with k₁ | ⟨ha, rfl⟩ <;> rcases getElem?_concat_cases h₂ with k₂ | ⟨ha', rfl⟩
    · exact hi.apart a a' c₁ c₂ k₁ k₂ hp₁ hp₂ hf
    · exact absurd hf (hout c₁ (List.mem_of_getElem? k₁) hp₁)
    · exact absurd hf.symm (hout c₂ (List.mem_of_getElem? k₂) hp₂)
    · rw [ha, ha']
  · intro a c' hc' hp hf
    rcases getElem?_concat_cases hc' with hc' | ⟨-, rfl⟩
    · exact hi.timely a c' hc' hp hf
    · obtain ⟨b, -, hbt, -⟩ := hf
      rw [ht] at hbt
      cases hbt

theorem Inv.env {s s' : Hook φ κ} (hi : Inv s) (hcalls : s'.calls = s.calls)
    (hiom : ∃ W : Waiters Unit φ κ, s'.iom = W.manager) (hk : Keeps s.timers s'.timers)
    (hfirings : ∀ b ∈ s'.firings, b ∈ s.firings ∨
      b.timer ∈ s.timers.created ∧ (s.timers.heap b.timer).cb = some b.cb ∧ b.stage ≠ .done)
    (hreg : ∀ c ∈ s.calls, c.pc ≠ .returned → Registered s'.iom c → Registered s.iom c) : Inv s' := by
  apply hi.of hiom hk
  · intro a c hc
    rw [hcalls] at hc
    exact ⟨c, hc, Goes.refl ..⟩
  · intro b hb
    rcases hfirings b hb with hb | ⟨hcr, hcb, -⟩
    · exact ⟨hi.fired b hb, .inl ⟨b, hb, rfl, rfl⟩⟩
    · exact ⟨hcr, .inr hcb⟩
  · intro a c c' hc hc' hg hp hf
    rw [hcalls] at hc'
    obtain rfl : c = c' := Option.some.inj (hc.symm.trans hc')
    refine hi.still hc hg hp ?_ id (hreg c (List.mem_of_getElem? hc) hp) hf
    rintro ⟨b, hb, hbt, hbs⟩
    rcases hfirings b hb with hb | ⟨-, -, hne⟩
    · exact ⟨b, hb, hbt, hbs⟩
    · exact absurd hbs hne

theorem Inv.expire {s : Hook φ κ} (hi : Inv s) {now : UInt64} {probe : Addr} {cbs : List (Addr × Option (Callback κ))}
    {m : TimerManager (Callback κ)} (h : s.timers.listExpiredCb now probe = .ok (cbs, m)) :
    Inv { s with
      timers := m
      firings := s.firings ++ cbs.filterMap fun x => x.2.map fun cb => { timer := x.1, cb := cb } } := by
  obtain ⟨ex, m₁, hlist, hl⟩ := TimerManager.listExpiredCb_listed hi.good now probe
  rw [hlist] at h
  cases h
  have he : TimerManager.Effect s.timers now (.listExpiredCb probe) _ m := .listed hl
  refine hi.env rfl hi.iom (keeps_of_effect hi.good he) ?_ fun _ _ _ h => h
  intro b hb
  rcases List.mem_append.mp hb with hb | hb
  · exact .inl hb
  · obtain ⟨x, hx, hxb⟩ := List.mem_filterMap.mp hb
    obtain ⟨t, ht, rfl⟩ := List.mem_map.mp hx
    obtain ⟨cb, hcb, rfl⟩ := Option.map_eq_some_iff.mp hxb
    exact .inr ⟨hi.good.created t ((hl.mem t).mp ht).1, hcb, nofun⟩

theorem ManageOk.allowed {s : Hook φ κ} {o : Op Unit φ κ} (h : s.ManageOk o) : Allowed o := by
  cases o with
  | addEvent fd event cb caller rt => exact h.1
  | _ => trivial

theorem Inv.manage {mem : Memory} {s : Hook φ κ} (hi : Inv s) {o : Op Unit φ κ} {r : Reply Unit φ κ}
    {m : IOManager Unit φ κ} (ho : s.ManageOk o) (h : s.iom.step mem o = .ok (r, m)) :
    Inv ({ s with iom := m }.wake r.scheduled) := by
  obtain ⟨W, hW⟩ := hi.iom
  rw [hW] at h
  obtain ⟨W', rfl, he⟩ := step_effect ho.allowed h
  refine hi.env rfl ⟨W', rfl⟩ (Keeps.refl hi.good) (fun _ hb => .inl hb) fun c hc hp hreg => ?_
  rw [hW]
  rcases registered_of_effect he hreg with hreg | ⟨fd, event, cb, caller, rt, rfl, hfib⟩
  · exact hreg
  · exact absurd hfib.symm (ho.2 c hc hp)

theorem Inv.move [DecidableEq φ] {mem : Memory} {s s' : Hook φ κ} {l : Label φ κ} (hi : Inv s) (he : s.Enabled l)
    (ht : Timely s l) (hm : Move mem s l s') : Inv s' := by
  cases hm with
  | start c => exact hi.start he.1.2.1 he.2
  | call hc h => exact hi.advance hc he.1 h
  | expire h => exact hi.expire h
  | fire hb h => exact hi.fire hb ht h
  | manage h => exact hi.manage he h
  | timer h =>
    have hk := keeps_of_effect hi.good (TimerManager.step_effect hi.good he.1 h)
    exact hi.env rfl hi.iom hk (fun _ hb => .inl hb) fun _ _ _ h => h
  | noCall | noFiring => exact hi

theorem Inv.new (now : UInt64) : Inv ({ iom := .new, timers := .new now } : Hook φ κ) := by
  obtain ⟨W, hW, -⟩ := new_manager (σ := Unit) (φ := φ) (κ := κ)
  have hnone : ∀ (a : Nat) (c : Call φ), ¬ ([] : List (Call φ))[a]? = some c := fun a c h => by
    rw [List.getElem?_nil] at h
    cases h
  refine ⟨⟨W, hW⟩, TimerManager.new_good now, ?_, ?_, ?_, ?_, ?_⟩
  · exact fun a c _ h => absurd h (hnone a c)
  · exact fun _ hb => absurd hb List.not_mem_nil
  · exact fun _ hb => absurd hb List.not_mem_nil
  · exact fun a _ c _ h => absurd h (hnone a c)
  · exact fun a c h => absurd h (hnone a c)

/-! ## Who waits is registered or scheduled -/

/-- The call has made its `addEvent`, and its fiber was not resumed yet. -/
def Call.Waits (c : Call φ) : Prop := c.pc = .yield ∨ c.pc = .suspended

/-- A call that waits is registered, or its fiber was scheduled. -/
def Attended (s : Hook φ κ) : Prop := ∀ c ∈ s.calls, c.Waits → Registered s.iom c ∨ c.fiber ∈ s.queue

def Label.Deletes : Label φ κ → Prop
  | .manage o => o.IsDel
  | _ => False

theorem Call.Waits.ne_returned {c : Call φ} (h : c.Waits) : c.pc ≠ .returned := by
  rcases h with h | h <;> rw [h] <;> decide

/-- The calls stay as they are but for `cancelled`, and no fiber leaves the queue. -/
theorem Attended.env {s s' : Hook φ κ} (hs : Attended s)
    (hcalls : ∀ c' ∈ s'.calls, c'.Waits → ∃ c ∈ s.calls, ∃ n, c' = { c with cancelled := n })
    (hreg : ∀ c ∈ s.calls, Registered s.iom c → Registered s'.iom c ∨ c.fiber ∈ s'.queue)
    (hqueue : ∀ f ∈ s.queue, f ∈ s'.queue) : Attended s' := by
  intro c' hc' hw
  obtain ⟨c, hc, n, rfl⟩ := hcalls c' hc' hw
  rcases hs c hc hw with h | h
  · exact hreg c hc h
  · exact .inr (hqueue _ h)

theorem addEvent_registers {W W' : Waiters Unit φ κ} {c : Call φ} {ret : Int} {rt : Bool}
    (he : Effect W (.addEvent c.fd c.event none { schedular := some (), fiber := c.fiber } rt) { ret := ret } W')
    (hadded : c.kind.added ret = true) : Registered W'.manager c := by
  generalize ho : (.addEvent c.fd c.event none { schedular := some (), fiber := c.fiber } rt : Op Unit φ κ) = o at he
  generalize hr : ({ ret := ret } : Reply Unit φ κ) = r at he
  cases he with
  | quiet hslot =>
    subst ho
    obtain rfl : ret = -1 := congrArg Reply.ret hr
    cases hk : c.kind <;> rw [hk] at hadded <;> cases hadded
  | @add i e cb caller u _ hs hfree hslot =>
    injection ho with hfd hev hcb hcaller
    subst hcb hcaller
    refine (registered_manager W' c).mpr ⟨i, hfd, ?_⟩
    rw [hslot, Function.update_self, hev, Function.update_self]
    rfl
  | drop => cases ho
  | resume hres =>
    subst ho
    exact hres.elim

theorem Attended.call {s s' : Hook φ κ} (hs : Attended s) {a : Nat} {c₁ : Call φ} (hcalls : s'.calls = s.calls.set a c₁)
    (hother : ∀ (i : Nat) (d : Call φ), i ≠ a → s.calls[i]? = some d → d.Waits →
      (Registered s.iom d → Registered s'.iom d) ∧ (d.fiber ∈ s.queue → d.fiber ∈ s'.queue))
    (hself : c₁.Waits → Registered s'.iom c₁ ∨ c₁.fiber ∈ s'.queue) : Attended s' := by
  intro d hd hw
  rw [hcalls] at hd
  obtain ⟨i, hd⟩ := List.mem_iff_getElem?.mp hd
  rcases getElem?_set_cases hd with ⟨-, rfl⟩ | ⟨hne, hd⟩
  · exact hself hw
  · obtain ⟨hreg, hqueue⟩ := hother i d hne hd hw
    exact (hs d (List.mem_of_getElem? hd) hw).imp hreg hqueue

/-- The call goes on to a place where it does not wait. -/
theorem Attended.go {s s' : Hook φ κ} (hs : Attended s) {a : Nat} {c₁ : Call φ} (hcalls : s'.calls = s.calls.set a c₁)
    (hiom : s'.iom = s.iom) (hqueue : s'.queue = s.queue) (hw : ¬ c₁.Waits) : Attended s' := by
  refine hs.call hcalls (fun i d _ _ _ => ?_) fun h => absurd h hw
  rw [hiom, hqueue]
  exact ⟨id, id⟩

theorem Attended.advance [DecidableEq φ] {mem : Memory} {s s' : Hook φ κ} (hs : Attended s) (hi : Inv s) {a : Nat}
    {c : Call φ} {x : Input} (hc : s.calls[a]? = some c) (h : Advances mem s a c x s') : Attended s' := by
  have hcancel : ∀ {p : Pc}, ¬ ({ c with pc := p } : Call φ).Waits →
      Attended ((s.cancelTimer c).setCall a { c with pc := p }) := by
    intro p hw
    exact hs.go (cancelTimer_calls s c a _) (cancelTimer_iom s c) (cancelTimer_queue s c) hw
  cases h with
  | io hpc =>
    refine hs.go rfl rfl rfl ?_
    unfold Call.Waits
    dsimp only
    split <;> decide
  | arm hpc => exact hs.go rfl rfl rfl (by rintro (h | h) <;> cases h)
  | armNone hpc => exact hs.go rfl rfl rfl (by rintro (h | h) <;> cases h)
  | @add ret m hpc hadd =>
    obtain ⟨W, hW⟩ := hi.iom
    rw [hW] at hadd
    obtain ⟨W', rfl, he⟩ := addEvent_effect rfl hadd
    refine hs.call rfl (fun i d _ _ _ => ⟨fun hreg => ?_, id⟩) fun hw => .inl ?_
    · rw [hW] at hreg
      rcases registered_or_scheduled he (fun h => h) hreg with h | h
      · exact h
      · cases h
    · cases hk : c.kind.added ret with
      | true => exact addEvent_registers he hk
      | false =>
        rw [hk] at hw
        rcases hw with h | h <;> cases h
  | failed hpc => exact hcancel (by rintro (h | h) <;> cases h)
  | yield hpc =>
    exact hs.call rfl (fun _ _ _ _ _ => ⟨id, id⟩) fun _ => hs c (List.mem_of_getElem? hc) (.inl hpc)
  | wake hpc =>
    refine hs.call rfl (fun i d hne hd hw => ⟨id, fun hq => ?_⟩) (by rintro (h | h) <;> cases h)
    have hdc : d.fiber ≠ c.fiber := fun hf => hne (hi.apart i a d c hd hc hw.ne_returned (by rw [hpc]; decide) hf)
    exact (List.mem_erase_of_ne hdc).mpr hq
  | cancel hpc => exact hcancel (by rintro (h | h) <;> cases h)
  | check hpc =>
    refine hs.go rfl rfl rfl ?_
    unfold Call.Waits
    dsimp only
    split
    · decide
    · cases c.kind <;> decide
  | returned hpc => exact hs

/-- The manager does something other than to delete an event, and what it resumes is queued. -/
theorem Attended.effect {s : Hook φ κ} (hs : Attended s) {W W' : Waiters Unit φ κ} (hW : s.iom = W.manager)
    {o : Op Unit φ κ} {r : Reply Unit φ κ} (he : Effect W o r W') (hdel : ¬ o.IsDel) :
    Attended ({ s with iom := W'.manager }.wake r.scheduled) := by
  refine hs.env (fun c hc _ => ⟨c, hc, c.cancelled, rfl⟩) (fun c _ hreg => ?_) fun _ h => List.mem_append_left _ h
  rw [hW] at hreg
  exact (registered_or_scheduled he hdel hreg).imp_right (List.mem_append_right _)

theorem Attended.fire {s s' : Hook φ κ} (hs : Attended s) (hi : Inv s) {k : Nat} {b : Firing κ} {rt : Bool}
    (h : Fires s k b rt s') : Attended s' := by
  cases h with
  | store hcb hst =>
    refine hs.env (fun c' hc' _ => ?_) (fun _ _ h => .inl h) fun _ h => h
    obtain ⟨a, hc'⟩ := List.mem_iff_getElem?.mp hc'
    obtain ⟨c, n, hc, rfl, -⟩ := getElem?_setCancelled hc'
    exact ⟨c, List.mem_of_getElem? hc, n, rfl⟩
  | cancel hcb hst hce =>
    obtain ⟨W, hW⟩ := hi.iom
    rw [hW] at hce
    obtain ⟨W', rfl, he⟩ := cancelEvent_effect hce
    exact hs.effect hW he fun h => h
  | other | onTimer | check | done => exact hs

theorem Attended.move [DecidableEq φ] {mem : Memory} {s s' : Hook φ κ} {l : Label φ κ} (hs : Attended s) (hi : Inv s)
    (he : s.Enabled l) (hd : ¬ l.Deletes) (hm : Move mem s l s') : Attended s' := by
  cases hm with
  | start c =>
    refine hs.env (fun c' hc' hw => ?_) (fun _ _ h => .inl h) fun _ h => h
    rcases List.mem_append.mp hc' with hc' | hc'
    · exact ⟨c', hc', c'.cancelled, rfl⟩
    · obtain rfl := List.mem_singleton.mp hc'
      rcases hw with hw | hw <;> rw [he.1.1] at hw <;> cases hw
  | call hc h => exact hs.advance hi hc h
  | fire hb h => exact hs.fire hi h
  | manage h =>
    obtain ⟨W, hW⟩ := hi.iom
    rw [hW] at h
    obtain ⟨W', rfl, heff⟩ := step_effect (ManageOk.allowed he) h
    exact hs.effect hW heff hd
  | expire | timer | noCall | noFiring => exact hs

/-! ## Runs -/

section
variable [DecidableEq φ] {mem : Memory} {h : List (Entry (Hook φ κ) (Label φ κ) Unit)} {s : Hook φ κ}

theorem run_inv (hr : Run (machine mem) h s) (ht : ∀ e ∈ h, Timely e.pre e.inp) : Inv s := by
  refine hr.invariant_of ht ?_ fun e hi hs hte => hi.move hs.1 hte (step_move hs.2)
  rintro _ ⟨now, rfl⟩
  exact Inv.new now

theorem run_attended (hr : Run (machine mem) h s) (ht : ∀ e ∈ h, Timely e.pre e.inp) (hd : ∀ e ∈ h, ¬ e.inp.Deletes) :
    Attended s := by
  have hc : ∀ e ∈ h, Timely e.pre e.inp ∧ ¬ e.inp.Deletes := fun e he => ⟨ht e he, hd e he⟩
  refine (hr.invariant_of (P := fun s => Inv s ∧ Attended s) hc ?_ ?_).2
  · rintro _ ⟨now, rfl⟩
    exact ⟨Inv.new now, fun c hc => absurd hc List.not_mem_nil⟩
  · rintro e ⟨hi, hprev⟩ ⟨hen, hs⟩ ⟨hte, hde⟩
    exact ⟨hi.move hen hte (step_move hs), hprev.move hi hen hde (step_move hs)⟩

/-- **No lost timeout.** In a run of timely steps a suspended fiber whose timeout has fired is not registered any more,
and unless an event was deleted it is scheduled. -/
theorem no_lost_timeout (hr : Run (machine mem) h s) (ht : ∀ e ∈ h, Timely e.pre e.inp) :
    ∀ c ∈ s.calls, c.pc = .suspended → Fired s.firings c →
      ¬ Registered s.iom c ∧ ((∀ e ∈ h, ¬ e.inp.Deletes) → c.fiber ∈ s.queue) := by
  intro c hc hp hf
  obtain ⟨a, ha⟩ := List.mem_iff_getElem?.mp hc
  have hno : ¬ Registered s.iom c := fun hreg =>
    (run_inv hr ht).timely a c ha (by rw [hp]; decide) hf (.inr hreg)
  refine ⟨hno, fun hd => ?_⟩
  exact (run_attended hr ht hd c hc (.inr hp)).resolve_left hno

end

/-- Room for 32 descriptors. -/
def smallMemory : Memory := ⟨32, by decide⟩

/-- The fiber 0 enters `do_io` for a `recv` on the descriptor 3 with a timeout of 10 ms, would block, and arms the timer
1. -/
def recv : List (Label Nat Nat) :=
  [.start { kind := .doIo, fd := 3, event := .read, timeout := 10, fiber := 0 }, .call 0 {}, .call 0 { timer := 1 }]

def wait : List (Label Nat Nat) := List.replicate 2 (.call 0 { timer := 3 })

/-- The callback number `k` runs, in four steps at most. -/
def callback (k : Nat) : List (Label Nat Nat) := List.replicate 4 (.fire k true)

/-- The callback runs when the fiber is suspended. -/
theorem no_lost_timeout_recv : ∃ h s, Run (machine (φ := Nat) (κ := Nat) smallMemory) h s ∧
    (∀ e ∈ h, Timely e.pre e.inp) ∧ ∃ c ∈ s.calls, c.pc = .suspended ∧ Fired s.firings c ∧ ¬ Registered s.iom c := by
  obtain ⟨h, s, hr, hp⟩ := Run.of_replay (machine (φ := Nat) (κ := Nat) smallMemory) ⟨0, rfl⟩
    (recv ++ wait ++ [.expire 10 3] ++ callback 0)
    (fun r => decide ((∀ e ∈ r.1, Timely e.pre e.inp) ∧ ∃ c ∈ r.2.calls, c.pc = .suspended ∧ Fired r.2.firings c))
    (by decide)
  obtain ⟨ht, c, hc, hpc, hf⟩ := of_decide_eq_true hp
  exact ⟨h, s, hr, ht, c, hc, hpc, hf, (no_lost_timeout hr ht c hc hpc hf).1⟩

/-- The callback runs before `addEvent`; or the callback of the first round runs there in the second one, and then that
of the second round finds `cancelled` set. -/
theorem timeout_lost :
    (∃ h s, Run (machine (φ := Nat) (κ := Nat) smallMemory) h s ∧
      ∃ c ∈ s.calls, c.pc = .suspended ∧ Registered s.iom c ∧ Fired s.firings c) ∧
    ∃ h s, Run (machine (φ := Nat) (κ := Nat) smallMemory) h s ∧
      ∃ c ∈ s.calls, c.pc = .suspended ∧ c.timer = some 2 ∧ Registered s.iom c ∧ Fired s.firings c := by
  constructor
  · obtain ⟨h, s, hr, hp⟩ := Run.of_replay (machine (φ := Nat) (κ := Nat) smallMemory) ⟨0, rfl⟩
      (recv ++ [.expire 10 3] ++ callback 0 ++ wait)
      (fun r => decide (∃ c ∈ r.2.calls, c.pc = .suspended ∧ Registered r.2.iom c ∧ Fired r.2.firings c)) (by decide)
    exact ⟨h, s, hr, of_decide_eq_true hp⟩
  · obtain ⟨h, s, hr, hp⟩ := Run.of_replay (machine (φ := Nat) (κ := Nat) smallMemory) ⟨0, rfl⟩
      (recv ++ wait ++ [.manage (.idle 3 EPOLLIN true), .expire 10 3] ++ List.replicate 4 (.call 0 { timer := 3 }) ++
        [.call 0 { timer := 2, now := 10 }] ++ callback 0 ++ wait ++ [.expire 20 3] ++ callback 1)
      (fun r => decide (∃ c ∈ r.2.calls, c.pc = .suspended ∧ c.timer = some 2 ∧ Registered r.2.iom c ∧
        Fired r.2.firings c)) (by decide)
    exact ⟨h, s, hr, of_decide_eq_true hp⟩

end QWebServer.Hook
