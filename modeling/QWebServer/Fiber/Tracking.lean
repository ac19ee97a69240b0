import QWebServer.Fiber.Moves

/-!
# `t_fiber` and the fiber that is executed

* `Solo` : the states of fibers with a single worker, kept by every step (`Solo.move`);
* `Tracked` : the fibers are tracked, and no assertion on a state fails;
* `tracked` : so it is in every run that issues `call` from the main fiber only.
-/

namespace QWebServer.Switching

open Lib

variable {s s' : Switches} {i f g : Nat} {t : Thread} {l : Loop}

theorem state_congr (h : s'.fiber f = s.fiber f) : s'.state f = s.state f := by rw [Switches.state, h, Switches.state]

theorem cb_congr (h : s'.fiber f = s.fiber f) : s'.cb f = s.cb f := by rw [Switches.cb, h, Switches.cb]

theorem kind_congr (h : s'.fiber f = s.fiber f) : s'.kind f = s.kind f := by rw [Switches.kind, h, Switches.kind]

theorem run_loop {a : Nat} : (s.run f a).loop f = some { idle := a } := Function.update_self ..

/-! ## A single worker -/

/-- What the thread holds: a fiber that it took is in `EXEC`; it is in the hand of the loop until it came back, and
`cb_fiber` is empty between two callbacks. -/
structure Holds (s : Switches) (t : Thread) : Prop where
  running : s.kind t.stack = .child → s.state t.stack = .exec ∧ ∃ l, s.loop t.sched = some l ∧ l.hand = some t.stack
  hand : ∀ l f, s.loop t.sched = some l → l.hand = some f → s.state f ≠ .init
  kept : ∀ l c, s.loop t.sched = some l → l.cbFiber = some c → l.turn = .waiting .callback ∨
    s.cb c = false ∧ (s.state c = .init ∨ s.state c = .except ∨ t.stack = c)
  out : t.stack = t.main → t.main ≠ t.sched → s.loop t.sched = none

/-- There is at most one thread, and only the fiber in its hand is in `EXEC`. -/
structure Solo (s : Switches) : Prop where
  one : ∀ i j t u, s.thread i = some t → s.thread j = some u → i = j
  exec : ∀ f, s.kind f = .child → s.state f = .exec →
    ∃ i t l, s.thread i = some t ∧ s.loop t.sched = some l ∧ l.hand = some f
  holds : ∀ i t, s.thread i = some t → Holds s t

theorem Solo.exec_at (hs : Solo s) (ht : s.thread i = some t) (hk : s.kind f = .child) (he : s.state f = .exec) :
    ∃ l, s.loop t.sched = some l ∧ l.hand = some f := by
  obtain ⟨j, u, l, hu, hl, hh⟩ := hs.exec f hk he
  obtain rfl := hs.one i j t u ht hu
  obtain rfl : t = u := Option.some.inj (ht.symm.trans hu)
  exact ⟨l, hl, hh⟩

/-- The state of the only thread is the state of all. -/
theorem solo_of_thread (hone : ∀ i j t u, s.thread i = some t → s.thread j = some u → i = j) (ht : s.thread i = some t)
    (hexec : ∀ f, s.kind f = .child → s.state f = .exec → ∃ l, s.loop t.sched = some l ∧ l.hand = some f)
    (hh : Holds s t) : Solo s where
  one := hone
  exec f hk he := by
    obtain ⟨l, hl, hf⟩ := hexec f hk he
    exact ⟨i, t, l, ht, hl, hf⟩
  holds j u hu := by
    obtain rfl := hone i j t u ht hu
    obtain rfl : t = u := Option.some.inj (ht.symm.trans hu)
    exact hh

/-! Where the loop has no fiber in hand. -/

theorem Solo.not_exec (hi : Inv s) (hs : Solo s) (ht : s.thread i = some t) (hl : s.loop t.stack = some l)
    (hh : l.hand = none) (hk : s.kind f = .child) : s.state f ≠ .exec := by
  intro he
  obtain ⟨l', hl', hf⟩ := hs.exec_at ht hk he
  rw [← hi.stack_eq ht hl, hl] at hl'
  cases hl'
  rw [hh] at hf
  cases hf

theorem LoopKinds.not_child (h : LoopKinds s f l) : s.kind f ≠ .child := by
  intro hk
  obtain h | h := h.own <;> rw [hk] at h <;> cases h

theorem Solo.kept_of_ne (hi : Inv s) (hs : Solo s) (ht : s.thread i = some t) (hl : s.loop t.stack = some l)
    (hx : l.turn ≠ .waiting .callback) {c : Nat} (hc : l.cbFiber = some c) :
    s.cb c = false ∧ (s.state c = .init ∨ s.state c = .except) := by
  have hlk := hi.loop _ _ hl
  rw [hi.stack_eq ht hl] at hl
  obtain hx' | ⟨hcb, hst⟩ := (hs.holds i t ht).kept l c hl hc
  · exact absurd hx' hx
  · refine ⟨hcb, ?_⟩
    obtain h | h | rfl := hst
    · exact .inl h
    · exact .inr h
    · exact absurd (hlk.cb _ hc) hlk.not_child

theorem turn_ne_of_hand (hh : l.hand = none) {c : Nat} (hc : l.cbFiber = some c) : l.turn ≠ .waiting .callback := by
  intro hx
  rw [Loop.hand, hx] at hh
  cases hc.symm.trans hh

/-- The thread is in its loop, which has no fiber in hand, and no fiber is in `EXEC`. -/
theorem holds_of_stack (hlk : LoopKinds s t.stack l) (hs : t.stack = t.sched) (hl : s.loop t.sched = some l)
    (hh : l.hand = none)
    (hc : ∀ c, l.cbFiber = some c → s.cb c = false ∧ (s.state c = .init ∨ s.state c = .except)) : Holds s t where
  running hk := absurd hk hlk.not_child
  hand l' f hl' hf := by
    cases hl.symm.trans hl'
    cases hh.symm.trans hf
  kept l' c hl' hc' := by
    cases hl.symm.trans hl'
    obtain ⟨hcb, hst⟩ := hc c hc'
    exact .inr ⟨hcb, hst.imp_right .inl⟩
  out hm hne := absurd (hm.symm.trans hs) hne

section
variable (hone : ∀ i j t u, s'.thread i = some t → s'.thread j = some u → i = j)
include hone

theorem Solo.turn {y : Turn} (hi : Inv s) (hs : Solo s) (ht : s.thread i = some t) (hl : s.loop t.stack = some l)
    (hh : l.hand = none) (hy : y = .scan ∨ ∃ x, y = .taken x) (hk : LoopKinds s t.stack { l with turn := y })
    (he : s' = s.setLoop t.stack { l with turn := y }) : Solo s' := by
  subst he
  have hstack := hi.stack_eq ht hl
  have hl' : (s.setLoop t.stack { l with turn := y }).loop t.sched = some { l with turn := y } := by
    rw [← hstack]
    exact Function.update_self ..
  have hno f (hf : s.kind f = .child) : s.state f ≠ .exec := hs.not_exec hi ht hl hh hf
  refine solo_of_thread hone ht (fun f hf hst => absurd hst (hno f hf)) ?_
  refine holds_of_stack (hk.mono fun _ _ => rfl) hstack hl' ?_ fun c hc => ?_
  · obtain rfl | ⟨x, rfl⟩ := hy <;> rfl
  · exact hs.kept_of_ne hi ht hl (turn_ne_of_hand hh hc) hc

theorem Solo.enter {l' : Loop} {s₁ : Switches} (hi : Inv s) (hs : Solo s) (ht : s.thread i = some t)
    (hl : s.loop t.stack = some l) (hh : l.hand = none) (hr : Ready s t.stack l s₁ l' f)
    (he : s' = ((s₁.setLoop t.stack l').setState f .exec).switched i t t.stack (.inside t.stack) f) : Solo s' := by
  have hstack := hi.stack_eq ht hl
  have hothers h (hne : h ≠ f) : s'.fiber h = s.fiber h := by
    rw [he]
    exact (Switches.setFiber_fiber.trans (if_neg hne)).trans (hr.others h hne)
  have hkind h : s'.kind h = s₁.kind h := by
    rw [he]
    exact Switches.setState_kind
  have hstate : s'.state f = .exec := by
    rw [he]
    exact Switches.setState_state.trans (if_pos rfl)
  have hcb : s'.cb f = s₁.cb f := by
    rw [he]
    exact Switches.setState_cb
  have hl' : s'.loop t.sched = some l' := by
    rw [he, ← hstack]
    exact Function.update_self ..
  have ht' : s'.thread i = some { t with fiber := f, stack := f, cur := f } := by
    rw [he]
    exact Function.update_self ..
  refine solo_of_thread hone ht' (fun h hk hst => ?_) ⟨fun _ => ⟨hstate, l', hl', hr.hand⟩, ?_, ?_, ?_⟩
  · by_cases hne : h = f
    · exact ⟨l', hl', hne ▸ hr.hand⟩
    · rw [kind_congr (hothers h hne)] at hk
      rw [state_congr (hothers h hne)] at hst
      exact absurd hst (hs.not_exec hi ht hl hh hk)
  · intro l₀ h hl₀ hf
    cases hl'.symm.trans hl₀
    cases hr.hand.symm.trans hf
    rw [hstate]
    decide
  · intro l₀ c hl₀ hc
    cases hl'.symm.trans hl₀
    obtain ⟨hx, -⟩ | ⟨hcbf, hfib⟩ := hr.kept
    · exact .inl hx
    · rw [hcbf] at hc
      obtain ⟨hcb', hst⟩ := hs.kept_of_ne hi ht hl (turn_ne_of_hand hh hc) hc
      refine .inr ?_
      by_cases hne : c = f
      · subst hne
        rw [hcb, cb_congr hfib]
        exact ⟨hcb', .inr (.inr rfl)⟩
      · rw [cb_congr (hothers c hne), state_congr (hothers c hne)]
        exact ⟨hcb', hst.imp_right .inl⟩
  · intro hm _
    have hmain := (hr.inv.thread i t ((congrFun hr.thread i).trans ht)).main
    rw [← show f = t.main from hm, hr.child] at hmain
    cases hmain

theorem Solo.settle {l' : Loop} {s₁ : Switches} (hi : Inv s) (hs : Solo s) (ht : s.thread i = some t)
    (hl : s.loop t.stack = some l) (hd : Settled s t.stack l s₁ l' f) (he : s' = s₁.setLoop t.stack l') : Solo s' := by
  subst he
  have hstack := hi.stack_eq ht hl
  have hl₀ : s.loop t.sched = some l := by rw [← hstack, hl]
  have hl' : (s₁.setLoop t.stack l').loop t.sched = some l' := by
    rw [← hstack]
    exact Function.update_self ..
  refine solo_of_thread hone ((congrFun hd.thread i).trans ht) (fun h hk hst => ?_) ?_
  · by_cases hne : h = f
    · exact absurd (hne ▸ hst) hd.state
    · have hk' : s.kind h = .child := (kind_congr (hd.others h hne)).symm.trans hk
      have hst' : s.state h = .exec := (state_congr (hd.others h hne)).symm.trans hst
      obtain ⟨l₁, hl₁, hh⟩ := hs.exec_at ht hk' hst'
      cases hl₀.symm.trans hl₁
      exact absurd (Option.some.inj (hh.symm.trans hd.hand)) hne
  · refine holds_of_stack (hd.kinds.mono fun _ _ => rfl) hstack hl' (by rw [Loop.hand, hd.turn]) fun c hc => ?_
    show s₁.cb c = false ∧ (s₁.state c = .init ∨ s₁.state c = .except)
    obtain ⟨hc', ⟨-, -, hcb, hst⟩ | ⟨hx, hsame⟩⟩ := hd.kept c hc
    · exact ⟨hcb, .inl hst⟩
    · have hkept := hs.kept_of_ne hi ht hl hx hc'
      by_cases hne : c = f
      · subst hne
        have hex := hkept.2.resolve_left ((hs.holds i t ht).hand l c hl₀ hd.hand)
        rw [cb_congr (hsame hex), state_congr (hsame hex)]
        exact hkept
      · rw [cb_congr (hd.others c hne), state_congr (hd.others c hne)]
        exact hkept

theorem Solo.back (hi : Inv s) (hs : Solo s) (ht : s.thread i = some t) (hl : s.loop t.stack = some l)
    (hh : l.hand = none) (he : s' = ({ s with loop := Function.update s.loop t.stack none }.ended t.stack
      false).switched i t t.stack .done t.main) : Solo s' := by
  have hstack := hi.stack_eq ht hl
  have hlk := hi.loop _ _ hl
  have hothers h (hne : h ≠ t.stack) : s'.fiber h = s.fiber h := by
    rw [he]
    exact Switches.setFiber_fiber.trans (if_neg hne)
  have hkind h : s'.kind h = s.kind h := by
    rw [he]
    show (Switches.ended { s with loop := Function.update s.loop t.stack none } t.stack false).kind h = _
    rw [Switches.ended_kind]
    rfl
  have hl' : s'.loop t.sched = none := by
    rw [he, ← hstack]
    exact Function.update_self ..
  have ht' : s'.thread i = some { t with fiber := t.main, stack := t.main, cur := t.main } := by
    rw [he]
    exact Function.update_self ..
  refine solo_of_thread hone ht' (fun h hk hst => ?_) ⟨fun hk => ?_, ?_, ?_, fun _ _ => hl'⟩
  · rw [hkind] at hk
    have hne : h ≠ t.stack := by
      rintro rfl
      exact hlk.not_child hk
    rw [state_congr (hothers h hne)] at hst
    exact absurd hst (hs.not_exec hi ht hl hh hk)
  · rw [hkind, show (s.kind _ = _) from (hi.thread i t ht).main] at hk
    cases hk
  · intro l₀ f hl₀
    cases hl'.symm.trans hl₀
  · intro l₀ c hl₀
    cases hl'.symm.trans hl₀

theorem Solo.exit (hi : Inv s) (hs : Solo s) (ht : s.thread i = some t) (hl : s.loop t.stack = some l)
    (hh : l.hand = none) (he : s' = { s with thread := Function.update s.thread i none }) : Solo s' := by
  subst he
  have hno f (hf : s.kind f = .child) : s.state f ≠ .exec := hs.not_exec hi ht hl hh hf
  refine ⟨hone, fun f hk hst => absurd hst (hno f hk), fun j u hu => ?_⟩
  by_cases hj : j = i
  · subst hj
    simp at hu
  · have hu' : s.thread j = some u := by simpa [hj] using hu
    exact absurd (hs.one j i u t hu' ht) hj

theorem Solo.out {s₁ : Switches} {p : Place} (hi : Inv s) (hs : Solo s) (ht : s.thread i = some t)
    (hk : s.kind t.stack = .child) (hd : Left s t.stack s₁) (he : s' = s₁.switched i t t.stack p t.sched) :
    Solo s' := by
  obtain ⟨hex, l, hl, hh⟩ := (hs.holds i t ht).running hk
  have hl' : s'.loop t.sched = some l := by
    rw [he]
    exact (congrFun hd.loop _).trans hl
  have ht' : s'.thread i = some { t with fiber := t.sched, stack := t.sched, cur := t.sched } := by
    rw [he]
    exact Function.update_self ..
  have hfiber h : s'.fiber h = s₁.fiber h := by rw [he]; rfl
  have hothers h (hne : h ≠ t.stack) : s'.fiber h = s.fiber h := (hfiber h).trans (hd.others h hne)
  refine solo_of_thread hone ht' (fun h hk' hst => ?_) ⟨fun hk' => ?_, ?_, ?_, ?_⟩
  · by_cases hne : h = t.stack
    · exact ⟨l, hl', hne ▸ hh⟩
    · rw [kind_congr (hothers h hne)] at hk'
      rw [state_congr (hothers h hne)] at hst
      obtain ⟨l₁, hl₁, hh₁⟩ := hs.exec_at ht hk' hst
      cases hl.symm.trans hl₁
      exact ⟨l, hl', hh₁⟩
  · have hk₁ := hd.kind t.sched
    rw [← kind_congr (hfiber t.sched), show s'.kind t.sched = .child from hk'] at hk₁
    exact absurd hk₁.symm (hi.loop _ _ hl).not_child
  · intro l₀ f hl₀ hf
    cases hl'.symm.trans hl₀
    cases hh.symm.trans hf
    rw [state_congr (hfiber _)]
    exact hd.state hex
  · intro l₀ c hl₀ hc
    cases hl'.symm.trans hl₀
    obtain hx | ⟨hcb, hst⟩ := (hs.holds i t ht).kept l c hl hc
    · exact .inl hx
    · refine .inr ?_
      by_cases hne : c = t.stack
      · subst hne
        obtain ⟨hcb', hst'⟩ := hd.empty hcb
        rw [cb_congr (hfiber _), state_congr (hfiber _)]
        exact ⟨hcb', .inr (.inl hst')⟩
      · rw [cb_congr (hothers c hne), state_congr (hothers c hne)]
        exact ⟨hcb, hst.imp_right (Or.imp_right fun h => absurd h.symm hne)⟩
  · intro hm hne
    exact absurd (Eq.symm hm) hne

/-- The main fiber leaves for the root fiber, where fibers may be made. -/
theorem Solo.call (hi : Inv s) (hs : Solo s) (ht : s.thread i = some t) (hm : t.stack = t.main)
    (hsched : t.sched = rootFiber) (hr : s.kind rootFiber = .caller)
    (hfiber : ∀ f, f ≠ rootFiber → s'.fiber f = s.fiber f ∨ s'.state f = .init)
    (ht' : s'.thread i = some { t with fiber := rootFiber, stack := rootFiber, cur := rootFiber })
    (hr' : s'.kind rootFiber = .caller)
    (hl' : ∀ l, s'.loop rootFiber = some l → s.loop rootFiber = some l ∨ l.hand = none ∧ l.cbFiber = none) :
    Solo s' := by
  have hne : t.main ≠ rootFiber := by
    intro he
    rw [← he, (hi.thread i t ht).main] at hr
    cases hr
  have hnone : s.loop rootFiber = none := hsched ▸ (hs.holds i t ht).out hm (hsched ▸ hne)
  have hnew l (hl : s'.loop t.sched = some l) : l.hand = none ∧ l.cbFiber = none := by
    rw [hsched] at hl
    refine (hl' l hl).resolve_left fun h => ?_
    cases hnone.symm.trans h
  refine solo_of_thread hone ht' (fun f hf hst => ?_) ⟨fun hc => ?_, ?_, ?_, fun he _ => absurd he.symm hne⟩
  · have hroot : f ≠ rootFiber := by
      rintro rfl
      cases hf.symm.trans hr'
    obtain hsame | hinit := hfiber f hroot
    · rw [kind_congr hsame] at hf
      rw [state_congr hsame] at hst
      obtain ⟨l, hl, -⟩ := hs.exec_at ht hf hst
      rw [hsched, hnone] at hl
      cases hl
    · cases hst.symm.trans hinit
  · cases hr'.symm.trans hc
  · intro l f hl hf
    cases (hnew l hl).1.symm.trans hf
  · intro l c hl hc
    cases (hnew l hl).2.symm.trans hc

theorem Solo.start {a b : Nat} (hi : Inv s) (hs : Solo s) (ht : s.thread i = none) (hab : a ≠ b)
    (ha : s.kind a = .free) (hb : s.kind b = .free) (he : s' = s.start i a b) : Solo s' := by
  have ht' : s'.thread i = some ⟨a, a, a, a, a⟩ := by
    rw [he]
    exact Function.update_self ..
  have hl' : s'.loop a = some { idle := b } := by
    rw [he]
    exact run_loop
  have hother j u (hu : s.thread j = some u) : False := by
    have hj : j ≠ i := by
      rintro rfl
      cases ht.symm.trans hu
    have hu' : s'.thread j = some u := by
      rw [he]
      exact (Function.update_of_ne hj ..).trans hu
    exact hj (hone j i u _ hu' ht')
  have hfiber h : s'.fiber h = if h = b then { cb := true, kind := .child }
      else if h = a then { state := .exec, kind := .thread } else s.fiber h := by
    rw [he]
    refine Switches.newFiber_fiber.trans ?_
    split_ifs with hhb hha
    · rfl
    · exact Switches.setFiber_fiber.trans (if_pos hha)
    · exact Switches.setFiber_fiber.trans (if_neg hha)
  have hi' : Inv s' := he ▸ hi.start hab ha hb
  refine solo_of_thread hone ht' (fun f hf hst => ?_) (holds_of_stack (hi'.loop a _ hl') rfl hl' rfl nofun)
  rw [Switches.kind, hfiber] at hf
  rw [Switches.state, hfiber] at hst
  by_cases hfb : f = b
  · rw [if_pos hfb] at hst
    cases hst
  · rw [if_neg hfb] at hf hst
    by_cases hfa : f = a
    · rw [if_pos hfa] at hf
      cases hf
    · rw [if_neg hfa] at hf hst
      obtain ⟨j, u, -, hu, -⟩ := hs.exec f hf hst
      exact (hother j u hu).elim

end

theorem ThreadKinds.stack_ne (h : ThreadKinds s t) : s.kind t.stack ≠ .free := by
  obtain he | he | he := h.stack
  · obtain ⟨he', -⟩ | ⟨he', hr, -⟩ := h.sched
    · rw [he, he', h.main]
      decide
    · rw [he, he', hr]
      decide
  · rw [he, h.main]
    decide
  · rw [he]
    decide

theorem LoopKinds.hand (h : LoopKinds s g l) (hf : l.hand = some f) : s.kind f = .child := by
  unfold Loop.hand at hf
  split at hf
  next hx =>
    cases hf
    exact h.task _ (by rw [hx]; rfl)
  next => exact h.cb f hf
  next =>
    cases hf
    exact h.idle
  next => cases hf

theorem Solo.newFiber {a : Nat} (hi : Inv s) (hs : Solo s) (ha : s.kind a = .free) (b : Bool) :
    Solo (s.newFiber a b) := by
  have hkeep f (hf : s.kind f ≠ .free) : (s.newFiber a b).fiber f = s.fiber f := by
    rw [Switches.newFiber_fiber, if_neg]
    rintro rfl
    exact hf ha
  have hchild f (hf : s.kind f = .child) : (s.newFiber a b).fiber f = s.fiber f := hkeep f (by rw [hf]; decide)
  refine ⟨hs.one, fun f hk hst => ?_, fun i t ht => ?_⟩
  · by_cases hf : f = a
    · rw [Switches.state, Switches.newFiber_fiber, if_pos hf] at hst
      cases hst
    · have hsame : (s.newFiber a b).fiber f = s.fiber f := by rw [Switches.newFiber_fiber, if_neg hf]
      exact hs.exec f ((kind_congr hsame).symm.trans hk) ((state_congr hsame).symm.trans hst)
  · have hh := hs.holds i t ht
    have hstack := hkeep t.stack (hi.thread i t ht).stack_ne
    refine ⟨fun hk => ?_, fun l f hl hf => ?_, fun l c hl hc => ?_, hh.out⟩
    · rw [kind_congr hstack] at hk
      rw [state_congr hstack]
      exact hh.running hk
    · rw [state_congr (hchild f ((hi.loop _ _ hl).hand hf))]
      exact hh.hand l f hl hf
    · have hsame := hchild c ((hi.loop _ _ hl).cb c hc)
      rw [cb_congr hsame, state_congr hsame]
      exact hh.kept l c hl hc

/-- **With a single worker** every step keeps what it holds. -/
theorem Solo.move {c : Switches.Label} (hi : Inv s) (hs : Solo s) (hm : Move s c s')
    (hone : ∀ i j t u, s'.thread i = some t → s'.thread j = some u → i = j) : Solo s' := by
  have hi' := hi.move hm
  cases hm with
  | start ht hab ha hb => exact Solo.start hone hi hs ht hab ha hb rfl
  | newFiber ha => exact hs.newFiber hi ha _
  | call ht hm hs' hr =>
    refine Solo.call hone hi hs ht hm hs' hr (fun f hf => .inl ?_) (Function.update_self ..)
      (Switches.setState_kind.trans hr) fun l hl => .inl hl
    exact Switches.setFiber_fiber.trans (if_neg hf)
  | @begin i a t ht hm hs' hr ha =>
    refine Solo.call hone hi hs ht hm hs' hr (fun f hf => ?_) (Function.update_self ..) ?_ fun l hl => .inr ?_
    · by_cases hfa : f = a
      · refine .inr ?_
        rw [hfa]
        exact congrArg Fiber.state (Switches.newFiber_fiber.trans (if_pos rfl))
      · exact .inl ((Switches.newFiber_fiber.trans (if_neg hfa)).trans (Switches.setFiber_fiber.trans (if_neg hf)))
    · have hra : rootFiber ≠ a := by
        rintro rfl
        cases hr.symm.trans ha
      exact (Switches.newFiber_kind.trans (if_neg hra)).trans (Switches.setState_kind.trans hr)
    · cases run_loop.symm.trans hl
      exact ⟨rfl, rfl⟩
  | turn hc ht hl hh hy hk => exact Solo.turn hone hi hs ht hl hh hy hk rfl
  | enter ht hl hh hr => exact Solo.enter hone hi hs ht hl hh hr rfl
  | same => exact hs
  | settle ht hl hd => exact Solo.settle hone hi hs ht hl hd rfl
  | back ht hl hh hk => exact Solo.back hone hi hs ht hl hh rfl
  | exit ht hl hh => exact Solo.exit hone hi hs ht hl hh rfl
  | out hc ht hk hd hp => exact Solo.out hone hi hs ht hk hd rfl

theorem Solo.not_bad (hi : Inv s) (hs : Solo s) : ¬ Bad s := by
  intro h
  cases h with
  | swapIn ht hl hh hr hst =>
    obtain ⟨-, hinit⟩ | ⟨-, hsame⟩ := hr.kept
    · cases hinit.symm.trans hst
    · have hk := (kind_congr hsame).symm.trans hr.child
      exact hs.not_exec hi ht hl hh hk ((state_congr hsame).symm.trans hst)
  | reset ht hl hh hc hst =>
    have hkept := hs.kept_of_ne hi ht hl (hh _) hc
    exact hst (hkept.2.elim (fun h => .inr (.inr h)) fun h => .inr (.inl h))
  | yield ht hc hst => exact hst ((hs.holds _ _ ht).running hc).1

/-! ## The runs -/

def Threads (cfg : Config) (s : Switches) : Prop :=
  ∀ i t, s.thread i = some t → i = 0 ∧ cfg.useCaller = true ∨ 0 < i ∧ i ≤ cfg.threadCount

/-- A thread is there before a step, or the step starts it. -/
theorem Move.thread {c : Switches.Label} (hm : Move s c s') {j : Nat} {u : Thread} (hj : s'.thread j = some u) :
    (∃ u', s.thread j = some u') ∨ ∃ a b, c = .start j a b := by
  have hset {r : Nat → Option Thread} {i : Nat} {t v : Thread} (hr : r = s.thread) (ht : s.thread i = some t)
      (h : Function.update r i (some v) j = some u) : ∃ u', s.thread j = some u' := by
    by_cases hji : j = i
    · exact ⟨t, hji ▸ ht⟩
    · rw [Function.update_of_ne hji, hr] at h
      exact ⟨u, h⟩
  cases hm with
  | @start i a b ht hab ha hb =>
    by_cases hji : j = i
    · exact .inr ⟨a, b, by rw [hji]⟩
    · exact .inl ⟨u, (Function.update_of_ne hji ..).symm.trans hj⟩
  | newFiber ha => exact .inl ⟨u, hj⟩
  | call ht hm hs hr => exact .inl (hset rfl ht hj)
  | begin ht hm hs hr ha => exact .inl (hset rfl ht hj)
  | turn hc ht hl hh hy hk => exact .inl ⟨u, hj⟩
  | enter ht hl hh hr => exact .inl (hset hr.thread ht hj)
  | same => exact .inl ⟨u, hj⟩
  | settle ht hl hd => exact .inl ⟨u, (congrFun hd.thread j).symm.trans hj⟩
  | back ht hl hh hk => exact .inl (hset rfl ht hj)
  | @exit i t l ht hl hh =>
    have hji : j ≠ i := by
      rintro rfl
      simp at hj
    exact .inl ⟨u, by simpa [hji] using hj⟩
  | out hc ht hk hd hp => exact .inl (hset hd.thread ht hj)

theorem Move.threads {cfg : Config} {c : Switches.Label} (hm : Move s c s') (he : s.enabled cfg c) (h : Threads cfg s) :
    Threads cfg s' := by
  intro j u hj
  obtain ⟨u', hu⟩ | ⟨a, b, rfl⟩ := hm.thread hj
  · exact h j u' hu
  · exact .inr ⟨he.1, he.2.1⟩

theorem Threads.one {cfg : Config} (h : Threads cfg s) (hw : cfg.workers ≤ 1) :
    ∀ i j t u, s.thread i = some t → s.thread j = some u → i = j := by
  intro i j t u ht hu
  unfold Config.workers at hw
  have hi := h i t ht
  have hj := h j u hu
  cases hc : cfg.useCaller with
  | true =>
    simp only [hc, if_true] at hw
    omega
  | false =>
    simp only [hc, Bool.false_eq_true, and_false, false_or, if_false] at hw hi hj
    omega

/-- A step that swaps out ends at the scheduler fiber of the thread, and the end of `run` at its main fiber. -/
structure Returns (e : Entry Switches Switches.Label Unit) : Prop where
  sched : ∀ i t t', e.inp.outs = some i → e.pre.thread i = some t → e.post.thread i = some t' → t'.stack = t.sched
  main : ∀ i t t', e.inp = .leave i → e.pre.thread i = some t → e.post.thread i = some t' → t'.stack = t.main

/-- **The running fiber is tracked** in the run `h` to `s`: each thread executes `t_fiber`, the switches return where
they should, and with a single worker no assertion on a state fails. -/
structure Tracked (cfg : Config) (h : List (Entry Switches Switches.Label Unit)) (s : Switches) : Prop where
  executes : ∀ i t, s.thread i = some t → t.fiber = t.stack
  returns : ∀ e ∈ h, Returns e
  asserts : cfg.workers ≤ 1 → ∀ c, s.enabled cfg c → ∀ e, s.step c = .error e → e = .neverReach

theorem Move.returns {e : Entry Switches Switches.Label Unit} (hm : Move e.pre e.inp e.post) : Returns e := by
  obtain ⟨s, c, o, s'⟩ := e
  replace hm : Move s c s' := hm
  constructor
  · intro i t t' hc ht ht'
    replace hc : c.outs = some i := hc
    cases hm with
    | @out j _ u s₁ p hc' hu hk hd hp =>
      obtain rfl : j = i := Option.some.inj (hc'.symm.trans hc)
      cases hu.symm.trans ht
      cases (Function.update_self ..).symm.trans ht'
      rfl
    | turn hc' => cases (Switches.Label.outs_of_loops hc').symm.trans hc
    | _ => cases hc
  · intro i t t' hc ht ht'
    obtain rfl : c = .leave i := hc
    cases hm with
    | back hu =>
      cases hu.symm.trans ht
      cases (Function.update_self ..).symm.trans ht'
      rfl
    | exit =>
      cases (Function.update_self ..).symm.trans ht'
    | out hc' => cases hc'
    | turn hc' => cases hc'

theorem call_error {i a : Nat} {e : Fault} (h : s.step (.call i a) = .error e) : e = .neverReach := by
  unfold Switches.step Switches.on at h
  dsimp only at h
  split at h
  · cases h
  · obtain h | ⟨r, -, h⟩ := bind_eq_error h
    · unfold Switches.swapcontext Switches.resume at h
      dsimp only at h
      split at h <;> cases h
      rfl
    · cases h

theorem initial_thread {cfg : Config} (ht : (Switches.initial cfg).thread i = some t) :
    cfg.useCaller = true ∧ i = 0 ∧ t = ⟨0, rootFiber, 0, 0, 0⟩ := by
  unfold Switches.initial at ht
  split_ifs at ht with hc
  · dsimp only at ht
    rw [Function.update_apply] at ht
    split_ifs at ht with hi
    cases ht
    exact ⟨hc, hi, rfl⟩

theorem initial_loop (cfg : Config) : (Switches.initial cfg).loop f = none := by
  unfold Switches.initial
  split_ifs <;> rfl

theorem initial_kind (cfg : Config) : (Switches.initial cfg).kind f ≠ .child := by
  unfold Switches.initial Switches.kind
  split_ifs
  · dsimp only
    rw [Function.update_apply, Function.update_apply]
    split_ifs <;> nofun
  · nofun

theorem initial_inv (cfg : Config) : Inv (.initial cfg) where
  own := by
    have ho : Own {} := fun f => ⟨rfl, nofun⟩
    unfold Switches.initial
    split_ifs
    · exact ho.update Place.inside_own
    · exact ho
  thread i t ht := by
    obtain ⟨hc, rfl, rfl⟩ := initial_thread ht
    rw [Switches.initial, if_pos hc]
    exact ⟨rfl, rfl, .inr (.inl rfl), rfl, .inr ⟨rfl, rfl, rfl⟩⟩
  loop f l hl := by
    rw [initial_loop] at hl
    cases hl

theorem initial_threads (cfg : Config) : Threads cfg (.initial cfg) := by
  intro i t ht
  obtain ⟨hc, rfl, -⟩ := initial_thread ht
  exact .inl ⟨rfl, hc⟩

theorem initial_solo (cfg : Config) (hw : cfg.workers ≤ 1) : Solo (.initial cfg) where
  one := (initial_threads cfg).one hw
  exec f hk := absurd hk (initial_kind cfg)
  holds i t ht := by
    refine ⟨fun hk => absurd hk (initial_kind cfg), fun l f hl => ?_, fun l c hl => ?_, fun _ _ => initial_loop cfg⟩
    · cases (initial_loop cfg).symm.trans hl
    · cases (initial_loop cfg).symm.trans hl

section
variable {cfg : Config} {h : List (Entry Switches Switches.Label Unit)}

theorem step_ok {e : Entry Switches Switches.Label Unit} (hst : (machine cfg).Steps e) :
    e.pre.step e.inp = .ok e.post := by
  obtain ⟨r, hr, he⟩ := map_eq_ok hst.2
  obtain rfl : r = e.post := congrArg Prod.snd he
  exact hr

theorem move_of_steps {e : Entry Switches Switches.Label Unit} (hi : Inv e.pre) (hst : (machine cfg).Steps e)
    (hm : e.pre.Meets e.inp) : Move e.pre e.inp e.post := by
  have hok := step_ok hst
  obtain ⟨s', hs', hmove⟩ | he | ⟨⟨_, he⟩, -⟩ := step_answers hi hst.1 hm
  · cases hs'.symm.trans hok
    exact hmove
  · cases he.symm.trans hok
  · cases he.symm.trans hok

theorem inv_of_run (hr : Run (machine cfg) h s) (hc : ∀ e ∈ h, e.pre.Meets e.inp) :
    Inv s ∧ Threads cfg s ∧ (cfg.workers ≤ 1 → Solo s) := by
  refine hr.invariant_of (P := fun s => Inv s ∧ Threads cfg s ∧ (cfg.workers ≤ 1 → Solo s)) hc ?_ ?_
  · rintro _ rfl
    exact ⟨initial_inv cfg, initial_threads cfg, initial_solo cfg⟩
  · rintro e ⟨hi, ht, hs⟩ hst hm
    have hmove := move_of_steps hi hst hm
    have ht' := hmove.threads hst.1 ht
    exact ⟨hi.move hmove, ht', fun hw => (hs hw).move hi hmove (ht'.one hw)⟩

/-- **The running fiber is tracked in every run** that issues `call` from the main fiber of a thread only. -/
theorem tracked (hr : Run (machine cfg) h s) (hc : ∀ e ∈ h, e.pre.Meets e.inp) : Tracked cfg h s := by
  obtain ⟨hi, -, hs⟩ := inv_of_run hr hc
  refine ⟨fun i t ht => (hi.thread i t ht).fiber, fun e he => ?_, fun hw c henabled e herror => ?_⟩
  · obtain ⟨h₁, h₂, rfl⟩ := List.append_of_mem he
    obtain ⟨hr₁, hst⟩ := hr.cut rfl
    obtain ⟨hi₁, -⟩ := inv_of_run hr₁ fun e' he' => hc e' (List.mem_append_left _ he')
    exact (move_of_steps hi₁ hst (hc e he)).returns
  · cases c with
    | call i a => exact call_error herror
    | _ =>
      obtain ⟨s', hs', -⟩ | he | ⟨-, hbad⟩ := step_answers hi henabled trivial
      · cases hs'.symm.trans herror
      · cases he.symm.trans herror
        rfl
      · exact absurd hbad ((hs hw).not_bad hi)

end

/-- The root fiber executes a callback that holds, and then the idle fiber. -/
theorem tracked_callback : ∃ h s, Run (machine ⟨0, true⟩) h s ∧ s.state 3 = .hold ∧
    s.thread 0 = some ⟨0, rootFiber, 2, 2, 2⟩ ∧ Tracked ⟨0, true⟩ h s := by
  obtain ⟨h, s, hr, hp⟩ := Run.of_replay (machine ⟨0, true⟩) rfl
    [.call 0 2, .scan 0 .callback, .work 0 3, .yieldToHold 0, .work 0 4, .scan 0 .nothing, .work 0 4]
    (fun r => r.1.all (fun e => e.pre.Meets e.inp) && r.2.state 3 == .hold &&
      r.2.thread 0 == some ⟨0, rootFiber, 2, 2, 2⟩) (by decide +kernel)
  simp only [Bool.and_eq_true, List.all_eq_true, decide_eq_true_eq, beq_iff_eq] at hp
  exact ⟨h, s, hr, hp.1.2, hp.2, tracked hr hp.1.1⟩

/-- A callback on the thread of `use_caller` calls `Schedular::stop`: the context of the callback replaces that of the
main fiber, and the end of `run` goes back to it. -/
theorem tracked_not_stop : ¬ ∀ cfg h s, Run (machine cfg) h s → Tracked cfg h s := by
  intro hall
  obtain ⟨h, s, hr, hp⟩ := Run.of_replay (machine ⟨0, true⟩) rfl
    [.call 0 2, .scan 0 .callback, .work 0 3, .call 0 4, .work 0 4, .scan 0 .nothing, .work 0 4, .finish 0 false,
      .work 0 4, .scan 0 .nothing, .leave 0]
    (fun r => r.2.thread 0 == some ⟨0, rootFiber, 0, 3, 3⟩) (by decide +kernel)
  cases (hall _ h s hr).executes 0 _ (beq_iff_eq.mp hp)

end QWebServer.Switching
