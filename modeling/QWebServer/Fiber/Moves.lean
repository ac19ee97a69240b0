import Mathlib.Tactic
import QWebServer.Fiber.Switch

/-!
# What the switches do

* `Own` : every `m_ctx` is a context of its own fiber, `swapcontext_cases` : a switch then goes where it should;
* `Inv` : contexts are where they belong, and each thread executes the fiber that it names;
* `Ready`, `Settled`, `Left` : what the loop does before and after its `swapIn`, and a fiber before its `swapOut`;
* `Move` : what a step can do, `step_answers` : a step is a `Move`, or it ends in an assertion, `Inv.move` : a `Move`
  keeps the invariant.
-/

namespace QWebServer.Switching

open Lib

/-! ## What the switches leave -/

namespace Switches

def kind (s : Switches) (f : Nat) : Kind := (s.fiber f).kind

def state (s : Switches) (f : Nat) : Fiber.State := (s.fiber f).state

def cb (s : Switches) (f : Nat) : Bool := (s.fiber f).cb

/-- A switch that went through: from the stack of `f`, which goes on at `p`, to the fiber `g`. -/
def switched (s : Switches) (i : Nat) (t : Thread) (f : Nat) (p : Place) (g : Nat) : Switches :=
  { s with ctx := Function.update s.ctx f ⟨f, p⟩ }.setThread i { t with fiber := g, stack := g, cur := g }

end Switches

/-- Every `m_ctx` is a context of its own fiber. -/
def Own (s : Switches) : Prop := ∀ f, (s.ctx f).stack = f ∧ ∀ g, (s.ctx f).place = .inside g → g = f

variable {s s' : Switches} {i f g : Nat} {t : Thread} {p : Place}

theorem swapcontext_cases (ho : Own s) (hf : t.stack = f) (hp : ∀ g, p = .inside g → g = f) (hg : t.fiber = g) :
    s.swapcontext i t f p g = .error .neverReach ∨ s.swapcontext i t f p g = .ok (s.switched i t f p g) := by
  subst hf hg
  have hown : (Function.update s.ctx t.stack ⟨t.stack, p⟩ t.fiber).stack = t.fiber ∧
      ∀ g, (Function.update s.ctx t.stack ⟨t.stack, p⟩ t.fiber).place = .inside g → g = t.fiber := by
    by_cases h : t.fiber = t.stack
    · rw [h, Function.update_self]
      exact ⟨rfl, hp⟩
    · rw [Function.update_of_ne h]
      exact ho t.fiber
  obtain ⟨hstack, hplace⟩ := hown
  unfold Switches.swapcontext Switches.resume Switches.switched
  dsimp only
  generalize Function.update s.ctx t.stack ⟨t.stack, p⟩ t.fiber = c at hstack hplace
  obtain ⟨stack, place⟩ := c
  obtain rfl : stack = t.fiber := hstack
  cases place with
  | entry => exact .inr rfl
  | inside cur =>
    obtain rfl : cur = t.fiber := hplace cur rfl
    exact .inr rfl
  | done => exact .inl rfl

theorem Place.inside_own : ∀ g, Place.inside f = .inside g → g = f := by
  intro g hg
  cases hg
  rfl

/-! ## Kinds, states and callbacks after an update -/

namespace Switches

variable {o : Fiber.State} {x : Fiber} {b threw : Bool} {a : Nat}

theorem setFiber_fiber : (s.setFiber f x).fiber g = if g = f then x else s.fiber g := Function.update_apply ..

@[simp]
theorem setState_kind : (s.setState f o).kind g = s.kind g := by
  rw [kind, setState, setFiber_fiber]
  split_ifs with h
  · rw [h]
    rfl
  · rfl

theorem setState_state : (s.setState f o).state g = if g = f then o else s.state g := by
  rw [state, setState, setFiber_fiber]
  split_ifs <;> rfl

@[simp]
theorem setState_cb : (s.setState f o).cb g = s.cb g := by
  rw [cb, setState, setFiber_fiber]
  split_ifs with h
  · rw [h]
    rfl
  · rfl

theorem newFiber_fiber : (s.newFiber a b).fiber g = if g = a then { cb := b, kind := .child } else s.fiber g :=
  setFiber_fiber

theorem newFiber_kind : (s.newFiber a b).kind g = if g = a then .child else s.kind g := by
  rw [kind, newFiber_fiber]
  split_ifs <;> rfl

@[simp]
theorem ended_kind : (s.ended f threw).kind g = s.kind g := by
  unfold ended
  split_ifs
  · exact setState_kind
  · rw [kind, setFiber_fiber]
    split_ifs with h
    · rw [h]
      rfl
    · rfl

/-- What `reset` leaves. -/
structure Renewed (s s' : Switches) (f : Nat) (b : Bool) : Prop where
  fiber : s'.fiber f = { s.fiber f with state := .init, cb := b }
  others : ∀ g, g ≠ f → s'.fiber g = s.fiber g
  thread : s'.thread = s.thread
  loop : s'.loop = s.loop
  ctx : s'.ctx = Function.update s.ctx f ⟨f, .entry⟩

theorem Renewed.kind (h : Renewed s s' f b) : s'.kind g = s.kind g := by
  unfold Switches.kind
  by_cases hg : g = f
  · rw [hg, h.fiber]
  · rw [h.others g hg]

theorem reset_cases (s : Switches) (f : Nat) (b : Bool) :
    (∃ s', s.reset f b = .ok s' ∧ Renewed s s' f b) ∨
      ¬ (s.state f = .term ∨ s.state f = .except ∨ s.state f = .init) ∧ s.reset f b = .error .resetState := by
  unfold reset
  split_ifs with h
  · refine .inl ⟨_, rfl, ?_, fun g hg => ?_, rfl, rfl, rfl⟩
    · exact setFiber_fiber.trans (if_pos rfl)
    · exact setFiber_fiber.trans (if_neg hg)
  · exact .inr ⟨h, rfl⟩

end Switches

/-! ## The invariant of the switches -/

/-- The fiber of a turn that has one in its entry. -/
def Turn.task : Turn → Option Nat
  | .taken (.task f) | .waiting (.task f) => some f
  | _ => none

/-- The loop is on the stack of a scheduler fiber, and its fibers are others. -/
structure LoopKinds (s : Switches) (f : Nat) (l : Loop) : Prop where
  own : s.kind f = .thread ∨ s.kind f = .caller
  idle : s.kind l.idle = .child
  cb : ∀ c, l.cbFiber = some c → s.kind c = .child
  task : ∀ g, l.turn.task = some g → s.kind g = .child

/-- The thread executes `t_fiber`: the scheduler fiber, the main fiber, or a fiber that it took. The scheduler fiber is
the main fiber, in `run` all the time, or it is the root fiber. -/
structure ThreadKinds (s : Switches) (t : Thread) : Prop where
  fiber : t.fiber = t.stack
  cur : t.cur = t.stack
  stack : t.stack = t.sched ∨ t.stack = t.main ∨ s.kind t.stack = .child
  main : s.kind t.main = .thread
  sched : t.sched = t.main ∧ s.loop t.main ≠ none ∨
    t.sched = rootFiber ∧ s.kind rootFiber = .caller ∧ s.loop t.main = none

/-- **The invariant**: contexts are where they belong, and each thread executes the fiber that it names. -/
structure Inv (s : Switches) : Prop where
  own : Own s
  thread : ∀ i t, s.thread i = some t → ThreadKinds s t
  loop : ∀ f l, s.loop f = some l → LoopKinds s f l

def Kept (s s' : Switches) : Prop := ∀ f, s.kind f ≠ .free → s'.kind f = s.kind f

theorem Kept.kind (hk : Kept s s') {k : Kind} (h : s.kind f = k) (hne : k ≠ .free) : s'.kind f = k := by
  subst h
  exact hk f hne

theorem LoopKinds.mono {l : Loop} (h : LoopKinds s f l) (hk : Kept s s') : LoopKinds s' f l where
  own := h.own.imp (hk.kind · (by decide)) (hk.kind · (by decide))
  idle := hk.kind h.idle (by decide)
  cb c hc := hk.kind (h.cb c hc) (by decide)
  task g hg := hk.kind (h.task g hg) (by decide)

theorem ThreadKinds.mono (h : ThreadKinds s t) (hk : Kept s s') (hl : s'.loop t.main = none ↔ s.loop t.main = none) :
    ThreadKinds s' t where
  fiber := h.fiber
  cur := h.cur
  stack := h.stack.imp_right (Or.imp_right (hk.kind · (by decide)))
  main := hk.kind h.main (by decide)
  sched := by
    rw [ne_eq, hl]
    exact h.sched.imp_right (And.imp_right (And.imp_left (hk.kind · (by decide))))

/-- An update that keeps the loops, the threads and the kinds. -/
theorem Inv.keep (hi : Inv s) (ho : Own s') (hk : Kept s s') (ht : s'.thread = s.thread) (hl : s'.loop = s.loop) :
    Inv s' where
  own := ho
  thread i t h := by
    rw [ht] at h
    exact (hi.thread i t h).mono hk (by rw [hl])
  loop f l h := by
    rw [hl] at h
    exact (hi.loop f l h).mono hk

theorem Own.update (ho : Own s) (hp : ∀ g, p = .inside g → g = f) :
    Own { s with ctx := Function.update s.ctx f ⟨f, p⟩ } := by
  intro g
  by_cases h : g = f
  · subst h
    simpa using hp
  · simpa [h] using ho g

theorem Inv.setState (hi : Inv s) (f : Nat) (o : Fiber.State) : Inv (s.setState f o) :=
  hi.keep hi.own (fun _ _ => Switches.setState_kind) rfl rfl

theorem Inv.ended (hi : Inv s) (f : Nat) (threw : Bool) : Inv (s.ended f threw) := by
  have hk : Kept s (s.ended f threw) := fun _ _ => Switches.ended_kind
  cases threw <;> exact hi.keep hi.own hk rfl rfl

theorem Inv.newFiber (hi : Inv s) {a : Nat} (ha : s.kind a = .free) (b : Bool) : Inv (s.newFiber a b) := by
  refine hi.keep (hi.own.update nofun) (fun f hf => ?_) rfl rfl
  rw [Switches.newFiber_kind, if_neg]
  rintro rfl
  exact hf ha

theorem Inv.renewed (hi : Inv s) {b : Bool} (h : Switches.Renewed s s' f b) : Inv s' := by
  refine hi.keep ?_ (fun _ _ => h.kind) h.thread h.loop
  have ho : Own { s with ctx := Function.update s.ctx f ⟨f, .entry⟩ } := hi.own.update nofun
  intro g
  rw [h.ctx]
  exact ho g

/-- A loop on a stack that has one, or that is no main fiber's. -/
theorem Inv.setLoop (hi : Inv s) {l : Loop} (hl : LoopKinds s f l)
    (hf : ∀ i t, s.thread i = some t → t.main = f → s.loop f ≠ none) : Inv (s.setLoop f l) where
  own := hi.own
  thread i t h := by
    refine (hi.thread i t h).mono (fun _ _ => rfl) ?_
    by_cases he : t.main = f
    · have := hf i t h he
      simp [Switches.setLoop, he, this]
    · simp [Switches.setLoop, he]
  loop g l' h := by
    by_cases he : g = f
    · subst he
      obtain rfl : l = l' := by simpa [Switches.setLoop] using h
      exact hl.mono fun _ _ => rfl
    · have h' : s.loop g = some l' := by simpa [Switches.setLoop, he] using h
      exact (hi.loop g l' h').mono fun _ _ => rfl

theorem Inv.setThread (hi : Inv s) (ht : ThreadKinds s t) : Inv (s.setThread i t) where
  own := hi.own
  thread j u h := by
    by_cases hj : j = i
    · subst hj
      obtain rfl : t = u := by simpa [Switches.setThread] using h
      exact ht.mono (fun _ _ => rfl) Iff.rfl
    · have h' : s.thread j = some u := by simpa [Switches.setThread, hj] using h
      exact (hi.thread j u h').mono (fun _ _ => rfl) Iff.rfl
  loop f l h := (hi.loop f l h).mono fun _ _ => rfl

theorem Inv.endLoop (hi : Inv s) (hf : s.kind f = .caller) :
    Inv { s with loop := Function.update s.loop f none } where
  own := hi.own
  thread i t h := by
    have ht := hi.thread i t h
    have hne : t.main ≠ f := by
      rintro rfl
      rw [ht.main] at hf
      cases hf
    exact ht.mono (fun _ _ => rfl) (by simp [hne])
  loop g l h := by
    by_cases he : g = f
    · subst he
      simp at h
    · exact (hi.loop g l (by simpa [he] using h)).mono fun _ _ => rfl

/-- A switch to the scheduler fiber, to the main fiber or to another fiber. -/
theorem Inv.switched (hi : Inv s) (ht : s.thread i = some t) (hp : ∀ g, p = .inside g → g = t.stack)
    (hg : g = t.sched ∨ g = t.main ∨ s.kind g = .child) : Inv (s.switched i t t.stack p g) := by
  have hi' : Inv { s with ctx := Function.update s.ctx t.stack ⟨t.stack, p⟩ } :=
    hi.keep (hi.own.update hp) (fun _ _ => rfl) rfl rfl
  have hk := hi.thread i t ht
  exact hi'.setThread ⟨rfl, rfl, hg, hk.main, hk.sched⟩

theorem Inv.removeThread (hi : Inv s) (i : Nat) : Inv { s with thread := Function.update s.thread i none } where
  own := hi.own
  thread j u h := by
    have hj : j ≠ i := by
      rintro rfl
      simp at h
    exact (hi.thread j u (by simpa [hj] using h)).mono (fun _ _ => rfl) Iff.rfl
  loop f l h := (hi.loop f l h).mono fun _ _ => rfl

/-- The loop that a thread executes is that of its scheduler fiber. -/
theorem Inv.stack_eq (hi : Inv s) (ht : s.thread i = some t) {l : Loop} (hl : s.loop t.stack = some l) :
    t.stack = t.sched := by
  have h := hi.thread i t ht
  obtain he | he | he := h.stack
  · exact he
  · obtain ⟨hs, -⟩ | ⟨-, -, hn⟩ := h.sched
    · rw [hs, he]
    · rw [he, hn] at hl
      cases hl
  · have := (hi.loop _ _ hl).own
    rw [he] at this
    obtain this | this := this <;> cases this

/-! ## What each switch does -/

theorem swapOut_cases (hi : Inv s) (hp : ∀ g, p = .inside g → g = t.stack) :
    s.swapOut i t t.stack p = .error .neverReach ∨
      s.swapOut i t t.stack p = .ok (s.switched i t t.stack p t.sched) :=
  swapcontext_cases (t := { t with fiber := t.sched }) hi.own rfl hp rfl

theorem back_cases (hi : Inv s) (hp : ∀ g, p = .inside g → g = t.stack) :
    s.back i t t.stack p = .error .neverReach ∨ s.back i t t.stack p = .ok (s.switched i t t.stack p t.main) :=
  swapcontext_cases (t := { t with fiber := t.main }) hi.own rfl hp rfl

theorem swapIn_cases (hi : Inv s) (hk : ThreadKinds s t) (hs : t.stack = t.sched) :
    s.state f = .exec ∧ s.swapIn i t f = .error .swapInExec ∨ s.swapIn i t f = .error .neverReach ∨
      s.swapIn i t f = .ok ((s.setState f .exec).switched i t t.stack (.inside t.stack) f) := by
  unfold Switches.swapIn
  split_ifs with h
  · exact .inl ⟨h, rfl⟩
  · have he : (s.setState f .exec).switched i t t.stack (.inside t.stack) f =
        (s.setState f .exec).switched i t t.sched (.inside t.cur) f := by rw [hk.cur, ← hs]
    rw [he]
    refine .inr (swapcontext_cases (t := { t with fiber := f }) (hi.setState f .exec).own hs (fun g hg => ?_) rfl)
    cases hg
    rw [hk.cur, hs]

theorem yieldTo_cases (hi : Inv s) (hk : ThreadKinds s t) (o : Fiber.State) :
    s.state t.stack ≠ .exec ∧ s.yieldTo i t o = .error .yieldState ∨ s.yieldTo i t o = .error .neverReach ∨
      s.yieldTo i t o = .ok ((s.setState t.stack o).switched i t t.stack (.inside t.stack) t.sched) := by
  unfold Switches.yieldTo
  rw [hk.fiber, hk.cur]
  split_ifs with h
  · exact .inr (swapOut_cases (hi.setState t.stack o) Place.inside_own)
  · exact .inl ⟨h, rfl⟩

theorem finish_cases (hi : Inv s) (hk : ThreadKinds s t) (threw : Bool) :
    s.finish i t threw = .error .neverReach ∨
      s.finish i t threw = .ok ((s.ended t.stack threw).switched i t t.stack .done t.sched) := by
  unfold Switches.finish
  rw [hk.cur]
  exact swapOut_cases (hi.ended t.stack threw) nofun

/-- The fiber in the `swapIn` of the loop. -/
def Loop.hand (l : Loop) : Option Nat :=
  match l.turn with
  | .waiting (.task f) => some f
  | .waiting .callback => l.cbFiber
  | .waiting .nothing => some l.idle
  | _ => none

/-- The loop `l` is ready to switch to `f`, as `l'`, after it made `s₁` of `s`. -/
structure Ready (s : Switches) (g : Nat) (l : Loop) (s₁ : Switches) (l' : Loop) (f : Nat) : Prop where
  inv : Inv s₁
  kinds : LoopKinds s₁ g l'
  child : s₁.kind f = .child
  thread : s₁.thread = s.thread
  loop : s₁.loop = s.loop
  others : ∀ h, h ≠ f → s₁.fiber h = s.fiber h
  hand : l'.hand = some f
  kept : l'.turn = .waiting .callback ∧ s₁.state f = .init ∨ l'.cbFiber = l.cbFiber ∧ s₁.fiber f = s.fiber f

theorem dispatch_cases (hi : Inv s) {l : Loop} (hl : s.loop t.stack = some l) {a : Nat}
    (ha : s.kind a = .free) {x : Taken} (hx : l.turn = .taken x) :
    s.dispatch i t l a x = .ok (s.setLoop t.stack { l with turn := .scan }) ∨
    (∃ c, l.cbFiber = some c ∧ ¬ (s.state c = .term ∨ s.state c = .except ∨ s.state c = .init) ∧
      s.dispatch i t l a x = .error .resetState) ∨
    ∃ s₁ l' f, Ready s t.stack l s₁ l' f ∧ s.dispatch i t l a x = (s₁.setLoop t.stack l').swapIn i t f := by
  have hlk := hi.loop _ _ hl
  unfold Switches.dispatch
  cases x with
  | task f =>
    have hf : s.kind f = .child := hlk.task f (by rw [hx]; rfl)
    dsimp only
    split_ifs
    · refine .inr (.inr ⟨s, { l with turn := .waiting (.task f) }, f, ?_, rfl⟩)
      exact ⟨hi, ⟨hlk.own, hlk.idle, hlk.cb, fun g hg => by cases hg; exact hf⟩, hf, rfl, rfl, fun _ _ => rfl, rfl,
        .inr ⟨rfl, rfl⟩⟩
    · exact .inl rfl
  | callback =>
    refine .inr ?_
    cases hc : l.cbFiber with
    | none =>
      refine .inr ⟨s.newFiber a true, { l with cbFiber := some a, turn := .waiting .callback }, a, ?_, rfl⟩
      have hi' := hi.newFiber ha true
      have hkind : (s.newFiber a true).kind a = .child := by rw [Switches.newFiber_kind, if_pos rfl]
      have hstate : (s.newFiber a true).state a = .init := by rw [Switches.state, Switches.newFiber_fiber, if_pos rfl]
      have hlk' := hi'.loop t.stack l hl
      refine ⟨hi', ⟨hlk'.own, hlk'.idle, fun c hc => ?_, nofun⟩, hkind, rfl, rfl, fun h hne => ?_, rfl,
        .inl ⟨rfl, hstate⟩⟩
      · cases hc
        exact hkind
      · rw [Switches.newFiber_fiber, if_neg hne]
    | some c =>
      dsimp only
      obtain ⟨s₁, hr, hs₁⟩ | ⟨hs, hr⟩ := Switches.reset_cases s c true
      · refine .inr ⟨s₁, { l with cbFiber := some c, turn := .waiting .callback }, c, ?_, by rw [hr]; rfl⟩
        have hlk' : LoopKinds s₁ t.stack l := hlk.mono fun _ _ => hs₁.kind
        have hstate : s₁.state c = .init := by rw [Switches.state, hs₁.fiber]
        refine ⟨hi.renewed hs₁, ⟨hlk'.own, hlk'.idle, fun c' hc' => ?_, nofun⟩, hlk'.cb c hc, hs₁.thread, hs₁.loop,
          hs₁.others, rfl, .inl ⟨rfl, hstate⟩⟩
        cases hc'
        exact hlk'.cb c hc
      · exact .inl ⟨c, rfl, hs, by rw [hr]; rfl⟩
  | nothing =>
    refine .inr (.inr ⟨s, { l with turn := .waiting .nothing }, l.idle, ?_, rfl⟩)
    exact ⟨hi, ⟨hlk.own, hlk.idle, hlk.cb, nofun⟩, hlk.idle, rfl, rfl, fun _ _ => rfl, rfl, .inr ⟨rfl, rfl⟩⟩

/-- A fiber that came back is stored to, or left as it is. -/
theorem putBack_cases (s : Switches) (f : Nat) :
    s.putBack f = s.setState f .hold ∧ s.state f ≠ .except ∨ s.putBack f = s ∧ s.state f ≠ .exec := by
  unfold Switches.putBack Switches.state
  cases (s.fiber f).state with
  | init | hold | exec => exact .inl ⟨rfl, nofun⟩
  | term | ready | except => exact .inr ⟨rfl, nofun⟩

theorem putBackIdle_cases (s : Switches) (f : Nat) :
    s.putBackIdle f = s.setState f .hold ∧ s.state f ≠ .except ∨ s.putBackIdle f = s ∧ s.state f ≠ .exec := by
  unfold Switches.putBackIdle Switches.state
  cases (s.fiber f).state with
  | init | hold | exec | ready => exact .inl ⟨rfl, nofun⟩
  | term | except => exact .inr ⟨rfl, nofun⟩

/-- The loop `l` goes on as `l'`, after it made `s₁` of `s` for the fiber `f` that came back. -/
structure Settled (s : Switches) (g : Nat) (l : Loop) (s₁ : Switches) (l' : Loop) (f : Nat) : Prop where
  inv : Inv s₁
  kinds : LoopKinds s₁ g l'
  thread : s₁.thread = s.thread
  loop : s₁.loop = s.loop
  others : ∀ h, h ≠ f → s₁.fiber h = s.fiber h
  hand : l.hand = some f
  turn : l'.turn = .scan
  state : s₁.state f ≠ .exec
  kept : ∀ c, l'.cbFiber = some c → l.cbFiber = some c ∧
    (l.turn = .waiting .callback ∧ c = f ∧ s₁.cb c = false ∧ s₁.state c = .init ∨
      l.turn ≠ .waiting .callback ∧ (s.state f = .except → s₁.fiber f = s.fiber f))

/-- The branches of the loop that store `HOLD` or leave the fiber as it is, and then have `k` in `cb_fiber`. -/
theorem settled_of_putBack (hi : Inv s) {l : Loop} (hl : LoopKinds s g l) {s₁ : Switches}
    (h : s₁ = s.setState f .hold ∧ s.state f ≠ .except ∨ s₁ = s ∧ s.state f ≠ .exec) (hf : l.hand = some f)
    {k : Option Nat} (hk : ∀ c, k = some c → l.cbFiber = some c ∧ l.turn ≠ .waiting .callback) :
    Settled s g l s₁ { l with cbFiber := k, turn := .scan } f := by
  obtain ⟨rfl, hs⟩ | ⟨rfl, hs⟩ := h
  · have hl' : LoopKinds (s.setState f .hold) g l := hl.mono fun _ _ => Switches.setState_kind
    refine ⟨hi.setState f .hold, ⟨hl'.own, hl'.idle, fun c hc => hl'.cb c (hk c hc).1, nofun⟩, rfl, rfl,
      fun h hne => ?_, hf, rfl, ?_, fun c hc => ⟨(hk c hc).1, .inr ⟨(hk c hc).2, fun he => absurd he hs⟩⟩⟩
    · exact Switches.setFiber_fiber.trans (if_neg hne)
    · rw [Switches.setState_state, if_pos rfl]
      decide
  · exact ⟨hi, ⟨hl.own, hl.idle, fun c hc => hl.cb c (hk c hc).1, nofun⟩, rfl, rfl, fun _ _ => rfl, hf, rfl, hs,
      fun c hc => ⟨(hk c hc).1, .inr ⟨(hk c hc).2, fun _ => rfl⟩⟩⟩

theorem putBackCb_cases (hi : Inv s) {l : Loop} (hl : LoopKinds s g l) (hx : l.turn = .waiting .callback) {c : Nat}
    (hc : l.cbFiber = some c) :
    ∃ s₁ l', Settled s g l s₁ l' c ∧ s.putBackCb g l c = .ok (s₁.setLoop g l') := by
  have hf : l.hand = some c := by
    rw [Loop.hand, hx]
    exact hc
  have hend (h : s.state c = .term ∨ s.state c = .except) :
      ∃ s₁, s.reset c false = .ok s₁ ∧ Settled s g l s₁ { l with turn := .scan } c := by
    obtain ⟨s₁, hr, hs₁⟩ | ⟨hs, -⟩ := Switches.reset_cases s c false
    · have hl' : LoopKinds s₁ g l := hl.mono fun _ _ => hs₁.kind
      have hst : s₁.state c = .init := by rw [Switches.state, hs₁.fiber]
      have hcb : s₁.cb c = false := by rw [Switches.cb, hs₁.fiber]
      refine ⟨s₁, hr, hi.renewed hs₁, ⟨hl'.own, hl'.idle, hl'.cb, nofun⟩, hs₁.thread, hs₁.loop, hs₁.others, hf, rfl,
        by rw [hst]; decide, fun c' hc' => ⟨hc', .inl ⟨hx, ?_⟩⟩⟩
      obtain rfl : c' = c := Option.some.inj (hc'.symm.trans hc)
      exact ⟨rfl, hcb, hst⟩
    · exact absurd (h.imp_right .inl) hs
  have hgone (s₁ : Switches) (h : s₁ = s.setState c .hold ∧ s.state c ≠ .except ∨ s₁ = s ∧ s.state c ≠ .exec) :
      Settled s g l s₁ { l with cbFiber := none, turn := .scan } c := settled_of_putBack hi hl h hf nofun
  unfold Switches.putBackCb
  cases hs : (s.fiber c).state with
  | init | hold | exec => exact ⟨_, _, hgone _ (.inl ⟨rfl, by rw [Switches.state, hs]; decide⟩), rfl⟩
  | ready => exact ⟨_, _, hgone s (.inr ⟨rfl, by rw [Switches.state, hs]; decide⟩), rfl⟩
  | term =>
    obtain ⟨s₁, hr, hd⟩ := hend (.inl hs)
    exact ⟨s₁, _, hd, by rw [hr]; rfl⟩
  | except =>
    obtain ⟨s₁, hr, hd⟩ := hend (.inr hs)
    exact ⟨s₁, _, hd, by rw [hr]; rfl⟩

theorem settle_cases (hi : Inv s) {l : Loop} (hl : s.loop t.stack = some l) {x : Taken} (hx : l.turn = .waiting x) :
    s.settle t l x = .ok s ∨
      ∃ s₁ l' f, Settled s t.stack l s₁ l' f ∧ s.settle t l x = .ok (s₁.setLoop t.stack l') := by
  have hlk := hi.loop _ _ hl
  unfold Switches.settle
  cases x with
  | task f =>
    refine .inr ⟨s.putBack f, { l with turn := .scan }, f, ?_, rfl⟩
    refine settled_of_putBack hi hlk (putBack_cases s f) (by rw [Loop.hand, hx]) fun c hc => ⟨hc, ?_⟩
    rw [hx]
    nofun
  | callback =>
    cases hc : l.cbFiber with
    | none => exact .inl rfl
    | some c =>
      obtain ⟨s₁, l', hd, he⟩ := putBackCb_cases hi hlk hx hc
      exact .inr ⟨s₁, l', c, hd, he⟩
  | nothing =>
    refine .inr ⟨s.putBackIdle l.idle, { l with turn := .scan }, l.idle, ?_, rfl⟩
    refine settled_of_putBack hi hlk (putBackIdle_cases s l.idle) (by rw [Loop.hand, hx]) fun c hc => ⟨hc, ?_⟩
    rw [hx]
    nofun

/-! ## What a step can do -/

/-- **The condition**: `call` is issued by the main fiber of the thread. -/
def Switches.Meets (s : Switches) : Switches.Label → Prop
  | .call i _ => ∀ t, s.thread i = some t → t.stack = t.main
  | _ => True

instance (s : Switches) (c : Switches.Label) : Decidable (s.Meets c) :=
  match c with
  | .call i _ => inferInstanceAs (Decidable (∀ t ∈ s.thread i, t.stack = t.main))
  | .start .. | .newFiber .. | .scan .. | .work .. | .leave .. | .yieldToReady .. | .yieldToHold .. | .swapOut ..
  | .finish .. => inferInstanceAs (Decidable True)

/-- The thread that swaps out. -/
def Switches.Label.outs : Switches.Label → Option Nat
  | .yieldToReady i | .yieldToHold i | .swapOut i | .finish i _ => some i
  | _ => none

def Switches.Label.loops : Switches.Label → Option Nat
  | .scan i _ | .work i _ => some i
  | _ => none

theorem Switches.Label.outs_of_loops {c : Switches.Label} (h : c.loops = some i) : c.outs = none := by
  cases c <;> first | rfl | cases h

/-- The fiber `f`, which is executed, made `s₁` of `s` on its way out. -/
structure Left (s : Switches) (f : Nat) (s₁ : Switches) : Prop where
  inv : Inv s₁
  thread : s₁.thread = s.thread
  loop : s₁.loop = s.loop
  kind : ∀ g, s₁.kind g = s.kind g
  others : ∀ g, g ≠ f → s₁.fiber g = s.fiber g
  state : s.state f = .exec → s₁.state f ≠ .init
  empty : s.cb f = false → s₁.cb f = false ∧ s₁.state f = .except

open Switches in
/-- The steps that go through. -/
inductive Move (s : Switches) : Label → Switches → Prop
  | start {i a b : Nat} (ht : s.thread i = none) (hab : a ≠ b) (ha : s.kind a = .free) (hb : s.kind b = .free) :
      Move s (.start i a b) (s.start i a b)
  | newFiber {a : Nat} {b : Bool} (ha : s.kind a = .free) : Move s (.newFiber a b) (s.newFiber a b)
  | call {i a : Nat} {t : Thread} (ht : s.thread i = some t) (hm : t.stack = t.main) (hs : t.sched = rootFiber)
      (hr : s.kind rootFiber = .caller) :
      Move s (.call i a) ((s.setState rootFiber .exec).switched i t t.stack (.inside t.stack) rootFiber)
  | begin {i a : Nat} {t : Thread} (ht : s.thread i = some t) (hm : t.stack = t.main) (hs : t.sched = rootFiber)
      (hr : s.kind rootFiber = .caller) (ha : s.kind a = .free) :
      Move s (.call i a)
        (((s.setState rootFiber .exec).switched i t t.stack (.inside t.stack) rootFiber).run rootFiber a)
  | turn {i : Nat} {c : Label} {t : Thread} {l : Loop} {y : Turn} (hc : c.loops = some i) (ht : s.thread i = some t)
      (hl : s.loop t.stack = some l) (hh : l.hand = none) (hy : y = .scan ∨ ∃ x, y = .taken x)
      (hk : LoopKinds s t.stack { l with turn := y }) : Move s c (s.setLoop t.stack { l with turn := y })
  | enter {i a f : Nat} {t : Thread} {l l' : Loop} {s₁ : Switches} (ht : s.thread i = some t)
      (hl : s.loop t.stack = some l) (hh : l.hand = none) (hr : Ready s t.stack l s₁ l' f) :
      Move s (.work i a) (((s₁.setLoop t.stack l').setState f .exec).switched i t t.stack (.inside t.stack) f)
  | same {i a : Nat} : Move s (.work i a) s
  | settle {i a f : Nat} {t : Thread} {l l' : Loop} {s₁ : Switches} (ht : s.thread i = some t)
      (hl : s.loop t.stack = some l) (hd : Settled s t.stack l s₁ l' f) : Move s (.work i a) (s₁.setLoop t.stack l')
  | back {i : Nat} {t : Thread} {l : Loop} (ht : s.thread i = some t) (hl : s.loop t.stack = some l)
      (hh : l.hand = none) (hk : s.kind t.stack = .caller) :
      Move s (.leave i) (({ s with loop := Function.update s.loop t.stack none }.ended t.stack false).switched i t
        t.stack .done t.main)
  | exit {i : Nat} {t : Thread} {l : Loop} (ht : s.thread i = some t) (hl : s.loop t.stack = some l)
      (hh : l.hand = none) :
      Move s (.leave i) { s with thread := Function.update s.thread i none }
  | out {i : Nat} {c : Label} {t : Thread} {s₁ : Switches} {p : Place} (hc : c.outs = some i) (ht : s.thread i = some t)
      (hk : s.kind t.stack = .child) (hd : Left s t.stack s₁) (hp : ∀ g, p = .inside g → g = t.stack) :
      Move s c (s₁.switched i t t.stack p t.sched)

/-- An assertion about a state that fails. -/
inductive Bad (s : Switches) : Prop
  | swapIn {i f : Nat} {t : Thread} {l l' : Loop} {s₁ : Switches} (ht : s.thread i = some t)
      (hl : s.loop t.stack = some l) (hh : l.hand = none) (hr : Ready s t.stack l s₁ l' f) (hs : s₁.state f = .exec)
  | reset {i c : Nat} {t : Thread} {l : Loop} (ht : s.thread i = some t) (hl : s.loop t.stack = some l)
      (hh : ∀ x, l.turn ≠ .waiting x) (hc : l.cbFiber = some c)
      (hs : ¬ (s.state c = .term ∨ s.state c = .except ∨ s.state c = .init))
  | yield {i : Nat} {t : Thread} (ht : s.thread i = some t) (hc : s.kind t.stack = .child)
      (hs : s.state t.stack ≠ .exec)

/-- A step goes through, or it ends in an assertion. -/
def Answers (s : Switches) (c : Switches.Label) (r : Except Fault Switches) : Prop :=
  (∃ s', r = .ok s' ∧ Move s c s') ∨ r = .error .neverReach ∨ (∃ e, r = .error e) ∧ Bad s

section
variable {cfg : Config} {l : Loop} {a : Nat}

theorem left_setState (hi : Inv s) (hcb : s.cb f = true) {o : Fiber.State} (ho : o ≠ .init) :
    Left s f (s.setState f o) where
  inv := hi.setState f o
  thread := rfl
  loop := rfl
  kind _ := Switches.setState_kind
  others _ hg := Switches.setFiber_fiber.trans (if_neg hg)
  state _ := by
    rw [Switches.setState_state, if_pos rfl]
    exact ho
  empty h := by simp [hcb] at h

theorem left_ended (hi : Inv s) {threw : Bool} (h : s.cb f = false → threw = true) :
    Left s f (s.ended f threw) := by
  have hi' := hi.ended f threw
  have hk g : (s.ended f threw).kind g = s.kind g := Switches.ended_kind
  cases threw with
  | true =>
    have hst : (s.setState f .except).state f = .except := by rw [Switches.setState_state, if_pos rfl]
    refine ⟨hi', rfl, rfl, hk, fun g hg => ?_, fun _ => ?_, fun h => ⟨?_, hst⟩⟩
    · exact Switches.setFiber_fiber.trans (if_neg hg)
    · rw [Switches.ended, if_pos rfl, hst]
      decide
    · exact Switches.setState_cb.trans h
  | false =>
    refine ⟨hi', rfl, rfl, hk, fun g hg => ?_, fun _ => ?_, fun hcb => absurd (h hcb) (by decide)⟩
    · exact Switches.setFiber_fiber.trans (if_neg hg)
    · show ((s.setFiber f _).fiber f).state ≠ .init
      rw [Switches.setFiber_fiber, if_pos rfl]
      nofun

theorem answers_yieldTo (hi : Inv s) (ht : s.thread i = some t) (hc : s.InChild t) {o : Fiber.State} (ho : o ≠ .init)
    {c : Switches.Label} (hl : c.outs = some i) : Answers s c (s.yieldTo i t o) := by
  have hk := hi.thread i t ht
  have hcb : s.cb t.stack = true := by
    rw [← hk.cur]
    exact hc.2
  obtain ⟨hs, he⟩ | he | he := yieldTo_cases hi hk o (i := i)
  · exact .inr (.inr ⟨⟨_, he⟩, .yield ht hc.1 hs⟩)
  · exact .inr (.inl he)
  · exact .inl ⟨_, he, .out hl ht hc.1 (left_setState hi hcb ho) Place.inside_own⟩

theorem answers_swapOut (hi : Inv s) (ht : s.thread i = some t) (hc : s.InChild t) :
    Answers s (.swapOut i) (s.swapOut i t t.fiber (.inside t.cur)) := by
  have hk := hi.thread i t ht
  rw [hk.fiber, hk.cur]
  obtain he | he := swapOut_cases hi Place.inside_own (i := i) (t := t)
  · exact .inr (.inl he)
  · refine .inl ⟨_, he, .out rfl ht hc.1 ⟨hi, rfl, rfl, fun _ => rfl, fun _ _ => rfl, ?_, ?_⟩ Place.inside_own⟩
    · intro h
      rw [h]
      decide
    · intro h
      have hcb : s.cb t.cur = true := hc.2
      rw [hk.cur, h] at hcb
      cases hcb

theorem answers_finish (hi : Inv s) (ht : s.thread i = some t) (hc : s.kind t.stack = .child) {threw : Bool}
    (h : s.cb t.cur = false → threw = true) : Answers s (.finish i threw) (s.finish i t threw) := by
  have hk := hi.thread i t ht
  rw [hk.cur] at h
  obtain he | he := finish_cases hi hk threw (i := i)
  · exact .inr (.inl he)
  · exact .inl ⟨_, he, .out rfl ht hc (left_ended hi h) nofun⟩

theorem answers_work (hi : Inv s) (ht : s.thread i = some t) (hl : s.loop t.stack = some l) (ha : s.kind a = .free) :
    Answers s (.work i a) (s.work i t l a) := by
  have hs := hi.stack_eq ht hl
  unfold Switches.work
  cases hx : l.turn with
  | scan => exact .inl ⟨s, rfl, .same⟩
  | taken x =>
    have hh : l.hand = none := by rw [Loop.hand, hx]
    obtain he | ⟨c, hc, hst, he⟩ | ⟨s₁, l', f, hr, he⟩ := dispatch_cases hi hl ha hx (i := i)
    · have hlk := hi.loop _ _ hl
      exact .inl ⟨_, he, .turn rfl ht hl hh (.inl rfl) ⟨hlk.own, hlk.idle, hlk.cb, nofun⟩⟩
    · refine .inr (.inr ⟨⟨_, he⟩, .reset ht hl (fun y => ?_) hc hst⟩)
      rw [hx]
      nofun
    · have hne : s₁.loop t.stack ≠ none := by
        rw [hr.loop, hl]
        nofun
      have hi' := hr.inv.setLoop hr.kinds fun _ _ _ _ => hne
      have hk' := hi'.thread i t (by rw [← ht, ← hr.thread]; rfl)
      dsimp only
      rw [he]
      obtain ⟨hst, he'⟩ | he' | he' := swapIn_cases hi' hk' hs (i := i) (f := f)
      · exact .inr (.inr ⟨⟨_, he'⟩, .swapIn ht hl hh hr hst⟩)
      · exact .inr (.inl he')
      · exact .inl ⟨_, he', .enter ht hl hh hr⟩
  | waiting x =>
    obtain he | ⟨s₁, l', f, hd, he⟩ := settle_cases hi hl hx
    · exact .inl ⟨s, he, .same⟩
    · exact .inl ⟨_, he, .settle ht hl hd⟩

theorem answers_call (hi : Inv s) (ht : s.thread i = some t) (hm : t.stack = t.main) (hn : s.loop t.main = none)
    (ha : s.kind a = .free) : Answers s (.call i a) (s.call i t a) := by
  have hk := hi.thread i t ht
  obtain ⟨hs, hr⟩ : t.sched = rootFiber ∧ s.kind rootFiber = .caller := by
    obtain ⟨-, h⟩ | ⟨h, h', -⟩ := hk.sched
    · exact absurd hn h
    · exact ⟨h, h'⟩
  have heq : (s.setState rootFiber .exec).switched i t t.main (.inside t.cur) rootFiber =
      (s.setState rootFiber .exec).switched i t t.stack (.inside t.stack) rootFiber := by rw [hk.cur, hm]
  unfold Switches.call
  obtain he | he := swapcontext_cases (i := i) (t := { t with fiber := rootFiber }) (f := t.main) (p := .inside t.cur)
    (hi.setState rootFiber .exec).own hm (fun g hg => by cases hg; rw [hk.cur, hm]) rfl
  · refine .inr (.inl ?_)
    rw [he]
    rfl
  · refine .inl ⟨_, by rw [he]; rfl, ?_⟩
    dsimp only
    split_ifs
    · exact heq ▸ .begin ht hm hs hr ha
    · exact heq ▸ .call ht hm hs hr

theorem answers_leave (hi : Inv s) (ht : s.thread i = some t) (hl : s.loop t.stack = some l) (hh : l.hand = none) :
    Answers s (.leave i) (s.leave i t) := by
  have hk := hi.thread i t ht
  unfold Switches.leave
  split_ifs with hc
  · have hi' := (hi.endLoop hc).ended t.stack false
    rw [hk.cur]
    obtain he | he := back_cases (p := .done) hi' nofun (i := i) (t := t)
    · exact .inr (.inl he)
    · exact .inl ⟨_, he, .back ht hl hh hc⟩
  · exact .inl ⟨_, rfl, .exit ht hl hh⟩

end

/-- **What a step can do.** -/
theorem step_answers {cfg : Config} (hi : Inv s) {c : Switches.Label} (he : s.enabled cfg c) (hm : s.Meets c) :
    Answers s c (s.step c) := by
  cases c with
  | start i a b =>
    obtain ⟨-, -, ht, hab, ha, hb⟩ := he
    exact .inl ⟨_, rfl, .start ht hab ha hb⟩
  | newFiber a b => exact .inl ⟨_, rfl, .newFiber he⟩
  | call i a =>
    obtain ⟨-, ha, t, ht, hin⟩ := he
    have hstack := hm t ht
    have hn : s.loop t.main = none := by
      refine (hin.resolve_left fun h => ?_).2
      have hk := (hi.thread i t ht).main
      rw [← hstack, Switches.kind, h.1] at hk
      cases hk
    simp only [Switches.step, Switches.on, ht]
    exact answers_call hi ht hstack hn ha
  | scan i x =>
    obtain ⟨hf, t, ht, l, hl, hx⟩ := he
    have hlk := hi.loop _ _ hl
    simp only [Switches.step, Switches.onLoop, Switches.on, ht, hl]
    refine .inl ⟨_, rfl, .turn rfl ht hl (by rw [Loop.hand, hx]) (.inr ⟨x, rfl⟩) ⟨hlk.own, hlk.idle, hlk.cb, ?_⟩⟩
    intro g hg
    cases x with
    | task f =>
      cases hg
      exact hf.1
    | callback | nothing => cases hg
  | work i a =>
    obtain ⟨ha, t, ht, l, hl, -⟩ := he
    simp only [Switches.step, Switches.onLoop, Switches.on, ht, hl]
    exact answers_work hi ht hl ha
  | leave i =>
    obtain ⟨t, ht, l, hl, hx, -⟩ := he
    simp only [Switches.step, Switches.onLoop, Switches.on, ht, hl]
    exact answers_leave hi ht hl (by rw [Loop.hand, hx])
  | yieldToReady i =>
    obtain ⟨t, ht, hc⟩ := he
    simp only [Switches.step, Switches.on, ht]
    exact answers_yieldTo hi ht hc (by decide) rfl
  | yieldToHold i =>
    obtain ⟨t, ht, hc⟩ := he
    simp only [Switches.step, Switches.on, ht]
    exact answers_yieldTo hi ht hc (by decide) rfl
  | swapOut i =>
    obtain ⟨t, ht, hc⟩ := he
    simp only [Switches.step, Switches.on, ht]
    exact answers_swapOut hi ht hc
  | finish i threw =>
    obtain ⟨t, ht, hc, hcb⟩ := he
    simp only [Switches.step, Switches.on, ht]
    exact answers_finish hi ht hc hcb

/-! ## Each thread executes the fiber that it names -/

/-- `run` begins on the stack of `f`, which is no main fiber of a thread that there is. -/
theorem Inv.run (hi : Inv s) {a : Nat} (hf : s.kind f = .thread ∨ s.kind f = .caller)
    (hne : ∀ i t, s.thread i = some t → t.main ≠ f) (ha : s.kind a = .free) : Inv (s.run f a) := by
  have hi' := hi.newFiber ha true
  refine hi'.setLoop ⟨?_, ?_, nofun, nofun⟩ fun i t ht he => absurd he (hne i t ht)
  · have hfa : f ≠ a := by
      rintro rfl
      rw [ha] at hf
      obtain hf | hf := hf <;> cases hf
    rw [Switches.newFiber_kind, if_neg hfa]
    exact hf
  · rw [Switches.newFiber_kind, if_pos rfl]

theorem Inv.start (hi : Inv s) {a b : Nat} (hab : a ≠ b) (ha : s.kind a = .free) (hb : s.kind b = .free) :
    Inv (s.start i a b) := by
  set s₀ : Switches :=
    { s.setFiber a { state := .exec, kind := .thread } with ctx := Function.update s.ctx a ⟨a, .inside a⟩ } with hs₀
  have hkind g : s₀.kind g = if g = a then .thread else s.kind g := by
    rw [hs₀, Switches.kind]
    dsimp only
    rw [Switches.setFiber_fiber]
    split_ifs <;> rfl
  have hi₀ : Inv s₀ := by
    refine hi.keep (hi.own.update Place.inside_own) (fun g hg => ?_) rfl rfl
    rw [hkind, if_neg]
    rintro rfl
    exact hg ha
  have hmain i t (ht : s.thread i = some t) : t.main ≠ a := by
    rintro rfl
    rw [(hi.thread i t ht).main] at ha
    cases ha
  have hb₀ : s₀.kind b = .free := by
    rw [hkind, if_neg hab.symm]
    exact hb
  have hi₁ := hi₀.run (f := a) (.inl (by rw [hkind, if_pos rfl])) hmain hb₀
  refine hi₁.setThread (t := ⟨a, a, a, a, a⟩) ⟨rfl, rfl, .inl rfl, ?_, .inl ⟨rfl, ?_⟩⟩
  · show (s₀.newFiber b true).kind a = .thread
    rw [Switches.newFiber_kind, if_neg hab, hkind, if_pos rfl]
  · show Function.update s₀.loop a _ a ≠ none
    rw [Function.update_self]
    nofun

theorem Inv.move {c : Switches.Label} (hi : Inv s) (hm : Move s c s') : Inv s' := by
  cases hm with
  | start ht hab ha hb => exact hi.start hab ha hb
  | newFiber ha => exact hi.newFiber ha _
  | call ht hm hs hr => exact (hi.setState rootFiber .exec).switched ht Place.inside_own (.inl hs.symm)
  | begin ht hm hs hr ha =>
    have hi' := (hi.setState rootFiber .exec).switched ht Place.inside_own (.inl hs.symm)
    refine hi'.run (.inr (Switches.setState_kind.trans hr)) (fun j u hu he => ?_) (Switches.setState_kind.trans ha)
    have hk := (hi'.thread j u hu).main
    rw [he] at hk
    cases hr.symm.trans (Switches.setState_kind.symm.trans hk)
  | turn hc ht hl hh hy hk => exact hi.setLoop hk fun _ _ _ _ => by rw [hl]; nofun
  | enter ht hl hh hr =>
    have hi' := hr.inv.setLoop hr.kinds fun _ _ _ _ => by rw [hr.loop, hl]; nofun
    refine (hi'.setState _ .exec).switched ?_ Place.inside_own (.inr (.inr ?_))
    · exact (congrFun hr.thread _).trans ht
    · exact Switches.setState_kind.trans hr.child
  | same => exact hi
  | settle ht hl hd => exact hd.inv.setLoop hd.kinds fun _ _ _ _ => by rw [hd.loop, hl]; nofun
  | back ht hl hh hk => exact ((hi.endLoop hk).ended _ false).switched ht nofun (.inr (.inl rfl))
  | exit ht hl hh => exact hi.removeThread _
  | out hc ht hk hd hp => exact hd.inv.switched ((congrFun hd.thread _).trans ht) hp (.inl rfl)

end QWebServer.Switching
