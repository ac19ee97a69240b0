import QWebServer.Schedular.Ledger

/-!
# Task conservation

Here `schedule` is called for callbacks and for fibers that are neither queued nor in a worker's hand.

* `Callers` : these calls, `scheduler` : the workers beside them;
* `Calm` : what is in a hand is not queued, and the worker has the fiber of its entry or one with the entry's callback;
* `Inv.step_ok` : no assertion fails;
* `Conserved` : every entry is taken once and executed once or dropped, every `READY` fiber is pushed back once, what is
  skipped stays in order, and `m_activeThreadCount` counts the active workers; `conservation` : so it is in every run.
-/

namespace QWebServer.Schedular

open Lib

variable {τ κ : Type}

/-! ## What the workers have in their hands -/

/-- The fiber `y` at `f` is the entry's own, or it is a `cb_fiber` with the entry's callback. -/
def Serves (x : Item κ) (f : Addr) (y : Fiber κ) : Bool → Prop
  | false => x.ft.fiber = some f
  | true => x.ft.cb.isSome = true ∧ y.cb = x.ft.cb

def Pc.carries (fibers : Addr → Fiber κ) : Pc κ → Prop
  | .swapIn x f via => Serves x f (fibers f) via
  | .load x f via => Serves x f (fibers f) via
  | _ => True

/-- What is in a hand is not queued and does not wait to be. -/
structure Calm (s : Schedular τ κ) : Prop where
  inv : Inv s
  waiting : s.waiting = []
  quiet : ∀ t f, s.Holds t f → s.tokens f = 0
  carried : ∀ t, (s.workers t).pc.carries s.fibers

theorem Pc.carries_congr {fibers fibers' : Addr → Fiber κ} {pc : Pc κ}
    (h : ∀ f, pc.fiber = some f → fibers' f = fibers f)
    (hc : pc.carries fibers) : pc.carries fibers' := by
  cases pc with
  | swapIn x f via =>
    show Serves x f (fibers' f) via
    rw [h f rfl]
    exact hc
  | load x f via =>
    show Serves x f (fibers' f) via
    rw [h f rfl]
    exact hc
  | _ => trivial

theorem Calm.clear {ids : Threads τ} {s : Schedular τ κ} (hc : Calm s) (l : Label τ κ) : Clear ids s l := by
  cases l with
  | work t a =>
    intro _ p x r f hq _ _ hf v hv
    have hpos : 0 < s.tokens f := tokens_pos_of_mem (x := x) (by simp [hq]) hf
    have hzero := hc.quiet v f hv
    omega
  | _ => trivial

theorem Calm.env {s s' : Schedular τ κ} (hc : Calm s) (hi : Inv s') (hw : s'.workers = s.workers)
    (hwait : s'.waiting = s.waiting)
    (hframe : ∀ v f, s.Holds v f → s'.fibers f = s.fibers f ∧ s'.tokens f = s.tokens f) :
    Calm s' := by
  have hholds : ∀ v f, s'.Holds v f → s.Holds v f := by
    intro v f h
    unfold Holds at h ⊢
    rwa [hw] at h
  refine ⟨hi, hwait.trans hc.waiting, fun v f h => ?_, fun v => ?_⟩
  · rw [(hframe v f (hholds v f h)).2]
    exact hc.quiet v f (hholds v f h)
  · rw [hw]
    exact Pc.carries_congr (fun f hf => (hframe v f (.inl hf)).1) (hc.carried v)

section
variable [DecidableEq τ]

/-- One worker moves; where it still works on a fiber that may be queued by then, it already had that one in its
hand. -/
theorem Calm.turn {s s' : Schedular τ κ} {t : τ} {pc : Pc κ} {c : Option Addr} (hc : Calm s) (hi : Inv s')
    (hw : s'.workers = Function.update s.workers t ⟨pc, c⟩) (hwait : s'.waiting = s.waiting)
    (hfib : ∀ v f, v ≠ t → s.Holds v f → s'.fibers f = s.fibers f)
    (htok : ∀ v f, v ≠ t → s.Holds v f → s'.tokens f ≤ s.tokens f)
    (hown : pc.mayWait → ∀ f, pc.fiber = some f → s.Holds t f ∧ s'.tokens f = s.tokens f)
    (hcar : pc.carries s'.fibers) : Calm s' := by
  have hself : s'.workers t = ⟨pc, c⟩ := by rw [hw, Function.update_self]
  have hother : ∀ v, v ≠ t → s'.workers v = s.workers v := fun v hv => by rw [hw, Function.update_of_ne hv]
  refine ⟨hi, hwait.trans hc.waiting, fun v f h => ?_, fun v => ?_⟩
  · by_contra hne
    obtain ⟨hf, hmay⟩ := (hi.worker v).quiet f h (Nat.pos_of_ne_zero hne)
    by_cases hv : v = t
    · subst hv
      rw [hself] at hf hmay
      obtain ⟨hh, htok'⟩ := hown hmay f hf
      rw [htok', hc.quiet v f hh] at hne
      exact hne rfl
    · rw [hother v hv] at hf
      have := htok v f hv (.inl hf)
      rw [hc.quiet v f (.inl hf)] at this
      omega
  · by_cases hv : v = t
    · rw [hv, hself]
      exact hcar
    · rw [hother v hv]
      exact Pc.carries_congr (fun f hf => hfib v f hv (.inl hf)) (hc.carried v)

omit [DecidableEq τ] in
/-- A store to a fiber in the worker's hand, or to a new one, is to no other worker's. -/
theorem Inv.others {s : Schedular τ κ} (hi : Inv s) {t : τ} {g : Addr} {y : Fiber κ} (hg : s.Holds t g ∨ g ∉ s.created)
    (v : τ) (f : Addr) (hv : v ≠ t) (hf : s.Holds v f) : Function.update s.fibers g y f = s.fibers f := by
  apply Function.update_of_ne
  rintro rfl
  rcases hg with hg | hg
  · exact hv (hi.one v t f hf hg)
  · exact hg (hi.created f (.inl ⟨v, hf⟩))

/-- The worker stores at most to the fiber in its hand; where it may wait, it still works on that one. -/
theorem Calm.own {s s' : Schedular τ κ} {t : τ} {pc : Pc κ} {c : Option Addr} {f : Addr} {y : Fiber κ} (hc : Calm s)
    (hi : Inv s') (hh : s.Holds t f) (hw : s'.workers = Function.update s.workers t ⟨pc, c⟩)
    (hwait : s'.waiting = s.waiting)
    (hfib : s'.fibers = Function.update s.fibers f y) (htok : ∀ g, s'.tokens g = s.tokens g)
    (hpc : pc.mayWait → pc.fiber = some f) (hcar : pc.carries s'.fibers) : Calm s' := by
  refine hc.turn hi hw hwait (fun v g hv hg => ?_) (fun _ g _ _ => (htok g).le) (fun hm g hg => ⟨?_, htok g⟩) hcar
  · rw [hfib]
    exact hc.inv.others (.inl hh) v g hv hg
  · obtain rfl : f = g := Option.some.inj ((hpc hm).symm.trans hg)
    exact hh

/-! ## The calls -/

/-- The calls of `schedule`: no fiber of a batch is queued or in a worker's hand. Fibers come back by such calls
only. -/
def Callers (s : Schedular τ κ) : Label τ κ → Prop
  | .schedule fts => (fts.filterMap (·.fiber)).Nodup ∧
      ∀ f ∈ fts.filterMap (·.fiber), f ∈ s.created ∧ f ∉ s.queue.filterMap (·.ft.fiber) ∧ ∀ t, ¬ s.Holds t f
  | .newFiber a _ => a ∉ s.created
  | .trigger _ => False
  | .work t a => Ready s (.work t a)
  | .act t x => x ≠ .publish ∧ Ready s (.act t x)

omit [DecidableEq τ] in
theorem Callers.ready {s : Schedular τ κ} {l : Label τ κ} (h : Callers s l) : Ready s l := by
  cases l with
  | work t a => exact h
  | act t x => exact h.2
  | _ => trivial

omit [DecidableEq τ] in
theorem Callers.proper {s : Schedular τ κ} {l : Label τ κ} (h : Callers s l) (hw : s.waiting = []) : Proper s l := by
  cases l with
  | schedule fts =>
    refine ⟨h.1, fun f hf => ?_⟩
    obtain ⟨hcr, hq, hh⟩ := h.2 f hf
    refine ⟨hcr, ?_, hh⟩
    unfold tokens
    rw [hw, List.count_eq_zero.mpr hq]
    rfl
  | newFiber a cb => exact h
  | trigger f => exact h.elim
  | work t a => exact h
  | act t x => exact h.2

theorem Calm.move {ids : Threads τ} {s s' : Schedular τ κ} {l : Label τ κ} {r : Reply} (hc : Calm s) (hl : Callers s l)
    (hm : Move ids s l r s') : Calm s' := by
  have hp := hl.proper hc.waiting
  have hi := hc.inv
  have hi' : Inv s' := hi.move hp (hc.clear l) hm
  cases hm with
  | schedule fts =>
    apply hc.env hi'
    · rw [schedule_eq]
    · rw [schedule_eq]
    · intro v f hf
      refine ⟨by rw [schedule_eq], ?_⟩
      rw [tokens_schedule, List.count_eq_zero.mpr fun hmem => (hl.2 f hmem).2.2 v hf]
      rfl
  | @newFiber a cb =>
    apply hc.env hi' rfl rfl
    intro v f hf
    refine ⟨Function.update_of_ne ?_ _ _, rfl⟩
    rintro rfl
    exact hp (hi.created f (.inl ⟨v, hf⟩))
  | trigger f => exact hl.elim
  | idle hpc hscan =>
    obtain ⟨rfl, -⟩ := hscan
    exact hc
  | @take t a x rest tk hpc hscan =>
    obtain ⟨p, q, hq, rfl, -, -⟩ := hscan
    refine hc.turn hi' rfl rfl (fun _ _ _ _ => rfl) (fun v f _ _ => ?_) (fun h => h.elim) trivial
    rw [tokens_take hq t f]
    exact Nat.le_add_right _ _
  | resume hpc hf hrun =>
    exact hc.turn hi' rfl rfl (fun _ _ _ _ => rfl) (fun _ _ _ _ => le_rfl) (fun h => h.elim) hf
  | @reuse t a x f hpc hx hcb =>
    refine hc.turn hi' rfl rfl (hi.others (.inl (.inr hcb))) (fun _ _ _ _ => le_rfl) (fun h => h.elim) ⟨hx, ?_⟩
    exact congrArg Fiber.cb (Function.update_self f _ s.fibers)
  | @create t a x hpc hx hcb ha =>
    refine hc.turn hi' (create_workers ..) rfl (hi.others (.inr ha)) (fun _ _ _ _ => le_rfl) (fun h => h.elim) ⟨hx, ?_⟩
    exact congrArg Fiber.cb (Function.update_self a _ s.fibers)
  | drop hpc hcb hdone =>
    exact hc.turn hi' rfl rfl (fun _ _ _ _ => rfl) (fun _ _ _ _ => le_rfl) (fun h => h.elim) trivial
  | @enter t a x f via hpc =>
    have hcar : Serves x f (s.fibers f) via := by
      have := hc.carried t
      rwa [hpc] at this
    refine hc.own hi' (holds_of_pc hpc rfl) rfl rfl rfl (fun _ => rfl) (fun h => h.elim) ?_
    show Serves x f (Function.update s.fibers f _ f) via
    rw [Function.update_self]
    cases via <;> exact hcar
  | load hpc => exact hc.own hi' (holds_of_pc hpc rfl) rfl rfl rfl (fun _ => rfl) (fun _ => rfl) trivial
  | save hpc => exact hc.own hi' (holds_of_pc hpc rfl) rfl rfl rfl (fun _ => rfl) (fun _ => rfl) trivial
  | leave hpc | checkReady hpc | checkEnd hpc | checkHold hpc =>
    exact hc.own hi' (holds_of_pc hpc rfl) rfl rfl (Function.update_eq_self _ s.fibers).symm (fun _ => rfl)
      (fun _ => rfl) trivial
  | @requeue t a f via hpc =>
    have hh : s.Holds t f := holds_of_pc hpc rfl
    refine hc.turn hi' (release_workers ..) ?_ (fun _ g _ _ => ?_) (fun v g hv hg => ?_) (fun h => h.elim) trivial
    · cases via <;> rfl
    · rw [release_fibers]
      rfl
    · rw [release_tokens, tokens_push, if_neg]
      · exact le_rfl
      · rintro ⟨⟩
        exact hv (hi.one v t f hg hh)
  | recycle hpc => exact hc.own hi' (holds_of_pc hpc rfl) rfl rfl rfl (fun _ => rfl) (fun h => h.elim) trivial
  | forget hpc =>
    exact hc.turn hi' rfl rfl (fun _ _ _ _ => rfl) (fun _ _ _ _ => le_rfl) (fun h => h.elim) trivial
  | @update t a f via hpc =>
    have hh : s.Holds t f := holds_of_pc hpc rfl
    refine hc.turn hi' (release_workers ..) ?_ (fun v g hv hg => ?_) (fun v g hv hg => ?_) (fun h => h.elim) trivial
    · cases via <;> rfl
    · rw [release_fibers]
      exact hi.others (.inl hh) v g hv hg
    · rw [release_tokens]
      exact le_rfl
  | discard hpc =>
    exact hc.turn hi' rfl rfl (fun _ _ _ _ => rfl) (fun _ _ _ _ => le_rfl) (fun h => h.elim) trivial
  | publish hpc => exact absurd rfl hl.1
  | hold hpc | ready hpc | throw hpc | finish hpc =>
    exact hc.own hi' (holds_of_pc hpc rfl) rfl rfl rfl (fun _ => rfl) (fun _ => rfl) trivial

/-! ## No assertion fails -/

omit [DecidableEq τ] in
theorem resetFiber_ok {x : Fiber κ} (cb : Option κ) (hx : x.state = .term ∨ x.state = .except ∨ x.state = .init) :
    ∃ y, resetFiber x cb = .ok y := by
  unfold resetFiber
  rw [if_pos hx]
  exact ⟨_, rfl⟩

theorem Inv.dispatch_ok {s : Schedular τ κ} (hi : Inv s) {t : τ} {x : Item κ} (hpc : (s.workers t).pc = .taken x)
    (a : Addr) : ∃ r s', s.dispatch t x a = .ok (r, s') := by
  unfold dispatch
  dsimp only
  split
  · exact ⟨_, _, rfl⟩
  · split_ifs
    · split
      · rename_i f hcb
        have hspare : (s.workers t).pc.fiber ≠ some f := by
          intro hf
          have := (hi.here rfl hf).2.2.2.mp hcb
          rw [hpc] at this
          cases this
        obtain ⟨y, hy⟩ := resetFiber_ok x.ft.cb (.inr (.inr (hi.spared hcb hspare).1))
        rw [hy]
        exact ⟨_, _, rfl⟩
      · exact ⟨_, _, rfl⟩
    · exact ⟨_, _, rfl⟩

theorem Inv.work_ok {s : Schedular τ κ} (hi : Inv s) (ids : Threads τ) (t : τ) (a : Addr) :
    ∃ r s', s.work ids t a = .ok (r, s') := by
  unfold work
  cases hpc : (s.workers t).pc with
  | scan =>
    have hok : ∃ r, scan (ids.id t) s.fibers s.queue = .ok r := scan_ok hi.entries
    obtain ⟨⟨taken, rest, tk⟩, hscan⟩ := hok
    dsimp only
    rw [hscan]
    cases taken with
    | none => exact ⟨_, _, rfl⟩
    | some x => exact ⟨_, _, rfl⟩
  | taken x => exact hi.dispatch_ok hpc a
  | swapIn x f via =>
    have hst : (s.fibers f).state ≠ .exec := (hi.here hpc rfl).1
    dsimp only
    rw [if_neg hst]
    exact ⟨_, _, rfl⟩
  | exec f via p => cases p <;> exact ⟨_, _, rfl⟩
  | check f via o =>
    dsimp only
    split_ifs
    · exact ⟨_, _, rfl⟩
    · exact ⟨_, _, rfl⟩
    · exact ⟨_, _, rfl⟩
  | recycle f via =>
    have hst : (s.fibers f).state = .term ∨ (s.fibers f).state = .except := (hi.here hpc rfl).1
    obtain ⟨y, hy⟩ := resetFiber_ok none (hst.imp_right .inl)
    dsimp only
    rw [hy]
    cases via <;> exact ⟨_, _, rfl⟩
  | _ => exact ⟨_, _, rfl⟩

theorem Inv.act_ok {s : Schedular τ κ} (hi : Inv s) (t : τ) (x : Act) : ∃ r s', s.act t x = .ok (r, s') := by
  unfold act
  cases hpc : (s.workers t).pc with
  | exec f via p =>
    have hst := (hi.here hpc rfl).1
    cases p with
    | leaving o => exact ⟨_, _, rfl⟩
    | _ =>
      have hexec : (s.fibers f).state = .exec := hst
      cases x with
      | publish => exact ⟨_, _, rfl⟩
      | finish threw => cases threw <;> exact ⟨_, _, rfl⟩
      | _ =>
        dsimp only
        rw [if_pos hexec]
        exact ⟨_, _, rfl⟩
  | _ => exact ⟨_, _, rfl⟩

theorem Inv.step_ok {s : Schedular τ κ} (hi : Inv s) (ids : Threads τ) (l : Label τ κ) :
    ∃ r s', step ids s l = .ok (r, s') := by
  cases l with
  | work t a => exact hi.work_ok ids t a
  | act t x => exact hi.act_ok t x
  | _ => exact ⟨_, _, rfl⟩

/-! ## What the moves report -/

theorem Move.executed_spec {ids : Threads τ} {s s' : Schedular τ κ} {l : Label τ κ} {r : Reply} (hm : Move ids s l r s')
    {n : Nat} (hn : n ∈ r.executed) :
    ∃ t a x f via, l = .work t a ∧ (s.workers t).pc = .load x f via ∧ x.node = n := by
  cases hm with
  | @load t a x f via hpc => exact ⟨t, a, x, f, via, rfl, hpc, (List.mem_singleton.mp hn).symm⟩
  | _ => cases hn

theorem Move.dropped_spec {ids : Threads τ} {s s' : Schedular τ κ} {l : Label τ κ} {r : Reply} (hm : Move ids s l r s')
    {n : Nat} (hn : n ∈ r.dropped) :
    ∃ t a x, l = .work t a ∧ (s.workers t).pc = .taken x ∧ x.node = n ∧ x.ft.cb = none ∧
      ∀ f, x.ft.fiber = some f → (s.fibers f).state = .term ∨ (s.fibers f).state = .except := by
  cases hm with
  | @drop t a x hpc hcb hdone => exact ⟨t, a, x, rfl, hpc, (List.mem_singleton.mp hn).symm, hcb, hdone⟩
  | _ => cases hn

theorem Move.requeued_spec {ids : Threads τ} {s s' : Schedular τ κ} {l : Label τ κ} {r : Reply} (hm : Move ids s l r s')
    {f : Addr} (hf : f ∈ r.requeued) : s'.queue = s.queue ++ [⟨s.pushed, { fiber := some f }⟩] := by
  cases hm with
  | @requeue t a g via hpc =>
    obtain rfl : f = g := List.mem_singleton.mp hf
    rw [release_queue]
    rfl
  | _ => cases hf

/-- A step appends to the queue, or it takes an entry that its worker does not skip. -/
def Keeps (ids : Threads τ) (e : Entry (Schedular τ κ) (Label τ κ) Reply) : Prop :=
  (∃ ys, e.post.queue = e.pre.queue ++ ys) ∨
    ∃ t a x, e.inp = .work t a ∧ (e.post.workers t).pc = .taken x ∧
      Scanned (ids.id t) e.pre.fibers e.pre.queue (some x) e.post.queue

theorem Move.keeps {ids : Threads τ} {s s' : Schedular τ κ} {l : Label τ κ} {r : Reply} (hm : Move ids s l r s') :
    Keeps ids ⟨s, l, r, s'⟩ := by
  cases hm with
  | schedule fts => exact .inl ⟨_, by rw [schedule_eq]⟩
  | trigger f => exact .inl ⟨_, rfl⟩
  | idle hpc hscan => exact .inl ⟨[], by rw [List.append_nil]; exact hscan.1⟩
  | @take t a x rest tk hpc hscan =>
    refine .inr ⟨t, a, x, rfl, ?_, hscan⟩
    show (Function.update s.workers t ⟨.taken x, _⟩ t).pc = _
    rw [Function.update_self]
  | requeue hpc => exact .inl ⟨_, release_queue ..⟩
  | update hpc => exact .inl ⟨[], by rw [List.append_nil]; exact release_queue ..⟩
  | _ => exact .inl ⟨[], (List.append_nil _).symm⟩

/-! ## Runs -/

/-- How many steps a worker still makes until the entry in its hand is executed or dropped, or the `READY` fiber in its
hand is pushed back. -/
def Pc.ahead : Pc κ → Nat
  | .taken _ => 3
  | .swapIn _ _ _ => 2
  | .load _ _ _ => 1
  | .exec _ _ _ => 4
  | .back _ _ _ => 3
  | .check _ _ _ => 2
  | .requeue _ _ => 1
  | _ => 0

/-- The worker `t` has executed or dropped the entry, or has come nearer to it. -/
def Nearer (s s' : Schedular τ κ) (t : τ) (r : Reply) (x : Item κ) : Prop :=
  x.node ∈ r.executed ∨ x.node ∈ r.dropped ∨
    (s'.workers t).pc.entry = some x ∧ (s'.workers t).pc.ahead < (s.workers t).pc.ahead

/-- The worker `t` has pushed the fiber back, or has come nearer to it. -/
def NearerBack (s s' : Schedular τ κ) (t : τ) (r : Reply) (f : Addr) : Prop :=
  f ∈ r.requeued ∨ (s'.workers t).pc.readies = some f ∧ (s'.workers t).pc.ahead < (s.workers t).pc.ahead

theorem goto_pc (s : Schedular τ κ) (t : τ) (pc : Pc κ) : ((s.goto t pc).workers t).pc = pc :=
  congrArg Worker.pc (Function.update_self t _ s.workers)

theorem Nearer.goto {s s₁ : Schedular τ κ} {t : τ} {r : Reply} {x : Item κ} {pc₀ pc : Pc κ}
    (hpc : (s.workers t).pc = pc₀) (hx : pc.entry = some x) (hlt : pc.ahead < pc₀.ahead) :
    Nearer s (s₁.goto t pc) t r x := by
  right; right
  rw [goto_pc, hpc]
  exact ⟨hx, hlt⟩

theorem NearerBack.goto {s s₁ : Schedular τ κ} {t : τ} {r : Reply} {f : Addr} {pc₀ pc : Pc κ}
    (hpc : (s.workers t).pc = pc₀) (hf : pc.readies = some f) (hlt : pc.ahead < pc₀.ahead) :
    NearerBack s (s₁.goto t pc) t r f := by
  right
  rw [goto_pc, hpc]
  exact ⟨hf, hlt⟩

theorem Inv.nearer {s : Schedular τ κ} (hi : Inv s) (ids : Threads τ) {t : τ} {a : Addr} (ha : a ∉ s.created)
    {x : Item κ} (hx : (s.workers t).pc.entry = some x) :
    ∃ r s', step ids s (.work t a) = .ok (r, s') ∧ Nearer s s' t r x := by
  obtain ⟨r, s', hs⟩ := hi.step_ok ids (.work t a)
  refine ⟨r, s', hs, ?_⟩
  have hready : Ready s (.work t a) := by
    refine ⟨ha, ?_⟩
    cases hpc : (s.workers t).pc with
    | exec f via p =>
      rw [hpc] at hx
      cases hx
    | _ => rfl
  cases step_move hready hs with
  | resume hpc hf hrun => exact .goto hpc (by rwa [hpc] at hx) (Nat.lt_succ_self _)
  | reuse hpc hcb hf => exact .goto hpc (by rwa [hpc] at hx) (Nat.lt_succ_self _)
  | create hpc hcb hf ha => exact .goto hpc (by rwa [hpc] at hx) (Nat.lt_succ_self _)
  | enter hpc => exact .goto hpc (by rwa [hpc] at hx) (Nat.lt_succ_self _)
  | drop hpc hcb hdone =>
    rw [hpc] at hx
    cases hx
    exact .inr (.inl (List.mem_singleton.mpr rfl))
  | load hpc =>
    rw [hpc] at hx
    cases hx
    exact .inl (List.mem_singleton.mpr rfl)
  | idle hpc | take hpc | save hpc | leave hpc | checkReady hpc | checkEnd hpc | checkHold hpc | requeue hpc
  | recycle hpc | forget hpc | update hpc | discard hpc =>
    rw [hpc] at hx
    cases hx

theorem Inv.nearerBack {s : Schedular τ κ} (hi : Inv s) (ids : Threads τ) {t : τ} {a : Addr} (ha : a ∉ s.created)
    {f : Addr} (hf : (s.workers t).pc.readies = some f) :
    ∃ r s', step ids s (.work t a) = .ok (r, s') ∧ NearerBack s s' t r f := by
  obtain ⟨r, s', hs⟩ := hi.step_ok ids (.work t a)
  refine ⟨r, s', hs, ?_⟩
  have hready : Ready s (.work t a) := by
    refine ⟨ha, ?_⟩
    cases hpc : (s.workers t).pc with
    | exec g via p =>
      rw [hpc] at hf
      cases p with
      | leaving o => rfl
      | _ => cases hf
    | _ => rfl
  cases step_move hready hs with
  | save hpc => exact .goto hpc (by rwa [hpc] at hf) (Nat.lt_succ_self _)
  | leave hpc => exact .goto hpc (by rwa [hpc] at hf) (Nat.lt_succ_self _)
  | @checkReady _ _ g via o hpc hst =>
    refine .goto hpc ?_ (Nat.lt_succ_self _)
    rw [hpc, Pc.readies] at hf
    split_ifs at hf
    exact hf
  | @checkEnd _ _ g via o hpc hst =>
    obtain ⟨⟨ho, -⟩, -⟩ := hi.here hpc rfl
    rw [hpc, Pc.readies, ← ho] at hf
    rcases hst with hst | hst <;> rw [hst] at hf <;> cases hf
  | @checkHold _ _ g via o hpc hst hend =>
    obtain ⟨⟨ho, -⟩, -⟩ := hi.here hpc rfl
    rw [hpc, Pc.readies, ← ho, if_neg hst] at hf
    cases hf
  | requeue hpc =>
    rw [hpc] at hf
    cases hf
    exact .inl (List.mem_singleton.mpr rfl)
  | idle hpc | take hpc | resume hpc | reuse hpc | create hpc | drop hpc | enter hpc | load hpc | recycle hpc
  | forget hpc | update hpc | discard hpc =>
    rw [hpc] at hf
    cases hf

def scheduler (ids : Threads τ) : Machine (Schedular τ κ) (Label τ κ) Reply Fault where
  init := fun s => s = {}
  enabled := Callers
  step := step ids

theorem scheduler_move {ids : Threads τ} {e : Entry (Schedular τ κ) (Label τ κ) Reply} (he : (scheduler ids).Steps e) :
    Move ids e.pre e.inp e.out e.post :=
  step_move (Callers.ready he.1) he.2

theorem scheduler_calm {ids : Threads τ} {h : List (Entry (Schedular τ κ) (Label τ κ) Reply)} {s : Schedular τ κ}
    (hr : Run (scheduler ids) h s) : Calm s := by
  apply hr.invariant
  · rintro s rfl
    exact ⟨Inv.empty, rfl, fun _ _ _ => rfl, fun _ => trivial⟩
  · intro s l r s' hc hl hs
    exact hc.move hl (step_move (Callers.ready hl) hs)

end

section
variable [Fintype τ] [DecidableEq τ]

theorem scheduler_ledger {ids : Threads τ} {h : List (Entry (Schedular τ κ) (Label τ κ) Reply)} {s : Schedular τ κ}
    (hr : Run (scheduler ids) h s) : Ledger h s := by
  induction hr with
  | start hs =>
    cases hs
    refine ⟨fun n => ?_, fun f => ?_, ?_, nofun⟩
    · have : inHand ({} : Schedular τ κ) n = 0 := countAt_eq_zero fun _ => nofun
      rw [this]
      rfl
    · have : leaving ({} : Schedular τ κ) f = 0 := countAt_eq_zero fun _ => nofun
      rw [this]
      rfl
    · have : activeWorkers ({} : Schedular τ κ) = 0 := countAt_eq_zero fun _ => nofun
      rw [this]
      rfl
  | step hr he hs ih => exact ih.move (scheduler_calm hr).inv (step_move (Callers.ready he) hs)

instance (s : Schedular τ κ) (t : τ) (f : Addr) : Decidable (s.Holds t f) := inferInstanceAs (Decidable (_ ∨ _))

instance (s : Schedular τ κ) : (l : Label τ κ) → Decidable (Callers s l)
  | .schedule _ => inferInstanceAs (Decidable (_ ∧ _))
  | .newFiber a _ => inferInstanceAs (Decidable (a ∉ s.created))
  | .trigger _ => isFalse id
  | .work t a => inferInstanceAs (Decidable (Ready s (.work t a)))
  | .act _ _ => inferInstanceAs (Decidable (_ ∧ _))

instance (ids : Threads τ) (s : Schedular τ κ) (l : Label τ κ) : Decidable ((scheduler ids).enabled s l) :=
  inferInstanceAs (Decidable (Callers s l))

/-- **Task conservation**, after the history `h`. -/
structure Conserved (ids : Threads τ) (h : List (Entry (Schedular τ κ) (Label τ κ) Reply)) (s : Schedular τ κ) :
    Prop where
  nodes : ∀ n, s.queued n + (executed h).count n + (dropped h).count n + s.inHand n = if n < s.pushed then 1 else 0
  executed : ∀ e ∈ h, ∀ n ∈ e.out.executed, ∃ t a x f via, e.inp = .work t a ∧ (e.pre.workers t).pc = .load x f via ∧
    x.node = n ∧ (∃ e' ∈ h, x ∈ e'.pre.queue) ∧ Serves x f (e.pre.fibers f) via
  dropped : ∀ e ∈ h, ∀ n ∈ e.out.dropped, ∃ t a x f, e.inp = .work t a ∧ (e.pre.workers t).pc = .taken x ∧
    x.node = n ∧ (∃ e' ∈ h, x ∈ e'.pre.queue) ∧ x.ft.fiber = some f ∧
      ((e.pre.fibers f).state = .term ∨ (e.pre.fibers f).state = .except)
  ready : ∀ f, (readied h).count f = (requeued h).count f + s.leaving f
  requeued : ∀ e ∈ h, ∀ f ∈ e.out.requeued, e.post.queue = e.pre.queue ++ [⟨e.pre.pushed, { fiber := some f }⟩]
  kept : ∀ e ∈ h, Keeps ids e
  active : s.activeThreadCount.toNat = s.activeWorkers
  nearer : ∀ t a, a ∉ s.created → ∀ x, (s.workers t).pc.entry = some x →
    ∃ r s', step ids s (.work t a) = .ok (r, s') ∧ Nearer s s' t r x
  nearerBack : ∀ t a, a ∉ s.created → ∀ f, (s.workers t).pc.readies = some f →
    ∃ r s', step ids s (.work t a) = .ok (r, s') ∧ NearerBack s s' t r f
  safe : ∀ l, Callers s l → ∃ r s', step ids s l = .ok (r, s')

/-- Every run conserves the tasks. -/
theorem conservation (ids : Threads τ) {h : List (Entry (Schedular τ κ) (Label τ κ) Reply)} {s : Schedular τ κ}
    (hr : Run (scheduler ids) h s) : Conserved ids h s := by
  have hl := scheduler_ledger hr
  have hi := (scheduler_calm hr).inv
  refine ⟨hl.nodes, ?_, ?_, hl.ready, ?_, ?_, ?_, fun t a ha x hx => hi.nearer ids ha hx,
    fun t a ha f hf => hi.nearerBack ids ha hf, fun l _ => hi.step_ok ids l⟩
  · intro e he n hn
    obtain ⟨h₁, h₂, rfl⟩ := List.append_of_mem he
    obtain ⟨hr₁, hsteps⟩ := hr.cut rfl
    obtain ⟨t, a, x, f, via, hinp, hpc, hnode⟩ := (scheduler_move hsteps).executed_spec hn
    obtain ⟨e', he', hq⟩ := (scheduler_ledger hr₁).origin t x (by rw [hpc]; rfl)
    refine ⟨t, a, x, f, via, hinp, hpc, hnode, ⟨e', List.mem_append_left _ he', hq⟩, ?_⟩
    have := (scheduler_calm hr₁).carried t
    rwa [hpc] at this
  · intro e he n hn
    obtain ⟨h₁, h₂, rfl⟩ := List.append_of_mem he
    obtain ⟨hr₁, hsteps⟩ := hr.cut rfl
    obtain ⟨t, a, x, hinp, hpc, hnode, hcb, hdone⟩ := (scheduler_move hsteps).dropped_spec hn
    obtain ⟨e', he', hq⟩ := (scheduler_ledger hr₁).origin t x (by rw [hpc]; rfl)
    obtain ⟨h₃, hr₃, -⟩ := hr₁.mem he'
    have hne := (scheduler_calm hr₃).inv.entries x hq
    obtain ⟨f, hf⟩ : ∃ f, x.ft.fiber = some f := by
      simpa [FiberAndThread.nonempty, hcb, Option.isSome_iff_exists] using hne
    exact ⟨t, a, x, f, hinp, hpc, hnode, ⟨e', List.mem_append_left _ he', hq⟩, hf, hdone f hf⟩
  · intro e he f hf
    obtain ⟨-, -, hsteps⟩ := hr.mem he
    exact (scheduler_move hsteps).requeued_spec hf
  · intro e he
    obtain ⟨-, -, hsteps⟩ := hr.mem he
    exact (scheduler_move hsteps).keeps
  · exact counter_toNat hl.active ids.card_lt

end

/-- A callback yields as `READY` on one worker and ends on the other. -/
theorem conservation_ready : ∃ h s, Run (scheduler (κ := Nat) twoThreads) h s ∧ executed h = [0, 1] ∧ requeued h = [1] ∧
    Conserved twoThreads h s := by
  obtain ⟨h, s, hr, hp⟩ := Run.of_replay (scheduler (κ := Nat) twoThreads) rfl
    ([.schedule [{ cb := some 0 }], .work false 1, .work false 1, .work false 2, .work false 2,
      .act false .yieldToReady] ++
      List.replicate 4 (.work false 2) ++ List.replicate 4 (.work true 2) ++ [.act true (.finish false)])
    (fun r => decide (executed r.1 = [0, 1] ∧ requeued r.1 = [1])) (by decide)
  obtain ⟨hex, hre⟩ := of_decide_eq_true hp
  exact ⟨h, s, hr, hex, hre, conservation twoThreads hr⟩

end QWebServer.Schedular
