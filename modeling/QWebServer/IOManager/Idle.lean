import QWebServer.IOManager.Bookkeeping

/-!
# Threads in `IOManager::idle`

* `Report` : an element of the array that `epoll_wait` fills;
* `Poll` : a manager and, for every thread of a type `τ`, what its last `epoll_wait` reported and it has not handled;
* `pollMachine` : `epoll_wait` reports a part of what is registered then, with `EPOLLERR` and `EPOLLHUP` on top; the
  operations and the handling of the reports, each under the mutex of its descriptor, come in any order;
* `Stale` : a report that asks for an event that is gone and, in the same mask, for one that is still there;
* `stale_readiness` : these are the reports, and the only ones, that run into the assertion of `triggerEvent`.
-/

namespace QWebServer.IOManager

open Lib Waiters

variable {τ σ φ κ : Type}

/-- What `epoll_wait` reports: the pipe of `tickle`, or a mask for a descriptor. -/
inductive Report
  | tickle
  | ready (fd : Int) (events : BitVec 32)
  deriving DecidableEq

/-- A manager with threads in `idle`. -/
structure Poll (τ σ φ κ : Type) where
  manager : IOManager σ φ κ := new
  reports : τ → List Report := fun _ => []

inductive PollOp (τ σ φ κ : Type)
  | call (o : Op σ φ κ)
  | epollWait (t : τ) (reports : List Report)
  | handle (t : τ) (rt : Bool)

/-- `epoll_wait` reports a part of the registered mask, `EPOLLERR` and `EPOLLHUP`. -/
def Reportable (m : IOManager σ φ κ) : Report → Prop
  | .tickle => True
  | .ready fd x =>
    match m.epoll fd with
    | none => False
    | some registered => x &&& ~~~(registered ||| EPOLLERR ||| EPOLLHUP) = 0#32

/-- `idle` handles reports, the callers do the rest, and `epoll_wait` is called once the last reports are handled. -/
def PollAllowed (s : Poll τ σ φ κ) : PollOp τ σ φ κ → Prop
  | .call (.idle ..) => False
  | .call o => Allowed o
  | .epollWait t reports => s.reports t = [] ∧ ∀ r ∈ reports, Reportable s.manager r
  | .handle t _ => s.reports t ≠ []

/-- A thread handles its next report. A report of the pipe is read away and changes nothing. -/
def Poll.handleReport [DecidableEq τ] (s : Poll τ σ φ κ) (t : τ) (rt : Bool) :
    Except Fault (Reply σ φ κ × Poll τ σ φ κ) :=
  match s.reports t with
  | [] => .ok ({}, s)
  | .tickle :: rest => .ok ({}, { s with reports := Function.update s.reports t rest })
  | .ready fd x :: rest => do
    let (scheduled, m) ← s.manager.idleEvent fd x rt
    return ({ scheduled }, { manager := m, reports := Function.update s.reports t rest })

def Poll.callOp (mem : Memory) (s : Poll τ σ φ κ) (o : Op σ φ κ) : Except Fault (Reply σ φ κ × Poll τ σ φ κ) := do
  let (r, m) ← step mem s.manager o
  return (r, { s with manager := m })

def pollStep [DecidableEq τ] (mem : Memory) (s : Poll τ σ φ κ) :
    PollOp τ σ φ κ → Except Fault (Reply σ φ κ × Poll τ σ φ κ)
  | .call o => s.callOp mem o
  | .epollWait t reports => .ok ({}, { s with reports := Function.update s.reports t reports })
  | .handle t rt => s.handleReport t rt

/-- The threads of `idle` and the callers, in any order. -/
def pollMachine (mem : Memory) (τ σ φ κ : Type) [DecidableEq τ] :
    Machine (Poll τ σ φ κ) (PollOp τ σ φ κ) (Reply σ φ κ) Fault where
  init s := s = {}
  enabled := PollAllowed
  step := pollStep mem

instance (m : IOManager σ φ κ) (r : Report) : Decidable (Reportable m r) :=
  match r with
  | .tickle => isTrue trivial
  | .ready fd x =>
    match h : m.epoll fd with
    | none => isFalse (by simp [Reportable, h])
    | some registered =>
      decidable_of_iff (x &&& ~~~(registered ||| EPOLLERR ||| EPOLLHUP) = 0#32) (by simp [Reportable, h])

instance (s : Poll τ σ φ κ) (l : PollOp τ σ φ κ) : Decidable (PollAllowed s l) :=
  match l with
  | .call (.idle ..) => isFalse id
  | .call (.addEvent fd e cb caller rt) => inferInstanceAs (Decidable (Allowed (.addEvent fd e cb caller rt)))
  | .call (.delEvent ..) | .call (.cancelEvent ..) | .call (.cancelAll ..) => isTrue trivial
  | .epollWait t reports => inferInstanceAs (Decidable (s.reports t = [] ∧ ∀ r ∈ reports, Reportable s.manager r))
  | .handle t _ => inferInstanceAs (Decidable (s.reports t ≠ []))

instance [DecidableEq τ] (mem : Memory) (s : Poll τ σ φ κ) (l : PollOp τ σ φ κ) :
    Decidable ((pollMachine mem τ σ φ κ).enabled s l) :=
  inferInstanceAs (Decidable (PollAllowed s l))

/-! ## Stale reports -/

def eventBits (m : IOManager σ φ κ) (fd : Int) : BitVec 32 :=
  match m.fdContext fd with
  | .error _ => 0#32
  | .ok c => c.events

/-- The report asks for an event that is not waited for any more, and for another one that still is, itself or by an
error or a hang-up. -/
def Stale (m : IOManager σ φ κ) (fd : Int) (x : BitVec 32) : Prop :=
  ∃ gone there : Event, x &&& gone.mask ≠ 0#32 ∧ eventBits m fd &&& gone.mask = 0#32 ∧
    eventBits m fd &&& there.mask ≠ 0#32 ∧ (x &&& there.mask ≠ 0#32 ∨ x &&& (EPOLLERR ||| EPOLLHUP) ≠ 0#32)

/-- The step does not handle a stale report, or its `epoll_ctl` fails. -/
def Current (s : Poll τ σ φ κ) : PollOp τ σ φ κ → Prop
  | .handle t rt =>
    match s.reports t with
    | .ready fd x :: _ => rt = true → ¬ Stale s.manager fd x
    | _ => True
  | _ => True

theorem realEvents_and (x : BitVec 32) (ws : Slots σ φ κ) (e : Event) :
    realEvents x (mask ws) &&& e.mask ≠ 0#32 ↔
      x &&& e.mask ≠ 0#32 ∨ x &&& (EPOLLERR ||| EPOLLHUP) ≠ 0#32 ∧ ws e ≠ none := by
  let x' := if x &&& (EPOLLERR ||| EPOLLHUP) ≠ 0#32 then x ||| ((EPOLLIN ||| EPOLLOUT) &&& mask ws) else x
  have hreal : realEvents x (mask ws) = bits (decide (x' &&& EPOLLIN ≠ 0#32)) (decide (x' &&& EPOLLOUT ≠ 0#32)) := by
    simp only [realEvents, bits, decide_eq_true_eq, x']
  have hbit : realEvents x (mask ws) &&& e.mask ≠ 0#32 ↔ x' &&& e.mask ≠ 0#32 := by
    rw [hreal, ne_eq, and_mask_eq_zero, getLsbD_bits]
    cases e
    · show ¬ decide _ = false ↔ _
      rw [Bool.not_eq_false, decide_eq_true_eq]
      rfl
    · show ¬ decide _ = false ↔ _
      rw [Bool.not_eq_false, decide_eq_true_eq]
      rfl
  have hboth : (EPOLLIN ||| EPOLLOUT).getLsbD e.bit = true := by
    cases e <;> rfl
  rw [hbit, ne_eq, ne_eq, and_mask_eq_zero, and_mask_eq_zero]
  simp only [x']
  split_ifs with hh
  · rw [BitVec.getLsbD_or, BitVec.getLsbD_and, hboth, getLsbD_mask]
    cases x.getLsbD e.bit <;> simp [hh]
  · simp [hh]

theorem mask_and_bits (ws : Slots σ φ κ) (r w : Bool) :
    mask ws &&& bits r w ≠ 0#32 ↔ ∃ e, ws e ≠ none ∧ bits r w &&& e.mask ≠ 0#32 := by
  have hbits : ∀ a b r w : Bool, bits a b &&& bits r w ≠ 0#32 ↔ a = true ∧ r = true ∨ b = true ∧ w = true := by decide
  have hsome : ∀ e, ws e ≠ none ↔ (ws e).isSome = true := fun e => Option.isSome_iff_ne_none.symm
  simp only [ne_eq, and_mask_eq_zero, getLsbD_bits, hsome]
  rw [mask, ← ne_eq, hbits]
  constructor
  · rintro (⟨h, hr⟩ | ⟨h, hw⟩)
    · exact ⟨.read, h, by simp [hr]⟩
    · exact ⟨.write, h, by simp [hw]⟩
  · rintro ⟨_ | _, h, hr⟩
    · exact .inl ⟨h, by simpa using hr⟩
    · exact .inr ⟨h, by simpa using hr⟩

theorem eventBits_manager (W : Waiters σ φ κ) {i : Nat} (hi : i < W.size) :
    eventBits W.manager i = mask (W.slot i) := by
  rw [eventBits, W.manager_eq_patch i, patch_fdContext W hi]
  exact of_events _ _

theorem stale_manager (W : Waiters σ φ κ) {i : Nat} (hi : i < W.size) (x : BitVec 32) :
    Stale W.manager i x ↔ mask (W.slot i) &&& realEvents x (mask (W.slot i)) ≠ 0#32 ∧
      ¬ ∀ e ∈ eventsOf (realEvents x (mask (W.slot i))), (W.slot i e).isSome := by
  obtain ⟨r, w, hreal⟩ := realEvents_eq x (mask (W.slot i))
  have hand : mask (W.slot i) &&& realEvents x (mask (W.slot i)) ≠ 0#32 ↔
      ∃ e, W.slot i e ≠ none ∧ realEvents x (mask (W.slot i)) &&& e.mask ≠ 0#32 := by
    rw [hreal]
    exact mask_and_bits _ r w
  unfold Stale
  simp only [eventBits_manager W hi, mask_and, mask_and_ne, hand, mem_eventsOf, realEvents_and, not_forall]
  constructor
  · rintro ⟨gone, there, hx, hgone, hthere, hreal⟩
    refine ⟨⟨there, hthere, hreal.imp_right fun h => ⟨h, hthere⟩⟩, gone, .inl hx, ?_⟩
    simp [hgone]
  · rintro ⟨⟨there, hthere, hreal⟩, gone, hx, hgone⟩
    have hnone : W.slot i gone = none := by simpa using hgone
    refine ⟨gone, there, ?_, hnone, hthere, hreal.imp_right And.left⟩
    rcases hx with hx | ⟨-, hx⟩
    · exact hx
    · exact absurd hnone hx

theorem idleEvent_notSet (W : Waiters σ φ κ) (fd : Int) (x : BitVec 32) (rt : Bool) :
    W.manager.idleEvent fd x rt = .error .notSet ↔ rt = true ∧ Stale W.manager fd x := by
  cases hc : W.manager.fdContext fd with
  | error f =>
    obtain rfl := fdContext_error hc
    simp [idleEvent, hc, bind, Except.bind, Stale, eventBits]
  | ok c =>
    obtain ⟨i, hi, rfl⟩ := inTable_of_fdContext hc
    rw [idleEvent_manager W hi, stale_manager W hi]
    split_ifs with hgo hocc
    · exact ⟨fun h => (by cases h), fun h => absurd hocc h.2.2⟩
    · exact ⟨fun _ => ⟨hgo.1, hgo.2, hocc⟩, fun _ => rfl⟩
    · exact ⟨fun h => (by cases h), fun h => absurd ⟨h.1, h.2.1⟩ hgo⟩

theorem addEvent_ne_notSet {mem : Memory} {W : Waiters σ φ κ} {fd : Int} {e : Event} {cb : Option κ}
    {caller : Caller σ φ} {rt : Bool} (ha : caller.schedular.isSome) :
    W.manager.addEvent mem fd e cb caller rt ≠ .error .notSet := by
  intro h
  obtain ⟨s, hs⟩ := Option.isSome_iff_exists.mp ha
  rcases bind_eq_error h with h | ⟨m, hl, h⟩
  · unfold lookup contextResize at h
    split_ifs at h <;> cases h
  · obtain ⟨W₁, rfl, -⟩ := lookup_manager hl
    cases hc : W₁.manager.fdContext fd with
    | error f =>
      obtain rfl := fdContext_error hc
      simp [addEventAt, hc, bind, Except.bind] at h
    | ok c =>
      obtain ⟨i, hi, rfl⟩ := inTable_of_fdContext hc
      rw [addEventAt_manager W₁ hi e cb hs rt] at h
      split_ifs at h <;> cases h

theorem step_ne_notSet {mem : Memory} {W : Waiters σ φ κ} {o : Op σ φ κ} (ha : Allowed o)
    (ho : ∀ fd x rt, o ≠ .idle fd x rt) : step mem W.manager o ≠ .error .notSet := by
  intro h
  cases o with
  | idle fd x rt => exact ho fd x rt rfl
  | addEvent fd e cb caller rt =>
    rcases bind_eq_error h with h | ⟨r, -, h⟩
    · exact addEvent_ne_notSet ha h
    · cases h
  | delEvent fd e rt =>
    rcases bind_eq_error h with h | ⟨r, -, h⟩
    · rcases fd_cases W fd with hneg | hout | ⟨i, hi, rfl⟩
      · simp [delEvent, not_size_le_of_neg W hneg, fdContext_of_neg _ hneg, bind, Except.bind] at h
      · rw [delEvent, if_pos hout] at h
        cases h
      · rw [delEvent_manager W hi] at h
        split_ifs at h
    · cases h
  | cancelEvent fd e rt =>
    rcases bind_eq_error h with h | ⟨r, -, h⟩
    · rcases fd_cases W fd with hneg | hout | ⟨i, hi, rfl⟩
      · simp [cancelEvent, not_size_le_of_neg W hneg, fdContext_of_neg _ hneg, bind, Except.bind] at h
      · rw [cancelEvent, if_pos hout] at h
        cases h
      · rw [cancelEvent_manager W hi] at h
        split_ifs at h
    · cases h
  | cancelAll fd rt =>
    rcases bind_eq_error h with h | ⟨r, -, h⟩
    · rcases fd_cases W fd with hneg | hout | ⟨i, hi, rfl⟩
      · simp [cancelAll, not_size_le_of_neg W hneg, fdContext_of_neg _ hneg, bind, Except.bind] at h
      · rw [cancelAll, if_pos hout] at h
        cases h
      · rw [cancelAll_manager W hi] at h
        split_ifs at h
    · cases h

/-! ## Runs -/

theorem handle_effect [DecidableEq τ] {s s' : Poll τ σ φ κ} {t : τ} {rt : Bool} {r : Reply σ φ κ}
    {W : Waiters σ φ κ} (hm : s.manager = W.manager) (h : s.handleReport t rt = .ok (r, s')) :
    ∃ W' : Waiters σ φ κ, s'.manager = W'.manager ∧ W'.total + r.scheduled.length = W.total := by
  unfold Poll.handleReport at h
  cases hrep : s.reports t with
  | nil =>
    rw [hrep] at h
    cases h
    exact ⟨W, hm, rfl⟩
  | cons rep rest =>
    rw [hrep] at h
    cases rep with
    | tickle =>
      cases h
      exact ⟨W, hm, rfl⟩
    | ready fd x =>
      rw [hm] at h
      obtain ⟨⟨calls, m⟩, hidle, hr⟩ := bind_eq_ok h
      cases hr
      obtain ⟨W', rfl, he⟩ := idle_effect hidle
      refine ⟨W', rfl, ?_⟩
      cases he with
      | quiet hslot => exact total_congr hslot
      | resume _ hnd hocc hslot => exact total_resume hnd hocc hslot

theorem call_effect {mem : Memory} {s s' : Poll τ σ φ κ} {o : Op σ φ κ} {r : Reply σ φ κ}
    {W : Waiters σ φ κ} (hm : s.manager = W.manager) (ha : PollAllowed s (.call o))
    (h : s.callOp mem o = .ok (r, s')) : ∃ W' : Waiters σ φ κ, s'.manager = W'.manager := by
  unfold Poll.callOp at h
  rw [hm] at h
  obtain ⟨⟨r, m⟩, hstep, hr⟩ := bind_eq_ok h
  cases hr
  have hallowed : Allowed o := by
    cases o <;> first | exact ha | exact trivial
  obtain ⟨W', rfl, -⟩ := step_effect hallowed hstep
  exact ⟨W', rfl⟩

/-- Every manager under threads in `idle` is the manager of a table of waiters. -/
theorem run_poll_manager [DecidableEq τ] {mem : Memory}
    {h : List (Entry (Poll τ σ φ κ) (PollOp τ σ φ κ) (Reply σ φ κ))} {s : Poll τ σ φ κ}
    (hr : Run (pollMachine mem τ σ φ κ) h s) : ∃ W : Waiters σ φ κ, s.manager = W.manager := by
  apply hr.invariant (P := fun s => ∃ W : Waiters σ φ κ, s.manager = W.manager)
  · rintro s rfl
    obtain ⟨W, hW, -⟩ := new_manager (σ := σ) (φ := φ) (κ := κ)
    exact ⟨W, hW⟩
  · rintro s l r s' ⟨W, hm⟩ ha hs
    cases l with
    | call o => exact call_effect hm ha hs
    | epollWait t rs =>
      cases hs
      exact ⟨W, hm⟩
    | handle t rt =>
      obtain ⟨W', hm', -⟩ := handle_effect hm hs
      exact ⟨W', hm'⟩

theorem callOp_ne_notSet {mem : Memory} {s : Poll τ σ φ κ} {o : Op σ φ κ} {W : Waiters σ φ κ}
    (hm : s.manager = W.manager) (ha : PollAllowed s (.call o)) : s.callOp mem o ≠ .error .notSet := by
  intro h
  unfold Poll.callOp at h
  rw [hm] at h
  have hallowed : Allowed o := by
    cases o <;> first | exact ha | exact trivial
  rcases bind_eq_error h with h | ⟨r, -, h⟩
  · apply step_ne_notSet hallowed _ h
    rintro fd x rt rfl
    exact ha
  · cases h

theorem handleReport_notSet [DecidableEq τ] {s : Poll τ σ φ κ} {t : τ} {rt : Bool} {W : Waiters σ φ κ}
    (hm : s.manager = W.manager) : s.handleReport t rt ≠ .error .notSet ↔ Current s (.handle t rt) := by
  simp only [Poll.handleReport, Current]
  cases hrep : s.reports t with
  | nil => simp
  | cons rep rest =>
    cases rep with
    | tickle => simp
    | ready fd x =>
      show _ ↔ (rt = true → ¬ Stale s.manager fd x)
      rw [← not_and, hm, ← idleEvent_notSet W fd x rt]
      apply not_congr
      constructor
      · intro h
        rcases bind_eq_error h with h | ⟨r, -, h⟩
        · exact h
        · cases h
      · intro h
        simp only [h]
        rfl

/-- **Stale readiness.** In every reachable state the counter is the number of event bits, so it has not wrapped; a
step runs into the assertion of `triggerEvent` exactly when it handles a stale report and its `epoll_ctl` succeeds; and
a handled report counts down once for each waiter it resumes. -/
theorem stale_readiness [DecidableEq τ] {mem : Memory}
    {h : List (Entry (Poll τ σ φ κ) (PollOp τ σ φ κ) (Reply σ φ κ))} {s : Poll τ σ φ κ}
    (hr : Run (pollMachine mem τ σ φ κ) h s) :
    s.manager.pendingEventCount.toNat = (s.manager.fdContexts.map setBits).sum ∧
      (∀ l, (pollMachine mem τ σ φ κ).enabled s l →
        ((pollMachine mem τ σ φ κ).step s l ≠ .error .notSet ↔ Current s l)) ∧
      ∀ t rt r s', (pollMachine mem τ σ φ κ).step s (.handle t rt) = .ok (r, s') →
        s'.manager.pendingEventCount.toNat + r.scheduled.length = s.manager.pendingEventCount.toNat := by
  obtain ⟨W, hm⟩ := run_poll_manager hr
  refine ⟨?_, ?_, ?_⟩
  · rw [hm]
    exact (manager_bookkept W).pending
  · intro l ha
    cases l with
    | call o => exact iff_of_true (callOp_ne_notSet hm ha) trivial
    | epollWait t rs => exact iff_of_true (fun h => by cases h) trivial
    | handle t rt => exact handleReport_notSet hm
  · intro t rt r s' hs
    obtain ⟨W', hm', htotal⟩ := handle_effect hm hs
    rw [hm, hm']
    show (UInt64.ofNat W'.total).toNat + _ = (UInt64.ofNat W.total).toNat
    rw [UInt64.toNat_ofNat_of_lt' W.total_lt, UInt64.toNat_ofNat_of_lt' W'.total_lt, htotal]

/-- A hang-up reported for a reader and a writer is handled after the reader went away. -/
theorem stale_readiness_hangup :
    ∃ h s, Run (pollMachine ⟨1024, by decide⟩ Bool Nat Nat Nat) h s ∧ s.reports true = [.ready 5 EPOLLHUP] ∧
      (pollMachine ⟨1024, by decide⟩ Bool Nat Nat Nat).step s (.handle true true) ≠ .error .notSet := by
  obtain ⟨h, s, hr, hp⟩ := Run.of_replay (pollMachine ⟨1024, by decide⟩ Bool Nat Nat Nat) rfl
    [.call (.addEvent 5 .read none ⟨some 0, 7, .exec⟩ true), .call (.addEvent 5 .write none ⟨some 0, 8, .exec⟩ true),
      .epollWait true [.ready 5 EPOLLHUP], .call (.delEvent 5 .read true)]
    (fun r => r.2.reports true == [.ready 5 EPOLLHUP]) (by decide)
  rw [beq_iff_eq] at hp
  dsimp only at hp
  refine ⟨h, s, hr, hp, ((stale_readiness hr).2.1 (.handle true true) ?_).mpr ?_⟩
  · show s.reports true ≠ []
    simp [hp]
  · simp only [Current, hp]
    rintro - ⟨gone, there, hgone, -⟩
    cases gone <;> exact hgone (by decide)

/-- A reader and a writer are both reported ready; the reader is removed before the report is handled. -/
theorem stale_readiness_aborts :
    ∃ h s, Run (pollMachine ⟨1024, by decide⟩ Bool Nat Nat Nat) h s ∧
      (pollMachine ⟨1024, by decide⟩ Bool Nat Nat Nat).enabled s (.handle true true) ∧
      (pollMachine ⟨1024, by decide⟩ Bool Nat Nat Nat).step s (.handle true true) = .error .notSet := by
  obtain ⟨h, s, hr, hp⟩ := Run.of_replay (pollMachine ⟨1024, by decide⟩ Bool Nat Nat Nat) rfl
    [.call (.addEvent 5 .read none ⟨some 0, 7, .exec⟩ true), .call (.addEvent 5 .write none ⟨some 0, 8, .exec⟩ true),
      .epollWait true [.ready 5 (EPOLLIN ||| EPOLLOUT)], .call (.delEvent 5 .read true)]
    (fun r => decide (r.2.reports true ≠ []) && match r.2.handleReport true true with
      | .error f => f == .notSet
      | .ok _ => false) (by decide)
  rw [Bool.and_eq_true, decide_eq_true_eq] at hp
  refine ⟨h, s, hr, hp.1, ?_⟩
  show s.handleReport true true = _
  cases hs : s.handleReport true true with
  | error f => simpa [hs] using hp.2
  | ok r => simp [hs] at hp

end QWebServer.IOManager
