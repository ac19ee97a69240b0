import QWebServer.IOManager.Waiters

/-!
# The bookkeeping of an `IOManager`

* `Effect` : what an operation does to the table of waiters, `step_effect` : it does nothing else;
* `run_manager` : every reachable manager is that of a table of waiters;
* `setBits` : the number of event bits of a context;
* `bookkeeping` : bits, contexts, `m_pendingEventCount` and the registered masks agree in every reachable state, and an
  operation whose `epoll_ctl` failed leaves them alone.
-/

namespace QWebServer.IOManager

open Lib Waiters

variable {σ φ κ : Type}

/-- What an operation returns when it changes nothing. -/
def Op.failure : Op σ φ κ → Int
  | .addEvent .. => -1
  | _ => 0

/-- The operations on the descriptor `i` that resume waiters. -/
def Op.Resumes (i : Nat) : Op σ φ κ → Prop
  | .cancelEvent fd _ rt => fd = i ∧ rt = true
  | .cancelAll fd rt => fd = i ∧ rt = true
  | .idle fd _ rt => fd = i ∧ rt = true
  | _ => False

/-- What an operation can do to the table of waiters. -/
inductive Effect (W : Waiters σ φ κ) : Op σ φ κ → Reply σ φ κ → Waiters σ φ κ → Prop
  | quiet {o : Op σ φ κ} {W' : Waiters σ φ κ} (hslot : W'.slot = W.slot) : Effect W o { ret := o.failure } W'
  | add {i : Nat} {e : Event} {cb : Option κ} {caller : Caller σ φ} {s : σ} {W' : Waiters σ φ κ}
      (hs : caller.schedular = some s) (hfree : W.slot i e = none)
      (hslot : W'.slot =
        Function.update W.slot i (Function.update (W.slot i) e (some (s, taskOf cb caller.fiber)))) :
      Effect W (.addEvent i e cb caller true) { ret := 0 } W'
  | drop {i : Nat} {e : Event} {W' : Waiters σ φ κ} (hocc : (W.slot i e).isSome)
      (hslot : W'.slot = Function.update W.slot i (clear (W.slot i) [e])) :
      Effect W (.delEvent i e true) { ret := 1 } W'
  | resume {o : Op σ φ κ} {i : Nat} {evs : List Event} {ret : Int} {W' : Waiters σ φ κ} (ho : o.Resumes i)
      (hnd : evs.Nodup) (hocc : ∀ e ∈ evs, (W.slot i e).isSome)
      (hslot : W'.slot = Function.update W.slot i (clear (W.slot i) evs)) :
      Effect W o { ret, scheduled := pass (W.slot i) evs } W'

/-! ## One operation -/

theorem fdContext_of_neg (m : IOManager σ φ κ) {fd : Int} (h : fd < 0) : m.fdContext fd = .error .outOfRange := by
  simp [fdContext, h]

theorem fdContext_error {m : IOManager σ φ κ} {fd : Int} {f : Fault} (h : m.fdContext fd = .error f) :
    f = .outOfRange := by
  unfold fdContext at h
  split_ifs at h
  · cases h
    rfl
  · cases hc : m.fdContexts[fd.toNat]? <;> rw [hc] at h <;> cases h
    rfl

theorem inTable_of_fdContext {W : Waiters σ φ κ} {fd : Int} {c : FdContext σ φ κ}
    (h : W.manager.fdContext fd = .ok c) : ∃ i, i < W.size ∧ fd = (i : Nat) := by
  unfold fdContext at h
  split_ifs at h with hneg
  cases hc : W.manager.fdContexts[fd.toNat]? with
  | none => simp [hc] at h
  | some c =>
    obtain ⟨hlt, -⟩ := List.getElem?_eq_some_iff.mp hc
    rw [manager_length] at hlt
    exact ⟨fd.toNat, hlt, by omega⟩

theorem fd_cases (W : Waiters σ φ κ) (fd : Int) :
    fd < 0 ∨ (toInt W.manager.fdContexts.length ≤ fd) ∨ ∃ i, i < W.size ∧ fd = (i : Nat) := by
  rw [manager_length, toInt_size]
  rcases lt_or_ge fd 0 with h | h
  · exact .inl h
  · rcases le_or_gt (W.size : Int) fd with h' | h'
    · exact .inr (.inl h')
    · exact .inr (.inr ⟨fd.toNat, by omega, by omega⟩)

theorem not_size_le_of_neg (W : Waiters σ φ κ) {fd : Int} (h : fd < 0) : ¬ toInt W.manager.fdContexts.length ≤ fd := by
  rw [manager_length, toInt_size]
  omega

theorem addEvent_effect {mem : Memory} {W : Waiters σ φ κ} {fd : Int} {e : Event} {cb : Option κ} {caller : Caller σ φ}
    {rt : Bool} {ret : Int} {m : IOManager σ φ κ} (ha : caller.schedular.isSome)
    (h : W.manager.addEvent mem fd e cb caller rt = .ok (ret, m)) :
    ∃ W' : Waiters σ φ κ, m = W'.manager ∧ Effect W (.addEvent fd e cb caller rt) { ret } W' := by
  obtain ⟨s, hs⟩ := Option.isSome_iff_exists.mp ha
  obtain ⟨m₁, hl, h⟩ := bind_eq_ok h
  obtain ⟨W₁, rfl, hslot⟩ := lookup_manager hl
  obtain ⟨c, hc, -⟩ := bind_eq_ok h
  obtain ⟨i, hi, rfl⟩ := inTable_of_fdContext hc
  rw [addEventAt_manager W₁ hi e cb hs rt] at h
  split_ifs at h with hocc hrt hx
  · cases h
    exact ⟨W₁, rfl, .quiet hslot⟩
  · cases h
    obtain rfl : rt = true := by simpa using hrt
    refine ⟨_, rfl, .add hs (by simpa [hslot] using hocc) ?_⟩
    simp [put, hslot]

theorem delEvent_effect {W : Waiters σ φ κ} {fd : Int} {e : Event} {rt : Bool} {ret : Bool} {m : IOManager σ φ κ}
    (h : W.manager.delEvent fd e rt = .ok (ret, m)) :
    ∃ W' : Waiters σ φ κ, m = W'.manager ∧ Effect W (.delEvent fd e rt) { ret := ret.toInt } W' := by
  rcases fd_cases W fd with hneg | hout | ⟨i, hi, rfl⟩
  · simp [delEvent, not_size_le_of_neg W hneg, fdContext_of_neg _ hneg, bind, Except.bind] at h
  · rw [delEvent, if_pos hout] at h
    cases h
    exact ⟨W, rfl, .quiet rfl⟩
  · rw [delEvent_manager W hi] at h
    split_ifs at h with hgo
    · cases h
      obtain ⟨rfl, hocc⟩ := hgo
      exact ⟨_, rfl, .drop hocc rfl⟩
    · cases h
      exact ⟨W, rfl, .quiet rfl⟩

theorem cancelEvent_effect {W : Waiters σ φ κ} {fd : Int} {e : Event} {rt : Bool} {ret : Bool}
    {calls : List (σ × FiberAndThread φ κ)} {m : IOManager σ φ κ}
    (h : W.manager.cancelEvent fd e rt = .ok (ret, calls, m)) :
    ∃ W' : Waiters σ φ κ, m = W'.manager ∧
      Effect W (.cancelEvent fd e rt) { ret := ret.toInt, scheduled := calls } W' := by
  rcases fd_cases W fd with hneg | hout | ⟨i, hi, rfl⟩
  · simp [cancelEvent, not_size_le_of_neg W hneg, fdContext_of_neg _ hneg, bind, Except.bind] at h
  · rw [cancelEvent, if_pos hout] at h
    cases h
    exact ⟨W, rfl, .quiet rfl⟩
  · rw [cancelEvent_manager W hi] at h
    split_ifs at h with hgo
    · cases h
      obtain ⟨rfl, hocc⟩ := hgo
      exact ⟨_, rfl, .resume ⟨rfl, rfl⟩ (List.nodup_singleton e) (by simpa using hocc) rfl⟩
    · cases h
      exact ⟨W, rfl, .quiet rfl⟩

theorem cancelAll_effect {W : Waiters σ φ κ} {fd : Int} {rt : Bool} {ret : Bool}
    {calls : List (σ × FiberAndThread φ κ)} {m : IOManager σ φ κ}
    (h : W.manager.cancelAll fd rt = .ok (ret, calls, m)) :
    ∃ W' : Waiters σ φ κ, m = W'.manager ∧
      Effect W (.cancelAll fd rt) { ret := ret.toInt, scheduled := calls } W' := by
  rcases fd_cases W fd with hneg | hout | ⟨i, hi, rfl⟩
  · simp [cancelAll, not_size_le_of_neg W hneg, fdContext_of_neg _ hneg, bind, Except.bind] at h
  · rw [cancelAll, if_pos hout] at h
    cases h
    exact ⟨W, rfl, .quiet rfl⟩
  · rw [cancelAll_manager W hi] at h
    split_ifs at h with hgo
    · cases h
      obtain ⟨rfl, -⟩ := hgo
      exact ⟨_, rfl, .resume ⟨rfl, rfl⟩ (eventsOf_nodup _) (occupied_mask _) rfl⟩
    · cases h
      exact ⟨W, rfl, .quiet rfl⟩

theorem idle_effect {W : Waiters σ φ κ} {fd : Int} {x : BitVec 32} {rt : Bool}
    {calls : List (σ × FiberAndThread φ κ)} {m : IOManager σ φ κ} (h : W.manager.idleEvent fd x rt = .ok (calls, m)) :
    ∃ W' : Waiters σ φ κ, m = W'.manager ∧ Effect W (.idle fd x rt) { scheduled := calls } W' := by
  obtain ⟨c, hc, -⟩ := bind_eq_ok h
  obtain ⟨i, hi, rfl⟩ := inTable_of_fdContext hc
  rw [idleEvent_manager W hi] at h
  split_ifs at h with hgo hocc
  · cases h
    exact ⟨_, rfl, .resume ⟨rfl, hgo.1⟩ (eventsOf_nodup _) hocc rfl⟩
  · cases h
    exact ⟨W, rfl, .quiet rfl⟩

/-- **What an operation does.** -/
theorem step_effect {mem : Memory} {W : Waiters σ φ κ} {o : Op σ φ κ} {r : Reply σ φ κ} {m : IOManager σ φ κ}
    (ha : Allowed o) (h : step mem W.manager o = .ok (r, m)) :
    ∃ W' : Waiters σ φ κ, m = W'.manager ∧ Effect W o r W' := by
  cases o with
  | addEvent fd e cb caller rt =>
    obtain ⟨⟨ret, m⟩, h, hr⟩ := bind_eq_ok h
    cases hr
    exact addEvent_effect ha h
  | delEvent fd e rt =>
    obtain ⟨⟨ret, m⟩, h, hr⟩ := bind_eq_ok h
    cases hr
    exact delEvent_effect h
  | cancelEvent fd e rt =>
    obtain ⟨⟨ret, calls, m⟩, h, hr⟩ := bind_eq_ok h
    cases hr
    exact cancelEvent_effect h
  | cancelAll fd rt =>
    obtain ⟨⟨ret, calls, m⟩, h, hr⟩ := bind_eq_ok h
    cases hr
    exact cancelAll_effect h
  | idle fd x rt =>
    obtain ⟨⟨calls, m⟩, h, hr⟩ := bind_eq_ok h
    cases hr
    exact idle_effect h

/-- Who is resumed leaves the table, one waiter for each call of `schedule`. -/
theorem total_resume {W W' : Waiters σ φ κ} {i : Nat} {evs : List Event} (hnd : evs.Nodup)
    (hocc : ∀ e ∈ evs, (W.slot i e).isSome) (hslot : W'.slot = Function.update W.slot i (clear (W.slot i) evs)) :
    W'.total + (pass (W.slot i) evs).length = W.total := by
  have hlen : (pass (W.slot i) evs).length = evs.length := by
    unfold Waiters.pass
    rw [List.length_filterMap_eq_countP, List.countP_eq_length]
    intro e he
    simpa using hocc e he
  have htotal := total_update hslot
  have hcount := count_clear hnd hocc
  omega

theorem Effect.total_le {W W' : Waiters σ φ κ} {o : Op σ φ κ} {r : Reply σ φ κ} (he : Effect W o r W')
    (hadd : ∀ fd e cb caller, o ≠ .addEvent fd e cb caller true) : W'.total ≤ W.total := by
  cases he with
  | quiet hslot => exact (total_congr hslot).le
  | add hs hfree hslot => exact absurd rfl (hadd _ _ _ _)
  | drop hocc hslot =>
    have := total_resume (List.nodup_singleton _) (by simpa using hocc) hslot
    omega
  | resume ho hnd hocc hslot =>
    have := total_resume hnd hocc hslot
    omega

/-! ## Runs -/

theorem new_manager :
    ∃ W : Waiters σ φ κ, (new : IOManager σ φ κ) = W.manager ∧ ∀ i e, W.slot i e = none := by
  refine ⟨⟨32, fun _ _ => none, fun _ _ => rfl, by decide⟩, ?_, fun _ _ => rfl⟩
  have hmask : mask (fun _ => (none : Option (σ × Task φ κ))) = 0#32 := (mask_eq_zero _).mpr fun _ => rfl
  have hfresh : (freshContext : Nat → FdContext σ φ κ) = fun i => FdContext.of i fun _ => none := by
    funext i
    simp [freshContext, FdContext.of, EventContext.of, hmask]
  have hepoll : (fun _ => none) = registered (⟨32, fun _ _ => none, fun _ _ => rfl, by decide⟩ : Waiters σ φ κ) := by
    funext fd
    simp [registered, registration, hmask]
  unfold new manager
  rw [← hepoll, hfresh]
  simp [total, count]

/-- Every reachable manager is the manager of a table of waiters. -/
theorem run_manager {mem : Memory} {h : List (Entry (IOManager σ φ κ) (Op σ φ κ) (Reply σ φ κ))} {m : IOManager σ φ κ}
    (hr : Run (machine mem σ φ κ) h m) : ∃ W : Waiters σ φ κ, m = W.manager := by
  apply hr.invariant
  · rintro m rfl
    obtain ⟨W, hW, -⟩ := new_manager (σ := σ) (φ := φ) (κ := κ)
    exact ⟨W, hW⟩
  · rintro m o r m' ⟨W, rfl⟩ ha hs
    obtain ⟨W', rfl, -⟩ := step_effect ha hs
    exact ⟨W', rfl⟩

/-! ## Agreement -/

def setBits (c : FdContext σ φ κ) : Nat := (List.range 32).countP fun i => c.events.getLsbD i

/-- Bits, contexts, `m_pendingEventCount` and the registered masks agree. -/
structure Bookkept (m : IOManager σ φ κ) : Prop where
  pending : m.pendingEventCount.toNat = (m.fdContexts.map setBits).sum
  set : ∀ c ∈ m.fdContexts, ∀ e : Event, c.events &&& e.mask ≠ 0#32 ↔
    (c.getContext e).schedular.isSome ∧ (c.getContext e).cb.isSome ≠ (c.getContext e).fiber.isSome
  clear : ∀ c ∈ m.fdContexts, ∀ e : Event, c.events &&& e.mask = 0#32 → c.getContext e = {}
  registered : ∀ (fd : Nat) (c : FdContext σ φ κ), m.fdContexts[fd]? = some c →
    m.epoll fd = if c.events = 0#32 then none else some (EPOLLET ||| c.events)
  outside : ∀ fd : Int, fd < 0 ∨ m.fdContexts.length ≤ fd → m.epoll fd = none

/-- The counter, the registered masks and the contexts are the same; contexts that were not there are fresh. -/
structure Unchanged (m m' : IOManager σ φ κ) : Prop where
  pending : m'.pendingEventCount = m.pendingEventCount
  epoll : m'.epoll = m.epoll
  contexts : ∀ i : Nat, m'.fdContexts.getD i (freshContext i) = m.fdContexts.getD i (freshContext i)

theorem setBits_of (i : Nat) (ws : Slots σ φ κ) : setBits (FdContext.of i ws) = count ws := by
  have : ∀ r w : Bool, (List.range 32).countP (fun i => (bits r w).getLsbD i) = r.toNat + w.toNat := by decide
  exact this _ _

theorem getElem?_manager {W : Waiters σ φ κ} {i : Nat} {c : FdContext σ φ κ} (h : W.manager.fdContexts[i]? = some c) :
    c = FdContext.of i (W.slot i) := by
  simp only [manager, List.getElem?_map, Option.map_eq_some_iff] at h
  obtain ⟨j, hj, rfl⟩ := h
  obtain ⟨-, rfl⟩ := List.getElem?_eq_some_iff.mp hj
  simp

theorem getD_manager (W : Waiters σ φ κ) (i : Nat) :
    W.manager.fdContexts.getD i (freshContext i) = FdContext.of i (W.slot i) := by
  rw [List.getD_eq_getElem?_getD]
  cases h : W.manager.fdContexts[i]? with
  | some c => exact getElem?_manager h
  | none =>
    rw [List.getElem?_eq_none_iff, manager_length] at h
    simp [freshContext, FdContext.of, W.outside i h, EventContext.of, mask, bits]

theorem manager_bookkept (W : Waiters σ φ κ) : Bookkept W.manager where
  pending := by
    show (UInt64.ofNat W.total).toNat = _
    rw [UInt64.toNat_ofNat_of_lt' W.total_lt]
    simp only [manager, List.map_map, Function.comp_def, setBits_of]
    rfl
  set c hc e := by
    obtain ⟨i, hi⟩ := List.mem_iff_getElem?.mp hc
    rw [getElem?_manager hi, ne_eq, of_and, of_getContext]
    rcases W.slot i e with _ | ⟨s, f | k⟩ <;> simp [EventContext.of]
  clear c hc e he := by
    obtain ⟨i, hi⟩ := List.mem_iff_getElem?.mp hc
    rw [getElem?_manager hi, of_and] at he
    rw [getElem?_manager hi, of_getContext, he, EventContext.of]
  registered fd c hc := by
    rw [getElem?_manager hc, of_events]
    simp [manager, Waiters.registered, registration]
  outside fd hfd := by
    rw [manager_length] at hfd
    show W.registered fd = none
    unfold Waiters.registered
    split_ifs with hneg
    · rfl
    · rw [W.outside fd.toNat (by omega), registration, if_pos ((mask_eq_zero _).mpr fun _ => rfl)]

theorem manager_unchanged {W W' : Waiters σ φ κ} (h : W'.slot = W.slot) : Unchanged W.manager W'.manager where
  pending := by
    show UInt64.ofNat W'.total = UInt64.ofNat W.total
    rw [total_congr h]
  epoll := by
    funext fd
    simp only [manager, Waiters.registered, h]
  contexts i := by
    rw [getD_manager, getD_manager, h]

/-- Whether the `epoll_ctl` of an operation returns 0. -/
def Op.rt : Op σ φ κ → Bool
  | .addEvent _ _ _ _ rt => rt
  | .delEvent _ _ rt => rt
  | .cancelEvent _ _ rt => rt
  | .cancelAll _ rt => rt
  | .idle _ _ rt => rt

theorem Effect.of_fails {W W' : Waiters σ φ κ} {o : Op σ φ κ} {r : Reply σ φ κ} (he : Effect W o r W')
    (hrt : o.rt = false) : W'.slot = W.slot ∧ r.scheduled = [] := by
  cases he with
  | quiet hslot => exact ⟨hslot, rfl⟩
  | add => cases hrt
  | drop => cases hrt
  | resume ho =>
    cases o <;> simp_all [Op.Resumes, Op.rt]

/-- **The bookkeeping of an `IOManager`.** In every reachable state the event bits, the contexts, the counter and the
registered masks agree, and an operation whose `epoll_ctl` fails changes none of them and schedules nothing. -/
theorem bookkeeping {mem : Memory} {h : List (Entry (IOManager σ φ κ) (Op σ φ κ) (Reply σ φ κ))} {m : IOManager σ φ κ}
    (hr : Run (machine mem σ φ κ) h m) :
    Bookkept m ∧ ∀ (o : Op σ φ κ) (r : Reply σ φ κ) (m' : IOManager σ φ κ), Allowed o → o.rt = false →
      step mem m o = .ok (r, m') → Unchanged m m' ∧ r.scheduled = [] := by
  obtain ⟨W, rfl⟩ := run_manager hr
  refine ⟨manager_bookkept W, fun o r m' ha hrt hs => ?_⟩
  obtain ⟨W', rfl, he⟩ := step_effect ha hs
  obtain ⟨hslot, hsched⟩ := he.of_fails hrt
  exact ⟨manager_unchanged hslot, hsched⟩

/-- A reader and a writer of one descriptor, a failed removal, and the reader resumed. -/
theorem bookkeeping_reader_writer :
    ∃ h m, Run (machine ⟨1024, by decide⟩ Nat Nat Nat) h m ∧ m.pendingEventCount = 1 ∧ m.epoll 5 = some 0x80000004#32 ∧
      Bookkept m := by
  obtain ⟨h, m, hr, hp⟩ := Run.of_replay (machine ⟨1024, by decide⟩ Nat Nat Nat) rfl
    [.addEvent 5 .read none ⟨some 0, 7, .exec⟩ true, .addEvent 5 .write (some 3) ⟨some 0, 7, .exec⟩ true,
      .delEvent 5 .write false, .idle 5 EPOLLIN true]
    (fun r => r.2.pendingEventCount == 1 && r.2.epoll 5 == some 0x80000004#32) (by decide)
  rw [Bool.and_eq_true, beq_iff_eq, beq_iff_eq] at hp
  exact ⟨h, m, hr, hp.1, hp.2, (bookkeeping hr).1⟩

end QWebServer.IOManager
