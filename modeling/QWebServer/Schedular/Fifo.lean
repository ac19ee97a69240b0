import QWebServer.Schedular.Affinity
import QWebServer.Schedular.Conservation
import QWebServer.Schedular.Pushes

/-!
# The order in which the workers take entries

* `serving` : the workers, and whatever is scheduled beside them;
* `callsFor` : the callbacks for one thread, or for any (-1), in their order;
* `asked`, `begun`, `started` : what `schedule` was given, what the scans took and what `swapIn` began, over a history;
* `Move.calls`, `Move.hand` : what one step does to them; `fifo` : over a run they are one queue for each thread;
* `Offered` : a scan by a worker that does not skip the entry, `bounded_wait` : it is taken after at most as many of
  these as there are entries ahead of it.
-/

namespace QWebServer.Schedular

open Lib

variable {τ κ : Type}

/-! ## Callbacks for a thread -/

def callFor (c : Int) (ft : FiberAndThread Addr κ) : Option κ :=
  if ft.fiber = none ∧ ft.thread = c then ft.cb else none

def callsFor (c : Int) (fts : List (FiberAndThread Addr κ)) : List κ := fts.filterMap (callFor c)

def callsIn (c : Int) (q : List (Item κ)) : List κ := callsFor c (q.map (·.ft))

@[simp] theorem callsIn_nil (c : Int) : callsIn c ([] : List (Item κ)) = [] := rfl

@[simp] theorem callsIn_append (c : Int) (p q : List (Item κ)) : callsIn c (p ++ q) = callsIn c p ++ callsIn c q := by
  simp [callsIn, callsFor]

theorem callsIn_cons (c : Int) (x : Item κ) (q : List (Item κ)) :
    callsIn c (x :: q) = callsIn c [x] ++ callsIn c q := callsIn_append c [x] q

theorem callsIn_other {c : Int} {x : Item κ} (hx : x.ft.thread ≠ c) : callsIn c [x] = [] := by
  simp [callsIn, callsFor, callFor, hx]

theorem map_numbered (n : Nat) (fts : List (FiberAndThread Addr κ)) : (numbered n fts).map (·.ft) = fts := by
  induction fts generalizing n with
  | nil => rfl
  | cons ft fts ih => rw [numbered, List.map_cons, ih]

/-- The empty entries that `scheduleNoLock` leaves out hold no callback. -/
theorem callsFor_nonempty (c : Int) (fts : List (FiberAndThread Addr κ)) :
    callsFor c (fts.filter (·.nonempty)) = callsFor c fts := by
  unfold callsFor
  rw [List.filterMap_filter]
  apply List.filterMap_congr
  intro ft _
  by_cases hne : ft.nonempty = true
  · rw [if_pos hne]
  · rw [if_neg hne]
    have hcb : ft.cb = none := by
      simp only [FiberAndThread.nonempty, Bool.or_eq_true, not_or, Option.not_isSome_iff_eq_none] at hne
      exact hne.2
    simp [callFor, hcb]

/-! ## What a step schedules, takes and starts -/

/-- The callbacks for `c` that a step is asked to schedule. -/
def Label.asks (c : Int) : Label τ κ → List κ
  | .schedule fts => callsFor c fts
  | _ => []

/-- The entry that a worker takes, where it goes from its scan to an entry in its hand. -/
def takes : Pc κ → Pc κ → Option (Item κ)
  | .scan, .taken x => some x
  | _, _ => none

/-- The entry whose fiber or callback a worker starts to execute. -/
def starts : Pc κ → Option (Item κ)
  | .load x _ _ => some x
  | _ => none

def takenBy (e : Entry (Schedular τ κ) (Label τ κ) Reply) : Option (Item κ) :=
  match e.inp with
  | .work t _ => takes (e.pre.workers t).pc (e.post.workers t).pc
  | _ => none

def startedBy (e : Entry (Schedular τ κ) (Label τ κ) Reply) : Option (Item κ) :=
  match e.inp with
  | .work t _ => starts (e.pre.workers t).pc
  | _ => none

/-- The callbacks for `c` given to `schedule`, in order. -/
def asked (c : Int) (h : List (Entry (Schedular τ κ) (Label τ κ) Reply)) : List κ :=
  h.flatMap fun e => e.inp.asks c

/-- The callbacks for `c` that scans took, in order. -/
def begun (c : Int) (h : List (Entry (Schedular τ κ) (Label τ κ) Reply)) : List κ :=
  callsIn c (h.filterMap takenBy)

/-- The callbacks for `c` that workers started to execute, in order. -/
def started (c : Int) (h : List (Entry (Schedular τ κ) (Label τ κ) Reply)) : List κ :=
  callsIn c (h.filterMap startedBy)

/-- The entry in a worker's hand that is not executed yet. -/
def Pc.pending : Pc κ → List (Item κ)
  | .taken x | .swapIn x _ _ | .load x _ _ => [x]
  | _ => []

/-! ## One step -/

theorem Scanned.calls {tid c : Int} {fibers : Addr → Fiber κ} {q rest : List (Item κ)} {taken : Option (Item κ)}
    (h : Scanned tid fibers q taken rest) : callsIn c q = callsIn c taken.toList ++ callsIn c rest := by
  cases taken with
  | none =>
    obtain ⟨rfl, -⟩ := h
    rfl
  | some x =>
    obtain ⟨p, r, rfl, rfl, hp, hx⟩ := h
    have hor : callsIn c [x] = [] ∨ callsIn c p = [] := by
      by_cases hc : x.ft.thread = c
      · right
        -- a skipped callback is for another thread than the worker's, and `x` is not
        rw [callsIn, callsFor, List.filterMap_map, List.filterMap_eq_nil_iff]
        intro y hy
        show callFor c y.ft = none
        unfold callFor
        rw [if_neg]
        rintro ⟨hfib, rfl⟩
        apply hx
        rcases hp y hy with hskip | ⟨f, hf, -⟩
        · unfold elsewhere at hskip
          rw [← hc] at hskip
          exact .inl hskip
        · rw [hfib] at hf
          cases hf
      · exact .inl (callsIn_other hc)
    rw [callsIn_append, callsIn_cons, callsIn_append, Option.toList_some]
    rcases hor with h | h <;> simp [h]

section
variable [DecidableEq τ] {ids : Threads τ} {s s' : Schedular τ κ} {l : Label τ κ} {r : Reply}

omit [DecidableEq τ] in
theorem callsFor_pushes (c : Int) (s : Schedular τ κ) (l : Label τ κ) : callsFor c (s.pushes l) = l.asks c := by
  cases l with
  | schedule fts => exact callsFor_nonempty c fts
  | trigger f => rfl
  | work t a =>
    simp only [pushes]
    split <;> rfl
  | newFiber | act => rfl

theorem takenBy_scan {t : τ} {a : Addr} {taken : Option (Item κ)} {rest : List (Item κ)} {tk : Bool}
    (hpc : (s.workers t).pc = .scan) (hscan : scan (ids.id t) s.fibers s.queue = .ok (taken, rest, tk))
    (h : step ids s (.work t a) = .ok (r, s')) : takenBy ⟨s, .work t a, r, s'⟩ = taken := by
  change s.work ids t a = _ at h
  unfold work at h
  simp only [hpc, hscan] at h
  cases taken with
  | none =>
    cases h
    simp [takenBy, takes, hpc]
  | some x =>
    cases h
    simp [takenBy, takes, hpc, goto_pc]

/-- **The queue of one thread**: a step appends what it is asked, and a scan takes the first. -/
theorem step_calls (c : Int) (hready : Ready s l) (h : step ids s l = .ok (r, s')) :
    callsIn c s.queue ++ l.asks c = callsIn c (takenBy ⟨s, l, r, s'⟩).toList ++ callsIn c s'.queue := by
  rcases step_queue hready h with ⟨hno, ⟨n, hq⟩, -⟩ | ⟨t, a, taken, rfl, hpc, hscan, -⟩
  · have htaken : takenBy ⟨s, l, r, s'⟩ = none := by
      cases l with
      | work t a =>
        have := hno t a rfl
        unfold takenBy takes
        split <;> simp_all
      | _ => rfl
    rw [htaken, hq, callsIn_append, callsIn.eq_def c (numbered _ _), map_numbered, callsFor_pushes]
    rfl
  · rw [takenBy_scan hpc hscan h]
    show callsIn c s.queue ++ [] = _
    rw [List.append_nil]
    exact (scan_spec hscan).calls

omit [DecidableEq τ] in
theorem takenBy_of_ne {t : τ} {a : Addr} {pc : Pc κ} (hpc : (s.workers t).pc = pc) (hscan : pc.scans = false) :
    takenBy ⟨s, .work t a, r, s'⟩ = none := by
  cases pc <;> simp_all [takenBy, takes, Pc.scans]

/-- **The hand of a worker**: it holds what the worker has taken and not started, less the entries it drops. -/
theorem Move.hand (c : Int) {t : τ} {a : Addr} (hm : Move ids s (.work t a) r s') :
    callsIn c (s.workers t).pc.pending ++ callsIn c (takenBy ⟨s, .work t a, r, s'⟩).toList =
      callsIn c (startedBy ⟨s, .work t a, r, s'⟩).toList ++ callsIn c (s'.workers t).pc.pending := by
  cases hm with
  | idle hpc => simp [hpc, takenBy, takes, startedBy, starts, Pc.pending]
  | take hpc => simp [hpc, takenBy, takes, startedBy, starts, Pc.pending, goto_pc]
  | @drop _ _ x hpc hcb =>
    have hx : callsIn c [x] = [] := by simp [callsIn, callsFor, callFor, hcb]
    simp [hpc, takenBy_of_ne hpc rfl, startedBy, starts, Pc.pending, goto_pc, hx]
  | create hpc =>
    rw [create_workers]
    simp [hpc, takenBy_of_ne hpc rfl, startedBy, starts, Pc.pending]
  | requeue hpc | update hpc =>
    rw [release_workers]
    simp [hpc, takenBy_of_ne hpc rfl, startedBy, starts, Pc.pending]
  | resume hpc | reuse hpc | enter hpc | load hpc | save hpc | leave hpc | checkReady hpc | checkEnd hpc | checkHold hpc
  | recycle hpc | forget hpc | discard hpc =>
    simp [hpc, takenBy_of_ne hpc rfl, startedBy, starts, Pc.pending, goto_pc]

theorem Move.pending {t : τ} {a : Addr} (hm : Move ids s (.work t a) r s') {x : Item κ}
    (hx : x ∈ (s'.workers t).pc.pending) :
    x ∈ (s.workers t).pc.pending ∨ takenBy ⟨s, .work t a, r, s'⟩ = some x := by
  cases hm with
  | idle hpc => exact .inl hx
  | take hpc =>
    rw [goto_pc] at hx
    cases List.mem_singleton.mp hx
    right
    simp [takenBy, takes, hpc, goto_pc]
  | create hpc =>
    rw [create_workers, Function.update_self] at hx
    rw [hpc]
    exact .inl hx
  | requeue hpc | update hpc =>
    rw [release_workers, Function.update_self] at hx
    cases hx
  | resume hpc | reuse hpc | enter hpc =>
    rw [goto_pc] at hx
    rw [hpc]
    exact .inl hx
  | drop hpc | load hpc | save hpc | leave hpc | checkReady hpc | checkEnd hpc | checkHold hpc | recycle hpc
  | forget hpc | discard hpc =>
    rw [goto_pc] at hx
    cases hx

theorem Move.taken {t : τ} {a : Addr} (hm : Move ids s (.work t a) r s') {x : Item κ}
    (hx : takenBy ⟨s, .work t a, r, s'⟩ = some x) : ¬ Skips (ids.id t) s.fibers x := by
  cases hm with
  | idle hpc => simp [takenBy, takes, hpc] at hx
  | @take _ _ y rest tk hpc hscan =>
    obtain ⟨p, q, -, -, -, hy⟩ := hscan
    have hxy : y = x := by simpa [takenBy, takes, hpc, goto_pc] using hx
    rwa [← hxy]
  | resume hpc | reuse hpc | create hpc | drop hpc | enter hpc | load hpc | save hpc | leave hpc | checkReady hpc
  | checkEnd hpc | checkHold hpc | requeue hpc | recycle hpc | forget hpc | update hpc | discard hpc =>
    rw [takenBy_of_ne hpc rfl] at hx
    cases hx

theorem step_pending (hready : Ready s l) (h : step ids s l = .ok (r, s')) {u : τ} (hu : ∀ a, l ≠ .work u a) :
    (s'.workers u).pc.pending = (s.workers u).pc.pending := by
  by_cases hact : ∃ x, l = .act u x
  · obtain ⟨x, rfl⟩ := hact
    have hm := step_move hready h
    cases hm with
    | publish hpc | hold hpc | ready hpc | throw hpc | finish hpc => rw [goto_pc, hpc]; rfl
  · rw [step_workers hready h hu fun x hx => hact ⟨x, hx⟩]

omit [DecidableEq τ] in
/-- What one worker may take is no callback for another one. -/
theorem callsIn_elsewhere {t v : τ} (hv : v ≠ t) {x : Item κ} (hx : ¬ elsewhere (ids.id v) x) :
    callsIn (ids.id t) [x] = [] := by
  apply callsIn_other
  intro hthread
  apply hx
  unfold elsewhere
  rw [hthread]
  refine ⟨?_, fun h => hv (ids.inj h).symm⟩
  have := (ids.range t).1
  omega

/-! ## Runs -/

def serving (ids : Threads τ) : Machine (Schedular τ κ) (Label τ κ) Reply Fault where
  init := fun s => s = {}
  enabled := Allowed
  step := step ids

instance (ids : Threads τ) (s : Schedular τ κ) (l : Label τ κ) : Decidable ((serving ids).enabled s l) :=
  inferInstanceAs (Decidable (Allowed s l))

/-- The callbacks for a thread are one queue, and in the hand of a worker is what it may take. -/
structure Orderly (ids : Threads τ) (h : List (Entry (Schedular τ κ) (Label τ κ) Reply)) (s : Schedular τ κ) :
    Prop where
  taken : ∀ c, asked c h = begun c h ++ callsIn c s.queue
  own : ∀ t, ∀ x ∈ (s.workers t).pc.pending, ¬ elsewhere (ids.id t) x
  started : ∀ t, begun (ids.id t) h = started (ids.id t) h ++ callsIn (ids.id t) (s.workers t).pc.pending

omit [DecidableEq τ] in
theorem filterMap_snoc {α β : Type} (f : α → Option β) (l : List α) (a : α) :
    (l ++ [a]).filterMap f = l.filterMap f ++ (f a).toList := by
  rw [List.filterMap_append]
  cases hf : f a <;> simp [hf]

omit [DecidableEq τ] in
theorem asked_snoc (c : Int) (h : List (Entry (Schedular τ κ) (Label τ κ) Reply)) (e) :
    asked c (h ++ [e]) = asked c h ++ e.inp.asks c := by
  simp [asked]

omit [DecidableEq τ] in
theorem begun_snoc (c : Int) (h : List (Entry (Schedular τ κ) (Label τ κ) Reply)) (e) :
    begun c (h ++ [e]) = begun c h ++ callsIn c (takenBy e).toList := by
  rw [begun, filterMap_snoc, callsIn_append, begun]

omit [DecidableEq τ] in
theorem started_snoc (c : Int) (h : List (Entry (Schedular τ κ) (Label τ κ) Reply)) (e) :
    started c (h ++ [e]) = started c h ++ callsIn c (startedBy e).toList := by
  rw [started, filterMap_snoc, callsIn_append, started]

/-- What one worker takes and starts is no callback for another one. -/
theorem Orderly.foreign {h : List (Entry (Schedular τ κ) (Label τ κ) Reply)} (ho : Orderly ids h s) {t v : τ}
    (hv : v ≠ t) {a : Addr} (hm : Move ids s (.work v a) r s') :
    callsIn (ids.id t) (takenBy ⟨s, .work v a, r, s'⟩).toList = [] ∧
      callsIn (ids.id t) (startedBy ⟨s, .work v a, r, s'⟩).toList = [] := by
  constructor
  · cases hx : takenBy ⟨s, .work v a, r, s'⟩ with
    | none => rfl
    | some x => exact callsIn_elsewhere hv fun he => hm.taken hx (.inl he)
  · cases hx : startedBy ⟨s, .work v a, r, s'⟩ with
    | none => rfl
    | some x =>
      apply callsIn_elsewhere hv
      apply ho.own v
      simp only [startedBy] at hx
      cases hpc : (s.workers v).pc <;> simp_all [starts, Pc.pending]

theorem Orderly.step {h : List (Entry (Schedular τ κ) (Label τ κ) Reply)} (ho : Orderly ids h s) (hready : Ready s l)
    (hs : step ids s l = .ok (r, s')) : Orderly ids (h ++ [⟨s, l, r, s'⟩]) s' := by
  constructor
  · intro c
    calc asked c (h ++ [⟨s, l, r, s'⟩])
        = begun c h ++ (callsIn c s.queue ++ l.asks c) := by rw [asked_snoc, ho.taken, List.append_assoc]
      _ = begun c h ++ (callsIn c (takenBy ⟨s, l, r, s'⟩).toList ++ callsIn c s'.queue) := by
        rw [step_calls c hready hs]
      _ = begun c (h ++ [⟨s, l, r, s'⟩]) ++ callsIn c s'.queue := by rw [begun_snoc, List.append_assoc]
  · intro t x hx
    by_cases hl : ∃ a, l = .work t a
    · obtain ⟨a, rfl⟩ := hl
      have hm := step_move hready hs
      rcases hm.pending hx with hold | hnew
      · exact ho.own t x hold
      · exact fun he => hm.taken hnew (.inl he)
    · rw [step_pending hready hs fun a ha => hl ⟨a, ha⟩] at hx
      exact ho.own t x hx
  · intro t
    rw [begun_snoc, started_snoc, ho.started, List.append_assoc, List.append_assoc]
    congr 1
    cases l with
    | work v a =>
      have hm := step_move hready hs
      by_cases hv : v = t
      · subst hv
        exact hm.hand _
      · obtain ⟨htaken, hstarted⟩ := ho.foreign hv hm
        rw [htaken, hstarted, step_pending hready hs fun b hb => hv (Label.work.inj hb).1]
        simp
    | _ =>
      rw [step_pending hready hs fun _ => nofun]
      simp [takenBy, startedBy]

theorem orderly {h : List (Entry (Schedular τ κ) (Label τ κ) Reply)} (hr : Run (serving ids) h s) :
    Orderly ids h s := by
  induction hr with
  | start hs =>
    cases hs
    exact ⟨fun _ => rfl, fun _ _ hx => (List.not_mem_nil hx).elim, fun _ => rfl⟩
  | step _ he hs ih => exact ih.step (Allowed.ready he) hs

/-- **First in, first out.** The scans take the callbacks for a thread, or for any, in the order in which they were
scheduled, and each worker starts the callbacks for its own thread in that order: what was scheduled is what was
started, then what the worker has in its hand, then what is queued. -/
theorem fifo (ids : Threads τ) {h : List (Entry (Schedular τ κ) (Label τ κ) Reply)} {s : Schedular τ κ}
    (hr : Run (serving ids) h s) :
    (∀ c, asked c h = begun c h ++ callsIn c s.queue) ∧
      ∀ t, asked (ids.id t) h = started (ids.id t) h ++ callsIn (ids.id t) (s.workers t).pc.pending ++
        callsIn (ids.id t) s.queue := by
  have ho := orderly hr
  refine ⟨ho.taken, fun t => ?_⟩
  rw [ho.taken, ho.started]

/-- The worker `false` starts the callbacks 1 and 3 for its thread; 0 is for the other one and 2 for any. -/
theorem fifo_twoThreads : ∃ h s, Run (serving (κ := Nat) twoThreads) h s ∧ asked 1 h = [1, 3] ∧ started 1 h = [1] ∧
    callsIn 1 (s.workers false).pc.pending = [] ∧ callsIn 1 s.queue = [3] ∧
    asked 1 h = started 1 h ++ callsIn 1 (s.workers false).pc.pending ++ callsIn 1 s.queue := by
  obtain ⟨h, s, hr, hp⟩ := Run.of_replay (serving (κ := Nat) twoThreads) rfl
    (.schedule [{ cb := some 0, thread := 2 }, { cb := some 1, thread := 1 }, { cb := some 2 }] ::
      .schedule [{ cb := some 3, thread := 1 }] :: .work false 1 :: .work false 1 ::
        List.replicate 2 (.work false 2))
    (fun r => decide (asked 1 r.1 = [1, 3] ∧ started 1 r.1 = [1] ∧
      callsIn 1 (r.2.workers false).pc.pending = [] ∧ callsIn 1 r.2.queue = [3])) (by decide)
  obtain ⟨hask, hstart, hhand, hqueue⟩ := of_decide_eq_true hp
  exact ⟨h, s, hr, hask, hstart, hhand, hqueue, (fifo twoThreads hr).2 false⟩

/-! ## Waiting -/

/-- The step is a scan by a worker that does not skip the entry. -/
def offers (ids : Threads τ) (x : Item κ) (e : Entry (Schedular τ κ) (Label τ κ) Reply) : Bool :=
  match e.inp with
  | .work t _ => (e.pre.workers t).pc.scans && !decide (Skips (ids.id t) e.pre.fibers x)
  | _ => false

omit [DecidableEq τ] in
/-- A scan that does not skip the entry takes it or one ahead of it. -/
theorem Scanned.ahead {tid : Int} {fibers : Addr → Fiber κ} {p q rest : List (Item κ)} {x : Item κ}
    {taken : Option (Item κ)} (h : Scanned tid fibers (p ++ x :: q) taken rest) :
    taken = some x ∨ ∃ p' q', rest = p' ++ x :: q' ∧
      (if Skips tid fibers x then p'.length ≤ p.length else p'.length < p.length) := by
  cases taken with
  | none =>
    obtain ⟨rfl, hskip⟩ := h
    right
    refine ⟨p, q, rfl, ?_⟩
    rw [if_pos (hskip x (by simp))]
  | some y =>
    obtain ⟨p₁, r₁, heq, rfl, hskip, -⟩ := h
    rcases List.append_eq_append_iff.mp heq with ⟨m, rfl, hm⟩ | ⟨m, rfl, hm⟩
    · cases m with
      | nil =>
        obtain ⟨rfl, -⟩ := List.cons.inj hm
        exact .inl rfl
      | cons z m =>
        obtain ⟨rfl, rfl⟩ := List.cons.inj hm
        right
        refine ⟨p, m ++ r₁, by simp, ?_⟩
        rw [if_pos (hskip x (by simp))]
    · cases m with
      | nil =>
        obtain ⟨rfl, -⟩ := List.cons.inj hm
        exact .inl rfl
      | cons z m =>
        obtain ⟨rfl, rfl⟩ := List.cons.inj hm
        right
        refine ⟨p₁ ++ m, q, by simp, ?_⟩
        split_ifs <;> simp only [List.length_append, List.length_cons] <;> omega

/-- A step takes the entry, or leaves it in the queue, and one ahead of it is gone if the step offers it. -/
theorem step_ahead (hready : Ready s l) (h : step ids s l = .ok (r, s')) {p q : List (Item κ)} {x : Item κ}
    (hq : s.queue = p ++ x :: q) :
    takenBy ⟨s, l, r, s'⟩ = some x ∨ ∃ p' q', s'.queue = p' ++ x :: q' ∧
      p'.length + (offers ids x ⟨s, l, r, s'⟩).toNat ≤ p.length := by
  rcases step_queue hready h with ⟨hno, ⟨n, hq'⟩, -⟩ | ⟨t, a, taken, rfl, hpc, hscan, -⟩
  · right
    have hoff : offers ids x ⟨s, l, r, s'⟩ = false := by
      cases l with
      | work t a =>
        have hne := hno t a rfl
        simp only [offers]
        cases hpc : (s.workers t).pc with
        | scan => exact absurd hpc hne
        | _ => rfl
      | _ => rfl
    refine ⟨p, q ++ numbered n (s.pushes l), ?_, ?_⟩
    · rw [hq', hq, List.append_assoc, List.cons_append]
    · rw [hoff]
      exact le_rfl
  · rw [takenBy_scan hpc hscan h]
    have hs := scan_spec hscan
    rw [hq] at hs
    rcases hs.ahead with htaken | ⟨p', q', hrest, hlen⟩
    · exact .inl htaken
    · refine .inr ⟨p', q', hrest, ?_⟩
      simp only [offers, hpc, Pc.scans, Bool.true_and]
      split_ifs at hlen with hskip
      · simpa [hskip] using hlen
      · simpa [hskip] using hlen

/-- An entry waits for no more scans that do not skip it than there are entries ahead of it. -/
theorem waits {h h' : List (Entry (Schedular τ κ) (Label τ κ) Reply)} (hr : Run (serving ids) h s)
    {p q : List (Item κ)} {x : Item κ} (hq : s.queue = p ++ x :: q) (hr' : Run (serving ids) (h ++ h') s') :
    x ∈ h'.filterMap takenBy ∨
      ∃ p' q', s'.queue = p' ++ x :: q' ∧ p'.length + h'.countP (offers ids x) ≤ p.length := by
  induction h' using List.reverseRecOn generalizing s' with
  | nil =>
    rw [List.append_nil] at hr'
    have hs : s' = s := Run.unique (M := serving ids) (by rintro _ _ rfl rfl; rfl) hr' hr
    exact .inr ⟨p, q, by rw [hs, hq], by simp⟩
  | append_singleton h' e ih =>
    rw [← List.append_assoc] at hr'
    obtain ⟨hr₁, ⟨hen, hstep⟩, rfl⟩ := hr'.last
    rw [filterMap_snoc, List.countP_append]
    rcases ih hr₁ with hmem | ⟨p₁, q₁, hq₁, hlen⟩
    · exact .inl (List.mem_append_left _ hmem)
    · rcases step_ahead (Allowed.ready hen) hstep hq₁ with htaken | ⟨p', q', hq', hlen'⟩
      · left
        rw [List.mem_append, htaken]
        simp
      · right
        refine ⟨p', q', hq', ?_⟩
        have hone : [e].countP (offers ids x) = (offers ids x e).toNat := by
          cases hoff : offers ids x e <;> simp [hoff]
        rw [hone]
        change p'.length + (offers ids x e).toNat ≤ p₁.length at hlen'
        omega

/-- **Bounded waiting.** An entry with `p` ahead of it is taken at the latest by the scan number `p.length + 1` of those
that do not skip it, whatever is scheduled meanwhile. -/
theorem bounded_wait (ids : Threads τ) {h h' : List (Entry (Schedular τ κ) (Label τ κ) Reply)} {s s' : Schedular τ κ}
    (hr : Run (serving ids) h s) {p q : List (Item κ)} {x : Item κ} (hq : s.queue = p ++ x :: q)
    (hr' : Run (serving ids) (h ++ h') s') (hoff : p.length < h'.countP (offers ids x)) :
    x ∈ h'.filterMap takenBy := by
  rcases waits hr hq hr' with hmem | ⟨p', q', -, hlen⟩
  · exact hmem
  · omega

end

/-- Two entries are scheduled and both workers scan: the second entry is taken. -/
theorem bounded_wait_twoThreads : ∃ h h' s s' y x, Run (serving (κ := Nat) twoThreads) h s ∧ s.queue = [y] ++ [x] ∧
    Run (serving twoThreads) (h ++ h') s' ∧ h'.countP (offers twoThreads x) = 2 ∧ x ∈ h'.filterMap takenBy := by
  obtain ⟨h, s', hr', hp⟩ := Run.of_replay (serving (κ := Nat) twoThreads) rfl
    [.schedule [{ cb := some 0 }, { cb := some 1 }], .work false 1, .work true 1]
    (fun r => decide (r.1.length = 3) && r.1[1]?.any fun (e : Entry (Schedular Bool Nat) (Label Bool Nat) Reply) =>
      decide (e.pre.queue.length = 2) && e.pre.queue[1]?.any fun x =>
        decide ((r.1.drop 1).countP (offers twoThreads x) = 2)) (by decide)
  rw [Bool.and_eq_true] at hp
  obtain ⟨e₀, e₁, e₂, hh⟩ := List.length_eq_three.mp (of_decide_eq_true hp.1)
  change h = _ at hh
  subst hh
  have hp₁ : (decide (e₁.pre.queue.length = 2) &&
      e₁.pre.queue[1]?.any fun x => decide ([e₁, e₂].countP (offers twoThreads x) = 2)) = true := hp.2
  rw [Bool.and_eq_true] at hp₁
  obtain ⟨y, x, hq⟩ := List.length_eq_two.mp (of_decide_eq_true hp₁.1)
  have hcount : [e₁, e₂].countP (offers twoThreads x) = 2 := by
    have hx := hp₁.2
    rw [hq] at hx
    exact of_decide_eq_true hx
  have hh : [e₀, e₁, e₂] = [e₀] ++ e₁ :: [e₂] := rfl
  have hr : Run (serving twoThreads) [e₀] e₁.pre := (hr'.cut hh).1
  have hlt : [y].length < [e₁, e₂].countP (offers twoThreads x) := by
    rw [hcount]
    exact Nat.one_lt_two
  exact ⟨[e₀], [e₁, e₂], e₁.pre, s', y, x, hr, hq, hr', hcount, bounded_wait twoThreads hr hq hr' hlt⟩

end QWebServer.Schedular
