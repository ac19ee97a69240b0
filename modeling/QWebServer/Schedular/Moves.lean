import QWebServer.Schedular.Model

/-!
# The moves of a scheduler

* `Holds` : a worker has a fiber in its hand, as the fiber it works on or as its `cb_fiber`;
* `Ready` : the labels that a worker and its fiber are ready for;
* `Move` : every step there is, with its guard and the state it leads to, `step_move` : there is no other;
* `Scanned`, `scan_spec` : what the locked loop takes and leaves.
-/

namespace QWebServer.Schedular

open Lib

variable {τ κ : Type}

def Pc.fiber : Pc κ → Option Addr
  | .scan => none
  | .taken x => x.ft.fiber
  | .swapIn _ f _ => some f
  | .load _ f _ => some f
  | .exec f _ _ => some f
  | .back f _ _ => some f
  | .check f _ _ => some f
  | .requeue f _ => some f
  | .recycle f _ => some f
  | .update f _ => some f
  | .discard => none

def Pc.scans : Pc κ → Bool
  | .scan => true
  | _ => false

/-- The worker `t` has the fiber `f` in its hand. -/
def Holds (s : Schedular τ κ) (t : τ) (f : Addr) : Prop :=
  (s.workers t).pc.fiber = some f ∨ (s.workers t).cbFiber = some f

/-- The worker skips the entry. -/
def Skips (tid : Int) (fibers : Addr → Fiber κ) (x : Item κ) : Prop := elsewhere tid x ∨ executing fibers x

instance (tid : Int) (fibers : Addr → Fiber κ) (x : Item κ) : Decidable (Skips tid fibers x) :=
  inferInstanceAs (Decidable (_ ∨ _))

/-- What the locked loop takes from the queue `q` and leaves of it. -/
def Scanned (tid : Int) (fibers : Addr → Fiber κ) (q : List (Item κ)) : Option (Item κ) → List (Item κ) → Prop
  | none, rest => rest = q ∧ ∀ y ∈ q, Skips tid fibers y
  | some x, rest => ∃ p r, q = p ++ x :: r ∧ rest = p ++ r ∧ (∀ y ∈ p, Skips tid fibers y) ∧ ¬ Skips tid fibers x

theorem Scanned.cons {tid : Int} {fibers : Addr → Fiber κ} {q rest : List (Item κ)} {taken : Option (Item κ)}
    {y : Item κ} (h : Scanned tid fibers q taken rest) (hy : Skips tid fibers y) :
    Scanned tid fibers (y :: q) taken (y :: rest) := by
  cases taken with
  | none =>
    obtain ⟨rfl, hq⟩ := h
    exact ⟨rfl, by simpa using ⟨hy, hq⟩⟩
  | some z =>
    obtain ⟨p, r, rfl, rfl, hp, hz⟩ := h
    exact ⟨y :: p, r, rfl, rfl, by simpa using ⟨hy, hp⟩, hz⟩

theorem scan_spec {tid : Int} {fibers : Addr → Fiber κ} {q rest : List (Item κ)} {taken : Option (Item κ)} {tk : Bool}
    (h : scan tid fibers q = .ok (taken, rest, tk)) : Scanned tid fibers q taken rest := by
  induction q generalizing taken rest tk with
  | nil =>
    cases h
    exact ⟨rfl, by simp⟩
  | cons x xs ih =>
    rw [scan] at h
    split_ifs at h with he hne hx
    · obtain ⟨⟨taken', rest', tk'⟩, h', hr⟩ := bind_eq_ok h
      cases hr
      exact (ih h').cons (.inl he)
    · obtain ⟨⟨taken', rest', tk'⟩, h', hr⟩ := bind_eq_ok h
      cases hr
      exact (ih h').cons (.inr hx)
    · cases h
      exact ⟨[], xs, rfl, rfl, by simp, fun h => h.elim he hx⟩

/-- The assertion of the locked loop holds where no entry is empty. -/
theorem scan_ok {tid : Int} {fibers : Addr → Fiber κ} {q : List (Item κ)} (hq : ∀ x ∈ q, x.ft.nonempty = true) :
    ∃ r, scan tid fibers q = .ok r := by
  induction q with
  | nil => exact ⟨_, rfl⟩
  | cons x xs ih =>
    obtain ⟨r, hr⟩ := ih fun y hy => hq y (by simp [hy])
    have hx := hq x (by simp)
    rw [scan, hr]
    split_ifs with he hne hexec
    · exact ⟨_, rfl⟩
    · rw [hx] at hne
      cases hne
    · exact ⟨_, rfl⟩
    · exact ⟨_, rfl⟩

/-- The entries `fts` in list nodes numbered from `n` on. -/
def numbered (n : Nat) : List (FiberAndThread Addr κ) → List (Item κ)
  | [] => []
  | ft :: fts => ⟨n, ft⟩ :: numbered (n + 1) fts

theorem schedule_eq (s : Schedular τ κ) (fts : List (FiberAndThread Addr κ)) :
    (s.schedule fts).2 = { s with
      queue := s.queue ++ numbered s.pushed (fts.filter (·.nonempty))
      pushed := s.pushed + (fts.filter (·.nonempty)).length } := by
  induction fts generalizing s with
  | nil => simp [schedule, numbered]
  | cons ft fts ih =>
    show ((s.scheduleNoLock ft).2.schedule fts).2 = _
    rw [ih]
    cases hne : ft.nonempty <;>
      simp [scheduleNoLock, push, hne, numbered, Nat.add_assoc, Nat.add_comm 1]

/-! ## Moves -/

section
variable [DecidableEq τ]

def Pc.works : Pc κ → Bool
  | .exec _ _ .running => false
  | .exec _ _ .published => false
  | _ => true

/-- The next step may be `x` by the fiber: anything while it runs, and `YieldToHold` once it is published. -/
def Pc.acts (x : Act) : Pc κ → Bool
  | .exec _ _ .running => true
  | .exec _ _ .published => x = .yieldToHold
  | _ => false

/-- The worker or its fiber is ready for the step; a new fiber is at a new address. -/
def Ready (s : Schedular τ κ) : Label τ κ → Prop
  | .work t a => a ∉ s.created ∧ (s.workers t).pc.works = true
  | .act t x => (s.workers t).pc.acts x = true
  | _ => True

instance (s : Schedular τ κ) : (l : Label τ κ) → Decidable (Ready s l)
  | .work _ _ => inferInstanceAs (Decidable (_ ∧ _))
  | .act _ _ => inferInstanceAs (Decidable (_ = true))
  | .schedule _ => isTrue trivial
  | .newFiber _ _ => isTrue trivial
  | .trigger _ => isTrue trivial

/-- The moves. -/
inductive Move (ids : Threads τ) (s : Schedular τ κ) : Label τ κ → Reply → Schedular τ κ → Prop
  | schedule (fts : List (FiberAndThread Addr κ)) :
      Move ids s (.schedule fts) { tickle := (s.schedule fts).1 } (s.schedule fts).2
  | newFiber (a : Addr) (cb : Option κ) : Move ids s (.newFiber a cb) {} (s.newFiber a cb)
  | trigger (f : Addr) :
      Move ids s (.trigger f) { tickle := s.queue.isEmpty }
        ({ s with waiting := s.waiting.erase f }.push { fiber := some f })
  | idle {t : τ} {a : Addr} {rest : List (Item κ)} {tk : Bool} (hpc : (s.workers t).pc = .scan)
      (hscan : Scanned (ids.id t) s.fibers s.queue none rest) :
      Move ids s (.work t a) { tickle := tk } { s with queue := rest }
  | take {t : τ} {a : Addr} {x : Item κ} {rest : List (Item κ)} {tk : Bool} (hpc : (s.workers t).pc = .scan)
      (hscan : Scanned (ids.id t) s.fibers s.queue (some x) rest) :
      Move ids s (.work t a) { tickle := tk }
        ({ s with queue := rest, activeThreadCount := s.activeThreadCount + 1 }.goto t (.taken x))
  | resume {t : τ} {a : Addr} {x : Item κ} {f : Addr} (hpc : (s.workers t).pc = .taken x) (hf : x.ft.fiber = some f)
      (hrun : (s.fibers f).state ≠ .term ∧ (s.fibers f).state ≠ .except) :
      Move ids s (.work t a) {} (s.goto t (.swapIn x f false))
  | reuse {t : τ} {a : Addr} {x : Item κ} {f : Addr} (hpc : (s.workers t).pc = .taken x) (hx : x.ft.cb.isSome = true)
      (hcb : (s.workers t).cbFiber = some f) :
      Move ids s (.work t a) {}
        ((s.setFiber f { state := .init, cb := x.ft.cb, saved := true }).goto t (.swapIn x f true))
  | create {t : τ} {a : Addr} {x : Item κ} (hpc : (s.workers t).pc = .taken x) (hx : x.ft.cb.isSome = true)
      (hcb : (s.workers t).cbFiber = none) (ha : a ∉ s.created) :
      Move ids s (.work t a) {}
        (((s.newFiber a x.ft.cb).setCbFiber t (some a)).goto t (.swapIn x a true))
  | drop {t : τ} {a : Addr} {x : Item κ} (hpc : (s.workers t).pc = .taken x) (hcb : x.ft.cb = none)
      (hdone : ∀ f, x.ft.fiber = some f → (s.fibers f).state = .term ∨ (s.fibers f).state = .except) :
      Move ids s (.work t a) { dropped := [x.node] } (s.goto t .discard)
  | enter {t : τ} {a : Addr} {x : Item κ} {f : Addr} {via : Bool} (hpc : (s.workers t).pc = .swapIn x f via) :
      Move ids s (.work t a) {} ((s.setState f .exec).goto t (.load x f via))
  | load {t : τ} {a : Addr} {x : Item κ} {f : Addr} {via : Bool} (hpc : (s.workers t).pc = .load x f via) :
      Move ids s (.work t a) { executed := [x.node] }
        ((s.setFiber f { s.fibers f with saved := false }).goto t (.exec f via .running))
  | save {t : τ} {a : Addr} {f : Addr} {via : Bool} {o : Fiber.State}
      (hpc : (s.workers t).pc = .exec f via (.leaving o)) :
      Move ids s (.work t a) {}
        ((s.setFiber f { s.fibers f with saved := true }).goto t (.back f via o))
  | leave {t : τ} {a : Addr} {f : Addr} {via : Bool} {o : Fiber.State} (hpc : (s.workers t).pc = .back f via o) :
      Move ids s (.work t a) {}
        ({ s with activeThreadCount := s.activeThreadCount - 1 }.goto t (.check f via o))
  | checkReady {t : τ} {a : Addr} {f : Addr} {via : Bool} {o : Fiber.State} (hpc : (s.workers t).pc = .check f via o)
      (hst : (s.fibers f).state = .ready) : Move ids s (.work t a) {} (s.goto t (.requeue f via))
  | checkEnd {t : τ} {a : Addr} {f : Addr} {via : Bool} {o : Fiber.State} (hpc : (s.workers t).pc = .check f via o)
      (hst : (s.fibers f).state = .term ∨ (s.fibers f).state = .except) :
      Move ids s (.work t a) {} (s.goto t (.recycle f via))
  | checkHold {t : τ} {a : Addr} {f : Addr} {via : Bool} {o : Fiber.State} (hpc : (s.workers t).pc = .check f via o)
      (hready : (s.fibers f).state ≠ .ready)
      (hend : ¬ ((s.fibers f).state = .term ∨ (s.fibers f).state = .except)) :
      Move ids s (.work t a) {} (s.goto t (.update f via))
  | requeue {t : τ} {a : Addr} {f : Addr} {via : Bool} (hpc : (s.workers t).pc = .requeue f via) :
      Move ids s (.work t a) { tickle := s.queue.isEmpty, requeued := [f] }
        (((s.push { fiber := some f }).release t via).goto t .scan)
  | recycle {t : τ} {a : Addr} {f : Addr} (hpc : (s.workers t).pc = .recycle f true) :
      Move ids s (.work t a) {} ((s.setFiber f { state := .init, cb := none, saved := true }).goto t .scan)
  | forget {t : τ} {a : Addr} {f : Addr} (hpc : (s.workers t).pc = .recycle f false) :
      Move ids s (.work t a) {} (s.goto t .scan)
  | update {t : τ} {a : Addr} {f : Addr} {via : Bool} (hpc : (s.workers t).pc = .update f via) :
      Move ids s (.work t a) {} (((s.setState f .hold).release t via).goto t .scan)
  | discard {t : τ} {a : Addr} (hpc : (s.workers t).pc = .discard) :
      Move ids s (.work t a) {} ({ s with activeThreadCount := s.activeThreadCount - 1 }.goto t .scan)
  | publish {t : τ} {f : Addr} {via : Bool} (hpc : (s.workers t).pc = .exec f via .running) :
      Move ids s (.act t .publish) {} ({ s with waiting := f :: s.waiting }.goto t (.exec f via .published))
  | hold {t : τ} {f : Addr} {via : Bool} {p : Phase} (hpc : (s.workers t).pc = .exec f via p)
      (hp : p = .running ∨ p = .published) :
      Move ids s (.act t .yieldToHold) {} ((s.setState f .hold).goto t (.exec f via (.leaving .hold)))
  | ready {t : τ} {f : Addr} {via : Bool} (hpc : (s.workers t).pc = .exec f via .running) :
      Move ids s (.act t .yieldToReady) { readied := [f] }
        ((s.setState f .ready).goto t (.exec f via (.leaving .ready)))
  | throw {t : τ} {f : Addr} {via : Bool} (hpc : (s.workers t).pc = .exec f via .running) :
      Move ids s (.act t (.finish true)) {} ((s.setState f .except).goto t (.exec f via (.leaving .except)))
  | finish {t : τ} {f : Addr} {via : Bool} (hpc : (s.workers t).pc = .exec f via .running) :
      Move ids s (.act t (.finish false)) {}
        ((s.setFiber f { s.fibers f with state := .term, cb := none }).goto t (.exec f via (.leaving .term)))

theorem release_workers (s : Schedular τ κ) (t : τ) (via : Bool) (pc : Pc κ) :
    ((s.release t via).goto t pc).workers =
      Function.update s.workers t ⟨pc, if via then none else (s.workers t).cbFiber⟩ := by
  cases via <;> simp [Schedular.release, goto, setCbFiber]

theorem create_workers (s : Schedular τ κ) (t : τ) (a : Addr) (cb : Option κ) (pc : Pc κ) :
    (((s.newFiber a cb).setCbFiber t (some a)).goto t pc).workers = Function.update s.workers t ⟨pc, some a⟩ := by
  simp [goto, setCbFiber, Schedular.newFiber, setFiber]

theorem dispatch_move {ids : Threads τ} {s s' : Schedular τ κ} {t : τ} {a : Addr} {x : Item κ} {r : Reply}
    (ha : a ∉ s.created) (hpc : (s.workers t).pc = .taken x) (h : s.dispatch t x a = .ok (r, s')) :
    Move ids s (.work t a) r s' := by
  unfold dispatch at h
  dsimp only at h
  cases hrun : x.ft.fiber.filter fun f => (s.fibers f).state ≠ .term ∧ (s.fibers f).state ≠ .except with
  | some f =>
    rw [hrun] at h
    cases h
    obtain ⟨hf, hst⟩ := Option.filter_eq_some_iff.mp hrun
    exact .resume hpc hf (by simpa using hst)
  | none =>
    rw [hrun] at h
    cases hcb : x.ft.cb with
    | none =>
      simp only [hcb, Option.isSome_none, Bool.false_eq_true, if_false] at h
      cases h
      refine .drop hpc hcb fun f hf => ?_
      have := Option.filter_eq_none_iff.mp hrun f hf
      simpa [← not_and_or, imp_iff_not_or] using this
    | some k =>
      simp only [hcb, Option.isSome_some, if_true] at h
      cases hcf : (s.workers t).cbFiber with
      | none =>
        rw [hcf] at h
        cases h
        rw [← hcb]
        exact .create hpc (by simp [hcb]) hcf ha
      | some f =>
        rw [hcf] at h
        obtain ⟨y, hy, hr⟩ := bind_eq_ok h
        cases hr
        unfold resetFiber at hy
        split_ifs at hy
        cases hy
        rw [← hcb]
        exact .reuse hpc (by simp [hcb]) hcf

theorem work_move {ids : Threads τ} {s s' : Schedular τ κ} {t : τ} {a : Addr} {r : Reply}
    (hready : Ready s (.work t a)) (h : s.work ids t a = .ok (r, s')) : Move ids s (.work t a) r s' := by
  obtain ⟨ha, hready⟩ := hready
  unfold work at h
  cases hpc : (s.workers t).pc with
  | scan =>
    simp only [hpc] at h
    obtain ⟨⟨taken, rest, tk⟩, hscan, hr⟩ := bind_eq_ok h
    cases taken with
    | none =>
      cases hr
      exact .idle hpc (scan_spec hscan)
    | some x =>
      cases hr
      exact .take hpc (scan_spec hscan)
  | taken x =>
    simp only [hpc] at h
    exact dispatch_move ha hpc h
  | swapIn x f via =>
    simp only [hpc] at h
    split_ifs at h
    cases h
    exact .enter hpc
  | load x f via =>
    simp only [hpc] at h
    cases h
    exact .load hpc
  | exec f via p =>
    cases p with
    | running => simp [hpc, Pc.works] at hready
    | published => simp [hpc, Pc.works] at hready
    | leaving o =>
      simp only [hpc] at h
      cases h
      exact .save hpc
  | back f via o =>
    simp only [hpc] at h
    cases h
    exact .leave hpc
  | check f via o =>
    simp only [hpc] at h
    split_ifs at h with hst hend
    · cases h
      exact .checkReady hpc hst
    · cases h
      exact .checkEnd hpc hend
    · cases h
      exact .checkHold hpc hst hend
  | requeue f via =>
    simp only [hpc] at h
    cases h
    exact .requeue hpc
  | recycle f via =>
    simp only [hpc] at h
    cases via with
    | true =>
      obtain ⟨y, hy, hr⟩ := bind_eq_ok h
      cases hr
      unfold resetFiber at hy
      split_ifs at hy
      cases hy
      exact .recycle hpc
    | false =>
      cases h
      exact .forget hpc
  | update f via =>
    simp only [hpc] at h
    cases h
    exact .update hpc
  | discard =>
    simp only [hpc] at h
    cases h
    exact .discard hpc

theorem act_move {ids : Threads τ} {s s' : Schedular τ κ} {t : τ} {x : Act} {r : Reply}
    (hready : Ready s (.act t x)) (h : s.act t x = .ok (r, s')) : Move ids s (.act t x) r s' := by
  have hacts : (s.workers t).pc.acts x = true := hready
  unfold act at h
  cases hpc : (s.workers t).pc with
  | exec f via p =>
    rw [hpc] at hacts
    simp only [hpc] at h
    cases p with
    | running =>
      cases x with
      | publish =>
        cases h
        exact .publish hpc
      | yieldToHold =>
        dsimp only at h
        split_ifs at h
        cases h
        exact .hold hpc (.inl rfl)
      | yieldToReady =>
        dsimp only at h
        split_ifs at h
        cases h
        exact .ready hpc
      | finish threw =>
        cases threw <;> cases h
        · exact .finish hpc
        · exact .throw hpc
    | published =>
      obtain rfl : x = .yieldToHold := by simpa [Pc.acts] using hacts
      dsimp only at h
      split_ifs at h
      cases h
      exact .hold hpc (.inr rfl)
    | leaving o => cases hacts
  | _ =>
    rw [hpc] at hacts
    cases hacts

/-- **What a step does.** -/
theorem step_move {ids : Threads τ} {s s' : Schedular τ κ} {l : Label τ κ} {r : Reply} (hready : Ready s l)
    (h : step ids s l = .ok (r, s')) : Move ids s l r s' := by
  cases l with
  | schedule fts =>
    cases h
    exact .schedule fts
  | newFiber a cb =>
    cases h
    exact .newFiber a cb
  | trigger f =>
    cases h
    exact .trigger f
  | work t a => exact work_move hready h
  | act t x => exact act_move hready h

end

end QWebServer.Schedular
