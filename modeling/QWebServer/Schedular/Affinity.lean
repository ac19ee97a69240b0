import QWebServer.Schedular.Exclusive

/-!
# Fibers and callbacks that are scheduled for a thread

* `Pinned` : a scheduler, with the threads that its fibers are pinned to; `pinsAfter` : a fiber is pinned when an entry
  for a thread is first swapped in, and until its function ends;
* `affine` : the workers, and those around them, without any discipline;
* `Respects` : a pinned fiber is swapped in and executed on its thread only;
* `Carries` : the steps that keep the thread of a pinned fiber in its entries, `affinity` : runs of such steps keep
  `Respects`;
* `affinity_lost_in_requeue` : a callback that yields as `READY` goes on on another thread.
-/

namespace QWebServer.Schedular

open Lib

variable {τ κ : Type}

/-- A scheduler, and the threads that fibers are pinned to. -/
structure Pinned (τ κ : Type) where
  sched : Schedular τ κ := {}
  pins : Addr → Option Int := fun _ => none

/-- The thread of an entry; -1 is none. -/
def pin (thread : Int) : Option Int := if thread = -1 then none else some thread

/-- What a step from `s` to `s'` does to the pins: a fiber gets the thread of the entry that it is swapped in for unless
it has one already; a callback is a new task in its fiber; a pin ends with the function. -/
def pinsAfter (pins : Addr → Option Int) (s s' : Schedular τ κ) : Label τ κ → Addr → Option Int
  | .newFiber a _ => Function.update pins a none
  | .work t _ =>
    match (s.workers t).pc, (s'.workers t).pc with
    | .taken x, .swapIn _ f true => Function.update pins f (pin x.ft.thread)
    | .taken x, .swapIn _ f false => Function.update pins f ((pins f).or (pin x.ft.thread))
    | _, _ => pins
  | .act t (.finish _) =>
    match (s.workers t).pc with
    | .exec f _ _ => Function.update pins f none
    | _ => pins
  | _ => pins

/-- Anything may be scheduled; a new fiber is at a new address, what is triggered was published, and workers and fibers
are ready for their steps. -/
def Allowed (s : Schedular τ κ) : Label τ κ → Prop
  | .schedule _ => True
  | .newFiber a _ => a ∉ s.created
  | .trigger f => f ∈ s.waiting
  | .work t a => Ready s (.work t a)
  | .act t x => Ready s (.act t x)

instance (s : Schedular τ κ) : (l : Label τ κ) → Decidable (Allowed s l)
  | .schedule _ => isTrue trivial
  | .newFiber a _ => inferInstanceAs (Decidable (a ∉ s.created))
  | .trigger f => inferInstanceAs (Decidable (f ∈ s.waiting))
  | .work t a => inferInstanceAs (Decidable (Ready s (.work t a)))
  | .act t x => inferInstanceAs (Decidable (Ready s (.act t x)))

theorem Allowed.ready {s : Schedular τ κ} {l : Label τ κ} (h : Allowed s l) : Ready s l := by
  cases l with
  | work t a => exact h
  | act t x => exact h
  | _ => trivial

/-- **A pinned fiber is on its thread**: the workers that swap it in or execute it have the id it is pinned to. -/
def Respects (ids : Threads τ) (s : Pinned τ κ) : Prop :=
  ∀ t f, ((s.sched.workers t).pc.swapsIn = some f ∨ (s.sched.workers t).pc.executes = some f) →
    ∀ i ∈ s.pins f, ids.id t = i

/-- The fibers that the worker `t` may swap in for the entry `x`. -/
def candidates (s : Schedular τ κ) (t : τ) (x : Item κ) (a : Addr) : List Addr :=
  x.ft.fiber.toList ++ if x.ft.cb.isSome then [(s.workers t).cbFiber.getD a] else []

/-- What the next step of a worker at `pc` must not do: requeue a pinned fiber, or pin one that another worker has in
its hand or that is queued for another thread. -/
def WorkerCarries (s : Pinned τ κ) (t : τ) (a : Addr) : Pc κ → Prop
  | .requeue f _ => s.pins f = none
  | .taken x => x.ft.thread ≠ -1 → ∀ f ∈ candidates s.sched t x a,
      (∀ v, v ≠ t → (s.sched.workers v).pc.fiber ≠ some f) ∧
        ∀ y ∈ s.sched.queue, y.ft.fiber = some f → y.ft.thread = x.ft.thread
  | _ => True

/-- **Entries of pinned fibers carry the thread**, and fibers are pinned where nobody else has them. -/
def Carries (s : Pinned τ κ) : Label τ κ → Prop
  | .schedule fts => ∀ ft ∈ fts, ∀ f ∈ ft.fiber, ∀ i ∈ s.pins f, ft.thread = i
  | .trigger f => s.pins f = none
  | .work t a => WorkerCarries s t a (s.sched.workers t).pc
  | _ => True

instance [Fintype τ] [DecidableEq τ] (s : Pinned τ κ) (t : τ) (a : Addr) :
    (pc : Pc κ) → Decidable (WorkerCarries s t a pc)
  | .requeue f _ => inferInstanceAs (Decidable (s.pins f = none))
  | .taken _ => inferInstanceAs (Decidable (_ → _))
  | .scan | .swapIn .. | .load .. | .exec .. | .back .. | .check .. | .recycle .. | .update .. | .discard =>
    isTrue trivial

instance [Fintype τ] [DecidableEq τ] (s : Pinned τ κ) : (l : Label τ κ) → Decidable (Carries s l)
  | .schedule fts => inferInstanceAs (Decidable (∀ ft ∈ fts, ∀ f ∈ ft.fiber, ∀ i ∈ s.pins f, ft.thread = i))
  | .trigger f => inferInstanceAs (Decidable (s.pins f = none))
  | .work t a => inferInstanceAs (Decidable (WorkerCarries s t a (s.sched.workers t).pc))
  | .newFiber .. | .act .. => isTrue trivial

section
variable [DecidableEq τ]

def Pinned.step (ids : Threads τ) (s : Pinned τ κ) (l : Label τ κ) : Except Fault (Reply × Pinned τ κ) := do
  let (r, sched) ← Schedular.step ids s.sched l
  return (r, { sched, pins := pinsAfter s.pins s.sched sched l })

def affine (ids : Threads τ) : Machine (Pinned τ κ) (Label τ κ) Reply Fault where
  init := fun s => s = {}
  enabled := fun s l => Allowed s.sched l
  step := Pinned.step ids

instance (ids : Threads τ) (s : Pinned τ κ) (l : Label τ κ) : Decidable ((affine ids).enabled s l) :=
  inferInstanceAs (Decidable (Allowed s.sched l))

end

/-! ## The invariant -/

/-- The entries and the workers of a pinned fiber are those of its thread. -/
structure Affine (ids : Threads τ) (s : Pinned τ κ) : Prop where
  pinned : ∀ f, s.pins f ≠ some (-1)
  queue : ∀ y ∈ s.sched.queue, ∀ f, y.ft.fiber = some f → ∀ i, s.pins f = some i → y.ft.thread = i
  hand : ∀ t f, (s.sched.workers t).pc.fiber = some f → ∀ i, s.pins f = some i → ids.id t = i
  taken : ∀ t x, (s.sched.workers t).pc = .taken x → x.ft.thread = -1 ∨ x.ft.thread = ids.id t

variable {ids : Threads τ} {s s' : Pinned τ κ}

/-- A step that pins nothing: it pushes entries for the threads of their fibers, and workers take nothing into their
hands. -/
theorem Affine.frame (hi : Affine ids s) (hpins : ∀ f i, s'.pins f = some i → s.pins f = some i)
    (hqueue : ∀ y ∈ s'.sched.queue, y ∈ s.sched.queue ∨
      ∀ f, y.ft.fiber = some f → ∀ i, s.pins f = some i → y.ft.thread = i)
    (hworkers : ∀ t, (∀ f, (s'.sched.workers t).pc.fiber = some f → (s.sched.workers t).pc.fiber = some f) ∧
      ∀ x, (s'.sched.workers t).pc = .taken x → (s.sched.workers t).pc = .taken x) : Affine ids s' := by
  constructor
  · intro f hf
    exact hi.pinned f (hpins f _ hf)
  · intro y hy f hf i hpin
    rcases hqueue y hy with hold | hnew
    · exact hi.queue y hold f hf i (hpins f i hpin)
    · exact hnew f hf i (hpins f i hpin)
  · intro t f hf i hpin
    exact hi.hand t f ((hworkers t).1 f hf) i (hpins f i hpin)
  · intro t x hx
    exact hi.taken t x ((hworkers t).2 x hx)

theorem Affine.respects (hi : Affine ids s) : Respects ids s := by
  intro t f hf i hpin
  refine hi.hand t f ?_ i hpin
  rcases hf with h | h
  · exact (Pc.fiber_of_swapsIn h).1
  · exact Pc.fiber_of_executes h

theorem Carries.free {t : τ} {x : Item κ} {a f : Addr} (hc : Carries s (.work t a))
    (hpc : (s.sched.workers t).pc = .taken x) (hne : x.ft.thread ≠ -1) (hf : f ∈ candidates s.sched t x a) :
    (∀ v, v ≠ t → (s.sched.workers v).pc.fiber ≠ some f) ∧
      ∀ y ∈ s.sched.queue, y.ft.fiber = some f → y.ft.thread = x.ft.thread := by
  have hcarries : WorkerCarries s t a (s.sched.workers t).pc := hc
  rw [hpc] at hcarries
  exact hcarries hne f hf

/-! ## The pins after a step -/

section
variable {pins : Addr → Option Int} {s s' : Schedular τ κ} {t : τ}

theorem pinsAfter_work (a : Addr) (h : ∀ x, (s.workers t).pc ≠ .taken x) : pinsAfter pins s s' (.work t a) = pins := by
  cases hpc : (s.workers t).pc with
  | taken x => exact absurd hpc (h x)
  | _ => simp only [pinsAfter, hpc]

theorem pinsAfter_swap (a : Addr) {x : Item κ} {f : Addr} {via : Bool} (hpc : (s.workers t).pc = .taken x)
    (hpc' : (s'.workers t).pc = .swapIn x f via) : pinsAfter pins s s' (.work t a) =
      Function.update pins f (if via then pin x.ft.thread else (pins f).or (pin x.ft.thread)) := by
  cases via <;> simp only [pinsAfter, hpc, hpc'] <;> rfl

theorem of_update_none {f g : Addr} {i : Int} (h : Function.update pins f none g = some i) : pins g = some i := by
  by_cases hg : g = f
  · subst hg
    rw [Function.update_self] at h
    cases h
  · rwa [Function.update_of_ne hg] at h

theorem pin_eq_some {thread i : Int} (h : pin thread = some i) : i = thread ∧ thread ≠ -1 := by
  unfold pin at h
  split_ifs at h with hne
  cases h
  exact ⟨rfl, hne⟩

end

section
variable [DecidableEq τ]

/-- A step of the worker `t` that pushes and pins nothing. -/
theorem Affine.advance (hi : Affine ids s) {t : τ} {w : Worker κ}
    (hworkers : s'.sched.workers = Function.update s.sched.workers t w) (hqueue : s'.sched.queue = s.sched.queue)
    (hpins : s'.pins = s.pins) (hfiber : ∀ f, w.pc.fiber = some f → (s.sched.workers t).pc.fiber = some f)
    (htaken : ∀ x, w.pc ≠ .taken x) : Affine ids s' := by
  refine hi.frame (fun f i h => by rwa [hpins] at h) (fun y hy => .inl (by rwa [hqueue] at hy)) fun u => ?_
  rw [hworkers]
  by_cases hu : u = t
  · subst hu
    rw [Function.update_self]
    exact ⟨hfiber, fun x hx => absurd hx (htaken x)⟩
  · rw [Function.update_of_ne hu]
    exact ⟨fun _ h => h, fun _ h => h⟩

theorem Affine.release (hi : Affine ids s) {t : τ} {w : Worker κ}
    (hworkers : s'.sched.workers = Function.update s.sched.workers t w) (hqueue : s'.sched.queue = s.sched.queue)
    (hpins : s'.pins = s.pins) (hw : w.pc = .scan ∨ w.pc = .discard) : Affine ids s' := by
  refine hi.advance hworkers hqueue hpins (fun f hf => ?_) fun x hx => ?_
  · rcases hw with hw | hw <;> rw [hw] at hf <;> cases hf
  · rcases hw with hw | hw <;> rw [hw] at hx <;> cases hx

/-- A worker takes an entry that is for any thread, or for its own. -/
theorem Affine.take (hi : Affine ids s) {t : τ} {x : Item κ} {rest : List (Item κ)}
    (hscan : Scanned (ids.id t) s.sched.fibers s.sched.queue (some x) rest)
    (hworkers : s'.sched.workers = Function.update s.sched.workers t { s.sched.workers t with pc := .taken x })
    (hqueue : s'.sched.queue = rest) (hpins : s'.pins = s.pins) : Affine ids s' := by
  obtain ⟨p, r, hq, rfl, -, hx⟩ := hscan
  have hthread : x.ft.thread = -1 ∨ x.ft.thread = ids.id t := by
    by_contra h
    exact hx (.inl (not_or.mp h))
  have hmem : x ∈ s.sched.queue := by simp [hq]
  constructor
  · rw [hpins]
    exact hi.pinned
  · intro y hy
    rw [hqueue] at hy
    rw [hpins]
    refine hi.queue y ?_
    rw [hq]
    rcases List.mem_append.mp hy with hy | hy
    · exact List.mem_append_left _ hy
    · exact List.mem_append_right _ (List.mem_cons_of_mem _ hy)
  · intro u f hf i hpin
    rw [hworkers] at hf
    rw [hpins] at hpin
    by_cases hu : u = t
    · subst hu
      rw [Function.update_self] at hf
      have hi' := hi.queue x hmem f hf i hpin
      rcases hthread with h | h
      · rw [← hi', h] at hpin
        exact absurd hpin (hi.pinned f)
      · rw [← h, hi']
    · rw [Function.update_of_ne hu] at hf
      exact hi.hand u f hf i hpin
  · intro u y hy
    rw [hworkers] at hy
    by_cases hu : u = t
    · subst hu
      rw [Function.update_self] at hy
      cases hy
      exact hthread
    · rw [Function.update_of_ne hu] at hy
      exact hi.taken u y hy

/-- A worker swaps a fiber in for the entry it has taken: the fiber keeps its pin, or gets the thread of the entry. -/
theorem Affine.swap (hi : Affine ids s) {t : τ} {x : Item κ} {f : Addr} {via : Bool} {c : Option Addr} {p : Option Int}
    (hpc : (s.sched.workers t).pc = .taken x)
    (hworkers : s'.sched.workers = Function.update s.sched.workers t ⟨.swapIn x f via, c⟩)
    (hqueue : s'.sched.queue = s.sched.queue) (hpins : s'.pins = Function.update s.pins f p)
    (hp : ∀ i, p = some i → s.pins f = some i ∧ x.ft.fiber = some f ∨ i = x.ft.thread ∧ x.ft.thread ≠ -1)
    (hfree : x.ft.thread ≠ -1 → (∀ v, v ≠ t → (s.sched.workers v).pc.fiber ≠ some f) ∧
      ∀ y ∈ s.sched.queue, y.ft.fiber = some f → y.ft.thread = x.ft.thread) : Affine ids s' := by
  have hcases : ∀ g i, s'.pins g = some i →
      s.pins g = some i ∧ (g = f → x.ft.fiber = some f) ∨ g = f ∧ i = x.ft.thread ∧ x.ft.thread ≠ -1 := by
    intro g i hg
    rw [hpins] at hg
    by_cases hgf : g = f
    · subst hgf
      rw [Function.update_self] at hg
      rcases hp i hg with ⟨hold, hf⟩ | hnew
      · exact .inl ⟨hold, fun _ => hf⟩
      · exact .inr ⟨rfl, hnew⟩
    · rw [Function.update_of_ne hgf] at hg
      exact .inl ⟨hg, fun h => absurd h hgf⟩
  constructor
  · intro g hg
    rcases hcases g _ hg with ⟨hold, -⟩ | ⟨-, h, hne⟩
    · exact hi.pinned g hold
    · exact hne h.symm
  · intro y hy g hyg i hg
    rw [hqueue] at hy
    rcases hcases g i hg with ⟨hold, -⟩ | ⟨rfl, rfl, hne⟩
    · exact hi.queue y hy g hyg i hold
    · exact (hfree hne).2 y hy hyg
  · intro u g hug i hg
    rw [hworkers] at hug
    by_cases hu : u = t
    · subst hu
      rw [Function.update_self] at hug
      cases hug
      rcases hcases f i hg with ⟨hold, hf⟩ | ⟨-, rfl, hne⟩
      · refine hi.hand u f ?_ i hold
        rw [hpc]
        exact hf rfl
      · exact ((hi.taken u x hpc).resolve_left hne).symm
    · rw [Function.update_of_ne hu] at hug
      rcases hcases g i hg with ⟨hold, -⟩ | ⟨rfl, -, hne⟩
      · exact hi.hand u g hug i hold
      · exact absurd hug ((hfree hne).1 u hu)
  · intro u y hy
    rw [hworkers] at hy
    by_cases hu : u = t
    · subst hu
      rw [Function.update_self] at hy
      cases hy
    · rw [Function.update_of_ne hu] at hy
      exact hi.taken u y hy

/-- **One step.** -/
theorem Affine.move {l : Label τ κ} {r : Reply} {sched : Schedular τ κ} (hi : Affine ids s) (hc : Carries s l)
    (h : Move ids s.sched l r sched) : Affine ids { sched, pins := pinsAfter s.pins s.sched sched l } := by
  cases h with
  | schedule fts =>
    refine hi.frame (fun _ _ h => h) (fun y hy => ?_) fun _ => ⟨fun _ h => ?_, fun _ h => ?_⟩
    · rw [schedule_eq] at hy
      rcases List.mem_append.mp hy with hy | hy
      · exact .inl hy
      · exact .inr fun f hf i hpin => hc y.ft (List.mem_of_mem_filter (mem_numbered hy)) f hf i hpin
    · rw [schedule_eq] at h
      exact h
    · rw [schedule_eq] at h
      exact h
  | newFiber a cb =>
    refine hi.frame (fun f i h => ?_) (fun y hy => .inl hy) fun _ => ⟨fun _ h => h, fun _ h => h⟩
    exact of_update_none h
  | trigger f =>
    refine hi.frame (fun _ _ h => h) (fun y hy => ?_) fun _ => ⟨fun _ h => h, fun _ h => h⟩
    rcases List.mem_append.mp hy with hy | hy
    · exact .inl hy
    · rw [List.mem_singleton.mp hy]
      refine .inr fun g hg i hpin => ?_
      cases hg
      rw [show s.pins f = none from hc] at hpin
      cases hpin
  | @idle t a rest tk hpc hscan =>
    refine hi.frame (fun f i h => ?_) (fun y hy => .inl ?_) fun _ => ⟨fun _ h => h, fun _ h => h⟩
    · rwa [pinsAfter_work a (by simp [hpc])] at h
    · rwa [show rest = s.sched.queue from hscan.1] at hy
  | @take t a x rest tk hpc hscan => exact hi.take hscan rfl rfl (pinsAfter_work a (by simp [hpc]))
  | @resume t a x f hpc hf hrun =>
    have hpc' : ((s.sched.goto t (.swapIn x f false)).workers t).pc = .swapIn x f false := by simp [goto]
    refine hi.swap hpc rfl rfl (pinsAfter_swap a hpc hpc') (fun i hp => ?_) fun hne => ?_
    · rcases Option.or_eq_some_iff.mp hp with h | ⟨-, h⟩
      · exact .inl ⟨h, hf⟩
      · exact .inr (pin_eq_some h)
    · exact hc.free hpc hne (by simp [candidates, hf])
  | @reuse t a x f hpc hx hcb =>
    refine hi.swap hpc rfl rfl (pinsAfter_swap a hpc (show _ = Pc.swapIn x f true by simp [goto]))
      (fun i hp => .inr (pin_eq_some hp)) fun hne => ?_
    exact hc.free hpc hne (by simp [candidates, hx, hcb])
  | @create t a x hpc hx hcb ha =>
    refine hi.swap hpc (create_workers s.sched t a x.ft.cb _) rfl
      (pinsAfter_swap a hpc (show _ = Pc.swapIn x a true by simp [goto]))
      (fun i hp => .inr (pin_eq_some hp)) fun hne => ?_
    exact hc.free hpc hne (by simp [candidates, hx, hcb])
  | @drop t a x hpc hcb hdone =>
    refine hi.release rfl rfl ?_ (.inr rfl)
    simp [pinsAfter, hpc, goto]
  | @enter t a x f via hpc | @load t a x f via hpc =>
    refine hi.advance rfl rfl (pinsAfter_work a (by simp [hpc])) (fun g hg => ?_) fun _ h => by cases h
    rw [hpc]
    exact hg
  | @save t a f via o hpc | @leave t a f via o hpc | @checkReady t a f via o hpc | @checkEnd t a f via o hpc
  | @checkHold t a f via o hpc =>
    refine hi.advance rfl rfl (pinsAfter_work a (by simp [hpc])) (fun g hg => ?_) fun _ h => by cases h
    rw [hpc]
    exact hg
  | @requeue t a f via hpc =>
    have hnone : s.pins f = none := by
      have hcarries : WorkerCarries s t a (s.sched.workers t).pc := hc
      rwa [hpc] at hcarries
    refine hi.frame (fun g i h => ?_) (fun y hy => ?_) fun u => ?_
    · rwa [pinsAfter_work a (by simp [hpc])] at h
    · have hqueue : (((s.sched.push { fiber := some f }).release t via).goto t .scan).queue =
          s.sched.queue ++ [⟨s.sched.pushed, { fiber := some f }⟩] := by
        cases via <;> rfl
      rw [hqueue] at hy
      rcases List.mem_append.mp hy with hy | hy
      · exact .inl hy
      · rw [List.mem_singleton.mp hy]
        refine .inr fun g hg i hpin => ?_
        cases hg
        rw [hnone] at hpin
        cases hpin
    · rw [release_workers]
      by_cases hu : u = t
      · subst hu
        rw [Function.update_self]
        refine ⟨fun _ h => ?_, fun _ h => ?_⟩ <;> cases h
      · rw [Function.update_of_ne hu]
        exact ⟨fun _ h => h, fun _ h => h⟩
  | @recycle t a f hpc | @forget t a f hpc =>
    exact hi.release rfl rfl (pinsAfter_work a (by simp [hpc])) (.inl rfl)
  | @discard t a hpc => exact hi.release rfl rfl (pinsAfter_work a (by simp [hpc])) (.inl rfl)
  | @update t a f via hpc =>
    refine hi.release (release_workers _ t via .scan) ?_ (pinsAfter_work a (by simp [hpc])) (.inl rfl)
    cases via <;> rfl
  | publish hpc | hold hpc hp | ready hpc =>
    refine hi.advance rfl rfl rfl (fun g hg => ?_) fun _ h => by cases h
    rw [hpc]
    exact hg
  | @throw t f via hpc | @finish t f via hpc =>
    -- the pin of the fiber ends
    refine hi.frame (fun g i h => ?_) (fun y hy => .inl hy) fun u => ?_
    · simp only [pinsAfter, hpc] at h
      exact of_update_none h
    · by_cases hu : u = t
      · subst hu
        refine ⟨fun g hg => ?_, fun x hx => ?_⟩
        · rw [hpc]
          simpa [goto, Pc.fiber] using hg
        · simp [goto] at hx
      · simp [goto, setState, setFiber, hu]

/-- **Thread affinity.** A run keeps pinned fibers on their threads as long as entries carry the threads of their
fibers. -/
theorem affinity (ids : Threads τ) {h : List (Entry (Pinned τ κ) (Label τ κ) Reply)} {s : Pinned τ κ}
    (hr : Run (affine ids) h s) (hc : ∀ e ∈ h, Carries e.pre e.inp) : Respects ids s := by
  suffices hi : Affine ids s from hi.respects
  refine hr.invariant_of hc ?_ ?_
  · rintro _ rfl
    exact ⟨nofun, nofun, nofun, nofun⟩
  · rintro e hi ⟨hen, hstep⟩ hl
    obtain ⟨⟨r, sched⟩, hs, hret⟩ := bind_eq_ok hstep
    have hpost : { sched, pins := pinsAfter e.pre.pins e.pre.sched sched e.inp } = e.post :=
      congrArg Prod.snd (Except.ok.inj hret)
    rw [← hpost]
    exact hi.move hl (step_move (Allowed.ready hen) hs)

end

/-! ## Two threads -/

/-- A callback for the thread 1 is skipped by the other worker and runs there, in the fiber 1. -/
theorem affinity_callback : ∃ h s, Run (affine (κ := Nat) twoThreads) h s ∧
    (∀ e ∈ h, Carries e.pre e.inp) ∧ (s.sched.workers false).pc.executes = some 1 ∧ s.pins 1 = some 1 ∧
      Respects twoThreads s := by
  obtain ⟨h, s, hr, hp⟩ := Run.of_replay (affine (κ := Nat) twoThreads) rfl
    [.schedule [{ cb := some 0, thread := 1 }], .work true 1, .work false 1, .work false 1, .work false 2,
      .work false 2]
    (fun r => decide ((∀ e ∈ r.1, Carries e.pre e.inp) ∧ (r.2.sched.workers false).pc.executes = some 1 ∧
      r.2.pins 1 = some 1))
    (by decide +kernel)
  obtain ⟨hc, hexec, hpin⟩ := of_decide_eq_true hp
  exact ⟨h, s, hr, hc, hexec, hpin, affinity twoThreads hr hc⟩

/-- The callback yields as `READY`, and the worker of thread 2 goes on with it. -/
theorem affinity_lost_in_requeue : ¬ ∀ h s, Run (affine (κ := Nat) twoThreads) h s → Respects twoThreads s := by
  intro hall
  obtain ⟨h, s, hr, hp⟩ := Run.of_replay (affine (κ := Nat) twoThreads) rfl
    ([.schedule [{ cb := some 0, thread := 1 }], .work false 1, .work false 1, .work false 2, .work false 2,
      .act false .yieldToReady] ++ List.replicate 4 (.work false 2) ++ List.replicate 4 (.work true 2))
    (fun r => decide ((r.2.sched.workers true).pc.executes = some 1 ∧ r.2.pins 1 = some 1)) (by decide +kernel)
  obtain ⟨hexec, hpin⟩ := of_decide_eq_true hp
  have hid : (2 : Int) = 1 := hall h s hr true 1 (.inr hexec) 1 hpin
  cases hid

end QWebServer.Schedular
