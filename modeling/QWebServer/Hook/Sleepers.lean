import QWebServer.Hook.Sleep
import QWebServer.Lib.Count
import QWebServer.Timer.Rate

/-!
# Fibers in `sleep`, `usleep` and `nanosleep`

* `Callback`, `Task` : what the timers keep, and the entries of the queue;
* `Nap`, `Stage` : a call of a hooked sleep, and where a fiber is in it;
* `Sleepers` : the timers of an `IOManager`, its fibers, and what is on its way to them;
* `step` : one step of a fiber, of `IOManager::idle`, of a worker, or of another user of the timers;
* `roaming`, `wakeups` : how often a fiber is on its way to be resumed;
* `Settled` : a scan takes no fiber that a worker still suspends; otherwise two workers may execute it (`exists_torn`);
* `Slept` : what has become of a call so far, `Inv` : what holds in every run of such scans;
* `sleeps` : each call is woken up once, by the first call of `listExpiredCb` that reads its deadline.

Nobody but its timer schedules a fiber that sleeps, and the timer is in nobody's hands: the functions drop what
`addTimer` returns.
-/

namespace QWebServer.Hook

open Lib

namespace Sleepers

/-- A callback of a timer: the `schedule` of a fiber that sleeps, or another one. -/
inductive Callback (φ κ : Type)
  | wake (f : φ)
  | other (k : κ)
  deriving DecidableEq

inductive Task (φ κ : Type)
  | cb (k : Callback φ κ)
  | fiber (f : φ)
  deriving DecidableEq

/-- A call of a hooked sleep, with its timer and its reading of the clock. -/
structure Nap where
  call : Sleep
  timer : Addr
  now : UInt64

/-- Where a fiber is: outside of the sleeps; between `addTimer` and the store of `HOLD` in `YieldToHold`; before its
context is saved; before the worker that executed it has set its state again; and with this done. A fiber that is
swapped in before this is torn. -/
inductive Stage
  | awake
  | armed (n : Nap)
  | held (n : Nap)
  | saved (n : Nap)
  | asleep (n : Nap)
  | torn

def Stage.nap : Stage → Option Nap
  | awake => none
  | armed n => some n
  | held n => some n
  | saved n => some n
  | asleep n => some n
  | torn => none

/-- The fiber's state is `EXEC`. -/
def Stage.isArmed : Stage → Bool
  | armed _ => true
  | _ => false

/-- The state is `HOLD`, and the worker that executed the fiber still suspends it. -/
def Stage.suspends : Stage → Bool
  | held _ => true
  | saved _ => true
  | _ => false

end Sleepers

/-- The timers, the fibers, and what is between them: the vectors `cbs` of `idle`, the queue, and what workers have
taken from it. -/
structure Sleepers (φ κ : Type) where
  timers : TimerManager (Sleepers.Callback φ κ)
  stage : φ → Sleepers.Stage := fun _ => .awake
  batches : List (List (Sleepers.Callback φ κ)) := []
  queue : List (Sleepers.Task φ κ) := []
  taken : List (Sleepers.Task φ κ) := []

namespace Sleepers

theorem timeoutMs_fits {call : Sleep} (hfits : call.Fits) {ms : UInt64} (hms : call.timeoutMs = .ok ms) :
    ms.toNat = call.duration := by
  cases call with
  | sleep seconds =>
    obtain ⟨ms', hms', hn⟩ := timeoutMs_sleep seconds
    obtain rfl := Except.ok.inj (hms.symm.trans hms')
    have hle : seconds.toNat ≤ 4294967 := hfits
    rw [hn]
    show seconds.toNat * 1000 % 2 ^ 32 = seconds.toNat * 1000
    omega
  | usleep usec =>
    obtain ⟨ms', hms', hn⟩ := timeoutMs_usleep usec
    obtain rfl := Except.ok.inj (hms.symm.trans hms')
    exact hn
  | nanosleep req =>
    have hlt : (Sleep.nanosleep req).duration < 2 ^ 31 := hfits
    have heq := timeoutMs_nanosleep req
    rw [if_pos (by omega)] at heq
    obtain rfl := Except.ok.inj (hms.symm.trans heq)
    rw [toNat_uint64OfInt, intOfLong, Int.bmod_def]
    split_ifs <;> omega

variable {φ κ : Type}

/-- What ends a run. -/
inductive Fault
  | sleep (f : SleepFault)
  | timer (f : Timer.Fault)

/-- The steps: a call of a sleep up to its timer, at the address `a`; the store of `HOLD`, the end of `swapcontext` and
the worker's update after it; another use of the timers; `listExpiredCb` in `idle`; the `schedule` of the batch number
`k`; the `schedule` of another callback; a scan that takes the entry number `k`; and the execution of what was taken. -/
inductive Label (φ κ : Type)
  | sleep (f : φ) (a : Addr) (now : UInt64) (call : Sleep)
  | yieldToHold (f : φ)
  | save (f : φ)
  | update (f : φ)
  | timers (c : TimerManager.Call (Callback φ κ))
  | poll (now : UInt64) (probe : Addr)
  | submit (k : Nat)
  | schedule (k : κ)
  | take (k : Nat)
  | run (k : Nat)

/-- The operation is another user's: its callback is none of a sleep, and so is its timer. -/
def Foreign (m : TimerManager (Callback φ κ)) (c : TimerManager.Call (Callback φ κ)) : Prop :=
  match c.op with
  | .addTimer _ _ cb _ => ∀ f, cb ≠ .wake f
  | .cancel t => ∀ f, (m.heap t).cb ≠ some (.wake f)
  | .refresh t => ∀ f, (m.heap t).cb ≠ some (.wake f)
  | .reset t _ _ => ∀ f, (m.heap t).cb ≠ some (.wake f)
  | .getNextTimer => True
  | .listExpiredCb _ => False

/-- What may happen. A fiber sleeps in one call at a time, `new Timer` is at a new address, and a scan skips a fiber
in the state `EXEC`. -/
def Enabled (s : Sleepers φ κ) : Label φ κ → Prop
  | .sleep f a _ _ => s.stage f = .awake ∧ a ∉ s.timers.created
  | .timers c => s.timers.Allowed c ∧ Foreign s.timers c
  | .poll _ probe => probe ∉ s.timers.created
  | .take k => ∀ f, s.queue[k]? = some (.fiber f) → (s.stage f).isArmed = false
  | _ => True

/-- **A scan takes no fiber that a worker still suspends.** -/
def Settled (s : Sleepers φ κ) : Label φ κ → Prop
  | .take k => ∀ f, s.queue[k]? = some (.fiber f) → (s.stage f).suspends = false
  | _ => True

section
variable [DecidableEq φ]

def resume (s : Sleepers φ κ) (f : φ) : Sleepers φ κ :=
  match s.stage f with
  | .asleep _ => { s with stage := Function.update s.stage f .awake }
  | .held _ => { s with stage := Function.update s.stage f .torn }
  | .saved _ => { s with stage := Function.update s.stage f .torn }
  | _ => s

/-- One step, and the timers that `listExpiredCb` takes. -/
def step (s : Sleepers φ κ) : Label φ κ → Except Fault (List Addr × Sleepers φ κ)
  | .sleep f a now call => do
    let timers ← (hooked true s.timers a (.wake f) now call).mapError .sleep
    return ([], { s with
      timers := timers.getD s.timers, stage := Function.update s.stage f (.armed ⟨call, a, now⟩) })
  | .yieldToHold f =>
    match s.stage f with
    | .armed n => .ok ([], { s with stage := Function.update s.stage f (.held n) })
    | _ => .ok ([], s)
  | .save f =>
    match s.stage f with
    | .held n => .ok ([], { s with stage := Function.update s.stage f (.saved n) })
    | _ => .ok ([], s)
  | .update f =>
    match s.stage f with
    | .saved n => .ok ([], { s with stage := Function.update s.stage f (.asleep n) })
    | _ => .ok ([], s)
  | .timers c => do
    let (_, timers) ← (s.timers.step c).mapError .timer
    return ([], { s with timers := timers })
  | .poll now probe => do
    let (r, timers) ← (s.timers.step ⟨now, .listExpiredCb probe⟩).mapError .timer
    return (r.timers, { s with timers := timers, batches := s.batches ++ [r.cbs.filterMap Prod.snd] })
  | .submit k =>
    match s.batches[k]? with
    | some cbs => .ok ([], { s with batches := s.batches.eraseIdx k, queue := s.queue ++ cbs.map .cb })
    | none => .ok ([], s)
  | .schedule k => .ok ([], { s with queue := s.queue ++ [.cb (.other k)] })
  | .take k =>
    match s.queue[k]? with
    | some x => .ok ([], { s with queue := s.queue.eraseIdx k, taken := s.taken ++ [x] })
    | none => .ok ([], s)
  | .run k =>
    let rest := { s with taken := s.taken.eraseIdx k }
    match s.taken[k]? with
    | some (.cb (.wake f)) => .ok ([], { rest with queue := s.queue ++ [.fiber f] })
    | some (.cb (.other _)) => .ok ([], rest)
    | some (.fiber f) => .ok ([], rest.resume f)
    | none => .ok ([], s)

/-- Fibers that sleep, on an `IOManager` constructed at any time. -/
def machine (φ κ : Type) [DecidableEq φ] : Machine (Sleepers φ κ) (Label φ κ) (List Addr) Fault where
  init := fun s => ∃ now, s = { timers := .new now }
  enabled := Enabled
  step := step

end

/-! ## The timers of the sleeps -/

section
variable {m m' : TimerManager (Callback φ κ)} {now : UInt64} {op : TimerManager.Op (Callback φ κ)}
  {r : TimerManager.Reply (Callback φ κ)}

structure Spares (m : TimerManager (Callback φ κ)) (op : TimerManager.Op (Callback φ κ))
    (m' : TimerManager (Callback φ κ)) : Prop where
  good : m'.Good
  created : ∀ t ∈ m.created, t ∈ m'.created
  kept : ∀ t ∈ m.timers, ∀ f, (m.heap t).cb = some (.wake f) → t ∈ m'.timers ∧ m'.heap t = m.heap t
  out : ∀ t ∈ m.created, t ∉ m.timers → t ∉ m'.timers
  owner : ∀ t ∈ m'.timers, ∀ f, (m'.heap t).cb = some (.wake f) →
    t ∈ m.timers ∧ (m.heap t).cb = some (.wake f) ∨ ∃ ms recurring, op = .addTimer t ms (.wake f) recurring

/-- An operation that is neither `listExpiredCb` nor one on a timer of theirs. -/
theorem Spares.of_effect (g : m.Good) (he : TimerManager.Effect m now op r m')
    (hlist : ∀ probe, op ≠ .listExpiredCb probe) (hop : ∀ t f, (m.heap t).cb = some (.wake f) →
      op ≠ .cancel t ∧ op ≠ .refresh t ∧ ∀ ms fromNow, op ≠ .reset t ms fromNow) : Spares m op m' where
  good := he.good g
  created _ := he.created_mono
  kept t ht f hcb := by
    obtain ⟨hcancel, hrefresh, hreset⟩ := hop t f hcb
    cases he.turn g (g.created t ht) with
    | kept hr hin hx => exact ⟨hin.mpr ht, hx⟩
    | cancelled h => exact absurd h hcancel
    | refreshed h => exact absurd h hrefresh
    | reset h => exact absurd h (hreset _ _)
    | fired h => exact absurd h (hlist _)
  out _ := he.stays_out g
  owner t ht' f hcb := by
    by_cases hc : t ∈ m.created
    · cases he.turn g hc with
      | kept hr hin hx =>
        rw [hx] at hcb
        exact .inl ⟨hin.mp ht', hcb⟩
      | cancelled h hr hout => exact absurd ht' hout
      | refreshed h hr ht hin hx =>
        rw [hx] at hcb
        exact absurd h (hop t f hcb).2.1
      | reset h hr ht hin hx =>
        rw [hx] at hcb
        exact absurd h ((hop t f hcb).2.2 _ _)
      | fired h => exact absurd h (hlist _)
    · have hc' := (he.good g).created t ht'
      cases he with
      | @added a ms cb recurring ha =>
        rcases List.mem_append.mp hc' with h | h
        · exact absurd h hc
        · cases List.mem_singleton.mp h
          have hx : (TimerManager.placeNotify { m with created := m.created ++ [t] } t
              ⟨recurring, ms, ms + now, some cb⟩).2.heap t = ⟨recurring, ms, ms + now, some cb⟩ :=
            Function.update_self ..
          rw [hx] at hcb
          cases hcb
          exact .inr ⟨_, _, rfl⟩
      | listed hl => exact absurd rfl (hlist _)
      | _ => exact absurd hc' hc

theorem Spares.refl (g : m.Good) : Spares m .getNextTimer m :=
  ⟨g, fun _ h => h, fun _ ht _ _ => ⟨ht, rfl⟩, fun _ _ h => h, fun _ ht _ hcb => .inl ⟨ht, hcb⟩⟩

theorem hooked_ok {a : Addr} {cb : Callback φ κ} {call : Sleep}
    {r : Option (TimerManager (Callback φ κ))} (hr : hooked true m a cb now call = .ok r) :
    ∃ ms, call.timeoutMs = .ok ms ∧ r = some (m.addTimer a ms (some cb) false now).2 := by
  obtain ⟨ms, hms, h⟩ := bind_eq_ok (show call.timeoutMs >>= _ = .ok r from hr)
  cases h
  exact ⟨ms, hms, rfl⟩

end

/-! ## Deadlines -/

abbrev History (φ κ : Type) := List (Entry (Sleepers φ κ) (Label φ κ) (List Addr))

/-- No call of `listExpiredCb` reads the deadline. -/
def Waits (h : History φ κ) (next : UInt64) : Prop := ∀ e ∈ h, ∀ now probe, e.inp = .poll now probe → now < next

/-- The first call of `listExpiredCb` that reads the deadline of `t`, or for which the clock has jumped, takes it. -/
def Fires (h : History φ κ) (t : Addr) (next : UInt64) : Prop :=
  ∃ h₁ e h₂ now probe, h = h₁ ++ e :: h₂ ∧ Waits h₁ next ∧ e.inp = .poll now probe ∧ t ∈ e.out ∧
    (e.pre.timers.Punctual now → next ≤ now)

theorem Waits.concat {h : History φ κ} {next : UInt64} (hw : Waits h next)
    {e : Entry (Sleepers φ κ) (Label φ κ) (List Addr)} (he : ∀ now probe, e.inp = .poll now probe → now < next) :
    Waits (h ++ [e]) next := by
  intro x hx
  rcases List.mem_append.mp hx with hx | hx
  · exact hw x hx
  · cases List.mem_singleton.mp hx
    exact he

theorem Fires.concat {h : History φ κ} {t : Addr} {next : UInt64} (hf : Fires h t next)
    (e : Entry (Sleepers φ κ) (Label φ κ) (List Addr)) : Fires (h ++ [e]) t next := by
  obtain ⟨h₁, e₁, h₂, now, probe, rfl, hrest⟩ := hf
  exact ⟨h₁, e₁, h₂ ++ [e], now, probe, by simp, hrest⟩

/-! ## What is on its way -/

section
variable [DecidableEq φ]

def Callback.wakes (f : φ) : Callback φ κ → Bool
  | wake g => g = f
  | other _ => false

def Task.wakes (f : φ) : Task φ κ → Bool
  | cb k => k.wakes f
  | fiber g => g = f

/-- How many timers are pending that wake the fiber up. -/
def pending (s : Sleepers φ κ) (f : φ) : Nat :=
  s.timers.timers.countP fun t => (s.timers.heap t).cb.any (Callback.wakes f)

/-- How often the fiber is between a timer that has fired and its `swapIn`. -/
def roaming (s : Sleepers φ κ) (f : φ) : Nat :=
  s.batches.flatten.countP (Callback.wakes f) + (s.queue.countP (Task.wakes f) + s.taken.countP (Task.wakes f))

theorem countP_cb (f : φ) (cbs : List (Callback φ κ)) :
    (cbs.map Task.cb).countP (Task.wakes f) = cbs.countP (Callback.wakes f) := by
  rw [List.countP_map]
  rfl

variable {s s' : Sleepers φ κ}

theorem roaming_submit {k : Nat} {cbs : List (Callback φ κ)} (hk : s.batches[k]? = some cbs) (f : φ) :
    roaming { s with batches := s.batches.eraseIdx k, queue := s.queue ++ cbs.map .cb } f = s.roaming f := by
  have hcount := countP_flatten_eraseIdx (p := Callback.wakes f) hk
  simp only [roaming, List.countP_append, countP_cb]
  omega

theorem roaming_take {k : Nat} {x : Task φ κ} (hk : s.queue[k]? = some x) (f : φ) :
    roaming { s with queue := s.queue.eraseIdx k, taken := s.taken ++ [x] } f = s.roaming f := by
  have hcount := countP_eraseIdx (p := Task.wakes f) hk
  simp only [roaming, List.countP_append, List.countP_singleton]
  omega

/-! ## What has become of a call -/

/-- What has become of a call of the fiber `f` in the history `h` since then: its timer is pending, or it has fired and
the fiber is on its way to be resumed. -/
inductive Slept (h : History φ κ) (s : Sleepers φ κ) (f : φ) (t : Addr) (next : UInt64) : Prop
  | pending (hw : Waits h next) (ht : t ∈ s.timers.timers) (hcb : (s.timers.heap t).cb = some (.wake f))
      (honce : (s.timers.heap t).recurring = false) (hnext : (s.timers.heap t).next = next) (hr : s.roaming f = 0)
  | fired (hf : Fires h t next) (hc : t ∈ s.timers.created) (ht : t ∉ s.timers.timers) (hr : s.roaming f = 1)

/-- The call `n` of the fiber `f` in a history, and what has become of it. -/
def Called (h : History φ κ) (s : Sleepers φ κ) (f : φ) (n : Nap) : Prop :=
  ∃ h₁ e h₂ ms, h = h₁ ++ e :: h₂ ∧ e.inp = .sleep f n.timer n.now n.call ∧ n.call.timeoutMs = .ok ms ∧
    Slept h₂ s f n.timer (ms + n.now)

/-- **What holds in every run.** The timers are good; a pending timer of a sleep belongs to a fiber that sleeps; a fiber
that does not sleep is not on its way; one that is taken is not executed or suspended, and none is torn; and each call
is as told. -/
structure Inv (h : History φ κ) (s : Sleepers φ κ) : Prop where
  good : s.timers.Good
  owner : ∀ t ∈ s.timers.timers, ∀ f, (s.timers.heap t).cb = some (.wake f) → ∃ n ∈ (s.stage f).nap, n.timer = t
  awake : ∀ f, (s.stage f).nap = none → s.roaming f = 0
  taken : ∀ f, Task.fiber f ∈ s.taken → (s.stage f).isArmed = false ∧ (s.stage f).suspends = false
  whole : ∀ f, s.stage f ≠ .torn
  called : ∀ f, ∀ n ∈ (s.stage f).nap, Called h s f n

variable {h : History φ κ} {e : Entry (Sleepers φ κ) (Label φ κ) (List Addr)}

/-- A step after which the timers of the sleeps and the ways to their fibers are as before. -/
theorem Called.frame {f : φ} {n : Nap} (hc : Called h s f n) {op : TimerManager.Op (Callback φ κ)}
    (hs : Spares s.timers op s'.timers) (hpoll : ∀ now probe, e.inp ≠ .poll now probe)
    (hr : s'.roaming f = s.roaming f) : Called (h ++ [e]) s' f n := by
  obtain ⟨h₁, e₀, h₂, ms, rfl, he₀, hms, hslept⟩ := hc
  refine ⟨h₁, e₀, h₂ ++ [e], ms, by simp, he₀, hms, ?_⟩
  cases hslept with
  | pending hw ht hcb honce hnext hr₀ =>
    obtain ⟨ht', hx⟩ := hs.kept _ ht f hcb
    refine .pending (hw.concat fun now probe h => absurd h (hpoll now probe)) ht' ?_ ?_ ?_ ?_
    · rwa [hx]
    · rwa [hx]
    · rwa [hx]
    · rwa [hr]
  | fired hf hc ht hr₁ =>
    refine .fired (hf.concat e) (hs.created _ hc) (hs.out _ hc ht) ?_
    rwa [hr]

theorem Inv.carry (hi : Inv h s) (hpoll : ∀ now probe, e.inp ≠ .poll now probe) (htimers : s'.timers = s.timers)
    (hnap : ∀ f, (s'.stage f).nap = (s.stage f).nap) (hr : ∀ f, s'.roaming f = s.roaming f)
    (htaken : ∀ f, Task.fiber f ∈ s'.taken → (s'.stage f).isArmed = false ∧ (s'.stage f).suspends = false)
    (hwhole : ∀ f, s'.stage f ≠ .torn) : Inv (h ++ [e]) s' where
  good := by
    rw [htimers]
    exact hi.good
  owner := by
    simp only [htimers, hnap]
    exact hi.owner
  awake f hf := by
    rw [hnap] at hf
    rw [hr]
    exact hi.awake f hf
  taken := htaken
  whole := hwhole
  called f n hn := by
    rw [hnap] at hn
    have hs : Spares s.timers .getNextTimer s'.timers := by
      rw [htimers]
      exact .refl hi.good
    exact (hi.called f n hn).frame hs hpoll (hr f)

theorem Inv.operate (hi : Inv h s) (hpoll : ∀ now probe, e.inp ≠ .poll now probe)
    {op : TimerManager.Op (Callback φ κ)} {timers : TimerManager (Callback φ κ)} (hs : Spares s.timers op timers)
    (hop : ∀ t ms f recurring, op ≠ .addTimer t ms (.wake f) recurring) :
    Inv (h ++ [e]) { s with timers := timers } where
  good := hs.good
  owner t ht f hcb := by
    rcases hs.owner t ht f hcb with ⟨ht, hcb⟩ | ⟨ms, recurring, hadd⟩
    · exact hi.owner t ht f hcb
    · exact absurd hadd (hop _ _ _ _)
  awake := hi.awake
  taken := hi.taken
  whole := hi.whole
  called f n hn := (hi.called f n hn).frame hs hpoll rfl

/-- The fiber `f` goes on to the stage `x`. -/
theorem Inv.update_whole (hi : Inv h s) (f : φ) {x : Stage} (hx : x ≠ .torn) (g : φ) :
    Function.update s.stage f x g ≠ .torn := by
  by_cases hgf : g = f
  · subst hgf
    rwa [Function.update_self]
  · rw [Function.update_of_ne hgf]
    exact hi.whole g

theorem Inv.update_taken (hi : Inv h s) {f : φ} {x : Stage} {l : List (Task φ κ)} (hl : ∀ y ∈ l, y ∈ s.taken)
    (hx : Task.fiber f ∈ l → x.isArmed = false ∧ x.suspends = false) (g : φ) (hg : Task.fiber g ∈ l) :
    (Function.update s.stage f x g).isArmed = false ∧ (Function.update s.stage f x g).suspends = false := by
  by_cases hgf : g = f
  · subst hgf
    rw [Function.update_self]
    exact hx hg
  · rw [Function.update_of_ne hgf]
    exact hi.taken g (hl _ hg)

/-- A step of the suspension of the fiber `f`, from `x` to `y`. -/
theorem Inv.suspend (hi : Inv h s) (hpoll : ∀ now probe, e.inp ≠ .poll now probe) {f : φ} {x y : Stage}
    (hx : s.stage f = x) (hbusy : x.isArmed = true ∨ x.suspends = true) (hnap : y.nap = x.nap) (hy : y ≠ .torn) :
    Inv (h ++ [e]) { s with stage := Function.update s.stage f y } := by
  refine hi.carry hpoll rfl (fun g => ?_) (fun _ => rfl) (hi.update_taken (fun _ => id) fun hf => ?_)
    (hi.update_whole f hy)
  · show (Function.update s.stage f y g).nap = _
    by_cases hgf : g = f
    · subst hgf
      rw [Function.update_self, hx, hnap]
    · rw [Function.update_of_ne hgf]
  · -- a fiber that is taken has been suspended
    have htaken := hi.taken f hf
    rw [hx] at htaken
    rcases hbusy with hb | hb
    · exact absurd hb (by simp [htaken.1])
    · exact absurd hb (by simp [htaken.2])

theorem Inv.sleep (hi : Inv h s) {f : φ} {a : Addr} {now ms : UInt64} {call : Sleep}
    (he : e.inp = .sleep f a now call) (hms : call.timeoutMs = .ok ms) (hst : s.stage f = .awake)
    (ha : a ∉ s.timers.created) :
    Inv (h ++ [e]) { s with
      timers := (s.timers.addTimer a ms (some (.wake f)) false now).2
      stage := Function.update s.stage f (.armed ⟨call, a, now⟩) } := by
  have hf : (s.stage f).nap = none := by
    rw [hst]
    rfl
  have hef : TimerManager.Effect s.timers now (.addTimer a ms (.wake f) false) _ _ :=
    TimerManager.step_effect hi.good (c := ⟨now, .addTimer a ms (.wake f) false⟩) ha rfl
  have hs := Spares.of_effect hi.good hef nofun fun t g hcb => ⟨nofun, nofun, nofun⟩
  have hpoll : ∀ now' probe, e.inp ≠ .poll now' probe := by
    rw [he]
    exact nofun
  have hother : ∀ g, g ≠ f → Function.update s.stage f (.armed ⟨call, a, now⟩) g = s.stage g :=
    fun g hg => Function.update_of_ne hg _ _
  have hself : Function.update s.stage f (.armed ⟨call, a, now⟩) f = .armed ⟨call, a, now⟩ := Function.update_self ..
  obtain ⟨hc, hin, hx⟩ := TimerManager.added_timer hi.good hef
  refine ⟨hs.good, fun t ht g hcb => ?_, fun g hg => ?_, hi.update_taken (fun _ => id) fun hg => ?_,
    hi.update_whole f nofun, fun g n hn => ?_⟩
  · dsimp only
    rcases hs.owner t ht g hcb with ⟨ht, hcb⟩ | ⟨ms', recurring, hadd⟩
    · obtain ⟨n, hn, hnt⟩ := hi.owner t ht g hcb
      have hgf : g ≠ f := by
        rintro rfl
        rw [hf] at hn
        cases hn
      rw [hother g hgf]
      exact ⟨n, hn, hnt⟩
    · cases hadd
      rw [hself]
      exact ⟨_, rfl, rfl⟩
  · dsimp only at hg
    by_cases hgf : g = f
    · subst hgf
      rw [hself] at hg
      cases hg
    · rw [hother g hgf] at hg
      exact hi.awake g hg
  · -- a fiber that is taken is on its way
    have hroam := hi.awake f hf
    have hpos : 0 < s.taken.countP (Task.wakes f) :=
      List.countP_pos_iff.mpr ⟨_, hg, by simp [Task.wakes]⟩
    unfold roaming at hroam
    omega
  · dsimp only at hn
    by_cases hgf : g = f
    · subst hgf
      rw [hself] at hn
      cases hn
      have hw : Waits ([] : History φ κ) (ms + now) := fun x hx => absurd hx List.not_mem_nil
      exact ⟨h, e, [], ms, rfl, he, hms,
        .pending hw hin (congrArg Timer.cb hx) (congrArg Timer.recurring hx) (congrArg Timer.next hx) (hi.awake g hf)⟩
    · rw [hother g hgf] at hn
      exact (hi.called g n hn).frame hs hpoll rfl

/-! ## `listExpiredCb` -/

theorem any_wakes {f : φ} {o : Option (Callback φ κ)} : o.any (Callback.wakes f) = true ↔ o = some (.wake f) := by
  rcases o with _ | (g | k) <;> simp [Callback.wakes]

theorem countP_batch (m : TimerManager (Callback φ κ)) (ex : List Addr) (f : φ) :
    ((ex.map fun t => (t, (m.heap t).cb)).filterMap Prod.snd).countP (Callback.wakes f) =
      ex.countP fun t => (m.heap t).cb.any (Callback.wakes f) := by
  rw [List.filterMap_map, List.countP_filterMap]
  apply List.countP_congr
  intro t _
  show ((m.heap t).cb.map (Callback.wakes f)).getD false = true ↔ _
  cases (m.heap t).cb <;> rfl

/-- The timers of a list that wake up a fiber are the one of its call. -/
theorem Inv.countP_timers (hi : Inv h s) {l : List Addr} (hl : ∀ t ∈ l, t ∈ s.timers.timers) (hn : l.Nodup) {f : φ}
    {n : Nap} (hf : (s.stage f).nap = some n) :
    (l.countP fun t => (s.timers.heap t).cb.any (Callback.wakes f)) =
      if n.timer ∈ l ∧ (s.timers.heap n.timer).cb.any (Callback.wakes f) = true then 1 else 0 := by
  apply countP_unique (p := fun t => (s.timers.heap t).cb.any (Callback.wakes f)) hn
  intro t ht hcb
  obtain ⟨n', hn', rfl⟩ := hi.owner t (hl t ht) f (any_wakes.mp hcb)
  rw [Option.mem_def, hf, Option.some.injEq] at hn'
  rw [hn']

theorem Inv.countP_timers_awake (hi : Inv h s) {l : List Addr} (hl : ∀ t ∈ l, t ∈ s.timers.timers) {f : φ}
    (hf : (s.stage f).nap = none) : (l.countP fun t => (s.timers.heap t).cb.any (Callback.wakes f)) = 0 := by
  rw [List.countP_eq_zero]
  intro t ht hcb
  obtain ⟨n, hn, -⟩ := hi.owner t (hl t ht) f (any_wakes.mp hcb)
  rw [hf] at hn
  cases hn

theorem Inv.poll (hi : Inv h s) {now : UInt64} {probe : Addr} {r : TimerManager.Reply (Callback φ κ)}
    {timers : TimerManager (Callback φ κ)} (ha : probe ∉ s.timers.created)
    (hstep : s.timers.step ⟨now, .listExpiredCb probe⟩ = .ok (r, timers)) (hpre : e.pre = s)
    (he : e.inp = .poll now probe) (hout : e.out = r.timers) :
    Inv (h ++ [e]) { s with timers := timers, batches := s.batches ++ [r.cbs.filterMap Prod.snd] } := by
  have hef := TimerManager.step_effect (c := ⟨now, .listExpiredCb probe⟩) hi.good ha hstep
  have hgood := hef.good hi.good
  cases hef with
  | @listed _ ex _ hl =>
  rw [TimerManager.timers_listed] at hout
  have hsub : ∀ t ∈ ex, t ∈ s.timers.timers := fun t ht => ((hl.mem t).mp ht).1
  have hroam : ∀ f, roaming { s with
      timers := timers, batches := s.batches ++ [(ex.map fun t => (t, (s.timers.heap t).cb)).filterMap Prod.snd] } f =
        s.roaming f + ex.countP fun t => (s.timers.heap t).cb.any (Callback.wakes f) := by
    intro f
    simp only [roaming, List.flatten_append, List.countP_append, List.flatten_singleton, countP_batch]
    omega
  have hcb : ∀ t ∈ timers.timers, (timers.heap t).cb = (s.timers.heap t).cb := by
    intro t ht
    rw [hl.heap]
    split_ifs with hex
    · rw [TimerManager.rearmed, if_pos (((hl.timers t).mp ht).2 hex)]
    · rfl
  refine ⟨hgood, fun t ht f hf => ?_, fun f hf => ?_, hi.taken, hi.whole, fun f n hn => ?_⟩
  · dsimp only at ht hf
    rw [hcb t ht] at hf
    exact hi.owner t ((hl.timers t).mp ht).1 f hf
  · rw [hroam, hi.awake f hf, hi.countP_timers_awake hsub hf]
  · obtain ⟨h₁, e₀, h₂, ms, rfl, he₀, hms, hslept⟩ := hi.called f n hn
    refine ⟨h₁, e₀, h₂ ++ [e], ms, by simp, he₀, hms, ?_⟩
    have hcount := hi.countP_timers hsub hl.nodup hn
    cases hslept with
    | pending hw ht htcb honce hnext hr =>
      by_cases hex : n.timer ∈ ex
      · rw [if_pos ⟨hex, any_wakes.mpr htcb⟩] at hcount
        refine .fired ⟨h₂, e, [], now, probe, rfl, hw, he, ?_, ?_⟩ ?_ ?_ ?_
        · rwa [hout]
        · rw [hpre]
          intro hp
          have hdue := hl.due_iff.mpr hp _ hex
          rwa [hnext] at hdue
        · show _ ∈ timers.created
          rw [hl.created]
          exact hi.good.created _ ht
        · intro hin
          have hrec := ((hl.timers _).mp hin).2 hex
          rw [honce] at hrec
          cases hrec
        · rw [hroam, hr, hcount]
      · rw [if_neg fun h => hex h.1] at hcount
        obtain ⟨hin, hx⟩ := hl.untouched hex
        refine .pending (hw.concat fun now' probe' h => ?_) (hin.mpr ht) ?_ ?_ ?_ ?_
        · rw [he] at h
          cases h
          have hlate : ¬ s.timers.Expires now n.timer := fun h => hex ((hl.mem _).mpr ⟨ht, h⟩)
          rw [← hnext]
          simpa using not_or.mp hlate |>.2
        · show (timers.heap n.timer).cb = _
          rwa [hx]
        · show (timers.heap n.timer).recurring = _
          rwa [hx]
        · show (timers.heap n.timer).next = _
          rwa [hx]
        · rw [hroam, hr, hcount]
    | fired hf hc ht hr =>
      have hex : n.timer ∉ ex := fun h => ht (hsub _ h)
      rw [if_neg fun h => hex h.1] at hcount
      refine .fired (hf.concat e) ?_ ?_ ?_
      · show _ ∈ timers.created
        rwa [hl.created]
      · exact fun hin => ht ((hl.timers _).mp hin).1
      · rw [hroam, hr, hcount]

/-! ## Steps -/

theorem roaming_run {k : Nat} {x : Task φ κ} (hk : s.taken[k]? = some x) (f : φ) :
    roaming { s with taken := s.taken.eraseIdx k } f + (if x.wakes f then 1 else 0) = s.roaming f := by
  have hcount := countP_eraseIdx (p := Task.wakes f) hk
  simp only [roaming]
  omega

theorem Inv.wake (hi : Inv h s) (hpoll : ∀ now probe, e.inp ≠ .poll now probe) {k : Nat} {f : φ}
    (hk : s.taken[k]? = some (.fiber f)) :
    Inv (h ++ [e]) (Sleepers.resume { s with taken := s.taken.eraseIdx k } f) := by
  have hcount := roaming_run hk
  have hwakes : (Task.fiber f : Task φ κ).wakes f = true := decide_eq_true rfl
  obtain ⟨harmed, hsuspends⟩ := hi.taken f (List.mem_of_getElem? hk)
  cases hst : s.stage f with
  | awake =>
    have hroam := hi.awake f (by rw [hst]; rfl)
    have := hcount f
    rw [hwakes, if_pos rfl] at this
    omega
  | armed n =>
    rw [hst] at harmed
    cases harmed
  | held n =>
    rw [hst] at hsuspends
    cases hsuspends
  | saved n =>
    rw [hst] at hsuspends
    cases hsuspends
  | torn => exact absurd hst (hi.whole f)
  | asleep n =>
    have hs' : Sleepers.resume { s with taken := s.taken.eraseIdx k } f =
        { s with taken := s.taken.eraseIdx k, stage := Function.update s.stage f .awake } := by
      simp [Sleepers.resume, hst]
    have hother : ∀ g, g ≠ f → Function.update s.stage f .awake g = s.stage g :=
      fun g hg => Function.update_of_ne hg _ _
    have hself : Function.update s.stage f .awake f = .awake := Function.update_self ..
    have hrest : ∀ g, g ≠ f → roaming { s with taken := s.taken.eraseIdx k } g = s.roaming g := by
      intro g hg
      have hno : ¬ (Task.fiber f : Task φ κ).wakes g = true := by simpa [Task.wakes] using fun h => hg h.symm
      have := hcount g
      rwa [if_neg hno] at this
    have hnap : (s.stage f).nap = some n := by
      rw [hst]
      rfl
    -- the timer of the call has fired, and this was the only way to the fiber
    have hgone : n.timer ∉ s.timers.timers ∧ roaming { s with taken := s.taken.eraseIdx k } f = 0 := by
      have hone := hcount f
      rw [hwakes, if_pos rfl] at hone
      obtain ⟨_, _, _, _, -, -, -, hslept⟩ := hi.called f n hnap
      cases hslept with
      | pending hw ht hcb honce hnext hr => omega
      | fired hf hc ht hr => exact ⟨ht, by omega⟩
    rw [hs']
    refine ⟨hi.good, fun t ht g hcb => ?_, fun g hg => ?_,
      hi.update_taken (fun _ => List.mem_of_mem_eraseIdx) fun _ => ⟨rfl, rfl⟩, hi.update_whole f nofun,
      fun g m hm => ?_⟩
    · obtain ⟨m, hm, hmt⟩ := hi.owner t ht g hcb
      dsimp only
      by_cases hgf : g = f
      · subst hgf
        rw [Option.mem_def, hnap, Option.some.injEq] at hm
        subst hm
        exact absurd (hmt ▸ ht) hgone.1
      · rw [hother g hgf]
        exact ⟨m, hm, hmt⟩
    · dsimp only at hg
      by_cases hgf : g = f
      · subst hgf
        exact hgone.2
      · rw [hother g hgf] at hg
        exact (hrest g hgf).trans (hi.awake g hg)
    · dsimp only at hm
      by_cases hgf : g = f
      · subst hgf
        rw [hself] at hm
        cases hm
      · rw [hother g hgf] at hm
        exact (hi.called g m hm).frame (.refl hi.good) hpoll (hrest g hgf)

theorem Inv.step {l : Label φ κ} {o : List Addr} (hi : Inv h s) (he : s.Enabled l) (hset : s.Settled l)
    (hs : s.step l = .ok (o, s')) : Inv (h ++ [⟨s, l, o, s'⟩]) s' := by
  cases l with
  | sleep f a now call =>
    obtain ⟨timers, ht, hs⟩ := bind_eq_ok hs
    obtain ⟨ms, hms, rfl⟩ := hooked_ok (mapError_eq_ok ht)
    cases hs
    exact hi.sleep rfl hms he.1 he.2
  | yieldToHold f =>
    simp only [Sleepers.step] at hs
    split at hs
    · rename_i n hst
      cases hs
      refine hi.suspend ?_ hst (.inl rfl) rfl nofun
      exact fun _ _ => nofun
    · cases hs
      exact hi.carry (fun _ _ => nofun) rfl (fun _ => rfl) (fun _ => rfl) hi.taken hi.whole
  | save f =>
    simp only [Sleepers.step] at hs
    split at hs
    · rename_i n hst
      cases hs
      refine hi.suspend ?_ hst (.inr rfl) rfl nofun
      exact fun _ _ => nofun
    · cases hs
      exact hi.carry (fun _ _ => nofun) rfl (fun _ => rfl) (fun _ => rfl) hi.taken hi.whole
  | update f =>
    simp only [Sleepers.step] at hs
    split at hs
    · rename_i n hst
      cases hs
      refine hi.suspend ?_ hst (.inr rfl) rfl nofun
      exact fun _ _ => nofun
    · cases hs
      exact hi.carry (fun _ _ => nofun) rfl (fun _ => rfl) (fun _ => rfl) hi.taken hi.whole
  | timers c =>
    obtain ⟨⟨r, timers⟩, ht, hs⟩ := bind_eq_ok hs
    cases hs
    obtain ⟨ha, hforeign⟩ := he
    have hef := TimerManager.step_effect hi.good ha (mapError_eq_ok ht)
    obtain ⟨now, op⟩ := c
    have hspares : Spares s.timers op timers := by
      refine .of_effect hi.good hef ?_ fun t f hcb => ⟨?_, ?_, ?_⟩
      · rintro probe rfl
        exact hforeign
      · rintro rfl
        exact hforeign f hcb
      · rintro rfl
        exact hforeign f hcb
      · rintro ms fromNow rfl
        exact hforeign f hcb
    refine hi.operate ?_ hspares ?_
    · exact fun _ _ => nofun
    · rintro t ms f recurring rfl
      exact hforeign f rfl
  | poll now probe =>
    obtain ⟨⟨r, timers⟩, ht, hs⟩ := bind_eq_ok hs
    cases hs
    exact hi.poll he (mapError_eq_ok ht) rfl rfl rfl
  | submit k =>
    simp only [Sleepers.step] at hs
    split at hs
    · rename_i cbs hk
      cases hs
      exact hi.carry (fun _ _ => nofun) rfl (fun _ => rfl) (roaming_submit hk) hi.taken hi.whole
    · cases hs
      exact hi.carry (fun _ _ => nofun) rfl (fun _ => rfl) (fun _ => rfl) hi.taken hi.whole
  | schedule k =>
    cases hs
    refine hi.carry (fun _ _ => nofun) rfl (fun _ => rfl) (fun f => ?_) hi.taken hi.whole
    simp [roaming, Task.wakes, Callback.wakes]
  | take k =>
    simp only [Sleepers.step] at hs
    split at hs
    · rename_i x hk
      cases hs
      refine hi.carry (fun _ _ => nofun) rfl (fun _ => rfl) (roaming_take hk) (fun f hf => ?_) hi.whole
      rcases List.mem_append.mp hf with hf | hf
      · exact hi.taken f hf
      · have hx := hk.trans (congrArg some (List.mem_singleton.mp hf).symm)
        exact ⟨he f hx, hset f hx⟩
    · cases hs
      exact hi.carry (fun _ _ => nofun) rfl (fun _ => rfl) (fun _ => rfl) hi.taken hi.whole
  | run k =>
    simp only [Sleepers.step] at hs
    have htaken : ∀ f, Task.fiber f ∈ s.taken.eraseIdx k → (s.stage f).isArmed = false ∧ (s.stage f).suspends = false :=
      fun f hf => hi.taken f (List.mem_of_mem_eraseIdx hf)
    split at hs
    · rename_i f hk
      cases hs
      refine hi.carry (fun _ _ => nofun) rfl (fun _ => rfl) (fun g => ?_) htaken hi.whole
      have hcount := roaming_run hk g
      have hsame : (Task.cb (.wake f) : Task φ κ).wakes g = (Task.fiber f : Task φ κ).wakes g := rfl
      rw [hsame] at hcount
      simp only [roaming, List.countP_append, List.countP_singleton] at hcount ⊢
      omega
    · rename_i j hk
      cases hs
      refine hi.carry (fun _ _ => nofun) rfl (fun _ => rfl) (fun g => ?_) htaken hi.whole
      have hcount := roaming_run hk g
      rwa [if_neg (by simp [Task.wakes, Callback.wakes])] at hcount
    · rename_i f hk
      cases hs
      refine hi.wake ?_ hk
      exact fun _ _ => nofun
    · cases hs
      exact hi.carry (fun _ _ => nofun) rfl (fun _ => rfl) (fun _ => rfl) hi.taken hi.whole

theorem run_inv (hr : Run (machine φ κ) h s) (hset : ∀ e ∈ h, Settled e.pre e.inp) : Inv h s := by
  induction hr with
  | start hs =>
    obtain ⟨now, rfl⟩ := hs
    exact ⟨TimerManager.new_good now, fun t ht => absurd ht List.not_mem_nil, fun _ _ => rfl,
      fun f hf => absurd hf List.not_mem_nil, fun _ => nofun, fun f n hn => by cases hn⟩
  | step hr he hs ih =>
    have hi := ih fun e hmem => hset e (List.mem_append_left _ hmem)
    exact hi.step he (hset _ (List.mem_append_right _ (List.mem_singleton_self _))) hs

/-! ## Each call is woken up once, and in time -/

/-- A call returns by the execution of what was taken for its fiber. -/
theorem step_returns {l : Label φ κ} {o : List Addr} (hs : s.step l = .ok (o, s')) {f : φ}
    (hpre : (s.stage f).nap ≠ none) (hpost : (s'.stage f).nap = none) : 0 < s.roaming f := by
  have hstay : s'.stage = s.stage → 0 < s.roaming f := by
    intro h
    rw [h] at hpost
    exact absurd hpost hpre
  have hset : ∀ g x, s'.stage = Function.update s.stage g x → (g = f → x.nap ≠ none) → 0 < s.roaming f := by
    intro g x h hx
    rw [h] at hpost
    by_cases hgf : g = f
    · subst hgf
      rw [Function.update_self] at hpost
      exact absurd hpost (hx rfl)
    · rw [Function.update_of_ne fun h => hgf h.symm] at hpost
      exact absurd hpost hpre
  cases l with
  | sleep g a now call =>
    obtain ⟨timers, ht, hs⟩ := bind_eq_ok hs
    cases hs
    exact hset g _ rfl fun _ => nofun
  | yieldToHold g =>
    simp only [Sleepers.step] at hs
    split at hs <;> cases hs
    · exact hset g _ rfl fun _ => nofun
    · exact hstay rfl
  | save g =>
    simp only [Sleepers.step] at hs
    split at hs <;> cases hs
    · exact hset g _ rfl fun _ => nofun
    · exact hstay rfl
  | update g =>
    simp only [Sleepers.step] at hs
    split at hs <;> cases hs
    · exact hset g _ rfl fun _ => nofun
    · exact hstay rfl
  | timers c =>
    obtain ⟨⟨r, timers⟩, ht, hs⟩ := bind_eq_ok hs
    cases hs
    exact hstay rfl
  | poll now probe =>
    obtain ⟨⟨r, timers⟩, ht, hs⟩ := bind_eq_ok hs
    cases hs
    exact hstay rfl
  | submit k =>
    simp only [Sleepers.step] at hs
    split at hs <;> cases hs <;> exact hstay rfl
  | schedule k =>
    cases hs
    exact hstay rfl
  | take k =>
    simp only [Sleepers.step] at hs
    split at hs <;> cases hs <;> exact hstay rfl
  | run k =>
    simp only [Sleepers.step] at hs
    split at hs
    · cases hs
      exact hstay rfl
    · cases hs
      exact hstay rfl
    · rename_i g hk
      cases hs
      by_cases hgf : g = f
      · subst hgf
        have hcount := roaming_run hk g
        rw [if_pos (by simp [Task.wakes])] at hcount
        omega
      · refine absurd ?_ hpre
        rw [← hpost]
        simp only [Sleepers.resume]
        split
        · exact congrArg Stage.nap (Function.update_of_ne (fun h => hgf h.symm) _ _).symm
        · exact congrArg Stage.nap (Function.update_of_ne (fun h => hgf h.symm) _ _).symm
        · exact congrArg Stage.nap (Function.update_of_ne (fun h => hgf h.symm) _ _).symm
        · rfl
    · cases hs
      exact hstay rfl

/-- The timer fires in `YieldToHold`: the fiber is swapped in before its context is saved. -/
theorem exists_torn : ∃ h s, Run (machine Unit Unit) h s ∧ s.stage () = .torn := by
  have hr := Run.start (M := machine Unit Unit) ⟨0, rfl⟩
  have hr := hr.step (i := .sleep () 4 2 (.usleep 0)) (by exact ⟨rfl, List.not_mem_nil⟩) rfl
  have hr := hr.step (i := .yieldToHold ()) (by trivial) rfl
  have hr := hr.step (i := .poll 2 7) (by exact (by decide : 7 ∉ [4])) rfl
  have hr := hr.step (i := .submit 0) (by trivial) rfl
  have hr := hr.step (i := .take 0) (by exact fun _ _ => rfl) rfl
  have hr := hr.step (i := .run 0) (by trivial) rfl
  have hr := hr.step (i := .take 0) (by exact fun _ _ => rfl) rfl
  have hr := hr.step (i := .run 0) (by trivial) rfl
  exact ⟨_, _, hr, rfl⟩

end

end Sleepers

end QWebServer.Hook
