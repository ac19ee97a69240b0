import QWebServer.Schedular.Ledger
import QWebServer.Schedular.Pushes
import QWebServer.Workers.Moves

/-!
# No lost wake-up

* `Alert` : the pipe is not empty, a call of `tickle` goes on, or a worker is between its wake-up and its scan;
* `Heeded` : no step lets a worker past its scan miss an entry: by a push to a queue that is not empty, by a queued
  fiber that leaves `EXEC`, or by a call of `tickle` that finds `m_idleThreadCount` 0;
* `no_lost_wakeup` : in runs of such steps no worker is blocked with an entry that it may run, unless there is an alert.
-/

namespace QWebServer.Workers

open Lib
open Schedular (Threads Item Skips elsewhere executing numbered mem_numbered step_queue step_workers exec_kept
  scan_tickle)

variable {τ κ : Type}

/-- The worker is past its scan and has not woken up. -/
def Idle.asleep : Idle → Bool
  | .enter | .stopping _ | .wait | .blocked => true
  | _ => false

/-- The worker is between its wake-up and its next scan. -/
def Idle.awake : Idle → Bool
  | .woken | .leave | .rescan => true
  | _ => false

/-- The worker is between `++m_idleThreadCount` and `--m_idleThreadCount`. -/
def Idle.counted : Idle → Bool
  | .run | .enter | .rescan | .ended => false
  | _ => true

/-- Some worker is about to scan the queue, or will be woken up. -/
def Alert (s : Workers τ κ) : Prop := 0 < s.pipe ∨ s.tickles ≠ [] ∨ ∃ t, (s.idle t).awake = true

/-- A worker past its scan may run the entry. -/
def Missed (ids : Threads τ) (s : Workers τ κ) (x : Item κ) : Prop :=
  ∃ t, (s.idle t).asleep = true ∧ ¬ Skips (ids.id t) s.sched.fibers x

/-- Without an alert no step pushes to a queue that is not empty an entry that a worker past its scan may run, or lets
a fiber leave `EXEC` that such a worker has skipped, or finds `m_idleThreadCount` 0 in `tickle` while a worker that may
run an entry is between its scan and `++m_idleThreadCount`. -/
def Heeded (ids : Threads τ) (s : Workers τ κ) : Label τ κ → Prop
  | .sched l =>
    (∀ ft ∈ s.sched.pushes l, s.sched.queue ≠ [] → s.Missed ids ⟨0, ft⟩ → s.Alert) ∧
      ∀ f ∈ s.sched.leaves l, ∀ x ∈ s.sched.queue, x.ft.fiber = some f →
        (∃ t, (s.idle t).asleep = true ∧ ¬ elsewhere (ids.id t) x) → s.Alert
  | .tickle k => ∀ x ∈ s.tickles[k]?, x.checked = false → s.idleThreadCount = 0 →
      (∃ t, s.idle t = .enter ∧ ∃ x ∈ s.sched.queue, ¬ Skips (ids.id t) s.sched.fibers x) →
      Alert { s with tickles := s.tickles.eraseIdx k }
  | _ => True

/-- The worker `t` is blocked in `epoll_wait`, may run an entry, and nobody is about to wake it up. -/
def Lost (ids : Threads τ) (s : Workers τ κ) (t : τ) : Prop :=
  s.idle t = .blocked ∧ (∃ x ∈ s.sched.queue, ¬ Skips (ids.id t) s.sched.fibers x) ∧ s.pipe = 0 ∧ s.tickles = [] ∧
    ∀ u, u ≠ t → (s.idle u).awake = false

section
variable [Fintype τ] [DecidableEq τ]

instance (s : Workers τ κ) : Decidable s.Alert :=
  inferInstanceAs (Decidable (0 < s.pipe ∨ s.tickles ≠ [] ∨ ∃ t, (s.idle t).awake = true))

instance (ids : Threads τ) (s : Workers τ κ) (x : Item κ) : Decidable (s.Missed ids x) :=
  inferInstanceAs (Decidable (∃ t, (s.idle t).asleep = true ∧ ¬ Skips (ids.id t) s.sched.fibers x))

instance (ids : Threads τ) (s : Workers τ κ) (t : τ) : Decidable (s.Lost ids t) :=
  inferInstanceAs (Decidable (_ ∧ (∃ x ∈ s.sched.queue, ¬ Skips (ids.id t) s.sched.fibers x) ∧ _ ∧ _ ∧ ∀ u, u ≠ t →
    (s.idle u).awake = false))

instance (ids : Threads τ) (s : Workers τ κ) : (l : Label τ κ) → Decidable (s.Heeded ids l)
  | .sched l => inferInstanceAs (Decidable
      ((∀ ft ∈ s.sched.pushes l, s.sched.queue ≠ [] → s.Missed ids ⟨0, ft⟩ → s.Alert) ∧
        ∀ f ∈ s.sched.leaves l, ∀ x ∈ s.sched.queue, x.ft.fiber = some f →
          (∃ t, (s.idle t).asleep = true ∧ ¬ elsewhere (ids.id t) x) → s.Alert))
  | .tickle k => inferInstanceAs (Decidable (∀ x ∈ s.tickles[k]?, x.checked = false → s.idleThreadCount = 0 →
      (∃ t, s.idle t = .enter ∧ ∃ x ∈ s.sched.queue, ¬ Skips (ids.id t) s.sched.fibers x) →
      Alert { s with tickles := s.tickles.eraseIdx k }))
  | .idle _ _ | .read _ | .timer _ | .manage _ | .autoStop | .setStopping | .stopTickle | .stop _ => isTrue trivial

end

theorem Alert.mono {s s' : Workers τ κ} (h : s.Alert) (hpipe : 0 < s.pipe → 0 < s'.pipe)
    (htickles : s.tickles ≠ [] → s'.tickles ≠ [])
    (hidle : ∀ t, (s.idle t).awake = true → (s'.idle t).awake = true) : s'.Alert := by
  rcases h with h | h | ⟨t, h⟩
  · exact .inl (hpipe h)
  · exact .inr (.inl (htickles h))
  · exact .inr (.inr ⟨t, hidle t h⟩)

/-! ## A worker in `idle` -/

/-- The steps of a worker in `idle` and around it. -/
inductive Idle.Goes : Idle → Idle → Prop
  | enter : Goes .enter (.stopping .timer)
  | test {x y : Test} : Goes (.stopping x) (.stopping y)
  | wait {x : Test} : Goes (.stopping x) .wait
  | finish {x : Test} : Goes (.stopping x) .finished
  | block : Goes .wait .blocked
  | wake : Goes .blocked .woken
  | leave : Goes .woken .leave
  | rescan : Goes .leave .rescan
  | again : Goes .finished .run

def Idle.weight (i : Idle) : UInt64 := if i.counted = true then 1 else 0

theorem Idle.Goes.asleep {i j : Idle} (h : i.Goes j) (hj : j.asleep = true) : i.asleep = true := by
  cases h <;> first | rfl | cases hj

theorem Idle.Goes.awake {i j : Idle} (h : i.Goes j) (hi : i.awake = true) : j.awake = true := by
  cases h <;> first | rfl | cases hi

theorem Idle.Goes.ne_run {i j : Idle} (h : i.Goes j) : i ≠ .run := by
  cases h <;> exact nofun

/-- What the step of the worker `t` to `j` does. -/
structure Idles [DecidableEq τ] (s s' : Workers τ κ) (t : τ) (j : Idle) : Prop where
  goes : (s.idle t).Goes j
  idle : s'.idle = Function.update s.idle t j
  count : s'.idleThreadCount + (s.idle t).weight = s.idleThreadCount + j.weight
  sched : s'.sched = s.sched
  iom : s'.iom = s.iom
  tickles : s'.tickles = s.tickles
  pipe : s'.pipe = s.pipe

theorem Move.idles [DecidableEq τ] {ids : Threads τ} {mem : IOManager.Memory} {s s' : Workers τ κ} {t : τ}
    {now : UInt64}
    {b : Bool} (hm : Move ids mem s (.idle t now) b s') : ∃ j, Idles s s' t j := by
  cases hm with
  | enter hidle =>
    exact ⟨_, by rw [hidle]; exact .enter, rfl, by rw [hidle]; exact UInt64.add_zero _, rfl, rfl, rfl, rfl⟩
  | wait hidle => exact ⟨_, by rw [hidle]; exact .block, rfl, by rw [hidle]; rfl, rfl, rfl, rfl, rfl⟩
  | wake hidle => exact ⟨_, by rw [hidle]; exact .wake, rfl, by rw [hidle]; rfl, rfl, rfl, rfl, rfl⟩
  | leave hidle => exact ⟨_, by rw [hidle]; exact .leave, rfl, by rw [hidle]; rfl, rfl, rfl, rfl, rfl⟩
  | rescan hidle =>
    refine ⟨_, by rw [hidle]; exact .rescan, rfl, ?_, rfl, rfl, rfl, rfl⟩
    rw [hidle]
    show s.idleThreadCount - 1 + 1 = s.idleThreadCount + 0
    rw [UInt64.sub_add_cancel, UInt64.add_zero]
  | again hidle =>
    refine ⟨_, by rw [hidle]; exact .again, rfl, ?_, rfl, rfl, rfl, rfl⟩
    rw [hidle]
    show s.idleThreadCount - 1 + 1 = s.idleThreadCount + 0
    rw [UInt64.sub_add_cancel, UInt64.add_zero]
  | test hidle hp =>
    obtain ⟨timers, rfl⟩ := stoppingTest_timers hp
    exact ⟨_, by rw [hidle]; exact .test, rfl, by rw [hidle]; rfl, rfl, rfl, rfl, rfl⟩
  | stay hidle hp =>
    obtain ⟨timers, rfl⟩ := stoppingTest_timers hp
    exact ⟨_, by rw [hidle]; exact .wait, rfl, by rw [hidle]; rfl, rfl, rfl, rfl, rfl⟩
  | finish hidle hp =>
    obtain ⟨timers, rfl⟩ := stoppingTest_timers hp
    exact ⟨_, by rw [hidle]; exact .finish, rfl, by rw [hidle]; rfl, rfl, rfl, rfl, rfl⟩

theorem scans_eq {pc : Schedular.Pc κ} (h : pc.scans = true) : pc = .scan := by
  cases pc with
  | scan => rfl
  | _ => cases h

theorem idleAfter_of_ne [DecidableEq τ] {s : Workers τ κ} {sched : Schedular τ κ} {l : Schedular.Label τ κ} {u : τ}
    (hu : ∀ a, l ≠ .work u a) :
    s.idleAfter sched l u = s.idle u := by
  cases l with
  | work t a => exact Function.update_of_ne (fun h => hu a (by rw [h])) _ _
  | _ => rfl

/-! ## The invariant -/

section
variable [Fintype τ] {ids : Threads τ} {s s' : Workers τ κ}

/-- `m_idleThreadCount` counts, who is in `idle` executes nothing, and no worker past its scan misses an entry without
an alert. -/
structure Inv (ids : Threads τ) (s : Workers τ κ) : Prop where
  count : s.idleThreadCount = UInt64.ofNat (countAt (fun i : Idle => i.counted = true) s.idle)
  scans : ∀ t, s.idle t ≠ .run → (s.sched.workers t).pc = .scan
  heard : ∀ x ∈ s.sched.queue, s.Missed ids x → s.Alert

theorem Inv.env (hi : Inv ids s) (hsched : s'.sched = s.sched) (hidle : s'.idle = s.idle)
    (hcount : s'.idleThreadCount = s.idleThreadCount) (halert : s.Alert → s'.Alert) : Inv ids s' := by
  refine ⟨?_, fun t ht => ?_, fun x hx hm => ?_⟩
  · rw [hcount, hidle]
    exact hi.count
  · rw [hidle] at ht
    rw [hsched]
    exact hi.scans t ht
  · unfold Missed at hm
    rw [hsched] at hx hm
    rw [hidle] at hm
    exact halert (hi.heard x hx hm)

theorem Inv.callTickle (hi : Inv ids s) (caller : Option τ) (need : Bool) : Inv ids (s.callTickle caller need) := by
  refine hi.env (by simp) (by simp) (by simp) fun ha => ha.mono ?_ (callTickle_tickles s caller need).1 ?_
  · rw [callTickle_pipe]
    exact id
  · intro t ht
    rwa [callTickle_idle]

/-- Where no worker is counted, one past its scan is before `++m_idleThreadCount`. -/
theorem Inv.enter (hi : Inv ids s) (hzero : s.idleThreadCount = 0) {t : τ} (ht : (s.idle t).asleep = true) :
    s.idle t = .enter := by
  have hcount := counter_toNat hi.count ids.card_lt
  rw [hzero] at hcount
  have hnot : ¬ (s.idle t).counted = true := fun hc =>
    countAt_ne_zero (p := fun i : Idle => i.counted = true) hc hcount.symm
  cases hidle : s.idle t with
  | enter => rfl
  | _ => simp [hidle, Idle.asleep, Idle.counted] at ht hnot

theorem Inv.tickle (hi : Inv ids s) {k : Nat} {x : Tickle τ} (hk : s.tickles[k]? = some x)
    (hh : s.Heeded ids (.tickle k)) : Inv ids (s.tickle k x) := by
  unfold Workers.tickle
  split_ifs with hc hpos
  · exact hi.env rfl rfl rfl fun _ => .inl (Nat.succ_pos _)
  · refine hi.env rfl rfl rfl fun ha => ha.mono id (fun hne => ?_) fun _ h => h
    show s.tickles.set k _ ≠ []
    simpa using hne
  · have hzero : s.idleThreadCount = 0 := by
      by_contra hne
      exact hpos (UInt64.pos_iff_ne_zero.mpr hne)
    refine ⟨hi.count, hi.scans, fun y hy ⟨t, ht, hskip⟩ => ?_⟩
    exact hh x hk (by simpa using hc) hzero ⟨t, hi.enter hzero ht, y, hy, hskip⟩

theorem Inv.read (hi : Inv ids s) {t : τ} (ht : s.idle t = .woken) : Inv ids { s with pipe := s.pipe - 256 } := by
  refine hi.env rfl rfl rfl fun _ => .inr (.inr ⟨t, ?_⟩)
  show (s.idle t).awake = true
  rw [ht]
  rfl

variable [DecidableEq τ]

theorem Inv.idles {t : τ} {j : Idle} (hi : Inv ids s) (h : Idles s s' t j) : Inv ids s' := by
  refine ⟨?_, fun u hu => ?_, fun x hx hm => ?_⟩
  · rw [h.idle]
    exact counter_update hi.count h.count
  · rw [h.sched]
    by_cases hut : u = t
    · rw [hut]
      exact hi.scans t h.goes.ne_run
    · rw [h.idle, Function.update_of_ne hut] at hu
      exact hi.scans u hu
  · rw [h.sched] at hx
    have hs : s.Missed ids x := by
      obtain ⟨u, hu, hskip⟩ := hm
      rw [h.sched] at hskip
      by_cases hut : u = t
      · subst hut
        rw [h.idle, Function.update_self] at hu
        exact ⟨u, h.goes.asleep hu, hskip⟩
      · rw [h.idle, Function.update_of_ne hut] at hu
        exact ⟨u, hu, hskip⟩
    refine (hi.heard x hx hs).mono (fun hp => ?_) (fun hp => ?_) fun u hu => ?_
    · rwa [h.pipe]
    · rwa [h.tickles]
    · rw [h.idle]
      by_cases hut : u = t
      · subst hut
        rw [Function.update_self]
        exact h.goes.awake hu
      · rwa [Function.update_of_ne hut]

/-! ## A step of the scheduler -/

theorem Inv.idleAfter_eq (hi : Inv ids s) (sched : Schedular τ κ) {l : Schedular.Label τ κ}
    (hno : ∀ t a, l = .work t a → (s.sched.workers t).pc ≠ .scan) (u : τ) : s.idleAfter sched l u = s.idle u := by
  by_cases hu : ∃ a, l = .work u a
  · obtain ⟨a, rfl⟩ := hu
    have hpc := hno u a rfl
    have hrun : s.idle u = .run := by
      by_contra h
      exact hpc (hi.scans u h)
    have hscans : (s.sched.workers u).pc.scans = false := by
      by_contra h
      exact hpc (scans_eq (by simpa using h))
    simp [idleAfter, hscans, hrun]
  · exact idleAfter_of_ne fun a ha => hu ⟨a, ha⟩

theorem Inv.sched_count (hi : Inv ids s) {sched : Schedular τ κ} {l : Schedular.Label τ κ} (he : s.Enabled (.sched l)) :
    s.idleThreadCount = UInt64.ofNat (countAt (fun i : Idle => i.counted = true) (s.idleAfter sched l)) := by
  cases l with
  | work t a =>
    refine counter_update hi.count ?_
    have hold : (s.idle t).counted = false := by
      rcases he.2.1 with h | h <;> rw [h] <;> rfl
    have hnew : ∀ b c : Bool, (if b then if c then Idle.ended else .enter else .run).counted = false := by decide
    rw [hold, hnew]
  | _ => exact hi.count

theorem Inv.sched_scans (hi : Inv ids s) {sched : Schedular τ κ} {l : Schedular.Label τ κ} {r : Schedular.Reply}
    (he : s.Enabled (.sched l)) (h : s.sched.step ids l = .ok (r, sched)) (u : τ) (hu : s.idleAfter sched l u ≠ .run) :
    (sched.workers u).pc = .scan := by
  by_cases hw : ∃ a, l = .work u a
  · obtain ⟨a, rfl⟩ := hw
    by_cases hnew : (sched.workers u).pc.scans = true
    · exact scans_eq hnew
    · simp [idleAfter, hnew] at hu
  · have hne : ∀ a, l ≠ .work u a := fun a ha => hw ⟨a, ha⟩
    rw [idleAfter_of_ne hne] at hu
    have hpc := hi.scans u hu
    have hact : ∀ x, l ≠ .act u x := by
      rintro x rfl
      have hacts : (s.sched.workers u).pc.acts x = true := he
      rw [hpc] at hacts
      cases hacts
    rw [step_workers he.ready h hne hact]
    exact hpc

/-- An entry that a worker past its scan misses after entries were pushed or a fiber has changed its state. -/
theorem Inv.sched_heard (hi : Inv ids s) {sched : Schedular τ κ} {l : Schedular.Label τ κ} {r : Schedular.Reply}
    (he : s.Enabled (.sched l)) (hh : s.Heeded ids (.sched l)) (h : s.sched.step ids l = .ok (r, sched))
    {n : Nat} (hq : sched.queue = s.sched.queue ++ numbered n (s.sched.pushes l))
    (hpush : s.sched.pushes l ≠ [] → sched.fibers = s.sched.fibers ∧ (s.sched.queue = [] → r.tickle = true))
    {x : Item κ} (hx : x ∈ sched.queue) {t : τ} (ht : (s.idle t).asleep = true)
    (hskip : ¬ Skips (ids.id t) sched.fibers x) : s.Alert ∨ r.tickle = true := by
  rw [hq] at hx
  rcases List.mem_append.mp hx with hmem | hmem
  · by_cases hbefore : Skips (ids.id t) s.sched.fibers x
    · -- the worker has skipped it for a fiber that was executed
      rcases hbefore with hels | ⟨f, hf, hst⟩
      · exact absurd (.inl hels) hskip
      · have hgone : ¬ (sched.fibers f).state = .exec := fun hst' => hskip (.inr ⟨f, hf, hst'⟩)
        have hnew : ∀ a cb, l = .newFiber a cb → a ≠ f := by
          rintro a cb rfl rfl
          exact he x hmem hf
        have hnew' : ∀ t a, l = .work t a → a ≠ f := by
          rintro v a rfl rfl
          exact he.1.2 x hmem hf
        have hleaves := (exec_kept he.ready h hst hnew hnew').resolve_left hgone
        exact .inl (hh.2 f hleaves x hmem hf ⟨t, ht, fun hels => hskip (.inl hels)⟩)
    · exact .inl (hi.heard x hmem ⟨t, ht, hbefore⟩)
  · have hft : x.ft ∈ s.sched.pushes l := mem_numbered hmem
    obtain ⟨hfib, htk⟩ := hpush (List.ne_nil_of_mem hft)
    rw [hfib] at hskip
    by_cases hempty : s.sched.queue = []
    · exact .inr (htk hempty)
    · exact .inl (hh.1 x.ft hft hempty ⟨t, ht, hskip⟩)

theorem Inv.sched (hi : Inv ids s) {sched : Schedular τ κ} {l : Schedular.Label τ κ} {r : Schedular.Reply}
    (he : s.Enabled (.sched l)) (hh : s.Heeded ids (.sched l)) (h : s.sched.step ids l = .ok (r, sched)) :
    Inv ids ({ s with sched := sched, idle := s.idleAfter sched l }.callTickle (Workers.caller l) r.tickle) := by
  have htickles := callTickle_tickles { s with sched := sched, idle := s.idleAfter sched l } (Workers.caller l) r.tickle
  refine ⟨?_, fun u hu => ?_, fun x hx ⟨t, ht, hskip⟩ => ?_⟩
  · simpa using hi.sched_count he
  · simp only [callTickle_idle] at hu
    simpa using hi.sched_scans he h u hu
  simp only [callTickle_sched, callTickle_idle] at hx ht hskip
  rcases step_queue he.ready h with ⟨hno, ⟨n, hq⟩, hpush⟩ | ⟨v, a, taken, rfl, hpc, hscan, hfib⟩
  · have hstay := hi.idleAfter_eq sched hno
    rw [hstay t] at ht
    rcases hi.sched_heard he hh h hq hpush hx ht hskip with ha | htk
    · refine ha.mono ?_ htickles.1 fun u hu => ?_
      · rw [callTickle_pipe]
        exact id
      · rw [callTickle_idle]
        show (s.idleAfter sched l u).awake = true
        rwa [hstay u]
    · exact .inr (.inl (htickles.2 htk))
  · -- a scan calls `tickle` for what it leaves
    have htk : r.tickle = true := by
      refine scan_tickle hscan hx fun hex => hskip (.inr ?_)
      rwa [hfib]
    exact .inr (.inl (htickles.2 htk))

/-! ## Steps and runs -/

theorem Inv.move {mem : IOManager.Memory} {l : Label τ κ} {b : Bool} (hi : Inv ids s) (he : s.Enabled l)
    (hh : s.Heeded ids l) (hm : Move ids mem s l b s') : Inv ids s' := by
  cases l with
  | sched l =>
    cases hm with
    | sched hready h => exact hi.sched he hh h
  | idle t now =>
    obtain ⟨j, hj⟩ := hm.idles
    exact hi.idles hj
  | read t =>
    cases hm with
    | read hidle => exact hi.read hidle
  | tickle k =>
    cases hm with
    | tickle hk => exact hi.tickle hk hh
    | noTickle => exact hi
  | timer c =>
    cases hm with
    | @timer _ r timers ha h =>
      have henv : Inv ids { s with timers := timers } := hi.env rfl rfl rfl id
      exact henv.callTickle none r.notified
  | manage o =>
    cases hm with
    | manage ha h => exact hi.env rfl rfl rfl id
  | autoStop | setStopping =>
    cases hm
    exact hi.env rfl rfl rfl id
  | stopTickle =>
    cases hm
    exact hi.callTickle none true
  | stop now =>
    cases hm with
    | stopCall hstop => exact hi.env rfl rfl rfl id
    | stopTest hstop hp | stopEnd hstop hp =>
      obtain ⟨timers, rfl⟩ := stoppingTest_timers hp
      exact hi.env rfl rfl rfl id

theorem run_inv {mem : IOManager.Memory} {h : List (Entry (Workers τ κ) (Label τ κ) Bool)}
    (hr : Run (machine ids mem) h s) (hh : ∀ e ∈ h, e.pre.Heeded ids e.inp) : Inv ids s := by
  refine hr.invariant_of hh ?_ fun e hi hs hhe => hi.move hs.1 hhe (step_move hs.1 hs.2)
  rintro _ ⟨now, rfl⟩
  refine ⟨?_, fun t ht => absurd rfl ht, fun x hx => absurd hx List.not_mem_nil⟩
  rw [countAt_eq_zero fun _ => nofun]
  rfl

/-- **No lost wake-up.** In a run of heeded steps no worker is blocked in `epoll_wait` that may run an entry of the
queue, while the pipe is empty, no call of `tickle` goes on, and no other worker is between a wake-up and its scan. -/
theorem no_lost_wakeup {mem : IOManager.Memory} {h : List (Entry (Workers τ κ) (Label τ κ) Bool)}
    (hr : Run (machine ids mem) h s) (hh : ∀ e ∈ h, e.pre.Heeded ids e.inp) : ∀ t, ¬ s.Lost ids t := by
  rintro t ⟨hb, ⟨x, hx, hskip⟩, hpipe, htickles, hothers⟩
  rcases (run_inv hr hh).heard x hx ⟨t, by rw [hb]; rfl, hskip⟩ with h | h | ⟨u, hu⟩
  · omega
  · exact h htickles
  · by_cases hut : u = t
    · rw [hut, hb] at hu
      cases hu
    · rw [hothers u hut] at hu
      cases hu

end

/-- From a scan that takes nothing to `++m_idleThreadCount`, and on to `epoll_wait`. -/
def block (t : Bool) : List (Label Bool Nat) := List.replicate 5 (.idle t 0)

/-- A callback is scheduled, for any thread or for one. -/
def schedule (thread : Int) : List (Label Bool Nat) := [.sched (.schedule [{ cb := some 0, thread }])]

/-- A worker is blocked, a callback is scheduled, and `tickle` writes its byte. -/
theorem no_lost_wakeup_tickled : ∃ h s, Run (machine (κ := Nat) Schedular.twoThreads memory) h s ∧
    (∀ e ∈ h, e.pre.Heeded Schedular.twoThreads e.inp) ∧ s.idle false = .blocked ∧ s.sched.queue.length = 1 ∧
      ∀ t, ¬ s.Lost Schedular.twoThreads t := by
  obtain ⟨h, s, hr, hp⟩ := Run.of_replay (machine (κ := Nat) Schedular.twoThreads memory) ⟨0, rfl⟩
    (.sched (.work false 1) :: block false ++ schedule (-1) ++ [.tickle 0, .tickle 0])
    (fun r => decide ((∀ e ∈ r.1, e.pre.Heeded Schedular.twoThreads e.inp) ∧ r.2.idle false = .blocked ∧
      r.2.sched.queue.length = 1)) (by decide +kernel)
  obtain ⟨hh, hb, hq⟩ := of_decide_eq_true hp
  exact ⟨h, s, hr, hh, hb, hq, no_lost_wakeup hr hh⟩

/-- Both workers have scanned the empty queue when a callback is scheduled, and `tickle` finds `m_idleThreadCount` 0
before they count themselves: both are blocked. Or one worker executes a callback and the other one skips what is for
the thread of the first, goes to `epoll_wait`, and is told of nothing that is pushed behind it. -/
theorem no_lost_wakeup_missed :
    (∃ h s, Run (machine (κ := Nat) Schedular.twoThreads memory) h s ∧ ∀ t, s.Lost Schedular.twoThreads t) ∧
      ∃ h s, Run (machine (κ := Nat) Schedular.twoThreads memory) h s ∧ s.Lost Schedular.twoThreads false ∧
        (s.sched.workers true).pc.acts .publish = true ∧ s.sched.queue.length = 2 := by
  constructor
  · obtain ⟨h, s, hr, hp⟩ := Run.of_replay (machine (κ := Nat) Schedular.twoThreads memory) ⟨0, rfl⟩
      ([.sched (.work false 1), .sched (.work true 1)] ++ schedule (-1) ++ [.tickle 0] ++ block false ++ block true)
      (fun r => decide (∀ t, r.2.Lost Schedular.twoThreads t)) (by decide +kernel)
    exact ⟨h, s, hr, of_decide_eq_true hp⟩
  · obtain ⟨h, s, hr, hp⟩ := Run.of_replay (machine (κ := Nat) Schedular.twoThreads memory) ⟨0, rfl⟩
      (schedule (-1) ++ [.tickle 0] ++ [1, 1, 2, 2].map (fun a => .sched (.work true a)) ++ schedule 2 ++
        [.tickle 0, .sched (.work false 2), .tickle 0] ++ block false ++ schedule (-1))
      (fun r => decide (r.2.Lost Schedular.twoThreads false ∧ (r.2.sched.workers true).pc.acts .publish = true ∧
        r.2.sched.queue.length = 2)) (by decide +kernel)
    exact ⟨h, s, hr, of_decide_eq_true hp⟩

end QWebServer.Workers
