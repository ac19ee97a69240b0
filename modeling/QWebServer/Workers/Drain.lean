import QWebServer.Workers.LostWakeup

/-!
# What is left when the workers have returned

* `Pc.attends`, `Attended` : a fiber with the state `EXEC` is on a worker that executes it;
* `Settled` : that, and a worker that is not in `run` executes nothing;
* `Move.ends` : the step with which a worker returns from `run`;
* `Run.enters` : the last time that a run comes to states with a property;
* `drained` : what is in the queue when the last worker has returned, and from then on.
-/

namespace QWebServer

open Lib

namespace Schedular

variable {τ κ : Type}

/-- The worker executes the fiber `f` and has stored no other state in it. -/
def Pc.attends (f : Addr) : Pc κ → Prop
  | .load _ g _ => g = f
  | .exec g _ .running => g = f
  | .exec g _ .published => g = f
  | _ => False

/-- Each fiber with the state `EXEC` is executed by a worker. -/
def Attended (s : Schedular τ κ) : Prop := ∀ f, (s.fibers f).state = .exec → ∃ t, (s.workers t).pc.attends f

section
variable [DecidableEq τ] {ids : Threads τ} {s s' : Schedular τ κ} {l : Label τ κ} {r : Reply} {t : τ} {w : Worker κ}

/-- The worker `t` moves, and what it executed before has another state. -/
theorem Attended.turn (ha : s.Attended) (hw : s'.workers = Function.update s.workers t w)
    (hf : ∀ f, (s'.fibers f).state = .exec →
      w.pc.attends f ∨ (s.fibers f).state = .exec ∧ ¬ (s.workers t).pc.attends f) : s'.Attended := by
  intro f hst
  rcases hf f hst with h | ⟨h, hno⟩
  · refine ⟨t, ?_⟩
    rw [hw, Function.update_self]
    exact h
  · obtain ⟨u, hu⟩ := ha f h
    have hne : u ≠ t := fun hut => hno (hut ▸ hu)
    refine ⟨u, ?_⟩
    rw [hw, Function.update_of_ne hne]
    exact hu

theorem Attended.pass (ha : s.Attended) (hw : s'.workers = Function.update s.workers t w) (hfib : s'.fibers = s.fibers)
    (hpc : ∀ f, ¬ (s.workers t).pc.attends f) : s'.Attended := by
  refine ha.turn hw fun f hst => .inr ⟨?_, hpc f⟩
  rwa [hfib] at hst

theorem Attended.store (ha : s.Attended) (hw : s'.workers = Function.update s.workers t w) {g : Addr} {y : Fiber κ}
    (hfib : s'.fibers = Function.update s.fibers g y) (hpc : ∀ f, (s.workers t).pc.attends f → g = f)
    (hy : y.state = .exec → w.pc.attends g) : s'.Attended := by
  refine ha.turn hw fun f hst => ?_
  rw [hfib] at hst
  by_cases hfg : f = g
  · subst hfg
    rw [Function.update_self] at hst
    exact .inl (hy hst)
  · rw [Function.update_of_ne hfg] at hst
    exact .inr ⟨hst, fun h => hfg (hpc f h).symm⟩

theorem Move.attended (ha : s.Attended) (hm : Move ids s l r s') : s'.Attended := by
  cases hm with
  | schedule fts =>
    rw [schedule_eq]
    exact ha
  | newFiber a cb =>
    intro f hst
    refine ha f ?_
    by_cases hfa : f = a
    · subst hfa
      simp [Schedular.newFiber, setFiber] at hst
    · simpa [Schedular.newFiber, setFiber, hfa] using hst
  | trigger | idle => exact ha
  | take hpc | resume hpc | drop hpc | leave hpc | checkReady hpc | checkEnd hpc | checkHold hpc | forget hpc
  | discard hpc =>
    refine ha.pass rfl rfl ?_
    rw [hpc]
    exact fun f => id
  | reuse hpc | recycle hpc =>
    refine ha.store rfl rfl ?_ (by simp)
    rw [hpc]
    exact fun f => False.elim
  | create hpc =>
    refine ha.store (create_workers ..) rfl ?_ (by simp)
    rw [hpc]
    exact fun f => False.elim
  | enter hpc =>
    refine ha.store rfl rfl ?_ fun _ => rfl
    rw [hpc]
    exact fun f => False.elim
  | load hpc =>
    refine ha.store rfl rfl ?_ fun _ => rfl
    rw [hpc]
    exact fun f => id
  | @save t a f via o hpc =>
    refine ha.turn (t := t) rfl fun g hst => .inr ⟨?_, ?_⟩
    · by_cases hgf : g = f
      · subst hgf
        simpa [goto, setFiber] using hst
      · simpa [goto, setFiber, hgf] using hst
    · rw [hpc]
      exact id
  | @requeue t a f via hpc =>
    refine ha.pass (release_workers ..) ?_ ?_
    · cases via <;> rfl
    · rw [hpc]
      exact fun f => id
  | @update t a f via hpc =>
    refine ha.store (release_workers ..) (g := f) (y := { s.fibers f with state := .hold }) ?_ ?_ (by simp)
    · cases via <;> rfl
    · rw [hpc]
      exact fun f => False.elim
  | @publish t f via hpc =>
    refine ha.turn (t := t) rfl fun g hst => ?_
    by_cases hgf : f = g
    · exact .inl hgf
    · refine .inr ⟨hst, ?_⟩
      rw [hpc]
      exact hgf
  | hold hpc hp =>
    refine ha.store rfl rfl ?_ (by simp)
    rw [hpc]
    rcases hp with rfl | rfl
    · exact fun f => id
    · exact fun f => id
  | ready hpc | throw hpc | finish hpc =>
    refine ha.store rfl rfl ?_ (by simp)
    rw [hpc]
    exact fun f => id

end

end Schedular

namespace Workers

open Schedular (Threads Item Skips elsewhere executing numbered Scanned step_queue step_workers scan_spec)

variable {τ κ : Type}

def Ended (s : Workers τ κ) : Prop := ∀ t, s.idle t = .ended

/-- Each fiber with the state `EXEC` is executed, and not by a worker that is past its scan. -/
structure Settled (s : Workers τ κ) : Prop where
  attended : s.sched.Attended
  scans : ∀ t, s.idle t ≠ .run → (s.sched.workers t).pc = .scan

theorem Settled.quiet {s : Workers τ κ} (hi : s.Settled) (hend : s.Ended) (f : Addr) :
    (s.sched.fibers f).state ≠ .exec := by
  intro hst
  obtain ⟨t, ht⟩ := hi.attended f hst
  rw [hi.scans t (by rw [hend t]; exact nofun)] at ht
  exact ht

theorem Idle.Goes.ne_ended {i j : Idle} (h : i.Goes j) : i ≠ .ended ∧ j ≠ .ended := by
  cases h <;> exact ⟨nofun, nofun⟩

section
variable [DecidableEq τ] {ids : Threads τ} {mem : IOManager.Memory} {s s' : Workers τ κ} {l : Label τ κ} {b : Bool}

/-! ## What happens to the scheduler, and to the places of the workers -/

/-- A step that is not one of the scheduler leaves it alone and moves at most one worker. -/
theorem Move.aside (hm : Move ids mem s l b s') (hl : ∀ k, l ≠ .sched k) :
    s'.sched = s.sched ∧ (s'.idle = s.idle ∨ ∃ t j, (s.idle t).Goes j ∧ s'.idle = Function.update s.idle t j) := by
  cases l with
  | sched k => exact absurd rfl (hl k)
  | idle t now =>
    obtain ⟨j, hj⟩ := hm.idles
    exact ⟨hj.sched, .inr ⟨t, j, hj.goes, hj.idle⟩⟩
  | tickle k =>
    cases hm with
    | tickle hk =>
      unfold Workers.tickle
      split_ifs <;> exact ⟨rfl, .inl rfl⟩
    | noTickle => exact ⟨rfl, .inl rfl⟩
  | timer c =>
    cases hm with
    | timer ha h =>
      rw [callTickle_sched, callTickle_idle]
      exact ⟨rfl, .inl rfl⟩
  | stopTickle =>
    cases hm
    rw [callTickle_sched, callTickle_idle]
    exact ⟨rfl, .inl rfl⟩
  | stop now =>
    cases hm with
    | stopCall hstop => exact ⟨rfl, .inl rfl⟩
    | stopTest hstop hp | stopEnd hstop hp =>
      obtain ⟨timers, rfl⟩ := stoppingTest_timers hp
      exact ⟨rfl, .inl rfl⟩
  | read t | manage o | autoStop | setStopping =>
    cases hm
    exact ⟨rfl, .inl rfl⟩

/-- A step of the scheduler, and what it does to the place of a worker. -/
theorem Move.of_sched {k : Schedular.Label τ κ} (hm : Move ids mem s (.sched k) b s') :
    ∃ r, s.sched.Ready k ∧ s.sched.step ids k = .ok (r, s'.sched) ∧ s'.idle = s.idleAfter s'.sched k := by
  cases hm with
  | sched hready h =>
    rw [callTickle_sched, callTickle_idle]
    exact ⟨_, hready, h, rfl⟩

theorem Settled.move (hi : s.Settled) (he : s.Enabled l) (hm : Move ids mem s l b s') : s'.Settled := by
  by_cases hl : ∃ k, l = .sched k
  · obtain ⟨k, rfl⟩ := hl
    obtain ⟨r, hready, h, hidle⟩ := hm.of_sched
    refine ⟨(Schedular.step_move hready h).attended hi.attended, fun u hu => ?_⟩
    rw [hidle] at hu
    by_cases hw : ∃ a, k = .work u a
    · obtain ⟨a, rfl⟩ := hw
      by_cases hnew : (s'.sched.workers u).pc.scans = true
      · exact scans_eq hnew
      · simp [idleAfter, hnew] at hu
    · have hne : ∀ a, k ≠ .work u a := fun a ha => hw ⟨a, ha⟩
      rw [idleAfter_of_ne hne] at hu
      have hpc := hi.scans u hu
      rw [step_workers hready h hne ?_]
      · exact hpc
      · rintro x rfl
        have hacts : (s.sched.workers u).pc.acts x = true := he
        rw [hpc] at hacts
        cases hacts
  · obtain ⟨hsched, hidle⟩ := hm.aside fun k hk => hl ⟨k, hk⟩
    refine ⟨by rw [hsched]; exact hi.attended, fun u hu => ?_⟩
    rw [hsched]
    apply hi.scans u
    rcases hidle with hidle | ⟨t, j, hgoes, hidle⟩
    · rwa [hidle] at hu
    · by_cases hut : u = t
      · rw [hut]
        exact hgoes.ne_run
      · rwa [hidle, Function.update_of_ne hut] at hu

theorem run_settled {h : List (Entry (Workers τ κ) (Label τ κ) Bool)} (hr : Run (machine ids mem) h s) : s.Settled := by
  refine hr.invariant ?_ fun s l b s' hi he hs => hi.move he (step_move he hs)
  rintro _ ⟨now, rfl⟩
  exact ⟨fun f => nofun, fun t ht => absurd rfl ht⟩

/-! ## The end of a worker -/

/-- **The step with which a worker ends** is a scan that takes nothing. -/
theorem Move.ends (he : s.Enabled l) (hm : Move ids mem s l b s') {t : τ} (ht : s.idle t ≠ .ended)
    (ht' : s'.idle t = .ended) :
    s'.sched.queue = s.sched.queue ∧ s'.sched.fibers = s.sched.fibers ∧
      (∀ u, u ≠ t → s'.idle u = s.idle u) ∧ ∀ x ∈ s.sched.queue, Skips (ids.id t) s.sched.fibers x := by
  by_cases hl : ∃ k, l = .sched k
  · obtain ⟨k, rfl⟩ := hl
    obtain ⟨r, hready, h, hidle⟩ := hm.of_sched
    rw [hidle] at ht'
    have hk : ∃ a, k = .work t a := by
      by_contra hno
      rw [idleAfter_of_ne fun a ha => hno ⟨a, ha⟩] at ht'
      exact ht ht'
    obtain ⟨a, rfl⟩ := hk
    have hothers : ∀ u, u ≠ t → s'.idle u = s.idle u := by
      intro u hu
      rw [hidle]
      exact Function.update_of_ne hu _ _
    have hscans : (s.sched.workers t).pc.scans = true ∧ (s'.sched.workers t).pc.scans = true := by
      by_contra hno
      rw [← Bool.and_eq_true_iff] at hno
      simp [idleAfter, hno] at ht'
    have hpc := scans_eq hscans.1
    generalize hsched : s'.sched = sched at h hscans
    cases Schedular.step_move hready h with
    | idle _ hscan =>
      obtain ⟨rfl, hskips⟩ := hscan
      exact ⟨rfl, rfl, hothers, hskips⟩
    | take =>
      have hno := hscans.2
      simp [Schedular.goto, Schedular.Pc.scans] at hno
    | resume h' | reuse h' | create h' | drop h' | enter h' | load h' | save h' | leave h' | checkReady h' | checkEnd h'
    | checkHold h' | requeue h' | recycle h' | forget h' | update h' | discard h' =>
      rw [hpc] at h'
      cases h'
  · obtain ⟨-, hidle | ⟨u, j, hgoes, hidle⟩⟩ := hm.aside fun k hk => hl ⟨k, hk⟩
    · rw [hidle] at ht'
      exact absurd ht' ht
    · exfalso
      by_cases hut : t = u
      · subst hut
        rw [hidle, Function.update_self] at ht'
        exact hgoes.ne_ended.2 ht'
      · rw [hidle, Function.update_of_ne hut] at ht'
        exact ht ht'

/-- After the last worker has ended entries come to the queue, and none leaves it. -/
theorem Ended.over (hend : s.Ended) (he : s.Enabled l) (hm : Move ids mem s l b s') :
    s'.Ended ∧ ∃ late, s'.sched.queue = s.sched.queue ++ late := by
  by_cases hl : ∃ k, l = .sched k
  · obtain ⟨k, rfl⟩ := hl
    obtain ⟨r, hready, h, hidle⟩ := hm.of_sched
    have hno : ∀ t a, k ≠ .work t a := by
      rintro t a rfl
      rcases he.2.1 with hrun | hrun <;> rw [hend t] at hrun <;> cases hrun
    refine ⟨fun t => ?_, ?_⟩
    · rw [hidle, idleAfter_of_ne (hno t)]
      exact hend t
    · rcases step_queue hready h with ⟨-, ⟨n, hq⟩, -⟩ | ⟨t, a, -, hk, -⟩
      · exact ⟨_, hq⟩
      · exact absurd hk (hno t a)
  · obtain ⟨hsched, hidle⟩ := hm.aside fun k hk => hl ⟨k, hk⟩
    refine ⟨?_, [], by rw [hsched, List.append_nil]⟩
    rcases hidle with hidle | ⟨t, j, hgoes, -⟩
    · unfold Ended
      rwa [hidle]
    · exact absurd (hend t) hgoes.ne_ended.1

variable [Nonempty τ]

/-- **The queue when all workers have returned**, as `join` tells `stop`. When the last one returns, nothing is executed
any more, and every entry that is left is for one thread; that thread has returned before the entry was pushed, or while
the fiber of the entry was executed. From then on entries are pushed, and none is taken. -/
theorem drained {h : List (Entry (Workers τ κ) (Label τ κ) Bool)} (hr : Run (machine ids mem) h s) (hend : s.Ended) :
    ∃ h₁ e h₂, h = h₁ ++ e :: h₂ ∧ ¬ e.pre.Ended ∧ e.post.Ended ∧ (∀ f, (e.post.sched.fibers f).state ≠ .exec) ∧
      (∀ x ∈ e.post.sched.queue, x.ft.thread ≠ -1 ∧ ∀ t, x.ft.thread = ids.id t →
        ∃ e' ∈ h₁, e'.pre.idle t ≠ .ended ∧ e'.post.idle t = .ended ∧
          (x ∈ e'.post.sched.queue → executing e'.post.sched.fibers x)) ∧
      ∃ late, s.sched.queue = e.post.sched.queue ++ late := by
  have hinit : ∀ s : Workers τ κ, (machine ids mem).init s → ∀ t, s.idle t ≠ .ended := by
    rintro _ ⟨now, rfl⟩ t
    exact nofun
  obtain ⟨h₁, e, h₂, rfl, hpre, hpost, -⟩ := hr.enters (P := Ended)
    (fun s hs hend => hinit s hs (Classical.arbitrary τ) (hend _)) hend
  obtain ⟨hr₁, he, hs⟩ := hr.cut rfl
  have hm := step_move he hs
  have hquiet := ((run_settled hr₁).move he hm).quiet hpost
  refine ⟨h₁, e, h₂, rfl, hpre, hpost, hquiet, fun x hx => ?_, ?_⟩
  · obtain ⟨u, hu⟩ := not_forall.mp hpre
    obtain ⟨hq, hfib, hothers, hskips⟩ := hm.ends he hu (hpost u)
    rw [hq] at hx
    have hels : elsewhere (ids.id u) x := by
      refine (hskips x hx).resolve_right ?_
      rintro ⟨f, -, hst⟩
      rw [← hfib] at hst
      exact hquiet f hst
    refine ⟨hels.1, fun t ht => ?_⟩
    have htu : t ≠ u := by
      rintro rfl
      exact hels.2 ht
    obtain ⟨g₁, e', g₂, rfl, hpre', hpost', -⟩ := hr₁.enters (P := fun s => s.idle t = .ended)
      (fun s hs => hinit s hs t) (by rw [← hothers t htu]; exact hpost t)
    obtain ⟨-, he', hs'⟩ := hr₁.cut rfl
    obtain ⟨hq', hfib', -, hskips'⟩ := (step_move he' hs').ends he' hpre' hpost'
    refine ⟨e', by simp, hpre', hpost', fun hx' => ?_⟩
    rw [hq'] at hx'
    rw [hfib']
    exact (hskips' x hx').resolve_left fun h => h.2 ht
  · have hover := hr.after (P := fun _ s => s.Ended ∧ ∃ late, s.sched.queue = e.post.sched.queue ++ late)
      ⟨hpost, [], (List.append_nil _).symm⟩ ?_
    · exact hover.2
    · rintro h e' - - ⟨he', hs'⟩ ⟨hend', late, hlate⟩
      obtain ⟨hend'', late', hlate'⟩ := hend'.over he' (step_move he' hs')
      refine ⟨hend'', late ++ late', ?_⟩
      rw [hlate', hlate, List.append_assoc]

end

/-- The worker finds the queue empty and `stopping` true, up to its next scan. -/
def finish (t : Bool) : List (Label Bool Nat) := .sched (.work t 1) :: List.replicate 5 (.idle t 0)

/-- A callback is scheduled for a thread that has returned, while the other one is before its last scan. -/
theorem drained_late : ∃ h s, Run (machine (κ := Nat) Schedular.twoThreads memory) h s ∧
    s.sched.queue.map (fun x => x.ft.thread) = [2] ∧
      ∃ h₁ e h₂, h = h₁ ++ e :: h₂ ∧ e.post.Ended ∧ ∃ late, s.sched.queue = e.post.sched.queue ++ late := by
  obtain ⟨h, s, hr, hp⟩ := Run.of_replay (machine (κ := Nat) Schedular.twoThreads memory) ⟨0, rfl⟩
    ([.autoStop, .setStopping] ++ finish false ++ finish true ++ [.sched (.work true 1)] ++ schedule 2 ++
      [.sched (.work false 1)])
    (fun r => decide ((∀ t, r.2.idle t = .ended) ∧ r.2.sched.queue.map (fun x => x.ft.thread) = [2]))
    (by decide +kernel)
  obtain ⟨hend, hq⟩ := of_decide_eq_true hp
  obtain ⟨h₁, e, h₂, hh, -, hpost, -, -, hlate⟩ := drained hr hend
  exact ⟨h, s, hr, hq, h₁, e, h₂, hh, hpost, hlate⟩

end Workers

end QWebServer
