import QWebServer.Schedular.Moves

/-!
# What a step does to the queue and to the executed fibers

* `pushes` : the entries a step pushes, `leaves` : the fiber that may leave `EXEC` by it;
* `scan_tickle` : where a scan leaves an entry that is not for an executed fiber, it calls `tickle`;
* `step_queue` : a step appends what it pushes and says whether the queue was empty, or it is a scan;
* `step_workers` : a step moves the worker that makes it at most, `exec_kept` : it keeps the other fibers in `EXEC`.
-/

namespace QWebServer.Schedular

open Lib

variable {τ κ : Type}

def pushes (s : Schedular τ κ) : Label τ κ → List (FiberAndThread Addr κ)
  | .schedule fts => fts.filter (·.nonempty)
  | .trigger f => [{ fiber := some f }]
  | .work t _ =>
    match (s.workers t).pc with
    | .requeue f _ => [{ fiber := some f }]
    | _ => []
  | _ => []

/-- The fiber that may leave `EXEC`: the one that yields or ends, and the one whose state the worker updates. -/
def leaves (s : Schedular τ κ) : Label τ κ → Option Addr
  | .act _ .publish => none
  | .act t _ =>
    match (s.workers t).pc with
    | .exec f _ _ => some f
    | _ => none
  | .work t _ =>
    match (s.workers t).pc with
    | .update f _ => some f
    | _ => none
  | _ => none

/-- Where a scan leaves an entry that is not for an executed fiber, it calls `tickle`. -/
theorem scan_tickle {tid : Int} {fibers : Addr → Fiber κ} {q rest : List (Item κ)} {taken : Option (Item κ)}
    {tk : Bool} (h : scan tid fibers q = .ok (taken, rest, tk)) {y : Item κ} (hy : y ∈ rest)
    (hx : ¬ executing fibers y) : tk = true := by
  induction q generalizing taken rest tk with
  | nil =>
    cases h
    cases hy
  | cons x xs ih =>
    rw [scan] at h
    split_ifs at h with he hne hex
    · obtain ⟨⟨taken', rest', tk'⟩, -, hr⟩ := bind_eq_ok h
      cases hr
      rfl
    · obtain ⟨⟨taken', rest', tk'⟩, h', hr⟩ := bind_eq_ok h
      cases hr
      rcases List.mem_cons.mp hy with rfl | hy
      · exact absurd hex hx
      · exact ih h' hy
    · cases h
      cases xs with
      | nil => cases hy
      | cons z zs => rfl

theorem schedule_tickle (s : Schedular τ κ) {fts : List (FiberAndThread Addr κ)} (hq : s.queue = []) (h : fts ≠ []) :
    (s.schedule fts).1 = true := by
  cases fts with
  | nil => exact absurd rfl h
  | cons ft fts =>
    show (_ || s.queue.isEmpty) = true
    simp [hq]

theorem update_exec {s : Schedular τ κ} {f g : Addr} {y : Fiber κ} (hf : (s.fibers f).state = .exec)
    (hy : g = f → y.state = .exec) :
    (Function.update s.fibers g y f).state = .exec := by
  by_cases hg : g = f
  · subst hg
    rw [Function.update_self]
    exact hy rfl
  · rwa [Function.update_of_ne (Ne.symm hg)]

theorem resetFiber_not_exec {x y : Fiber κ} {cb : Option κ} (h : resetFiber x cb = .ok y) : x.state ≠ .exec := by
  intro hx
  unfold resetFiber at h
  rw [hx, if_neg (by decide)] at h
  cases h

section
variable [DecidableEq τ] {ids : Threads τ} {s s' : Schedular τ κ} {l : Label τ κ} {r : Reply}

/-- A step of the scheduler appends entries to the queue, and says so if it was empty; or it is a scan. -/
theorem step_queue (hready : Ready s l) (h : step ids s l = .ok (r, s')) :
    (∀ t a, l = .work t a → (s.workers t).pc ≠ .scan) ∧ (∃ n, s'.queue = s.queue ++ numbered n (s.pushes l)) ∧
        (s.pushes l ≠ [] → s'.fibers = s.fibers ∧ (s.queue = [] → r.tickle = true)) ∨
      ∃ t a taken, l = .work t a ∧ (s.workers t).pc = .scan ∧
        scan (ids.id t) s.fibers s.queue = .ok (taken, s'.queue, r.tickle) ∧ s'.fibers = s.fibers := by
  by_cases hscan : ∃ t a, l = .work t a ∧ (s.workers t).pc = .scan
  · obtain ⟨t, a, rfl, hpc⟩ := hscan
    change s.work ids t a = _ at h
    unfold work at h
    simp only [hpc] at h
    obtain ⟨⟨taken, rest, tk⟩, hs, hr⟩ := bind_eq_ok h
    cases taken with
    | none =>
      cases hr
      exact .inr ⟨t, a, none, rfl, hpc, hs, rfl⟩
    | some x =>
      cases hr
      exact .inr ⟨t, a, some x, rfl, hpc, hs, rfl⟩
  · have hno : ∀ t a, l = .work t a → (s.workers t).pc ≠ .scan := fun t a hl hpc => hscan ⟨t, a, hl, hpc⟩
    have hnone : s'.queue = s.queue → s.pushes l = [] → (∃ n, s'.queue = s.queue ++ numbered n (s.pushes l)) ∧
        (s.pushes l ≠ [] → s'.fibers = s.fibers ∧ (s.queue = [] → r.tickle = true)) := by
      intro hq hp
      refine ⟨⟨0, ?_⟩, fun h => absurd hp h⟩
      rw [hp, hq]
      exact (List.append_nil _).symm
    refine .inl ⟨hno, ?_⟩
    have hm := step_move hready h
    cases hm with
    | schedule fts =>
      refine ⟨⟨s.pushed, by rw [schedule_eq]; rfl⟩, fun hne => ⟨by rw [schedule_eq], fun hq => schedule_tickle s hq ?_⟩⟩
      rintro rfl
      exact hne rfl
    | newFiber a cb => exact hnone rfl rfl
    | trigger f => exact ⟨⟨s.pushed, rfl⟩, fun _ => ⟨rfl, fun hq => by simp [hq]⟩⟩
    | idle hpc | take hpc => exact absurd hpc (hno _ _ rfl)
    | @requeue t a f via hpc =>
      have hp : s.pushes (.work t a) = [{ fiber := some f }] := by simp [pushes, hpc]
      refine ⟨⟨s.pushed, ?_⟩, fun _ => ⟨?_, fun hq => by simp [hq]⟩⟩
      · rw [hp]
        cases via <;> rfl
      · cases via <;> rfl
    | @update t a f via hpc =>
      refine hnone ?_ (by simp [pushes, hpc])
      cases via <;> rfl
    | resume hpc | reuse hpc | create hpc | drop hpc | enter hpc | load hpc | save hpc | leave hpc | checkReady hpc
    | checkEnd hpc | checkHold hpc | recycle hpc | forget hpc | discard hpc =>
      exact hnone rfl (by simp [pushes, hpc])
    | publish | hold | ready | throw | finish => exact hnone rfl rfl

theorem step_workers (hready : Ready s l) (h : step ids s l = .ok (r, s')) {u : τ} (hu : ∀ a, l ≠ .work u a)
    (hu' : ∀ x, l ≠ .act u x) : s'.workers u = s.workers u := by
  have hm := step_move hready h
  cases hm with
  | schedule fts => rw [schedule_eq]
  | newFiber | trigger | idle => rfl
  | @create t a x hpc hx hcb ha =>
    rw [create_workers]
    exact Function.update_of_ne (fun h => hu a (by rw [h])) _ _
  | @requeue t a f via hpc | @update t a f via hpc =>
    rw [release_workers]
    exact Function.update_of_ne (fun h => hu a (by rw [h])) _ _
  | @take t a | @resume t a | @reuse t a | @drop t a | @enter t a | @load t a | @save t a | @leave t a | @checkReady t a
  | @checkEnd t a | @checkHold t a | @recycle t a | @forget t a | @discard t a =>
    exact Function.update_of_ne (fun h => hu a (by rw [h])) _ _
  | @publish t | @hold t | @ready t | @throw t | @finish t =>
    exact Function.update_of_ne (fun h => hu' _ (by rw [h])) _ _

theorem dispatch_exec {t : τ} {x : Item κ} {a f : Addr} (h : s.dispatch t x a = .ok (r, s'))
    (hf : (s.fibers f).state = .exec) (ha : a ≠ f) : (s'.fibers f).state = .exec := by
  unfold dispatch at h
  dsimp only at h
  cases hrun : x.ft.fiber.filter fun f => (s.fibers f).state ≠ .term ∧ (s.fibers f).state ≠ .except with
  | some g =>
    rw [hrun] at h
    cases h
    exact hf
  | none =>
    rw [hrun] at h
    dsimp only at h
    split_ifs at h with hcb
    · cases hcf : (s.workers t).cbFiber with
      | none =>
        rw [hcf] at h
        cases h
        exact update_exec hf fun h => absurd h ha
      | some g =>
        rw [hcf] at h
        obtain ⟨y, hy, hr⟩ := bind_eq_ok h
        cases hr
        refine update_exec hf ?_
        rintro rfl
        exact absurd hf (resetFiber_not_exec hy)
    · cases h
      exact hf

/-- A fiber that is executed stays so when the worker `t` makes a step, unless `t` updates its state. -/
theorem work_exec {t : τ} {a f : Addr} (h : s.work ids t a = .ok (r, s')) (hf : (s.fibers f).state = .exec)
    (ha : a ≠ f) :
    (s'.fibers f).state = .exec ∨ s.leaves (.work t a) = some f := by
  unfold work at h
  cases hpc : (s.workers t).pc with
  | scan =>
    simp only [hpc] at h
    obtain ⟨⟨taken, rest, tk⟩, -, hr⟩ := bind_eq_ok h
    cases taken <;> cases hr <;> exact .inl hf
  | taken x =>
    simp only [hpc] at h
    exact .inl (dispatch_exec h hf ha)
  | swapIn x g via =>
    simp only [hpc] at h
    split_ifs at h
    cases h
    exact .inl (update_exec hf fun _ => rfl)
  | load x g via =>
    simp only [hpc] at h
    cases h
    exact .inl (update_exec hf fun hg => by rw [hg]; exact hf)
  | exec g via p =>
    cases p with
    | leaving o =>
      simp only [hpc] at h
      cases h
      exact .inl (update_exec hf fun hg => by rw [hg]; exact hf)
    | running | published =>
      simp only [hpc] at h
      cases h
      exact .inl hf
  | back g via o =>
    simp only [hpc] at h
    cases h
    exact .inl hf
  | check g via o =>
    simp only [hpc] at h
    split_ifs at h <;> cases h <;> exact .inl hf
  | requeue g via =>
    simp only [hpc] at h
    cases h
    cases via <;> exact .inl hf
  | recycle g via =>
    simp only [hpc] at h
    cases via with
    | true =>
      obtain ⟨y, hy, hr⟩ := bind_eq_ok h
      cases hr
      refine .inl (update_exec hf ?_)
      rintro rfl
      exact absurd hf (resetFiber_not_exec hy)
    | false =>
      cases h
      exact .inl hf
  | update g via =>
    simp only [hpc] at h
    cases h
    by_cases hg : g = f
    · right
      simp only [leaves, hpc, hg]
    · left
      cases via <;> exact update_exec hf fun h => absurd h hg
  | discard =>
    simp only [hpc] at h
    cases h
    exact .inl hf

/-- A fiber that is executed stays so, unless it leaves or its address is new. -/
theorem exec_kept (hready : Ready s l) (h : step ids s l = .ok (r, s')) {f : Addr} (hf : (s.fibers f).state = .exec)
    (hnew : ∀ a cb, l = .newFiber a cb → a ≠ f) (hnew' : ∀ t a, l = .work t a → a ≠ f) :
    (s'.fibers f).state = .exec ∨ s.leaves l = some f := by
  cases l with
  | schedule fts =>
    cases h
    rw [schedule_eq]
    exact .inl hf
  | newFiber a cb =>
    cases h
    exact .inl (update_exec hf fun hg => absurd hg (hnew a cb rfl))
  | trigger g =>
    cases h
    exact .inl hf
  | work t a => exact work_exec h hf (hnew' t a rfl)
  | act t x =>
    have hm : Move ids s (.act t x) r s' := act_move hready h
    cases hm with
    | publish => exact .inl hf
    | @hold t g via p hpc | @ready t g via hpc | @throw t g via hpc | @finish t g via hpc =>
      by_cases hg : g = f
      · right
        simp only [leaves, hpc, hg]
      · exact .inl (update_exec hf fun h => absurd h hg)

end

end QWebServer.Schedular
