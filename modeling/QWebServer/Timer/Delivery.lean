import QWebServer.Timer.Expiry

/-!
# Cancelling and delivering agree

A timer enters `m_timers` only when it is created, and it leaves it only by a delivery or by a cancel that answers true.

* `Effect.enters`, `Effect.leaves`, `Effect.stays_out` : how membership changes in one operation;
* `returned` : the timers whose callbacks a history returned, in order; `Cancelled` : a cancel answered true;
* `cancel_delivery_agree` : one delivery for a one-shot timer, none after a cancel that answered true, and a reason for
  every cancel that answered false.
-/

namespace QWebServer.TimerManager

open Lib

variable {κ : Type}

def Reply.timers (r : Reply κ) : List Addr := r.cbs.map Prod.fst

def returned (h : History κ) : List Addr := h.flatMap fun e => e.out.timers

def Cancelled (h : History κ) (t : Addr) : Prop := ∃ e ∈ h, e.inp.op = .cancel t ∧ e.out.ret = true

theorem returned_snoc (h : History κ) (s m : TimerManager κ) (c : Call κ) (r : Reply κ) :
    returned (h ++ [⟨s, c, r, m⟩]) = returned h ++ r.timers := by
  simp [returned]

theorem Cancelled.append {h : History κ} {t : Addr} (hc : Cancelled h t) (h' : History κ) : Cancelled (h ++ h') t := by
  obtain ⟨e, he, hc⟩ := hc
  exact ⟨e, List.mem_append_left _ he, hc⟩

/-! ## Membership in one operation -/

theorem mem_placeNotify {m : TimerManager κ} (g : m.Good) {t u : Addr} {x : Timer κ} :
    u ∈ (m.placeNotify t x).2.timers ↔ u = t ∨ u ∈ m.timers :=
  mem_place g.sorted

section
variable {m m' : TimerManager κ} {now : UInt64} {op : Op κ} {r : Reply κ}

theorem timers_listed (m : TimerManager κ) (ex : List Addr) :
    Reply.timers { cbs := ex.map fun t => (t, (m.heap t).cb) } = ex := by
  simp [Reply.timers, Function.comp_def]

theorem Effect.enters (g : m.Good) (he : Effect m now op r m') {t : Addr} (ht : t ∉ m.timers) (ht' : t ∈ m'.timers) :
    t ∉ m.created := by
  cases he with
  | @added a ms cb recurring ha =>
    rcases (mem_place (m := { m with created := m.created ++ [a] }) g.sorted).mp ht' with rfl | h
    · exact ha
    · exact absurd h ht
  | cancelled => exact absurd (List.mem_of_mem_erase ht') ht
  | cancelMiss => exact absurd ht' ht
  | refreshed hm =>
    rcases (mem_place g.sorted).mp ht' with rfl | h
    · exact absurd hm ht
    · exact absurd h ht
  | refreshMiss => exact absurd ht' ht
  | resetSame => exact absurd ht' ht
  | resetHit hm =>
    rcases (mem_placeNotify g).mp ht' with rfl | h
    · exact absurd hm ht
    · exact absurd h ht
  | resetMiss => exact absurd ht' ht
  | nextTimer => exact absurd ht' ht
  | listed hl => exact absurd ((hl.timers t).mp ht').1 ht

theorem Effect.created_mono (he : Effect m now op r m') {t : Addr} (ht : t ∈ m.created) : t ∈ m'.created := by
  cases he with
  | added => exact List.mem_append_left _ ht
  | listed hl => rwa [hl.created]
  | _ => exact ht

theorem Effect.created_new (g : m.Good) (he : Effect m now op r m') {t : Addr} (ht : t ∉ m.created)
    (ht' : t ∈ m'.created) : t ∈ m'.timers := by
  cases he with
  | @added a ms cb recurring ha =>
    rcases List.mem_append.mp ht' with h | h
    · exact absurd h ht
    · exact (mem_place (m := { m with created := m.created ++ [a] }) g.sorted).mpr (Or.inl (List.mem_singleton.mp h))
  | listed hl =>
    rw [hl.created] at ht'
    exact absurd ht' ht
  | _ => exact absurd ht' ht

theorem Effect.stays_out (g : m.Good) (he : Effect m now op r m') {t : Addr} (hc : t ∈ m.created) (ht : t ∉ m.timers) :
    t ∉ m'.timers :=
  fun ht' => he.enters g ht ht' hc

/-- A timer leaves the set by a delivery or by a cancel that answers true. -/
theorem Effect.leaves (g : m.Good) (he : Effect m now op r m') {t : Addr} (ht : t ∈ m.timers) (ht' : t ∉ m'.timers) :
    t ∈ r.timers ∨ op = .cancel t ∧ r.ret = true := by
  cases he with
  | @added a ms cb recurring ha =>
    exact absurd ((mem_place (m := { m with created := m.created ++ [a] }) g.sorted).mpr (Or.inr ht)) ht'
  | @cancelled u hu =>
    by_cases htu : t = u
    · exact Or.inr ⟨by rw [htu], rfl⟩
    · exact absurd (g.nodup.mem_erase_iff.mpr ⟨htu, ht⟩) ht'
  | cancelMiss => exact absurd ht ht'
  | refreshed => exact absurd ((mem_place g.sorted).mpr (Or.inr ht)) ht'
  | refreshMiss => exact absurd ht ht'
  | resetSame => exact absurd ht ht'
  | resetHit => exact absurd ((mem_placeNotify g).mpr (Or.inr ht)) ht'
  | resetMiss => exact absurd ht ht'
  | nextTimer => exact absurd ht ht'
  | listed hl =>
    rw [timers_listed]
    by_contra hn
    exact ht' ((hl.timers t).mpr ⟨ht, fun hex => absurd hex (by simpa using hn)⟩)

/-- What a call returns was in the set, once, and leaves it unless it is recurring. -/
theorem Effect.reply_timers (he : Effect m now op r m') :
    r.timers.Nodup ∧ ∀ t ∈ r.timers, t ∈ m.timers ∧ ((m.heap t).recurring = false → t ∉ m'.timers) := by
  cases he with
  | listed hl =>
    rw [timers_listed]
    refine ⟨hl.nodup, fun t ht => ⟨((hl.mem t).mp ht).1, fun hr ht' => ?_⟩⟩
    have := ((hl.timers t).mp ht').2 ht
    rw [hr] at this
    cases this
  | _ => exact ⟨List.nodup_nil, fun t ht => by cases ht⟩

theorem Effect.recurring (he : Effect m now op r m') {t : Addr} (hc : t ∈ m.created) :
    (m'.heap t).recurring = (m.heap t).recurring := by
  cases he with
  | @added a ms cb recurring ha =>
    have hne : t ≠ a := fun h => ha (h ▸ hc)
    show (Function.update m.heap a _ t).recurring = _
    rw [Function.update_of_ne hne]
  | @cancelled u hu => by_cases h : t = u <;> simp [h]
  | @refreshed u hu => by_cases h : t = u <;> simp [h]
  | @resetHit u ms fromNow hu =>
    show (Function.update m.heap u (resetTo (m.heap u) ms fromNow now) t).recurring = _
    by_cases h : t = u <;> simp [h, resetTo]
  | listed hl =>
    rw [hl.heap t]
    split_ifs
    · unfold rearmed
      split_ifs <;> rfl
    · rfl
  | _ => rfl

theorem Effect.cancel_true {t : Addr} (g : m.Good) (he : Effect m now (.cancel t) r m') (hr : r.ret = true) :
    t ∈ m.timers ∧ t ∉ m'.timers := by
  cases he with
  | cancelled ht => exact ⟨ht, g.nodup.not_mem_erase⟩
  | cancelMiss => cases hr

theorem Effect.cancel_false {t : Addr} (he : Effect m now (.cancel t) r m') (hr : r.ret = false) :
    t ∈ m.created ∧ t ∉ m.timers := by
  cases he with
  | cancelled => cases hr
  | cancelMiss hc ht => exact ⟨hc, ht⟩

end

/-! ## Whole runs -/

theorem run_step_effect {h : History κ} {s m : TimerManager κ} {c : Call κ} {r : Reply κ} (hr : Run (machine κ) h s)
    (ha : (machine κ).enabled s c) (hs : (machine κ).step s c = .ok (r, m)) :
    s.Good ∧ Effect s c.now c.op r m :=
  ⟨run_good hr, step_effect (run_good hr) ha hs⟩

theorem run_fresh {h : History κ} {m : TimerManager κ} (hr : Run (machine κ) h m) :
    ∀ t, t ∉ m.created → t ∉ returned h := by
  induction hr with
  | start => exact fun _ _ ht => by cases ht
  | step hr ha hs ih =>
    obtain ⟨g, he⟩ := run_step_effect hr ha hs
    intro t ht hret
    have ht0 : t ∉ _ := fun hc => ht (he.created_mono hc)
    rw [returned_snoc] at hret
    rcases List.mem_append.mp hret with hret | hret
    · exact ih t ht0 hret
    · exact ht0 (g.created t (he.reply_timers.2 t hret).1)

/-- A one-shot timer is returned at most once, and not before it leaves the set. -/
theorem run_oneshot {h : History κ} {m : TimerManager κ} (hr : Run (machine κ) h m) :
    ∀ t, (m.heap t).recurring = false → (returned h).count t ≤ 1 ∧ (t ∈ m.timers → t ∉ returned h) := by
  induction hr with
  | start => exact fun t _ => ⟨Nat.zero_le _, fun _ ht => by cases ht⟩
  | @step h s m c r hr ha hs ih =>
    obtain ⟨g, he⟩ := run_step_effect hr ha hs
    intro t hone
    rw [returned_snoc, List.count_append]
    by_cases hc : t ∈ s.created
    · rw [he.recurring hc] at hone
      obtain ⟨hle, hout⟩ := ih t hone
      obtain ⟨hnd, hret⟩ := he.reply_timers
      by_cases hr' : t ∈ r.timers
      · have h0 : (returned h).count t = 0 := List.count_eq_zero.mpr (hout (hret t hr').1)
        have h1 := List.nodup_iff_count_le_one.mp hnd t
        exact ⟨by omega, fun ht => absurd ht ((hret t hr').2 hone)⟩
      · rw [List.count_eq_zero.mpr hr']
        refine ⟨hle, fun ht hm => ?_⟩
        have hts : t ∈ s.timers := by
          by_contra hn
          exact he.stays_out g hc hn ht
        rcases List.mem_append.mp hm with hm | hm
        · exact hout hts hm
        · exact hr' hm
    · have h1 : t ∉ returned h := run_fresh hr t hc
      have h2 : t ∉ r.timers := fun hm => hc (g.created t (he.reply_timers.2 t hm).1)
      rw [List.count_eq_zero.mpr h1, List.count_eq_zero.mpr h2]
      refine ⟨by omega, fun _ hm => ?_⟩
      rcases List.mem_append.mp hm with hm | hm
      · exact h1 hm
      · exact h2 hm

/-- A one-shot timer that is no longer in the set was returned or cancelled. -/
theorem run_gone {h : History κ} {m : TimerManager κ} (hr : Run (machine κ) h m) :
    ∀ t ∈ m.created, t ∉ m.timers → t ∈ returned h ∨ Cancelled h t := by
  induction hr with
  | start hs =>
    obtain ⟨now, rfl⟩ := hs
    exact fun t ht => by cases ht
  | @step h s m c r hr ha hs ih =>
    obtain ⟨g, he⟩ := run_step_effect hr ha hs
    intro t hc ht
    rw [returned_snoc]
    by_cases hc0 : t ∈ s.created
    · by_cases ht0 : t ∈ s.timers
      · rcases he.leaves g ht0 ht with hret | ⟨hop, hret⟩
        · exact Or.inl (List.mem_append_right _ hret)
        · exact Or.inr ⟨_, List.mem_append_right _ (List.mem_singleton_self _), hop, hret⟩
      · rcases ih t hc0 ht0 with h1 | h1
        · exact Or.inl (List.mem_append_left _ h1)
        · exact Or.inr (h1.append _)
    · exact absurd (he.created_new g hc0 hc) ht

/-- After an entry that leaves a created timer out of the set, the timer stays out and is not returned. -/
theorem run_stays_out {h₁ h₂ : History κ} {e : Entry (TimerManager κ) (Call κ) (Reply κ)} {t : Addr}
    (hc : t ∈ e.post.created) (ht : t ∉ e.post.timers) : ∀ {m : TimerManager κ},
    Run (machine κ) (h₁ ++ e :: h₂) m → t ∈ m.created ∧ t ∉ m.timers ∧ t ∉ returned h₂ := by
  induction h₂ using List.reverseRecOn with
  | nil =>
    intro m hr
    obtain ⟨-, -, rfl⟩ := hr.last
    exact ⟨hc, ht, fun hm => by cases hm⟩
  | append_singleton h₂ e' ih =>
    intro m hr
    rw [← List.cons_append, ← List.append_assoc] at hr
    obtain ⟨hr₁, ⟨ha, hs⟩, rfl⟩ := hr.last
    obtain ⟨h1, h2, h3⟩ := ih hr₁
    obtain ⟨g, he⟩ := run_step_effect hr₁ ha hs
    refine ⟨he.created_mono h1, he.stays_out g h1 h2, ?_⟩
    rw [returned_snoc]
    intro hm
    rcases List.mem_append.mp hm with hm | hm
    · exact h3 hm
    · exact h2 (he.reply_timers.2 t hm).1

/-- **Cancel and delivery agree.** In every run a one-shot timer's callback is returned at most once; after a cancel
that answered true the timer's callback is not returned; and when a cancel of a one-shot timer answers false, its
callback had been returned or an earlier cancel had answered true. -/
theorem cancel_delivery_agree {h : History κ} {m : TimerManager κ} (hr : Run (machine κ) h m) :
    (∀ t, (m.heap t).recurring = false → (returned h).count t ≤ 1) ∧
      (∀ h₁ e h₂ t, h = h₁ ++ e :: h₂ → e.inp.op = .cancel t → e.out.ret = true → t ∉ returned h₂) ∧
      ∀ h₁ e h₂ t, h = h₁ ++ e :: h₂ → e.inp.op = .cancel t → e.out.ret = false →
        (e.pre.heap t).recurring = false → t ∈ returned h₁ ∨ Cancelled h₁ t := by
  refine ⟨fun t ht => (run_oneshot hr t ht).1, ?_, ?_⟩
  · rintro h₁ e h₂ t rfl hop hret
    obtain ⟨hr₁, ha, hs⟩ := hr.cut rfl
    obtain ⟨g, he⟩ := run_step_effect hr₁ ha hs
    rw [hop] at he
    obtain ⟨hin, hout⟩ := he.cancel_true g hret
    exact (run_stays_out (he.created_mono (g.created t hin)) hout hr).2.2
  · rintro h₁ e h₂ t rfl hop hret -
    obtain ⟨hr₁, ha, hs⟩ := hr.cut rfl
    obtain ⟨g, he⟩ := run_step_effect hr₁ ha hs
    rw [hop] at he
    obtain ⟨hc, hout⟩ := he.cancel_false hret
    exact run_gone hr₁ t hc hout

/-- A one-shot timer that fires at `110`, then two cancels: of it, and of a recurring one. -/
theorem cancel_delivery_agree_twice : ∃ (h : History Nat) (m : TimerManager Nat), Run (machine Nat) h m ∧
    (m.heap 4).recurring = false ∧ (returned h).count 4 ≤ 1 ∧ returned h = [4, 9] ∧
    h.map (fun e => e.out.ret) = [true, true, true, false, true] := by
  obtain ⟨h, m, hr, hp⟩ := Run.of_replay (machine Nat) ⟨5, rfl⟩
    [⟨10, .addTimer 4 100 0 false⟩, ⟨11, .addTimer 9 100 1 true⟩, ⟨120, .listExpiredCb 7⟩, ⟨121, .cancel 4⟩,
      ⟨122, .cancel 9⟩]
    (fun r => !(r.2.heap 4).recurring && decide (returned r.1 = [4, 9]) &&
      decide (r.1.map (fun e => e.out.ret) = [true, true, true, false, true])) (by decide)
  simp only [Bool.and_eq_true, Bool.not_eq_true', decide_eq_true_eq] at hp
  exact ⟨h, m, hr, hp.1.1, (cancel_delivery_agree hr).1 4 hp.1.1, hp.1.2, hp.2⟩

end QWebServer.TimerManager
