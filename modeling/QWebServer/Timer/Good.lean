import QWebServer.Timer.Order

/-!
# What a timer operation does

* `Good` : `m_timers` is sorted and holds exactly the timers whose callback is not empty;
* `Effect` : everything an operation can do to a good manager, one constructor a case (`step_effect`);
* `step_ok` : no operation on a good manager faults, `run_good` : every reachable manager is good.
-/

namespace QWebServer.TimerManager

open Lib

variable {κ : Type}

/-- **The representation invariant** of a timer manager. -/
structure Good (m : TimerManager κ) : Prop where
  sorted : m.Sorted
  pending : ∀ t, t ∈ m.timers ↔ (m.heap t).cb.isSome = true
  created : ∀ t ∈ m.timers, t ∈ m.created

theorem Good.nodup {m : TimerManager κ} (g : m.Good) : m.timers.Nodup := OrderedSet.Sorted.nodup g.sorted

theorem Good.isNone {m : TimerManager κ} (g : m.Good) {t : Addr} (ht : t ∉ m.timers) :
    (m.heap t).cb.isNone = true := by
  cases h : (m.heap t).cb with
  | none => rfl
  | some c => exact absurd ((g.pending t).mpr (by rw [h]; rfl)) ht

/-! ## The operations on a sorted set -/

theorem find_modify {m : TimerManager κ} {t u : Addr} {f : Timer κ → Timer κ} (hf : ∀ x, (f x).next = x.next) :
    (m.modify t f).find u = m.find u := by
  have hk : (m.modify t f).key = m.key := by
    funext v
    by_cases hv : v = t
    · subst hv
      simp [key, modify, hf]
    · exact key_modify_of_ne hv
  unfold find
  rw [hk]
  rfl

theorem cancel_hit {m : TimerManager κ} (hs : m.Sorted) {t : Addr} (ht : t ∈ m.timers)
    (hcb : (m.heap t).cb.isSome = true) :
    m.cancel t = (true, { m with
      heap := Function.update m.heap t { m.heap t with cb := none }, timers := m.timers.erase t }) := by
  obtain ⟨it, hf, -, he⟩ := hs.find ht
  have hm := find_modify (m := m) (t := t) (u := t) (f := fun x => { x with cb := none }) fun _ => rfl
  unfold cancel
  rw [if_pos hcb]
  dsimp only
  rw [hm, hf]
  simp only [modify, he]

theorem cancel_miss {m : TimerManager κ} {t : Addr} (hcb : (m.heap t).cb.isNone = true) : m.cancel t = (false, m) := by
  unfold cancel
  rw [if_neg (by simpa [Option.isSome_iff_ne_none] using hcb)]

theorem refresh_hit {m : TimerManager κ} (hs : m.Sorted) {t : Addr} (ht : t ∈ m.timers)
    (hcb : (m.heap t).cb.isSome = true) (now : UInt64) :
    m.refresh t now = (true, m.place t { m.heap t with next := now + (m.heap t).ms }) := by
  obtain ⟨it, hf, -, he⟩ := hs.find ht
  unfold refresh
  rw [if_neg (by simpa [Option.isSome_iff_ne_none] using hcb), hf]
  simp only [modify, he]
  rfl

theorem refresh_miss {m : TimerManager κ} {t : Addr} (hcb : (m.heap t).cb.isNone = true) (now : UInt64) :
    m.refresh t now = (false, m) := by
  unfold refresh
  rw [if_pos hcb]

/-- `place` as `addTimer(val, lock)` does it: whether `onTimerInsertedAtFront` is called, and the manager. -/
def placeNotify (m : TimerManager κ) (t : Addr) (x : Timer κ) : Bool × TimerManager κ :=
  let onFirst := ((m.lifted t x).insert t).2 == 0 && !m.tickled
  (onFirst, { m.place t x with tickled := m.tickled || onFirst })

def resetTo (x : Timer κ) (ms : UInt64) (fromNow : Bool) (now : UInt64) : Timer κ :=
  { x with ms := ms, next := (if fromNow then now else x.next - x.ms) + ms }

theorem reset_hit {m : TimerManager κ} (hs : m.Sorted) {t : Addr} (ht : t ∈ m.timers)
    (hcb : (m.heap t).cb.isSome = true) {ms now : UInt64} {fromNow : Bool}
    (hne : (ms == (m.heap t).ms && !fromNow) = false) :
    m.reset t ms fromNow now = (true, m.placeNotify t (resetTo (m.heap t) ms fromNow now)) := by
  obtain ⟨it, hf, -, he⟩ := hs.find ht
  unfold reset
  rw [if_neg (by simp [hne]), if_neg (by simpa [Option.isSome_iff_ne_none] using hcb), hf]
  simp only [modify, he]
  rfl

theorem reset_miss {m : TimerManager κ} {t : Addr} (hcb : (m.heap t).cb.isNone = true) {ms now : UInt64}
    {fromNow : Bool} (hne : (ms == (m.heap t).ms && !fromNow) = false) :
    m.reset t ms fromNow now = (false, false, m) := by
  unfold reset
  rw [if_neg (by simp [hne]), if_pos hcb]

theorem addTimer_eq {m : TimerManager κ} {a : Addr} (ha : a ∉ m.timers) (ms : UInt64) (cb : Option κ)
    (recurring : Bool) (now : UInt64) :
    m.addTimer a ms cb recurring now =
      placeNotify { m with created := m.created ++ [a] } a ⟨recurring, ms, ms + now, cb⟩ := by
  have he : m.timers.erase a = m.timers := List.erase_of_not_mem ha
  simp only [addTimer, placeNotify, addTimerLocked, place, lifted, modify, he]

/-! ## Expiry -/

/-- The timers `listExpiredCb` takes: all of them when the clock rolled over, else those that are due. -/
def Expires (m : TimerManager κ) (now : UInt64) (t : Addr) : Prop :=
  m.rollsOver now = true ∨ (m.heap t).next ≤ now

instance (m : TimerManager κ) (now : UInt64) (t : Addr) : Decidable (m.Expires now t) :=
  inferInstanceAs (Decidable (_ ∨ _))

/-- The timers of the set that `listExpiredCb` takes, in the order of the set. -/
def expired (m : TimerManager κ) (now : UInt64) : List Addr := m.timers.filter fun t => m.Expires now t

/-- `ex` are the timers a call of `listExpiredCb` takes, and `m'` is the manager it leaves. -/
structure Listed (m : TimerManager κ) (now : UInt64) (ex : List Addr) (m' : TimerManager κ) : Prop where
  mem : ∀ t, t ∈ ex ↔ t ∈ m.timers ∧ m.Expires now t
  nodup : ex.Nodup
  sorted : m'.Sorted
  heap : ∀ u, m'.heap u = if u ∈ ex then rearmed now (m.heap u) else m.heap u
  timers : ∀ u, u ∈ m'.timers ↔ u ∈ m.timers ∧ (u ∈ ex → (m.heap u).recurring = true)
  created : m'.created = m.created
  tickled : m'.tickled = m.tickled
  previouseTime : m'.previouseTime = if m.timers = [] then m.previouseTime else now

/-- The iterator that cuts the set where its timers stop to expire. -/
theorem expired_eq_take {m : TimerManager κ} {now : UInt64} {it : Nat}
    (htake : ∀ t ∈ m.timers.take it, m.Expires now t) (hdrop : ∀ t ∈ m.timers.drop it, ¬ m.Expires now t) :
    m.expired now = m.timers.take it := by
  have hsplit : m.expired now =
      (m.timers.take it).filter (fun t => m.Expires now t) ++ (m.timers.drop it).filter fun t => m.Expires now t := by
    rw [← List.filter_append, List.take_append_drop]
    rfl
  rw [hsplit, List.filter_eq_self.mpr (by simpa using htake), List.filter_eq_nil_iff.mpr (by simpa using hdrop),
    List.append_nil]

theorem expire_listed {m : TimerManager κ} (hs : m.Sorted) (now : UInt64) (it : Nat) (hne : m.timers ≠ [])
    (htake : ∀ t ∈ m.timers.take it, m.Expires now t) (hdrop : ∀ t ∈ m.timers.drop it, ¬ m.Expires now t) :
    Listed m now (m.expired now) ({ m with previouseTime := now }.expire now it).2 ∧
      ({ m with previouseTime := now }.expire now it).1 = (m.expired now).map fun t => (t, (m.heap t).cb) := by
  rw [expired_eq_take htake hdrop]
  have hn : (m.timers.take it ++ m.timers.drop it).Nodup := by
    rw [List.take_append_drop]
    exact OrderedSet.Sorted.nodup hs
  obtain ⟨hn1, -, hdis⟩ := List.nodup_append.mp hn
  have hmem : ∀ u, u ∈ m.timers ↔ u ∈ m.timers.take it ∨ u ∈ m.timers.drop it := fun u => by
    rw [← List.mem_append, List.take_append_drop]
  have hsort : ({ m with previouseTime := now, timers := m.timers.drop it } : TimerManager κ).Sorted :=
    List.Pairwise.sublist (List.drop_sublist it m.timers) hs
  obtain ⟨h1, h2, h3, h4, h5, h6, h7⟩ := deliver_eq now (m.timers.take it)
    { m with previouseTime := now, timers := m.timers.drop it } hsort hn1 (fun t ht hd => hdis t ht t hd rfl)
  refine ⟨⟨fun t => ⟨fun ht => ⟨List.mem_of_mem_take ht, htake t ht⟩, ?_⟩, hn1, h2, h3, fun u => ?_, h5, h6, ?_⟩, h1⟩
  · rintro ⟨ht, he⟩
    rcases (hmem t).mp ht with ht | ht
    · exact ht
    · exact absurd he (hdrop t ht)
  · unfold expire
    rw [h4, hmem]
    dsimp only
    constructor
    · rintro (⟨hu, hr⟩ | hu)
      · exact ⟨Or.inl hu, fun _ => hr⟩
      · exact ⟨Or.inr hu, fun hu' => absurd rfl (hdis u hu' u hu)⟩
    · rintro ⟨hu | hu, hr⟩
      · exact Or.inl ⟨hu, hr hu⟩
      · exact Or.inr hu
  · rw [if_neg hne]
    exact h7

theorem listExpiredBody_front {m : TimerManager κ} {now : UInt64} {front : Addr} {rest : List Addr}
    (hl : m.timers = front :: rest) (hr : m.rollsOver now = false) (probe : Addr) :
    m.listExpiredBody now probe =
      if (m.heap front).next > now then .ok ([], { m with previouseTime := now })
      else .ok ({ m with previouseTime := now }.expire now (m.expiredEnd now probe)) := by
  obtain ⟨heap, created, timers, tickled, previouseTime⟩ := m
  subst hl
  unfold listExpiredBody detectClockRollover
  rw [hr]
  rfl

/-- **`listExpiredCb` on a sorted set.** -/
theorem listExpiredCb_sorted {m : TimerManager κ} (hs : m.Sorted) (now : UInt64) (probe : Addr) :
    ∃ m', m.listExpiredCb now probe = .ok ((m.expired now).map fun t => (t, (m.heap t).cb), m') ∧
      Listed m now (m.expired now) m' := by
  unfold listExpiredCb
  by_cases hne : m.timers = []
  · have hex : m.expired now = [] := by simp [expired, hne]
    rw [hex]
    exact ⟨m, by simp [hne], ⟨by simp [hne], List.nodup_nil, hs, by simp, by simp, rfl, rfl, by simp [hne]⟩⟩
  rw [if_neg (by simp [hne])]
  cases hr : m.rollsOver now with
  | true =>
    obtain ⟨h1, h2⟩ := expire_listed hs now m.timers.length hne (fun t _ => Or.inl hr) (by simp)
    refine ⟨_, ?_, h1⟩
    unfold listExpiredBody detectClockRollover
    rw [hr, ← h2]
  | false =>
    obtain ⟨front, rest, hl⟩ := List.exists_cons_of_ne_nil hne
    have hlate : ∀ t, now < (m.heap t).next → ¬ m.Expires now t := by
      intro t ht
      rw [UInt64.lt_iff_toNat_lt] at ht
      simp only [Expires, hr, UInt64.le_iff_toNat_le, Bool.false_eq_true, false_or]
      omega
    rw [listExpiredBody_front hl hr]
    by_cases hlt : (m.heap front).next > now
    · rw [if_pos hlt]
      have hnone : ∀ t ∈ m.timers, ¬ m.Expires now t := by
        intro t ht
        have hs' := hs
        unfold Sorted at hs'
        rw [hl] at hs' ht
        have := hs'.head_le t ht
        rw [key, key, Timer.before_some] at this
        rw [gt_iff_lt, UInt64.lt_iff_toNat_lt] at hlt
        exact hlate t (UInt64.lt_iff_toNat_lt.mpr (by omega))
      have hex : m.expired now = [] := List.filter_eq_nil_iff.mpr (by simpa using hnone)
      rw [hex]
      refine ⟨{ m with previouseTime := now }, rfl, ⟨fun t => ?_, List.nodup_nil, hs, by simp, by simp, rfl, rfl,
        by simp [hne]⟩⟩
      simp only [List.not_mem_nil, false_iff, not_and]
      exact hnone t
    · rw [if_neg hlt]
      obtain ⟨h1, h2⟩ := expire_listed hs now (m.expiredEnd now probe) hne
        (fun t ht => Or.inr (mem_take_expiredEnd ht)) (fun t ht => hlate t (mem_drop_expiredEnd hs ht))
      exact ⟨_, by rw [← h2], h1⟩

theorem listExpiredCb_listed {m : TimerManager κ} (g : m.Good) (now : UInt64) (probe : Addr) :
    ∃ ex m', m.listExpiredCb now probe = .ok (ex.map fun t => (t, (m.heap t).cb), m') ∧ Listed m now ex m' := by
  obtain ⟨m', h, hl⟩ := listExpiredCb_sorted g.sorted now probe
  exact ⟨m.expired now, m', h, hl⟩

/-! ## One operation -/

/-- **Everything an operation does** to a good manager. -/
inductive Effect (m : TimerManager κ) (now : UInt64) : Op κ → Reply κ → TimerManager κ → Prop
  | added {a : Addr} {ms : UInt64} {cb : κ} {recurring : Bool} (ha : a ∉ m.created) :
      Effect m now (.addTimer a ms cb recurring)
        { notified := (placeNotify { m with created := m.created ++ [a] } a ⟨recurring, ms, ms + now, some cb⟩).1 }
        (placeNotify { m with created := m.created ++ [a] } a ⟨recurring, ms, ms + now, some cb⟩).2
  | cancelled {t : Addr} (ht : t ∈ m.timers) :
      Effect m now (.cancel t) {} { m with
        heap := Function.update m.heap t { m.heap t with cb := none }, timers := m.timers.erase t }
  | cancelMiss {t : Addr} (hc : t ∈ m.created) (ht : t ∉ m.timers) : Effect m now (.cancel t) { ret := false } m
  | refreshed {t : Addr} (ht : t ∈ m.timers) :
      Effect m now (.refresh t) {} (m.place t { m.heap t with next := now + (m.heap t).ms })
  | refreshMiss {t : Addr} (ht : t ∉ m.timers) : Effect m now (.refresh t) { ret := false } m
  | resetSame {t : Addr} : Effect m now (.reset t (m.heap t).ms false) {} m
  | resetHit {t : Addr} {ms : UInt64} {fromNow : Bool} (ht : t ∈ m.timers) :
      Effect m now (.reset t ms fromNow) { notified := (m.placeNotify t (resetTo (m.heap t) ms fromNow now)).1 }
        (m.placeNotify t (resetTo (m.heap t) ms fromNow now)).2
  | resetMiss {t : Addr} {ms : UInt64} {fromNow : Bool} (ht : t ∉ m.timers) :
      Effect m now (.reset t ms fromNow) { ret := false } m
  | nextTimer : Effect m now .getNextTimer { interval := (m.getNextTimer now).1 } { m with tickled := false }
  | listed {probe : Addr} {ex : List Addr} {m' : TimerManager κ} (h : Listed m now ex m') :
      Effect m now (.listExpiredCb probe) { cbs := ex.map fun t => (t, (m.heap t).cb) } m'

theorem getNextTimer_snd (m : TimerManager κ) (now : UInt64) :
    (m.getNextTimer now).2 = { m with tickled := false } := by
  unfold getNextTimer
  dsimp only
  cases m.timers <;> rfl

theorem step_effect {m m' : TimerManager κ} {c : Call κ} {r : Reply κ} (g : m.Good) (ha : m.Allowed c)
    (hs : m.step c = .ok (r, m')) : Effect m c.now c.op r m' := by
  obtain ⟨now, op⟩ := c
  cases op with
  | addTimer a ms cb recurring =>
    have hm : a ∉ m.timers := fun h => ha (g.created a h)
    simp only [step, addTimer_eq hm, Except.ok.injEq, Prod.mk.injEq] at hs
    obtain ⟨rfl, rfl⟩ := hs
    exact .added ha
  | cancel t =>
    by_cases ht : t ∈ m.timers
    · simp only [step, cancel_hit g.sorted ht ((g.pending t).mp ht), Except.ok.injEq, Prod.mk.injEq] at hs
      obtain ⟨rfl, rfl⟩ := hs
      exact .cancelled ht
    · simp only [step, cancel_miss (g.isNone ht), Except.ok.injEq, Prod.mk.injEq] at hs
      obtain ⟨rfl, rfl⟩ := hs
      exact .cancelMiss ha ht
  | refresh t =>
    by_cases ht : t ∈ m.timers
    · simp only [step, refresh_hit g.sorted ht ((g.pending t).mp ht), Except.ok.injEq, Prod.mk.injEq] at hs
      obtain ⟨rfl, rfl⟩ := hs
      exact .refreshed ht
    · simp only [step, refresh_miss (g.isNone ht), Except.ok.injEq, Prod.mk.injEq] at hs
      obtain ⟨rfl, rfl⟩ := hs
      exact .refreshMiss ht
  | reset t ms fromNow =>
    cases hsame : (ms == (m.heap t).ms && !fromNow) with
    | true =>
      simp only [step, reset, hsame, if_true, Except.ok.injEq, Prod.mk.injEq] at hs
      obtain ⟨rfl, rfl⟩ := hs
      simp only [Bool.and_eq_true, beq_iff_eq, Bool.not_eq_true'] at hsame
      obtain ⟨rfl, rfl⟩ := hsame
      exact .resetSame
    | false =>
      by_cases ht : t ∈ m.timers
      · simp only [step, reset_hit g.sorted ht ((g.pending t).mp ht) hsame, Except.ok.injEq, Prod.mk.injEq] at hs
        obtain ⟨rfl, rfl⟩ := hs
        exact .resetHit ht
      · simp only [step, reset_miss (g.isNone ht) hsame, Except.ok.injEq, Prod.mk.injEq] at hs
        obtain ⟨rfl, rfl⟩ := hs
        exact .resetMiss ht
  | getNextTimer =>
    simp only [step, getNextTimer_snd, Except.ok.injEq, Prod.mk.injEq] at hs
    obtain ⟨rfl, rfl⟩ := hs
    exact .nextTimer
  | listExpiredCb probe =>
    obtain ⟨ex, m₁, he, hl⟩ := listExpiredCb_listed g now probe
    simp only [step, he, Except.map, Except.ok.injEq, Prod.mk.injEq] at hs
    obtain ⟨rfl, rfl⟩ := hs
    exact .listed hl

theorem step_ok {m : TimerManager κ} (g : m.Good) (c : Call κ) : ∃ r m', m.step c = .ok (r, m') := by
  obtain ⟨now, op⟩ := c
  cases op with
  | listExpiredCb probe =>
    obtain ⟨ex, m₁, he, -⟩ := listExpiredCb_listed g now probe
    exact ⟨{ cbs := ex.map fun t => (t, (m.heap t).cb) }, m₁, by simp only [step, he, Except.map]⟩
  | _ => exact ⟨_, _, rfl⟩

/-! ## Every operation keeps the invariant -/

theorem place_good {m : TimerManager κ} (g : m.Good) {t : Addr} {x : Timer κ} (hx : x.cb.isSome = true)
    (hc : t ∈ m.created) : (m.place t x).Good where
  sorted := place_sorted g.sorted t x
  pending u := by
    rw [mem_place g.sorted, place_heap]
    by_cases he : u = t
    · subst he
      simp [hx]
    · simp [he, g.pending u]
  created u hu := by
    rcases (mem_place g.sorted).mp hu with rfl | hu
    · exact hc
    · exact g.created u hu

theorem placeNotify_good {m : TimerManager κ} (g : m.Good) {t : Addr} {x : Timer κ} (hx : x.cb.isSome = true)
    (hc : t ∈ m.created) : (m.placeNotify t x).2.Good := by
  obtain ⟨h1, h2, h3⟩ := place_good g hx hc
  exact ⟨h1, h2, h3⟩

theorem Listed.good {m m' : TimerManager κ} {now : UInt64} {ex : List Addr} (g : m.Good) (h : Listed m now ex m') :
    m'.Good where
  sorted := h.sorted
  pending u := by
    rw [h.timers, h.heap, g.pending]
    by_cases hu : u ∈ ex
    · have hp := (g.pending u).mp ((h.mem u).mp hu).1
      cases hr : (m.heap u).recurring <;> simp [hu, hr, rearmed, hp]
    · simp [hu]
  created u hu := by
    rw [h.created]
    exact g.created u ((h.timers u).mp hu).1

theorem Effect.good {m m' : TimerManager κ} {now : UInt64} {op : Op κ} {r : Reply κ} (g : m.Good)
    (he : Effect m now op r m') : m'.Good := by
  cases he with
  | @added a ms cb recurring ha =>
    have g' : ({ m with created := m.created ++ [a] } : TimerManager κ).Good :=
      ⟨g.sorted, g.pending, fun t ht => List.mem_append_left _ (g.created t ht)⟩
    exact placeNotify_good g' rfl (by simp)
  | @cancelled t ht =>
    refine ⟨?_, fun u => ?_, fun u hu => g.created u (List.mem_of_mem_erase hu)⟩
    · refine (OrderedSet.Sorted.erase g.sorted t).congr fun u hu => ?_
      have hne : u ≠ t := fun he => g.nodup.not_mem_erase (he ▸ hu)
      simp [key, hne]
    · rw [g.nodup.mem_erase_iff, g.pending u]
      by_cases hu : u = t <;> simp [hu]
  | cancelMiss => exact g
  | @refreshed t ht => exact place_good g ((g.pending t).mp ht) (g.created t ht)
  | refreshMiss => exact g
  | resetSame => exact g
  | @resetHit t ms fromNow ht => exact placeNotify_good g ((g.pending t).mp ht) (g.created t ht)
  | resetMiss => exact g
  | nextTimer => exact ⟨g.sorted, g.pending, g.created⟩
  | listed h => exact h.good g

theorem new_good (now : UInt64) : (new now : TimerManager κ).Good :=
  ⟨List.Pairwise.nil, by simp [new], by simp [new]⟩

/-- **Every reachable manager is good.** -/
theorem run_good {h : List (Entry (TimerManager κ) (Call κ) (Reply κ))} {m : TimerManager κ}
    (hr : Run (machine κ) h m) : m.Good := by
  refine hr.invariant (P := Good) ?_ ?_
  · rintro _ ⟨now, rfl⟩
    exact new_good now
  · intro s i o t g ha hs
    exact (step_effect g ha hs).good g

/-- Every entry of a run is an effect on a good manager. -/
theorem run_effect {h : List (Entry (TimerManager κ) (Call κ) (Reply κ))} {m : TimerManager κ}
    (hr : Run (machine κ) h m) {e : Entry (TimerManager κ) (Call κ) (Reply κ)} (he : e ∈ h) :
    e.pre.Good ∧ Effect e.pre e.inp.now e.inp.op e.out e.post := by
  obtain ⟨h₁, hr₁, ha, hs⟩ := hr.mem he
  exact ⟨run_good hr₁, step_effect (run_good hr₁) ha hs⟩

/-- **The timer set representation.** In every reachable manager the set is strictly increasing in the comparator on
the current `m_next`, so that `lower_bound` and `find` meet every member, no timer is in it twice, and a timer that
was created is in it exactly when its callback is not empty. -/
theorem timer_set_representation {h : List (Entry (TimerManager κ) (Call κ) (Reply κ))} {m : TimerManager κ}
    (hr : Run (machine κ) h m) :
    m.timers.Pairwise (fun t u => Timer.Before (m.key t) (m.key u)) ∧
      (∀ t ∈ m.timers, ∃ it, m.find t = some it ∧ m.timers[it]? = some t ∧
        OrderedSet.lowerBound Timer.Before m.key (m.key t) m.timers = it) ∧
      m.timers.Nodup ∧ ∀ t ∈ m.created, t ∈ m.timers ↔ (m.heap t).cb.isSome = true := by
  have g := run_good hr
  refine ⟨g.sorted, fun t ht => ?_, g.nodup, fun t _ => g.pending t⟩
  obtain ⟨it, hf, hit, -⟩ := g.sorted.find ht
  refine ⟨it, hf, hit, ?_⟩
  unfold find OrderedSet.find at hf
  split at hf
  · split_ifs at hf
    exact Option.some.inj hf
  · cases hf

/-- Two timers, the later one reset to be the first, on a manager constructed at time `5`. -/
theorem timer_set_representation_reset : ∃ h m, Run (machine Nat) h m ∧ m.timers = [9, 4] ∧ m.timers.Nodup := by
  obtain ⟨h, m, hr, hp⟩ := Run.of_replay (machine Nat) ⟨5, rfl⟩
    [⟨10, .addTimer 4 100 0 false⟩, ⟨11, .addTimer 9 200 1 true⟩, ⟨12, .reset 9 20 true⟩]
    (fun r => r.2.timers == [9, 4]) (by decide)
  exact ⟨h, m, hr, by simpa using hp, (timer_set_representation hr).2.2.1⟩

end QWebServer.TimerManager
