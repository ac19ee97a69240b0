import QWebServer.Timer.Delivery

/-!
# The two critical sections of `listExpiredCb`

Any number of threads call `listExpiredCb`, each with the reading of the clock it made on entry, and others come between
the emptiness check and the body.

* `Shared` : a manager with the threads that have passed the check;
* `sections` : the machine whose steps are the checks, the bodies and the operations of others;
* `Drains`, `Adds` : the steps that empty the set and that fill it, `Drained` : the set was emptied after the check of a
  thread and not filled since;
* `deref_iff` : the body reads `*m_timers.begin()` of the empty set exactly then, unless the clock rolls over.
-/

namespace QWebServer.TimerManager

open Lib

variable {τ κ : Type}

/-- A manager, and for every thread that found the set non-empty and waits for the write lock its reading of the
clock. -/
structure Shared (τ κ : Type) where
  m : TimerManager κ
  reading : τ → Option UInt64 := fun _ => none

/-- A step: the read-locked check of the thread `t`, its write-locked body, or an operation of somebody else. -/
inductive Section (τ κ : Type)
  | check (t : τ) (now : UInt64)
  | body (t : τ) (probe : Addr)
  | other (c : Call κ)

def Op.isList : Op κ → Bool
  | .listExpiredCb _ => true
  | _ => false

def Shared.step [DecidableEq τ] (s : Shared τ κ) : Section τ κ → Except Timer.Fault (Reply κ × Shared τ κ)
  | .check t now =>
    if s.m.timers.isEmpty then .ok ({}, s) else .ok ({}, { s with reading := Function.update s.reading t (some now) })
  | .body t probe =>
    match s.reading t with
    | none => .ok ({}, s)
    | some now => do
      let (cbs, m) ← s.m.listExpiredBody now probe
      return ({ cbs := cbs }, { m := m, reading := Function.update s.reading t none })
  | .other c => do
    let (r, m) ← s.m.step c
    return (r, { s with m := m })

/-- A thread is in one call at a time, and calls of `listExpiredCb` are made in two steps. -/
def Shared.Allowed (s : Shared τ κ) : Section τ κ → Prop
  | .check t _ => s.reading t = none
  | .body t probe => s.reading t ≠ none ∧ probe ∉ s.m.created
  | .other c => c.op.isList = false ∧ s.m.Allowed c

instance (s : Shared τ κ) : (l : Section τ κ) → Decidable (s.Allowed l)
  | .check t _ => inferInstanceAs (Decidable (s.reading t = none))
  | .body _ _ => inferInstanceAs (Decidable (_ ∧ _))
  | .other _ => inferInstanceAs (Decidable (_ ∧ _))

/-- Any interleaving of the threads and the others, on a manager constructed at any time. -/
def sections (τ κ : Type) [DecidableEq τ] : Machine (Shared τ κ) (Section τ κ) (Reply κ) Timer.Fault where
  init s := ∃ now, s = { m := new now }
  enabled := Shared.Allowed
  step := Shared.step

instance [DecidableEq τ] (s : Shared τ κ) (l : Section τ κ) : Decidable ((sections τ κ).enabled s l) :=
  inferInstanceAs (Decidable (s.Allowed l))

/-! ## What empties the set -/

/-- The step takes the last timers: a cancel of the only one, or a body that takes all of them, none recurring. -/
def Drains (s : Shared τ κ) : Section τ κ → Prop
  | .check _ _ => False
  | .body t _ => ∃ now, s.reading t = some now ∧ s.m.timers ≠ [] ∧
      ∀ u ∈ s.m.timers, s.m.Expires now u ∧ (s.m.heap u).recurring = false
  | .other c => ∃ t, c.op = .cancel t ∧ s.m.timers = [t]

def Section.Adds : Section τ κ → Prop
  | .other c => ∃ a ms cb recurring, c.op = .addTimer a ms cb recurring
  | _ => False

/-- The set was emptied while the thread `t` was between its check and its body, and no timer was added since. -/
def Drained (h : List (Entry (Shared τ κ) (Section τ κ) (Reply κ))) (t : τ) : Prop :=
  ∃ h₁ e h₂, h = h₁ ++ e :: h₂ ∧ e.pre.reading t ≠ none ∧ Drains e.pre e.inp ∧ ∀ e' ∈ h₂, ¬ e'.inp.Adds

theorem place_ne_nil {m : TimerManager κ} (g : m.Good) (t : Addr) (x : Timer κ) : (m.place t x).timers ≠ [] :=
  List.ne_nil_of_mem ((mem_place g.sorted).mpr (.inl rfl))

theorem placeNotify_ne_nil {m : TimerManager κ} (g : m.Good) (t : Addr) (x : Timer κ) :
    (m.placeNotify t x).2.timers ≠ [] :=
  List.ne_nil_of_mem ((mem_placeNotify g).mpr (.inl rfl))

theorem Listed.timers_eq_nil {m m' : TimerManager κ} {now : UInt64} {ex : List Addr} (h : Listed m now ex m') :
    m'.timers = [] ↔ ∀ u ∈ m.timers, m.Expires now u ∧ (m.heap u).recurring = false := by
  rw [List.eq_nil_iff_forall_not_mem]
  refine forall_congr' fun u => ?_
  rw [h.timers, h.mem]
  cases (m.heap u).recurring <;> simp
  tauto

/-- When an operation of somebody else leaves the set empty. -/
theorem Effect.timers_eq_nil {m m' : TimerManager κ} {now : UInt64} {op : Op κ} {r : Reply κ} (g : m.Good)
    (he : Effect m now op r m') (hop : op.isList = false) :
    m'.timers = [] ↔ (∃ t, op = .cancel t ∧ m.timers = [t]) ∨
      m.timers = [] ∧ ¬ ∃ a ms cb recurring, op = .addTimer a ms cb recurring := by
  cases he with
  | @added a ms cb recurring ha =>
    have g' : ({ m with created := m.created ++ [a] } : TimerManager κ).Good :=
      ⟨g.sorted, g.pending, fun t ht => List.mem_append_left _ (g.created t ht)⟩
    have := placeNotify_ne_nil g' a ⟨recurring, ms, ms + now, some cb⟩
    simp [this]
  | @cancelled t ht =>
    have hne : m.timers ≠ [] := List.ne_nil_of_mem ht
    simp [List.erase_eq_nil_iff, hne]
  | @cancelMiss t hc ht =>
    have hne : m.timers ≠ [t] := fun h => ht (by simp [h])
    simp [hne]
  | @refreshed t ht =>
    have hne : m.timers ≠ [] := List.ne_nil_of_mem ht
    simp [place_ne_nil g, hne]
  | @resetHit t ms fromNow ht =>
    have hne : m.timers ≠ [] := List.ne_nil_of_mem ht
    simp [placeNotify_ne_nil g, hne]
  | listed h => cases hop
  | refreshMiss | resetSame | resetMiss | nextTimer => simp

theorem Effect.kept_nil {m m' : TimerManager κ} {now : UInt64} {op : Op κ} {r : Reply κ} (g : m.Good)
    (he : Effect m now op r m') (hm : m.timers = []) (hadd : ¬ ∃ a ms cb recurring, op = .addTimer a ms cb recurring) :
    m'.timers = [] := by
  cases hop : op.isList with
  | false => exact (he.timers_eq_nil g hop).mpr (.inr ⟨hm, hadd⟩)
  | true =>
    cases he with
    | listed h =>
      apply h.timers_eq_nil.mpr
      simp [hm]
    | _ => cases hop

/-! ## The body -/

theorem listExpiredBody_of_ne_nil {m : TimerManager κ} (hne : m.timers ≠ []) (now : UInt64) (probe : Addr) :
    m.listExpiredBody now probe = m.listExpiredCb now probe := by
  unfold listExpiredCb
  rw [if_neg (by simp [hne])]

theorem listExpiredBody_nil {m : TimerManager κ} (he : m.timers = []) (now : UInt64) (probe : Addr) :
    m.listExpiredBody now probe =
      if m.rollsOver now then .ok ([], { m with previouseTime := now }) else .error .derefEnd := by
  obtain ⟨heap, created, timers, tickled, previouseTime⟩ := m
  subst he
  unfold listExpiredBody detectClockRollover
  cases hr : (rollsOver _ now : Bool) <;> rfl

theorem listExpiredBody_error {m : TimerManager κ} (g : m.Good) (now : UInt64) (probe : Addr) :
    m.listExpiredBody now probe = .error .derefEnd ↔ m.timers = [] ∧ m.rollsOver now = false := by
  by_cases he : m.timers = []
  · rw [listExpiredBody_nil he]
    cases hr : m.rollsOver now <;> simp [he]
  · obtain ⟨ex, m', hok, -⟩ := listExpiredCb_listed g now probe
    rw [listExpiredBody_of_ne_nil he, hok]
    simp [he]

theorem listExpiredBody_ok {m m' : TimerManager κ} {now : UInt64} {probe : Addr} {cbs : List (Addr × Option κ)}
    (g : m.Good)
    (h : m.listExpiredBody now probe = .ok (cbs, m')) :
    m'.Good ∧ (m'.timers = [] ↔ ∀ u ∈ m.timers, m.Expires now u ∧ (m.heap u).recurring = false) := by
  by_cases he : m.timers = []
  · rw [listExpiredBody_nil he] at h
    split_ifs at h
    cases h
    exact ⟨⟨g.sorted, g.pending, g.created⟩, by simp [he]⟩
  · obtain ⟨ex, m₁, hok, hl⟩ := listExpiredCb_listed g now probe
    rw [listExpiredBody_of_ne_nil he, hok] at h
    cases h
    exact ⟨hl.good g, hl.timers_eq_nil⟩

/-! ## Steps and runs -/

section
variable [DecidableEq τ]

/-- **One step**: the set stays good, and it is empty afterwards when the step drains it, or when it was empty and the
step adds nothing. -/
theorem Shared.step_spec {s s' : Shared τ κ} {l : Section τ κ} {r : Reply κ} (g : s.m.Good) (ha : s.Allowed l)
    (hs : s.step l = .ok (r, s')) :
    s'.m.Good ∧ (s'.m.timers = [] ↔ Drains s l ∨ s.m.timers = [] ∧ ¬ l.Adds) := by
  cases l with
  | check t now =>
    unfold Shared.step at hs
    split_ifs at hs <;> cases hs <;> exact ⟨g, by simp [Drains, Section.Adds]⟩
  | body t probe =>
    unfold Shared.step at hs
    cases hr : s.reading t with
    | none => exact absurd hr ha.1
    | some now =>
      simp only [hr] at hs
      obtain ⟨⟨cbs, m⟩, hb, h⟩ := bind_eq_ok hs
      cases h
      obtain ⟨g', hnil⟩ := listExpiredBody_ok g hb
      refine ⟨g', ?_⟩
      dsimp only
      rw [hnil]
      by_cases he : s.m.timers = []
      · simp [he, Section.Adds]
      · simp [Drains, hr, he]
  | other c =>
    obtain ⟨⟨r', m⟩, hm, h⟩ := bind_eq_ok hs
    cases h
    have he := step_effect g ha.2 hm
    exact ⟨he.good g, he.timers_eq_nil g ha.1⟩

theorem Shared.step_reading {s s' : Shared τ κ} {l : Section τ κ} {r : Reply κ} (hs : s.step l = .ok (r, s')) {t : τ}
    (ht : s'.reading t ≠ none) : s.reading t ≠ none ∨ s.m.timers ≠ [] ∧ s'.m = s.m := by
  cases l with
  | check u now =>
    unfold Shared.step at hs
    split_ifs at hs with he
    · cases hs
      exact .inl ht
    · cases hs
      exact .inr ⟨by simpa using he, rfl⟩
  | body u probe =>
    unfold Shared.step at hs
    cases hr : s.reading u with
    | none =>
      simp only [hr] at hs
      cases hs
      exact .inl ht
    | some now =>
      simp only [hr] at hs
      obtain ⟨⟨cbs, m⟩, -, h⟩ := bind_eq_ok hs
      cases h
      refine .inl fun hn => ht ?_
      by_cases hu : t = u
      · rw [hu]
        exact Function.update_self ..
      · dsimp only
        rw [Function.update_of_ne hu, hn]
  | other c =>
    obtain ⟨⟨r', m⟩, -, h⟩ := bind_eq_ok hs
    cases h
    exact .inl ht

theorem sections_good {h : List (Entry (Shared τ κ) (Section τ κ) (Reply κ))} {s : Shared τ κ}
    (hr : Run (sections τ κ) h s) : s.m.Good := by
  refine hr.invariant (P := fun s => s.m.Good) ?_ ?_
  · rintro _ ⟨now, rfl⟩
    exact new_good now
  · intro s l r s' g ha hs
    exact (Shared.step_spec g ha hs).1

omit [DecidableEq τ] in
theorem Drained.snoc {h : List (Entry (Shared τ κ) (Section τ κ) (Reply κ))} {t : τ} (hd : Drained h t)
    {e : Entry (Shared τ κ) (Section τ κ) (Reply κ)} (he : ¬ e.inp.Adds) : Drained (h ++ [e]) t := by
  obtain ⟨h₁, e₀, h₂, rfl, hrd, hdr, hno⟩ := hd
  refine ⟨h₁, e₀, h₂ ++ [e], by simp, hrd, hdr, fun e' he' => ?_⟩
  rcases List.mem_append.mp he' with he' | he'
  · exact hno e' he'
  · rwa [List.mem_singleton.mp he']

/-- A thread that is between its check and its body sees the set empty only when it was drained in between. -/
theorem drained_of_empty {h : List (Entry (Shared τ κ) (Section τ κ) (Reply κ))} {s : Shared τ κ}
    (hr : Run (sections τ κ) h s) {t : τ} (ht : s.reading t ≠ none) (he : s.m.timers = []) : Drained h t := by
  induction hr with
  | start h0 =>
    obtain ⟨now, rfl⟩ := h0
    exact absurd rfl ht
  | @step h s s' l r hr ha hs ih =>
    obtain ⟨-, hnil⟩ := Shared.step_spec (sections_good hr) ha hs
    rcases Shared.step_reading hs ht with hrd | ⟨hne, hm⟩
    · rcases hnil.mp he with hd | ⟨he, hno⟩
      · exact ⟨h, ⟨s, l, r, s'⟩, [], rfl, hrd, hd, by simp⟩
      · exact (ih hrd he).snoc hno
    · rw [hm] at he
      exact absurd he hne

theorem empty_of_drains {h h₁ h₂ : List (Entry (Shared τ κ) (Section τ κ) (Reply κ))} {s : Shared τ κ}
    {e : Entry (Shared τ κ) (Section τ κ) (Reply κ)} (hr : Run (sections τ κ) h s) (hh : h = h₁ ++ e :: h₂)
    (hd : Drains e.pre e.inp) (hno : ∀ e' ∈ h₂, ¬ e'.inp.Adds) : s.m.timers = [] := by
  induction h₂ using List.reverseRecOn generalizing h s with
  | nil =>
    subst hh
    obtain ⟨hr₁, ⟨ha, hs⟩, rfl⟩ := hr.last
    exact (Shared.step_spec (sections_good hr₁) ha hs).2.mpr (.inl hd)
  | append_singleton h₂ e' ih =>
    rw [← List.cons_append, ← List.append_assoc] at hh
    subst hh
    obtain ⟨hr₁, ⟨ha, hs⟩, rfl⟩ := hr.last
    have he : e'.pre.m.timers = [] := ih hr₁ rfl fun e'' h'' => hno e'' (List.mem_append_left _ h'')
    exact (Shared.step_spec (sections_good hr₁) ha hs).2.mpr (.inr ⟨he, hno e' (by simp)⟩)

/-- **The empty set is dereferenced exactly when** it was emptied between the check of the thread and its body, no timer
was added since, and the reading of the thread does not roll over. -/
theorem deref_iff {h : List (Entry (Shared τ κ) (Section τ κ) (Reply κ))} {s : Shared τ κ} (hr : Run (sections τ κ) h s)
    {t : τ} {now : UInt64} (ht : s.reading t = some now) (probe : Addr) :
    s.step (.body t probe) ≠ .error .derefEnd ↔ ¬ (Drained h t ∧ s.m.rollsOver now = false) := by
  have hbody : s.step (.body t probe) = .error .derefEnd ↔ s.m.listExpiredBody now probe = .error .derefEnd := by
    simp only [Shared.step, ht]
    cases s.m.listExpiredBody now probe with
    | error f => cases f; simp [bind, Except.bind]
    | ok r => simp [bind, Except.bind, pure, Except.pure]
  have hempty : s.m.timers = [] ↔ Drained h t := by
    constructor
    · exact drained_of_empty hr (by simp [ht])
    · rintro ⟨h₁, e, h₂, hh, -, hd, hno⟩
      exact empty_of_drains hr hh hd hno
  rw [Ne, hbody, listExpiredBody_error (sections_good hr), hempty]

/-- One timer, and a thread that has found it. -/
theorem deref_iff_pending : ∃ h s, Run (sections Bool Nat) h s ∧ s.reading true = some 5 ∧ ∀ probe,
    s.step (.body true probe) ≠ .error .derefEnd := by
  obtain ⟨h, s, hr, hp⟩ := Run.of_replay (sections Bool Nat) ⟨0, rfl⟩
    [.other ⟨0, .addTimer 1 10 0 false⟩, .check true 5]
    (fun r => decide (r.2.reading true = some 5) && r.1.all fun e => e.pre.reading true == none) (by decide)
  rw [Bool.and_eq_true, decide_eq_true_eq, List.all_eq_true] at hp
  refine ⟨h, s, hr, hp.1, fun probe => (deref_iff hr hp.1 probe).mpr ?_⟩
  rintro ⟨⟨h₁, e, h₂, rfl, hrd, -⟩, -⟩
  exact hrd (by simpa using hp.2 e (by simp))

/-- The only timer is cancelled after the check of a thread. -/
theorem deref_after_cancel : ¬ ∀ (h : List (Entry (Shared Bool Nat) (Section Bool Nat) (Reply Nat)))
    (s : Shared Bool Nat),
    Run (sections Bool Nat) h s → ∀ t now probe, s.reading t = some now →
      s.step (.body t probe) ≠ .error .derefEnd := by
  intro hall
  obtain ⟨h, s, hr, hp⟩ := Run.of_replay (sections Bool Nat) ⟨0, rfl⟩
    [.other ⟨0, .addTimer 1 10 0 false⟩, .check true 5, .other ⟨5, .cancel 1⟩]
    (fun r => decide (r.2.reading true = some 5) && decide (r.2.m.timers = []) && decide (r.2.m.rollsOver 5 = false))
    (by decide)
  simp only [Bool.and_eq_true, decide_eq_true_eq] at hp
  obtain ⟨⟨ht, he⟩, hroll⟩ := hp
  apply hall h s hr true 5 9 ht
  simp only [Shared.step, ht, listExpiredBody_nil he, hroll]
  rfl

end

end QWebServer.TimerManager
