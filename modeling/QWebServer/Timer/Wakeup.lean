import Mathlib
import QWebServer.Timer.Delivery

/-!
# The wake-up protocol of `getNextTimer`

A waiter sleeps for the interval `getNextTimer` answered. While `m_tickled` is false no timer is due before the front
deadline that call saw: an insertion at the front sets `m_tickled` and calls `onTimerInsertedAtFront`, and `refresh` and
the re-insertion of `listExpiredCb`, which call nothing, only move a deadline forward. The last point rests on `Armed`:
a deadline is a past reading of the clock plus the period of its timer.

* `Effect.armed`, `Effect.front` : one operation;
* `lastNext`, `notifications` : the most recent `getNextTimer` of a history and the calls of `onTimerInsertedAtFront`
  after it;
* `wakeup_protocol` : whole runs.
-/

namespace QWebServer.TimerManager

open Lib

variable {κ : Type}

/-- The deadline of `x` is a reading of at most `now` plus its period. -/
def ArmedBy (now : UInt64) (x : Timer κ) : Prop := x.ms.toNat ≤ x.next.toNat ∧ x.next.toNat ≤ now.toNat + x.ms.toNat

/-- Every pending deadline is a reading of at most `now` plus the period of its timer. -/
def Armed (m : TimerManager κ) (now : UInt64) : Prop := ∀ t ∈ m.timers, ArmedBy now (m.heap t)

def NotBefore (m : TimerManager κ) (b : WithTop Nat) : Prop := ∀ t ∈ m.timers, b ≤ ((m.heap t).next.toNat : WithTop Nat)

theorem Armed.mono {m : TimerManager κ} {now now' : UInt64} (h : m.Armed now) (hle : now ≤ now') : m.Armed now' := by
  intro t ht
  obtain ⟨h1, h2⟩ := h t ht
  rw [UInt64.le_iff_toNat_le] at hle
  exact ⟨h1, by omega⟩

theorem toNat_add_of_lt {a b : UInt64} (h : a.toNat + b.toNat < 2 ^ 64) : (a + b).toNat = a.toNat + b.toNat := by
  rw [UInt64.toNat_add, Nat.mod_eq_of_lt h]

/-! ## One operation -/

/-- Placing a timer keeps what holds of the deadlines of the others and of its own. -/
theorem forall_mem_place {m : TimerManager κ} (hs : m.Sorted) {t : Addr} {x : Timer κ} {P : Timer κ → Prop}
    (hm : ∀ u ∈ m.timers, P (m.heap u)) (hx : P x) : ∀ u ∈ (m.place t x).timers, P ((m.place t x).heap u) := by
  intro u hu
  rw [place_heap]
  by_cases he : u = t
  · subst he
    rwa [Function.update_self]
  · rw [Function.update_of_ne he]
    exact hm u (((mem_place hs).mp hu).resolve_left he)

/-- An insertion that is not at the front has a timer before it. -/
theorem placeNotify_quiet {m : TimerManager κ} (g : m.Good) {t : Addr} {x : Timer κ} {b : WithTop Nat}
    (hb : m.NotBefore b) (hq : (m.placeNotify t x).2.tickled = false) : (m.placeNotify t x).2.NotBefore b := by
  have hfront : ¬ ((m.lifted t x).insert t).2 = 0 := by
    intro h0
    unfold placeNotify at hq
    simp only [h0, Bool.or_eq_false_iff] at hq
    rw [hq.1] at hq
    simp at hq
  rw [place_front g.sorted] at hfront
  push Not at hfront
  obtain ⟨u, hu, -, hbef⟩ := hfront
  have hbef := mt Timer.before_some.mpr hbef
  have hle : (m.heap u).next.toNat ≤ x.next.toNat := by omega
  exact forall_mem_place (P := fun x => b ≤ (x.next.toNat : WithTop Nat)) g.sorted hb
    ((hb u hu).trans (by exact_mod_cast hle))

theorem resetTo_armed {x : Timer κ} {ms now : UInt64} {fromNow : Bool} (hx : ArmedBy now x)
    (hf : (if fromNow then now else x.next - x.ms).toNat + ms.toNat < 2 ^ 64) :
    ArmedBy now (resetTo x ms fromNow now) := by
  unfold ArmedBy at hx ⊢
  have hstart : (if fromNow then now else x.next - x.ms).toNat ≤ now.toNat := by
    split_ifs
    · exact le_refl _
    · rw [UInt64.toNat_sub_of_le _ _ (UInt64.le_iff_toNat_le.mpr hx.1)]
      omega
  have hn : (resetTo x ms fromNow now).next.toNat = (if fromNow then now else x.next - x.ms).toNat + ms.toNat :=
    toNat_add_of_lt hf
  have hms : (resetTo x ms fromNow now).ms = ms := rfl
  rw [hn, hms]
  omega

section
variable {m m' : TimerManager κ} {now : UInt64} {op : Op κ} {r : Reply κ}

theorem Listed.armed {ex : List Addr} (hl : Listed m now ex m') (h : m.Armed now)
    (hf : ∀ t ∈ m.timers, (m.heap t).recurring = true → (m.heap t).ms.toNat + now.toNat < 2 ^ 64) :
    m'.Armed now ∧ ∀ b, m.NotBefore b → m'.NotBefore b := by
  have key : ∀ t ∈ m'.timers, t ∈ m.timers ∧ ((m'.heap t).next = (m.heap t).next ∨
      (m'.heap t).next.toNat = (m.heap t).ms.toNat + now.toNat) ∧ (m'.heap t).ms = (m.heap t).ms := by
    intro t ht
    obtain ⟨htm, hrec⟩ := (hl.timers t).mp ht
    rw [hl.heap t]
    split_ifs with hex
    · unfold rearmed
      rw [if_pos (hrec hex)]
      exact ⟨htm, Or.inr (toNat_add_of_lt (hf t htm (hrec hex))), rfl⟩
    · exact ⟨htm, Or.inl rfl, rfl⟩
  constructor
  · intro t ht
    obtain ⟨htm, hn, hms⟩ := key t ht
    have := h t htm
    unfold ArmedBy at this ⊢
    rw [hms]
    rcases hn with hn | hn
    · rwa [hn]
    · rw [hn]
      omega
  · intro b hb t ht
    obtain ⟨htm, hn, -⟩ := key t ht
    have hle : (m.heap t).next.toNat ≤ (m'.heap t).next.toNat := by
      rcases hn with hn | hn
      · rw [hn]
      · rw [hn, Nat.add_comm]
        exact (h t htm).2
    exact (hb t htm).trans (by exact_mod_cast hle)

theorem Effect.armed (g : m.Good) (he : Effect m now op r m') (h : m.Armed now) (hf : m.Fits ⟨now, op⟩) :
    m'.Armed now := by
  cases he with
  | @added a ms cb recurring ha =>
    have hf : ms.toNat + now.toNat < 2 ^ 64 := hf
    refine forall_mem_place (m := { m with created := m.created ++ [a] }) (P := ArmedBy now) g.sorted h ?_
    unfold ArmedBy
    rw [toNat_add_of_lt hf]
    dsimp only
    omega
  | @cancelled t ht =>
    intro u hu
    have hu' := List.mem_of_mem_erase hu
    have hne : u ≠ t := fun he => g.nodup.not_mem_erase (he ▸ hu)
    simpa [hne] using h u hu'
  | @refreshed t ht =>
    have hf : t ∈ m.timers → now.toNat + (m.heap t).ms.toNat < 2 ^ 64 := hf
    refine forall_mem_place (P := ArmedBy now) g.sorted h ?_
    unfold ArmedBy
    rw [toNat_add_of_lt (hf ht)]
    dsimp only
    omega
  | @resetHit t ms fromNow ht => exact forall_mem_place (P := ArmedBy now) g.sorted h (resetTo_armed (h t ht) (hf ht))
  | listed hl => exact (hl.armed h hf).1
  | _ => exact h

/-- **No operation that leaves `m_tickled` false brings a deadline before a bound all deadlines had.** -/
theorem Effect.front (g : m.Good) (he : Effect m now op r m') (h : m.Armed now) (hf : m.Fits ⟨now, op⟩)
    (hq : m'.tickled = false) {b : WithTop Nat} (hb : m.NotBefore b) : m'.NotBefore b := by
  cases he with
  | @added a ms cb recurring ha =>
    have g' : ({ m with created := m.created ++ [a] } : TimerManager κ).Good :=
      ⟨g.sorted, g.pending, fun t ht => List.mem_append_left _ (g.created t ht)⟩
    exact placeNotify_quiet g' hb hq
  | @cancelled t ht =>
    intro u hu
    have hu' := List.mem_of_mem_erase hu
    have hne : u ≠ t := fun he => g.nodup.not_mem_erase (he ▸ hu)
    simpa [hne] using hb u hu'
  | @refreshed t ht =>
    have hf : t ∈ m.timers → now.toNat + (m.heap t).ms.toNat < 2 ^ 64 := hf
    have hle : (m.heap t).next.toNat ≤ (now + (m.heap t).ms).toNat := by
      rw [toNat_add_of_lt (hf ht)]
      exact (h t ht).2
    refine forall_mem_place (P := fun x => b ≤ (x.next.toNat : WithTop Nat)) g.sorted hb ?_
    exact (hb t ht).trans (by exact_mod_cast hle)
  | resetHit ht => exact placeNotify_quiet g hb hq
  | listed hl => exact (hl.armed h hf).2 b hb
  | _ => exact hb

/-- `m_tickled` is set exactly by a call of `onTimerInsertedAtFront`, which finds it false. -/
theorem Effect.tickled (he : Effect m now op r m') (hop : op ≠ .getNextTimer) :
    m'.tickled = (m.tickled || r.notified) ∧ (r.notified = true → m.tickled = false) := by
  cases he with
  | added =>
    refine ⟨rfl, fun h => ?_⟩
    simp only [placeNotify, Bool.and_eq_true, Bool.not_eq_true'] at h
    exact h.2
  | resetHit =>
    refine ⟨rfl, fun h => ?_⟩
    simp only [placeNotify, Bool.and_eq_true, Bool.not_eq_true'] at h
    exact h.2
  | nextTimer => exact absurd rfl hop
  | listed hl => simp [hl.tickled]
  | _ => simp

end

/-! ## Whole runs -/

def isNext (e : Entry (TimerManager κ) (Call κ) (Reply κ)) : Bool :=
  match e.inp.op with
  | .getNextTimer => true
  | _ => false

def lastNext (h : History κ) : Option (Entry (TimerManager κ) (Call κ) (Reply κ)) := h.reverse.find? isNext

/-- The calls of `onTimerInsertedAtFront` after the most recent call of `getNextTimer`. -/
def notifications (h : History κ) : Nat := (h.reverse.takeWhile fun e => !isNext e).countP fun e => e.out.notified

/-- The front deadline, `⊤` when the set is empty. -/
def frontDeadline (m : TimerManager κ) : WithTop Nat :=
  match m.timers with
  | [] => ⊤
  | front :: _ => ((m.heap front).next.toNat : WithTop Nat)

theorem frontDeadline_cons {m : TimerManager κ} {front : Addr} {rest : List Addr} (hl : m.timers = front :: rest) :
    m.frontDeadline = ((m.heap front).next.toNat : WithTop Nat) := by
  unfold frontDeadline
  rw [hl]

theorem lastNext_snoc (h : History κ) (e : Entry (TimerManager κ) (Call κ) (Reply κ)) :
    lastNext (h ++ [e]) = if isNext e then some e else lastNext h := by
  unfold lastNext
  rw [List.reverse_append, List.reverse_singleton, List.singleton_append, List.find?_cons]
  cases isNext e <;> rfl

theorem notifications_snoc (h : History κ) (e : Entry (TimerManager κ) (Call κ) (Reply κ)) :
    notifications (h ++ [e]) =
      if isNext e then 0 else notifications h + if e.out.notified then 1 else 0 := by
  unfold notifications
  rw [List.reverse_append, List.reverse_singleton, List.singleton_append, List.takeWhile_cons]
  cases isNext e
  · simp [List.countP_cons]
  · rfl

theorem isNext_iff {e : Entry (TimerManager κ) (Call κ) (Reply κ)} : isNext e = true ↔ e.inp.op = .getNextTimer := by
  unfold isNext
  cases e.inp.op <;> simp

theorem Good.notBefore_front {m : TimerManager κ} (g : m.Good) : m.NotBefore m.frontDeadline := by
  intro t ht
  have hs := g.sorted
  unfold Sorted at hs
  cases hl : m.timers with
  | nil => simp [hl] at ht
  | cons front rest =>
    rw [hl] at hs ht
    rw [frontDeadline_cons hl]
    have hlt := mt Timer.before_some.mpr (hs.head_le t ht)
    have hle : (m.heap front).next.toNat ≤ (m.heap t).next.toNat := by omega
    exact_mod_cast hle

theorem run_notifications {h : History κ} {m : TimerManager κ} (hr : Run (machine κ) h m) :
    notifications h = if m.tickled then 1 else 0 := by
  induction hr with
  | start hs =>
    obtain ⟨now, rfl⟩ := hs
    rfl
  | @step h s m c r hr ha hs ih =>
    obtain ⟨g, he⟩ := run_step_effect hr ha hs
    rw [notifications_snoc]
    by_cases hop : c.op = .getNextTimer
    · rw [if_pos (isNext_iff.mpr hop)]
      rw [hop] at he
      cases he
      rfl
    · rw [if_neg (mt isNext_iff.mp hop), ih]
      obtain ⟨ht, hn⟩ := he.tickled hop
      rw [ht]
      dsimp only
      cases hr : r.notified
      · simp
      · simp [hn hr]

/-- The deadlines of a run: armed by every later reading, and not before the front the last `getNextTimer` saw. -/
theorem run_deadlines {h : History κ} {m : TimerManager κ} (hr : Run (machine κ) h m) (hc : ClockRises h)
    (hf : ∀ e ∈ h, e.pre.Fits e.inp) :
    (∀ now, (∀ e ∈ h, e.inp.now ≤ now) → m.Armed now) ∧
      ∀ e, lastNext h = some e → m.tickled = false → m.NotBefore e.pre.frontDeadline := by
  induction hr with
  | start hs =>
    obtain ⟨now, rfl⟩ := hs
    exact ⟨fun _ _ t ht => (by cases ht), fun e he => (by cases he)⟩
  | @step h s m c r hr ha hs ih =>
    obtain ⟨hc, -, hlate⟩ := List.pairwise_append.mp hc
    obtain ⟨harm, hfront⟩ := ih hc fun e he => hf e (List.mem_append_left _ he)
    have harm : s.Armed c.now := harm c.now fun e he => hlate e he _ (List.mem_singleton_self _)
    have hfit : s.Fits c := hf _ (List.mem_append_right _ (List.mem_singleton_self _))
    obtain ⟨g, he⟩ := run_step_effect hr ha hs
    refine ⟨fun now hnow => ?_, fun e hl ht => ?_⟩
    · exact (he.armed g harm hfit).mono (hnow _ (List.mem_append_right _ (List.mem_singleton_self _)))
    · rw [lastNext_snoc] at hl
      by_cases hop : c.op = .getNextTimer
      · rw [if_pos (isNext_iff.mpr hop)] at hl
        cases hl
        rw [hop] at he
        cases he
        exact g.notBefore_front
      · rw [if_neg (mt isNext_iff.mp hop)] at hl
        have ht0 : s.tickled = false := by
          have := (he.tickled hop).1
          rw [ht] at this
          exact (Bool.or_eq_false_iff.mp this.symm).1
        exact he.front g harm hfit ht (hfront e hl ht0)

/-- The wake-up time of the answered interval is not after the front deadline. -/
theorem getNextTimer_wakes {m : TimerManager κ} {now : UInt64} {front : Addr} {rest : List Addr}
    (hl : m.timers = front :: rest) (h0 : (m.getNextTimer now).1 ≠ 0) :
    now.toNat + (m.getNextTimer now).1.toNat = (m.heap front).next.toNat := by
  unfold getNextTimer at h0 ⊢
  simp only [hl] at h0 ⊢
  split_ifs at h0 ⊢ with hle
  · exact absurd rfl h0
  · have hlt : now ≤ (m.heap front).next := by
      rw [ge_iff_le, UInt64.le_iff_toNat_le] at hle
      rw [UInt64.le_iff_toNat_le]
      omega
    rw [UInt64.toNat_sub_of_le _ _ hlt]
    rw [UInt64.le_iff_toNat_le] at hlt
    omega

/-- **The wake-up protocol.** With nondecreasing readings and no overflow of a deadline: while `m_tickled` is false no
pending deadline is before the front deadline the most recent `getNextTimer` saw; `onTimerInsertedAtFront` is called at
most once after it; and if it was not called, a waiter that sleeps for the answered interval wakes up no later than any
pending deadline. -/
theorem wakeup_protocol {h : History κ} {m : TimerManager κ} (hr : Run (machine κ) h m) (hc : ClockRises h)
    (hf : ∀ e ∈ h, e.pre.Fits e.inp) :
    (∀ e, lastNext h = some e → m.tickled = false →
      ∀ t ∈ m.timers, e.pre.frontDeadline ≤ ((m.heap t).next.toNat : WithTop Nat)) ∧
      notifications h ≤ 1 ∧
      ∀ e, lastNext h = some e → notifications h = 0 → e.out.interval ≠ 0 →
        ∀ t ∈ m.timers, e.inp.now.toNat + e.out.interval.toNat ≤ (m.heap t).next.toNat := by
  have hn := run_notifications hr
  have hd := (run_deadlines hr hc hf).2
  refine ⟨hd, by rw [hn]; split_ifs <;> omega, fun e hl h0 hi t ht => ?_⟩
  have htick : m.tickled = false := by
    cases htm : m.tickled
    · rfl
    · rw [hn, htm] at h0
      cases h0
  have hle := hd e hl htick t ht
  have hmem : e ∈ h := List.mem_reverse.mp (List.mem_of_find?_eq_some hl)
  have hop := isNext_iff.mp (List.find?_some hl)
  obtain ⟨pre, ⟨now, op⟩, out, post⟩ := e
  obtain ⟨-, he⟩ := run_effect hr hmem
  dsimp only at hop he hi hle ⊢
  subst hop
  cases he with
  | nextTimer =>
    cases hl : pre.timers with
    | nil => simp [frontDeadline, hl] at hle
    | cons front rest =>
      dsimp only at hi ⊢
      rw [getNextTimer_wakes hl hi]
      rw [frontDeadline_cons hl] at hle
      exact_mod_cast hle

/-- A waiter asleep since `20` until `110`, a later timer added and the front one refreshed. -/
theorem wakeup_protocol_quiet : ∃ (h : History Nat) (m : TimerManager Nat), Run (machine Nat) h m ∧
    m.timers = [4, 9] ∧ m.tickled = false ∧
    ∃ e, lastNext h = some e ∧ e.inp.now = 20 ∧ e.out.interval = 90 ∧
      ∀ t ∈ m.timers, e.inp.now.toNat + e.out.interval.toNat ≤ (m.heap t).next.toNat := by
  obtain ⟨h, m, hr, hp⟩ := Run.of_replay (machine Nat) ⟨5, rfl⟩
    [⟨10, .addTimer 4 100 0 false⟩, ⟨20, .getNextTimer⟩, ⟨30, .addTimer 9 500 1 true⟩, ⟨40, .refresh 4⟩]
    (fun r => decide (r.2.timers = [4, 9]) && decide (r.2.tickled = false) && decide (ClockRises r.1) &&
      r.1.all (fun e => decide (e.pre.Fits e.inp)) && decide (notifications r.1 = 0) &&
      decide ((lastNext r.1).map (fun e => (e.inp.now, e.out.interval)) = some (20, 90))) (by decide)
  simp only [Bool.and_eq_true, decide_eq_true_eq, List.all_eq_true, Option.map_eq_some_iff, Prod.mk.injEq] at hp
  obtain ⟨⟨⟨⟨⟨hl, ht⟩, hc⟩, hf⟩, h0⟩, e, he, hnow, hi⟩ := hp
  have hi0 : e.out.interval ≠ 0 := by
    rw [hi]
    decide
  exact ⟨h, m, hr, hl, ht, e, he, hnow, hi, (wakeup_protocol hr hc hf).2.2 e he h0 hi0⟩

end QWebServer.TimerManager
