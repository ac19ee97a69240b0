import QWebServer.Timer.Expiry

/-!
# What the timer operations answer

`addTimer` does not look at the callback it is given. A timer with the empty one is in `m_timers` as any other, but
`cancel`, `refresh` and `reset` take it for one that is over; and `reset` answers before it looks at the timer when
nothing would change.

* `Request`, `requests` : any sequence of operations, where the callback of `addTimer` may be empty;
* `Kept` : `m_timers` is sorted and holds every timer whose callback is not empty (`run_kept`);
* `Truthful` : the answers say whether the timer was pending, `truthful_iff` : when they do;
* `lastDetection` : the last reading that came to `detectClockRollover`, `rollback_never` : a clock that was set back is
  never reported.
-/

namespace QWebServer.TimerManager

open Lib

variable {κ : Type}

/-- An operation, or a call of `addTimer` with the empty callback. -/
inductive Request (κ : Type)
  | call (c : Call κ)
  | addEmpty (now : UInt64) (a : Addr) (ms : UInt64) (recurring : Bool)

def serve (m : TimerManager κ) : Request κ → Except Timer.Fault (Reply κ × TimerManager κ)
  | .call c => m.step c
  | .addEmpty now a ms recurring =>
    let r := m.addTimer a ms none recurring now
    .ok ({ notified := r.1 }, r.2)

def Serves (m : TimerManager κ) : Request κ → Prop
  | .call c => m.Allowed c
  | .addEmpty _ a _ _ => a ∉ m.created

instance (m : TimerManager κ) : (q : Request κ) → Decidable (m.Serves q)
  | .call c => inferInstanceAs (Decidable (m.Allowed c))
  | .addEmpty _ a _ _ => inferInstanceAs (Decidable (a ∉ m.created))

/-- Any sequence of requests to a manager constructed at any time. -/
def requests (κ : Type) : Machine (TimerManager κ) (Request κ) (Reply κ) Timer.Fault where
  init m := ∃ now, m = new now
  enabled := Serves
  step := serve

instance (m : TimerManager κ) (q : Request κ) : Decidable ((requests κ).enabled m q) :=
  inferInstanceAs (Decidable (m.Serves q))

/-! ## The invariant -/

/-- The set is sorted and holds every timer whose callback is not empty. -/
structure Kept (m : TimerManager κ) : Prop where
  sorted : m.Sorted
  held : ∀ t, (m.heap t).cb.isSome = true → t ∈ m.timers
  created : ∀ t ∈ m.timers, t ∈ m.created

section
variable {m m' : TimerManager κ} {t : Addr}

theorem Kept.place (k : m.Kept) (hc : t ∈ m.created) (x : Timer κ) : (m.place t x).Kept where
  sorted := place_sorted k.sorted t x
  held u hu := by
    rw [place_heap] at hu
    rw [mem_place k.sorted]
    by_cases he : u = t
    · exact Or.inl he
    · rw [Function.update_of_ne he] at hu
      exact Or.inr (k.held u hu)
  created u hu := by
    rcases (mem_place k.sorted).mp hu with rfl | hu
    · exact hc
    · exact k.created u hu

theorem Kept.placeNotify (k : m.Kept) (hc : t ∈ m.created) (x : Timer κ) : (m.placeNotify t x).2.Kept := by
  obtain ⟨hs, hh, hc⟩ := k.place hc x
  exact ⟨hs, hh, hc⟩

theorem Kept.addTimer (k : m.Kept) (ht : t ∉ m.created) (ms now : UInt64) (cb : Option κ) (recurring : Bool) :
    (m.addTimer t ms cb recurring now).2.Kept := by
  rw [addTimer_eq fun h => ht (k.created t h)]
  have k' : ({ m with created := m.created ++ [t] } : TimerManager κ).Kept :=
    ⟨k.sorted, k.held, fun u hu => List.mem_append_left _ (k.created u hu)⟩
  exact k'.placeNotify (by simp) _

/-- The callback of `t` is empty, or it is not and `t` is in the set. -/
theorem Kept.cases (k : m.Kept) (t : Addr) :
    (m.heap t).cb.isNone = true ∨ (m.heap t).cb.isSome = true ∧ t ∈ m.timers := by
  cases hcb : (m.heap t).cb with
  | none => exact Or.inl rfl
  | some c => exact Or.inr ⟨rfl, k.held t (by rw [hcb]; rfl)⟩

theorem Kept.cancel (k : m.Kept) (t : Addr) : (m.cancel t).2.Kept := by
  rcases k.cases t with hn | ⟨hcb, ht⟩
  · rw [cancel_miss hn]
    exact k
  · rw [cancel_hit k.sorted ht hcb]
    have hnodup := OrderedSet.Sorted.nodup k.sorted
    refine ⟨?_, fun u hu => ?_, fun u hu => k.created u (List.mem_of_mem_erase hu)⟩
    · refine (OrderedSet.Sorted.erase k.sorted t).congr fun u hu => ?_
      have hne : u ≠ t := fun he => hnodup.not_mem_erase (he ▸ hu)
      simp [key, hne]
    · by_cases he : u = t
      · simp [he] at hu
      · dsimp only at hu
        rw [Function.update_of_ne he] at hu
        exact hnodup.mem_erase_iff.mpr ⟨he, k.held u hu⟩

theorem Kept.refresh (k : m.Kept) (t : Addr) (now : UInt64) : (m.refresh t now).2.Kept := by
  rcases k.cases t with hn | ⟨hcb, ht⟩
  · rw [refresh_miss hn]
    exact k
  · rw [refresh_hit k.sorted ht hcb]
    exact k.place (k.created t ht) _

theorem Kept.reset (k : m.Kept) (t : Addr) (ms now : UInt64) (fromNow : Bool) :
    (m.reset t ms fromNow now).2.2.Kept := by
  cases hsame : (ms == (m.heap t).ms && !fromNow) with
  | true =>
    rw [TimerManager.reset, if_pos hsame]
    exact k
  | false =>
    rcases k.cases t with hn | ⟨hcb, ht⟩
    · rw [reset_miss hn hsame]
      exact k
    · rw [reset_hit k.sorted ht hcb hsame]
      exact k.placeNotify (k.created t ht) _

theorem Listed.kept {now : UInt64} {ex : List Addr} (k : m.Kept) (h : Listed m now ex m') : m'.Kept where
  sorted := h.sorted
  held u hu := by
    rw [h.heap] at hu
    rw [h.timers]
    by_cases hex : u ∈ ex
    · refine ⟨((h.mem u).mp hex).1, fun _ => ?_⟩
      by_contra hr
      simp [hex, rearmed, hr] at hu
    · rw [if_neg hex] at hu
      exact ⟨k.held u hu, fun hex' => absurd hex' hex⟩
  created u hu := by
    rw [h.created]
    exact k.created u ((h.timers u).mp hu).1

end

theorem Kept.step {m m' : TimerManager κ} {c : Call κ} {r : Reply κ} (k : m.Kept) (ha : m.Allowed c)
    (hs : m.step c = .ok (r, m')) : m'.Kept := by
  obtain ⟨now, op⟩ := c
  cases op with
  | addTimer a ms cb recurring =>
    cases hs
    exact k.addTimer ha ms now (some cb) recurring
  | cancel t =>
    cases hs
    exact k.cancel t
  | refresh t =>
    cases hs
    exact k.refresh t now
  | reset t ms fromNow =>
    cases hs
    exact k.reset t ms now fromNow
  | getNextTimer =>
    cases hs
    rw [getNextTimer_snd]
    exact ⟨k.sorted, k.held, k.created⟩
  | listExpiredCb probe =>
    obtain ⟨m₁, he, hl⟩ := listExpiredCb_sorted k.sorted now probe
    simp only [TimerManager.step, he, Except.map, Except.ok.injEq, Prod.mk.injEq] at hs
    obtain ⟨-, rfl⟩ := hs
    exact hl.kept k

theorem run_kept {h : List (Entry (TimerManager κ) (Request κ) (Reply κ))} {m : TimerManager κ}
    (hr : Run (requests κ) h m) : m.Kept := by
  refine hr.invariant (P := Kept) ?_ ?_
  · rintro _ ⟨now, rfl⟩
    exact ⟨List.Pairwise.nil, by simp [new], by simp [new]⟩
  · intro s q o m' k ha hs
    cases q with
    | call c => exact k.step ha hs
    | addEmpty now a ms recurring =>
      cases hs
      exact k.addTimer ha ms now none recurring

/-! ## The answers of `cancel`, `refresh` and `reset` -/

/-- The answers say whether `t` was pending, an answer false changes nothing, and after an answer true of `reset` the
timer is pending with what it was given. -/
structure Truthful (m : TimerManager κ) (t : Addr) (ms : UInt64) (fromNow : Bool) (now : UInt64) : Prop where
  cancel : (m.cancel t).1 = true ↔ t ∈ m.timers
  cancelFalse : (m.cancel t).1 = false → (m.cancel t).2 = m
  refresh : (m.refresh t now).1 = true ↔ t ∈ m.timers
  refreshFalse : (m.refresh t now).1 = false → (m.refresh t now).2 = m
  reset : (m.reset t ms fromNow now).1 = true ↔ t ∈ m.timers
  resetFalse : (m.reset t ms fromNow now).1 = false → (m.reset t ms fromNow now).2.2 = m
  resetTrue : (m.reset t ms fromNow now).1 = true → t ∈ (m.reset t ms fromNow now).2.2.timers ∧
    ((m.reset t ms fromNow now).2.2.heap t).ms = ms ∧
    ((m.reset t ms fromNow now).2.2.heap t).next =
      (if fromNow then now else (m.heap t).next - (m.heap t).ms) + ms

section
variable {m : TimerManager κ} {t : Addr} {ms now : UInt64} {fromNow : Bool}

/-- A pending timer with a callback is answered for as it should be. -/
theorem truthful_pending (k : m.Kept) (hcb : (m.heap t).cb.isSome = true) : m.Truthful t ms fromNow now := by
  have ht := k.held t hcb
  have hcancel := cancel_hit k.sorted ht hcb
  have hrefresh := refresh_hit k.sorted ht hcb now
  cases hsame : (ms == (m.heap t).ms && !fromNow) with
  | true =>
    have hreset : m.reset t ms fromNow now = (true, false, m) := by rw [TimerManager.reset, if_pos hsame]
    simp only [Bool.and_eq_true, beq_iff_eq, Bool.not_eq_true'] at hsame
    obtain ⟨rfl, rfl⟩ := hsame
    constructor <;> simp [hcancel, hrefresh, hreset, ht]
  | false =>
    have hreset : m.reset t ms fromNow now = (true, m.placeNotify t (resetTo (m.heap t) ms fromNow now)) :=
      reset_hit k.sorted ht hcb hsame
    constructor <;> simp [hcancel, hrefresh, hreset, ht, TimerManager.placeNotify, resetTo, mem_place k.sorted]

/-- A timer that is over is answered for as it should be, but for a `reset` that would change nothing. -/
theorem truthful_over (hcb : (m.heap t).cb.isNone = true) (ht : t ∉ m.timers)
    (hne : (ms == (m.heap t).ms && !fromNow) = false) : m.Truthful t ms fromNow now := by
  have hcancel := cancel_miss hcb
  have hrefresh := refresh_miss hcb now
  have hreset : m.reset t ms fromNow now = (false, false, m) := reset_miss hcb hne
  constructor <;> simp [hcancel, hrefresh, hreset, ht]

end

/-- **When the answers are truthful.** In a reachable manager `cancel`, `refresh` and `reset` answer for a timer as they
should exactly when it is not pending with the empty callback, and the `reset` is not one that keeps the period and the
start of a timer that is not pending. -/
theorem truthful_iff {h : List (Entry (TimerManager κ) (Request κ) (Reply κ))} {m : TimerManager κ}
    (hr : Run (requests κ) h m) {t : Addr} (_ : t ∈ m.created) (ms : UInt64) (fromNow : Bool) (now : UInt64) :
    m.Truthful t ms fromNow now ↔
      (t ∈ m.timers → (m.heap t).cb.isSome = true) ∧ (ms = (m.heap t).ms ∧ fromNow = false → t ∈ m.timers) := by
  have k := run_kept hr
  constructor
  · intro hT
    constructor
    · intro ht
      by_contra hcb
      have hmiss := cancel_miss (m := m) (t := t) (by simpa using hcb)
      have hret := hT.cancel.mpr ht
      rw [hmiss] at hret
      cases hret
    · rintro ⟨rfl, rfl⟩
      exact hT.reset.mp (by simp [TimerManager.reset])
  · rintro ⟨hcb, hsame⟩
    by_cases ht : t ∈ m.timers
    · exact truthful_pending k (hcb ht)
    · have hnone := (k.cases t).resolve_right fun h => ht h.2
      refine truthful_over hnone ht ?_
      by_contra hs
      simp only [Bool.not_eq_false, Bool.and_eq_true, beq_iff_eq, Bool.not_eq_true'] at hs
      exact ht (hsame hs)

/-- A timer of one second is reset to two seconds from now while it is pending. -/
theorem truthful_iff_pending : ∃ h m, Run (requests Nat) h m ∧ m.timers = [4] ∧ m.Truthful 4 2000 true 9 := by
  obtain ⟨h, m, hr, hp⟩ := Run.of_replay (requests Nat) ⟨5, rfl⟩ [.call ⟨6, .addTimer 4 1000 0 false⟩]
    (fun r => decide (r.2.timers = [4] ∧ r.2.created = [4] ∧ (r.2.heap 4).cb.isSome = true)) (by decide)
  simp only [decide_eq_true_eq] at hp
  obtain ⟨htimers, hcreated, hcb⟩ := hp
  refine ⟨h, m, hr, htimers, (truthful_iff hr (by simp [hcreated]) 2000 true 9).mpr ⟨fun _ => hcb, fun hs => ?_⟩⟩
  cases hs.2

/-- A timer of one second is cancelled: `reset(1000, false)` still answers true. -/
theorem truthful_not_cancelled : ¬ ∀ (h : List (Entry (TimerManager Nat) (Request Nat) (Reply Nat)))
    (m : TimerManager Nat), Run (requests Nat) h m →
    ∀ t ∈ m.created, ∀ ms fromNow now, m.Truthful t ms fromNow now := by
  intro hall
  obtain ⟨h, m, hr, hp⟩ := Run.of_replay (requests Nat) ⟨5, rfl⟩
    [.call ⟨6, .addTimer 4 1000 0 false⟩, .call ⟨7, .cancel 4⟩]
    (fun r => decide (r.2.timers = [] ∧ r.2.created = [4] ∧ (r.2.reset 4 1000 false 8).1 = true)) (by decide)
  simp only [decide_eq_true_eq] at hp
  obtain ⟨htimers, hcreated, hreset⟩ := hp
  have hin := (hall h m hr 4 (by simp [hcreated]) 1000 false 8).reset.mp hreset
  rw [htimers] at hin
  cases hin

/-! ## The clock set back -/

/-- The reading a request hands to `detectClockRollover`: that of a call of `listExpiredCb` that finds a timer. -/
def detection (m : TimerManager κ) : Request κ → Option UInt64
  | .call ⟨now, .listExpiredCb _⟩ => if m.timers = [] then none else some now
  | _ => none

/-- The reading of the last call of `listExpiredCb` that came to `detectClockRollover`. -/
def lastDetection (h : List (Entry (TimerManager κ) (Request κ) (Reply κ))) : Option UInt64 :=
  (h.filterMap fun e => e.pre.detection e.inp).getLast?

/-- The call of `listExpiredCb` reports a rollover and returns the callbacks of all pending timers. -/
def ReportsAll (m : TimerManager κ) (now : UInt64) (probe : Addr) : Prop :=
  (m.detectClockRollover now).1 = true ∧
    ∃ m', m.listExpiredCb now probe = .ok (m.timers.map fun t => (t, (m.heap t).cb), m')

section
variable {m m' : TimerManager κ}

theorem cancel_previouseTime (m : TimerManager κ) (t : Addr) : (m.cancel t).2.previouseTime = m.previouseTime := by
  unfold cancel
  split
  · dsimp only
    cases (m.modify t fun x => { x with cb := none }).find t <;> rfl
  · rfl

theorem refresh_previouseTime (m : TimerManager κ) (t : Addr) (now : UInt64) :
    (m.refresh t now).2.previouseTime = m.previouseTime := by
  unfold refresh
  split
  · rfl
  · cases m.find t <;> rfl

theorem reset_previouseTime (m : TimerManager κ) (t : Addr) (ms now : UInt64) (fromNow : Bool) :
    (m.reset t ms fromNow now).2.2.previouseTime = m.previouseTime := by
  unfold reset
  split
  · rfl
  · split
    · rfl
    · cases m.find t <;> rfl

theorem serve_previouseTime {q : Request κ} {r : Reply κ} (k : m.Kept) (hs : m.serve q = .ok (r, m')) :
    m'.previouseTime = (m.detection q).getD m.previouseTime := by
  rcases q with ⟨now, op⟩ | ⟨now, a, ms, recurring⟩
  · cases op with
    | addTimer a ms cb recurring =>
      cases hs
      rfl
    | cancel t =>
      cases hs
      exact cancel_previouseTime m t
    | refresh t =>
      cases hs
      exact refresh_previouseTime m t now
    | reset t ms fromNow =>
      cases hs
      exact reset_previouseTime m t ms now fromNow
    | getNextTimer =>
      simp only [serve, step, getNextTimer_snd, Except.ok.injEq, Prod.mk.injEq] at hs
      obtain ⟨-, rfl⟩ := hs
      rfl
    | listExpiredCb probe =>
      obtain ⟨m₁, he, hl⟩ := listExpiredCb_sorted k.sorted now probe
      simp only [serve, step, he, Except.map, Except.ok.injEq, Prod.mk.injEq] at hs
      obtain ⟨-, rfl⟩ := hs
      rw [hl.previouseTime]
      by_cases hempty : m.timers = [] <;> simp [detection, hempty]
  · cases hs
    rfl

theorem previouseTime_of_lastDetection {h : List (Entry (TimerManager κ) (Request κ) (Reply κ))}
    (hr : Run (requests κ) h m) {prev : UInt64} (hp : lastDetection h = some prev) : m.previouseTime = prev := by
  induction hr with
  | start => cases hp
  | @step h s m' q o hr _ hs ih =>
    rw [serve_previouseTime (run_kept hr) hs]
    unfold lastDetection at hp ih
    rw [List.filterMap_append] at hp
    cases hd : s.detection q with
    | none =>
      simp only [List.filterMap_cons, hd, List.filterMap_nil, List.append_nil] at hp
      exact ih hp
    | some now =>
      simp only [List.filterMap_cons, hd, List.filterMap_nil, List.getLast?_concat, Option.some.injEq] at hp
      exact hp

end

/-- **A clock that was set back is never reported.** Where `listExpiredCb` reads a time more than one hour before the
reading of the last detection, it sees no rollover, and it returns the timers that are due at the new time only. -/
theorem rollback_never {h : List (Entry (TimerManager κ) (Request κ) (Reply κ))} {m : TimerManager κ}
    (hr : Run (requests κ) h m) {prev : UInt64} (hp : lastDetection h = some prev) (_ : m.timers ≠ []) {now : UInt64}
    (hback : now.toNat + 60 * 60 * 1000 < prev.toNat) (probe : Addr) :
    ¬ m.ReportsAll now probe ∧
      ∃ m', m.listExpiredCb now probe =
        .ok ((m.timers.filter fun t => (m.heap t).next ≤ now).map fun t => (t, (m.heap t).cb), m') := by
  have hno : m.rollsOver now = false := by
    rw [rollsOver_eq_false, previouseTime_of_lastDetection hr hp, UInt64.le_iff_toNat_le]
    exact Or.inl (by omega)
  refine ⟨fun hall => ?_, ?_⟩
  · have hroll : m.rollsOver now = true := hall.1
    rw [hno] at hroll
    cases hroll
  · obtain ⟨m', he, -⟩ := listExpiredCb_sorted (run_kept hr).sorted now probe
    have hex : m.expired now = m.timers.filter fun t => (m.heap t).next ≤ now :=
      List.filter_congr fun t _ => by simp [Expires, hno]
    exact ⟨m', by rw [he, hex]⟩

/-- A recurring timer of two hours is listed at six hours, and the clock is set back to four. -/
theorem rollback_never_two_hours : ∃ h m, Run (requests Nat) h m ∧ m.timers = [4] ∧
    lastDetection h = some 21600000 ∧ ¬ m.ReportsAll 14400000 7 := by
  obtain ⟨h, m, hr, hp⟩ := Run.of_replay (requests Nat) ⟨18000000, rfl⟩
    [.call ⟨18000001, .addTimer 4 7200000 0 true⟩, .call ⟨21600000, .listExpiredCb 7⟩]
    (fun r => decide (r.2.timers = [4] ∧ lastDetection r.1 = some 21600000)) (by decide)
  simp only [decide_eq_true_eq] at hp
  exact ⟨h, m, hr, hp.1, hp.2, (rollback_never hr hp.2 (by simp [hp.1]) (by decide) 7).1⟩

/-- The same clock: the call at four hours reports nothing. -/
theorem not_reportsAll_set_back : ¬ ∀ (h : List (Entry (TimerManager Nat) (Request Nat) (Reply Nat)))
    (m : TimerManager Nat) (prev now : UInt64) (probe : Addr), Run (requests Nat) h m → m.timers ≠ [] →
    lastDetection h = some prev → now.toNat + 60 * 60 * 1000 < prev.toNat → m.ReportsAll now probe := by
  intro hall
  obtain ⟨h, m, hr, hp⟩ := Run.of_replay (requests Nat) ⟨18000000, rfl⟩
    [.call ⟨18000001, .addTimer 4 7200000 0 true⟩, .call ⟨21600000, .listExpiredCb 7⟩]
    (fun r => decide (r.2.timers = [4] ∧ lastDetection r.1 = some 21600000 ∧ r.2.rollsOver 14400000 = false))
    (by decide)
  simp only [decide_eq_true_eq] at hp
  obtain ⟨htimers, hlast, hno⟩ := hp
  have hroll : m.rollsOver 14400000 = true :=
    (hall h m 21600000 14400000 7 hr (by simp [htimers]) hlast (by decide)).1
  rw [hno] at hroll
  cases hroll

end QWebServer.TimerManager
