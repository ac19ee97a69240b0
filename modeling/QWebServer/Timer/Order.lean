import Mathlib.Data.List.TakeWhile
import Mathlib.Tactic.SplitIfs
import QWebServer.Timer.Model

/-!
# The timer set stays ordered

`m_timers` is ordered by `m_next`, a field of its own elements. Every operation that changes `m_next` does it while
the timer is out of the set: what it leaves is `place`, a timer taken out, written and inserted again.

* `place_sorted`, `mem_place`, `place_front` : what `place` does to the set;
* `rearm_sorted`, `mem_rearm`, `deliver_eq` : the loop of `listExpiredCb` over what has expired;
* `mem_take_expiredEnd`, `mem_drop_expiredEnd` : what has expired and what has not.
-/

namespace QWebServer

open Lib

/-! ## The comparator -/

theorem Timer.before_some {a b : UInt64} {p q : Nat} :
    Timer.Before (some (a, p)) (some (b, q)) ↔ a.toNat < b.toNat ∨ a.toNat = b.toNat ∧ p < q := by
  simp only [Timer.Before, Timer.Comparator, UInt64.lt_iff_toNat_lt, gt_iff_lt]
  split_ifs with h1 h2
  · simp [h1]
  · simp only [false_iff]
    omega
  · simp only [decide_eq_true_eq]
    omega

instance : IsStrictTotalOrder Timer.Key Timer.Before where
  irrefl a := by
    rcases a with _ | ⟨x, p⟩
    · simp [Timer.Before, Timer.Comparator]
    · simp [Timer.before_some]
  trans a b c hab hbc := by
    rcases a with _ | ⟨x, p⟩ <;> rcases b with _ | ⟨y, q⟩ <;> rcases c with _ | ⟨z, r⟩
    case some.some.some =>
      rw [Timer.before_some] at *
      omega
    all_goals simp_all [Timer.Before, Timer.Comparator]
  trichotomous a b hab hba := by
    rcases a with _ | ⟨x, p⟩ <;> rcases b with _ | ⟨y, q⟩
    · rfl
    · simp [Timer.Before, Timer.Comparator] at hab
    · simp [Timer.Before, Timer.Comparator] at hba
    · rw [Timer.before_some] at hab hba
      obtain ⟨hx, hp⟩ : x.toNat = y.toNat ∧ p = q := by omega
      rw [UInt64.toNat_inj.mp hx, hp]

namespace TimerManager

variable {κ : Type}

def Sorted (m : TimerManager κ) : Prop := OrderedSet.Sorted Timer.Before m.key m.timers

theorem key_ne {m : TimerManager κ} {t u : Addr} (h : t ≠ u) : m.key t ≠ m.key u := by
  intro he
  simp only [key, Option.some.injEq, Prod.mk.injEq] at he
  exact h he.2

theorem key_modify_of_ne {m : TimerManager κ} {t u : Addr} {f : Timer κ → Timer κ} (h : u ≠ t) :
    (m.modify t f).key u = m.key u := by
  simp [key, modify, h]

theorem Sorted.find {m : TimerManager κ} (hs : m.Sorted) {t : Addr} (ht : t ∈ m.timers) :
    ∃ it, m.find t = some it ∧ m.timers[it]? = some t ∧ m.timers.eraseIdx it = m.timers.erase t :=
  OrderedSet.find_mem hs ht

/-! ## A timer taken out, written and inserted again -/

/-- The timer at `t` is taken out of the set, becomes `x` and is inserted. -/
def place (m : TimerManager κ) (t : Addr) (x : Timer κ) : TimerManager κ :=
  let m := { m with heap := Function.update m.heap t x, timers := m.timers.erase t }
  { m with timers := (m.insert t).1 }

/-- The manager `place` inserts into. -/
def lifted (m : TimerManager κ) (t : Addr) (x : Timer κ) : TimerManager κ :=
  { m with heap := Function.update m.heap t x, timers := m.timers.erase t }

theorem lifted_sorted {m : TimerManager κ} (hs : m.Sorted) (t : Addr) (x : Timer κ) : (m.lifted t x).Sorted := by
  refine (OrderedSet.Sorted.erase hs t).congr fun u hu => ?_
  have hne : u ≠ t := fun he => hs.nodup.not_mem_erase (he ▸ hu)
  simp [key, lifted, hne]

theorem lifted_key_ne {m : TimerManager κ} (hs : m.Sorted) (t : Addr) (x : Timer κ) :
    ∀ u ∈ (m.lifted t x).timers, (m.lifted t x).key u ≠ (m.lifted t x).key t :=
  fun _ hu => key_ne fun he => hs.nodup.not_mem_erase (he ▸ hu)

theorem place_sorted {m : TimerManager κ} (hs : m.Sorted) (t : Addr) (x : Timer κ) : (m.place t x).Sorted :=
  OrderedSet.sorted_insert (lifted_sorted hs t x) (lifted_key_ne hs t x)

theorem mem_place {m : TimerManager κ} (hs : m.Sorted) {t u : Addr} {x : Timer κ} :
    u ∈ (m.place t x).timers ↔ u = t ∨ u ∈ m.timers := by
  have h : u ∈ (m.place t x).timers ↔ u = t ∨ u ∈ m.timers.erase t :=
    OrderedSet.mem_insert (lifted_key_ne hs t x)
  rw [h, hs.nodup.mem_erase_iff]
  by_cases he : u = t <;> simp [he]

@[simp] theorem place_heap (m : TimerManager κ) (t : Addr) (x : Timer κ) :
    (m.place t x).heap = Function.update m.heap t x := rfl

@[simp] theorem place_tickled (m : TimerManager κ) (t : Addr) (x : Timer κ) : (m.place t x).tickled = m.tickled := rfl

/-- The insertion of `place` is at the front exactly when every other timer is after the one placed. -/
theorem place_front {m : TimerManager κ} (hs : m.Sorted) {t : Addr} {x : Timer κ} :
    ((m.lifted t x).insert t).2 = 0 ↔
      ∀ u ∈ m.timers, u ≠ t → Timer.Before (some (x.next, t)) (m.key u) := by
  have h : ((m.lifted t x).insert t).2 = 0 ↔
      ∀ u ∈ m.timers.erase t, Timer.Before ((m.lifted t x).key t) ((m.lifted t x).key u) :=
    OrderedSet.insert_front (lifted_sorted hs t x) (lifted_key_ne hs t x)
  rw [h]
  have hk : (m.lifted t x).key t = some (x.next, t) := by simp [key, lifted]
  constructor
  · intro hall u hu hne
    have := hall u (hs.nodup.mem_erase_iff.mpr ⟨hne, hu⟩)
    rw [hk] at this
    simpa [key, lifted, hne] using this
  · intro hall u hu
    obtain ⟨hne, hu⟩ := hs.nodup.mem_erase_iff.mp hu
    rw [hk]
    simpa [key, lifted, hne] using hall u hu hne

/-! ## The loop of `listExpiredCb` -/

/-- What the loop of `listExpiredCb` makes of an expired timer. -/
def rearmed (now : UInt64) (x : Timer κ) : Timer κ :=
  if x.recurring then { x with next := x.ms + now } else { x with cb := none }

@[simp] theorem rearm_heap (m : TimerManager κ) (now : UInt64) (t : Addr) :
    (m.rearm now t).heap = Function.update m.heap t (rearmed now (m.heap t)) := by
  unfold rearm rearmed
  split_ifs <;> rfl

@[simp] theorem rearm_created (m : TimerManager κ) (now : UInt64) (t : Addr) :
    (m.rearm now t).created = m.created := by
  unfold rearm
  split_ifs <;> rfl

@[simp] theorem rearm_tickled (m : TimerManager κ) (now : UInt64) (t : Addr) :
    (m.rearm now t).tickled = m.tickled := by
  unfold rearm
  split_ifs <;> rfl

@[simp] theorem rearm_previouseTime (m : TimerManager κ) (now : UInt64) (t : Addr) :
    (m.rearm now t).previouseTime = m.previouseTime := by
  unfold rearm
  split_ifs <;> rfl

theorem rearm_recurring {m : TimerManager κ} {now : UInt64} {t : Addr} (hr : (m.heap t).recurring = true)
    (ht : t ∉ m.timers) : m.rearm now t = m.place t (rearmed now (m.heap t)) := by
  simp [rearm, place, rearmed, hr, modify, List.erase_of_not_mem ht]

theorem rearm_sorted {m : TimerManager κ} (hs : m.Sorted) {now : UInt64} {t : Addr} (ht : t ∉ m.timers) :
    (m.rearm now t).Sorted := by
  cases hr : (m.heap t).recurring with
  | true =>
    rw [rearm_recurring hr ht]
    exact place_sorted hs t _
  | false =>
    have he : m.rearm now t = m.modify t fun x => { x with cb := none } := by simp [rearm, hr]
    rw [he]
    refine OrderedSet.Sorted.congr hs fun u hu => key_modify_of_ne ?_
    rintro rfl
    exact ht hu

theorem mem_rearm {m : TimerManager κ} (hs : m.Sorted) {now : UInt64} {t u : Addr} (ht : t ∉ m.timers) :
    u ∈ (m.rearm now t).timers ↔ u = t ∧ (m.heap t).recurring = true ∨ u ∈ m.timers := by
  cases hr : (m.heap t).recurring with
  | true =>
    rw [rearm_recurring hr ht, mem_place hs]
    simp
  | false =>
    have he : m.rearm now t = m.modify t fun x => { x with cb := none } := by simp [rearm, hr]
    rw [he]
    simp [modify]

/-- **The loop of `listExpiredCb`** on expired timers taken out of a sorted set. -/
theorem deliver_eq (now : UInt64) : ∀ (ex : List Addr) (m : TimerManager κ), m.Sorted → ex.Nodup →
    (∀ t ∈ ex, t ∉ m.timers) →
    (deliver now ex m).1 = ex.map (fun t => (t, (m.heap t).cb)) ∧ (deliver now ex m).2.Sorted ∧
      (∀ u, (deliver now ex m).2.heap u = if u ∈ ex then rearmed now (m.heap u) else m.heap u) ∧
      (∀ u, u ∈ (deliver now ex m).2.timers ↔ u ∈ ex ∧ (m.heap u).recurring = true ∨ u ∈ m.timers) ∧
      (deliver now ex m).2.created = m.created ∧ (deliver now ex m).2.tickled = m.tickled ∧
      (deliver now ex m).2.previouseTime = m.previouseTime
  | [], m, hs, _, _ => by simp [deliver, hs]
  | t :: ex, m, hs, hn, hd => by
    have ht : t ∉ m.timers := hd t (by simp)
    obtain ⟨htex, hn⟩ := List.nodup_cons.mp hn
    have hne : ∀ u ∈ ex, u ≠ t := fun u hu he => htex (he ▸ hu)
    obtain ⟨h1, h2, h3, h4, h5, h6, h7⟩ := deliver_eq now ex (m.rearm now t) (rearm_sorted hs ht) hn (by
      intro u hu hm
      rcases (mem_rearm hs ht).mp hm with ⟨he, -⟩ | hm
      · exact hne u hu he
      · exact hd u (by simp [hu]) hm)
    refine ⟨?_, h2, fun u => ?_, fun u => ?_, by rw [deliver, h5, rearm_created], by rw [deliver, h6, rearm_tickled],
      by rw [deliver, h7, rearm_previouseTime]⟩
    · rw [deliver, h1, List.map_cons]
      dsimp only
      congr 1
      refine List.map_congr_left fun u hu => ?_
      rw [rearm_heap, Function.update_of_ne (hne u hu)]
    · rw [deliver, h3, rearm_heap]
      by_cases he : u = t
      · subst he
        simp [htex]
      · simp [he]
    · rw [deliver, h4, mem_rearm hs ht, rearm_heap]
      by_cases he : u = t
      · subst he
        simp [htex, ht]
      · simp [he]

/-! ## The cut of `listExpiredCb` -/

theorem mem_take_expiredEnd {m : TimerManager κ} {now : UInt64} {probe : Addr} {t : Addr}
    (ht : t ∈ m.timers.take (m.expiredEnd now probe)) : (m.heap t).next ≤ now := by
  unfold expiredEnd at ht
  dsimp only at ht
  rw [List.take_add, List.mem_append] at ht
  rcases ht with ht | ht
  · have := OrderedSet.take_lowerBound t ht
    simp only [key] at this
    rw [Timer.before_some] at this
    rw [UInt64.le_iff_toNat_le]
    omega
  · rw [← List.prefix_iff_eq_take.mp (List.takeWhile_prefix _)] at ht
    have := List.mem_takeWhile_imp ht
    simp only [beq_iff_eq] at this
    rw [this]
    exact UInt64.le_refl _

theorem mem_drop_expiredEnd {m : TimerManager κ} (hs : m.Sorted) {now : UInt64} {probe : Addr} {t : Addr}
    (ht : t ∈ m.timers.drop (m.expiredEnd now probe)) : now < (m.heap t).next := by
  have hmono : m.timers.Pairwise fun a b => (m.heap a).next.toNat ≤ (m.heap b).next.toNat := by
    refine List.Pairwise.imp (fun {a b} hab => ?_) hs
    have := Timer.before_some.mp hab
    omega
  have hle : ∀ u ∈ m.timers.drop (OrderedSet.lowerBound Timer.Before m.key (some (now, probe)) m.timers),
      now.toNat ≤ (m.heap u).next.toNat := by
    intro u hu
    have := OrderedSet.drop_lowerBound hs u hu
    rw [key, Timer.before_some] at this
    omega
  unfold expiredEnd at ht
  dsimp only at ht
  rw [← List.drop_drop] at ht
  have hb : (fun u => (m.heap u).next == now) = fun u => (m.heap u).next.toNat == now.toNat := by
    funext u
    rw [Bool.eq_iff_iff, beq_iff_eq, beq_iff_eq, UInt64.toNat_inj]
  rw [hb] at ht
  exact OrderedSet.lt_of_mem_drop_takeWhile (fun u => (m.heap u).next.toNat) (hmono.sublist (List.drop_sublist _ _)) hle
    t ht

end TimerManager

end QWebServer
