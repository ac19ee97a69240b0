import QWebServer.IOManager.Model
import QWebServer.Timer.Model

/-!
# How long `IOManager::idle` waits

* `clamp` : the assignment to `next_timeout` before `epoll_wait`, `wait` : what `epoll_wait` gets after some calls that
  were interrupted;
* `clamp_clamp` : a call that is interrupted is repeated with the same time;
* `Bounded` : the time is from 0 to 5000 milliseconds and not behind the next timer, `bounded_iff` : when it is.

The time to the next timer is a `uint64_t`; it is cut to `int` where it is compared and where it is used.
-/

namespace QWebServer.IOManager

def MAX_TIMEOUT : UInt64 := 5000

/-- The assignment to `next_timeout`. -/
def clamp (nextTimeout : UInt64) : UInt64 :=
  if nextTimeout ≠ ~~~0 then
    if toInt nextTimeout.toNat > toInt MAX_TIMEOUT.toNat then MAX_TIMEOUT else nextTimeout
  else MAX_TIMEOUT

/-- The argument of `epoll_wait` after `n` calls that returned with `EINTR`. -/
def wait (nextTimeout : UInt64) : Nat → Int
  | 0 => toInt (clamp nextTimeout).toNat
  | n + 1 => wait (clamp nextTimeout) n

/-- The argument of `epoll_wait` in `idle`, where `stopping` has read the time to the next timer. -/
def idleWait {κ : Type} (m : TimerManager κ) (now : UInt64) (n : Nat) : Int := wait (m.getNextTimer now).1 n

/-- **The wait is bounded**: from 0 to 5000, and no longer than up to the next timer. All `n` repetitions are compared
with the one reading of the clock before the first call, as `next_timeout` is not read again. -/
structure Bounded {κ : Type} (m : TimerManager κ) (now : UInt64) (n : Nat) : Prop where
  nonneg : 0 ≤ idleWait m now n
  le_max : idleWait m now n ≤ 5000
  le_next : ∀ t, m.timers.head? = some t → idleWait m now n ≤ ((m.heap t).next.toNat - now.toNat : Nat)

theorem clamp_clamp (v : UInt64) : clamp (clamp v) = clamp v := by
  have hmax : clamp MAX_TIMEOUT = MAX_TIMEOUT := by decide
  by_cases hv : v ≠ ~~~0
  · by_cases hlong : toInt v.toNat > toInt MAX_TIMEOUT.toNat
    · have hc : clamp v = MAX_TIMEOUT := by rw [clamp, if_pos hv, if_pos hlong]
      rw [hc, hmax]
    · have hc : clamp v = v := by rw [clamp, if_pos hv, if_neg hlong]
      rw [hc, hc]
  · have hc : clamp v = MAX_TIMEOUT := by rw [clamp, if_neg hv]
    rw [hc, hmax]

theorem wait_eq (v : UInt64) (n : Nat) : wait v n = toInt (clamp v).toNat := by
  induction n generalizing v with
  | zero => rfl
  | succ n ih => rw [wait, ih, clamp_clamp]

/-- The argument of `epoll_wait`, by the low half of the time to the next timer. -/
theorem toInt_clamp (v : UInt64) :
    toInt (clamp v).toNat = if v = ~~~0 then 5000 else min (toInt v.toNat) 5000 := by
  have hmax : toInt MAX_TIMEOUT.toNat = 5000 := by decide
  by_cases hv : v = ~~~0
  · rw [clamp, if_neg (not_not.mpr hv), if_pos hv, hmax]
  · rw [clamp, if_pos hv, if_neg hv, hmax]
    by_cases hlong : toInt v.toNat > 5000
    · rw [if_pos hlong, hmax]
      omega
    · rw [if_neg hlong]
      omega

theorem toNat_getNextTimer {κ : Type} {m : TimerManager κ} {t : Addr} (ht : m.timers.head? = some t) (now : UInt64) :
    (m.getNextTimer now).1.toNat = (m.heap t).next.toNat - now.toNat := by
  unfold TimerManager.getNextTimer
  cases hl : m.timers with
  | nil =>
    rw [hl] at ht
    cases ht
  | cons front rest =>
    rw [hl] at ht
    obtain rfl : front = t := Option.some.inj ht
    dsimp only
    split_ifs with hdue
    · rw [ge_iff_le, UInt64.le_iff_toNat_le] at hdue
      show 0 = _
      omega
    · rw [ge_iff_le, UInt64.le_iff_toNat_le] at hdue
      rw [UInt64.toNat_sub_of_le _ _ (UInt64.le_iff_toNat_le.mpr (by omega))]

/-- **The wait of `idle` is bounded exactly when there is no timer, or the low half of the time to the next one is not
negative as an `int`.** -/
theorem bounded_iff {κ : Type} (m : TimerManager κ) (now : UInt64) (n : Nat) :
    Bounded m now n ↔ (m.getNextTimer now).1 = ~~~0 ∨ (m.getNextTimer now).1.toNat % 2 ^ 32 < 2 ^ 31 := by
  have hwait : idleWait m now n = _ := (wait_eq _ n).trans (toInt_clamp _)
  generalize hv : (m.getNextTimer now).1 = v at hwait
  have hint := toInt_eq v.toNat
  have htime : ∀ t, m.timers.head? = some t → v.toNat = (m.heap t).next.toNat - now.toNat := by
    intro t ht
    rw [← hv, toNat_getNextTimer ht]
  by_cases hmarker : v = ~~~0
  · rw [if_pos hmarker] at hwait
    refine iff_of_true ⟨by omega, by omega, fun t ht => ?_⟩ (Or.inl hmarker)
    have hbig : v.toNat = 2 ^ 64 - 1 := by rw [hmarker]; rfl
    rw [← htime t ht, hwait]
    omega
  · rw [if_neg hmarker] at hwait
    constructor
    · intro h
      have hnonneg := h.nonneg
      refine Or.inr ?_
      by_contra hneg
      rw [if_neg hneg] at hint
      omega
    · intro h
      have hlow : v.toNat % 2 ^ 32 < 2 ^ 31 := h.resolve_left hmarker
      rw [if_pos hlow] at hint
      refine ⟨by omega, by omega, fun t ht => ?_⟩
      rw [← htime t ht]
      omega

/-- A manager with one timer that is due in 2147483648 milliseconds. -/
def farTimer : TimerManager Nat := ((TimerManager.new 0).addTimer 1 2147483648 (some 0) false 0).2

/-- `epoll_wait` gets -2147483648 for it, and waits without end. -/
theorem not_bounded_far : ¬ ∀ (m : TimerManager Nat) (now : UInt64) (n : Nat), Bounded m now n := by
  intro hall
  have hnonneg := (hall farTimer 0 0).nonneg
  have hwait : idleWait farTimer 0 0 = -2147483648 := by decide +kernel
  rw [hwait] at hnonneg
  omega

end QWebServer.IOManager
