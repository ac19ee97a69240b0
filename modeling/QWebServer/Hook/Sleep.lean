import QWebServer.IOManager.Model
import QWebServer.Timer.Model

/-!
# `hook.cpp`: `sleep`, `usleep` and `nanosleep`

* `Timespec`, `Sleep` : the calls with their arguments, `duration` : the milliseconds that are asked for;
* `timeoutMs` : the milliseconds that the hooked functions hand to `addTimer`, through `unsigned`, `long` and `int`;
* `hooked` : a hooked call, up to the timer it arms;
* `ArmsInTime` : the timer is due when it should be, `armsInTime_iff` : when it is.
-/

namespace QWebServer.Hook

open IOManager (toInt)

/-- `timespec`, as `nanosleep` asks for it. -/
structure Timespec where
  sec : Int
  nsec : Int
  sec_nonneg : 0 ≤ sec
  sec_lt : sec < 2 ^ 63
  nsec_nonneg : 0 ≤ nsec
  nsec_lt : nsec < 10 ^ 9

inductive Sleep
  | sleep (seconds : UInt32)
  | usleep (usec : UInt32)
  | nanosleep (req : Timespec)

/-- The requested duration, in whole milliseconds. -/
def Sleep.duration : Sleep → Nat
  | sleep seconds => seconds.toNat * 1000
  | usleep usec => usec.toNat / 1000
  | nanosleep req => req.sec.toNat * 1000 + req.nsec.toNat / 1000000

/-- Undefined behaviour: an overflow of `long`. -/
inductive SleepFault
  | signedOverflow
  deriving DecidableEq

/-- An arithmetic operation in `long`. -/
def long (x : Int) : Except SleepFault Int := if -2 ^ 63 ≤ x ∧ x < 2 ^ 63 then .ok x else .error .signedOverflow

/-- `(int)x`, for a `long`. -/
def intOfLong (x : Int) : Int := x.bmod (2 ^ 32)

def uint64OfInt (x : Int) : UInt64 := UInt64.ofNat (x % 2 ^ 64).toNat

/-- The first argument of `addTimer`. -/
def Sleep.timeoutMs : Sleep → Except SleepFault UInt64
  | sleep seconds => .ok (seconds * 1000).toUInt64
  | usleep usec => .ok (usec / 1000).toUInt64
  | nanosleep req => do
    let ms ← long (req.sec * 1000)
    let ms ← long (ms + (req.nsec.tdiv 1000).tdiv 1000)
    return uint64OfInt (intOfLong ms)

section
variable {κ : Type}

/-- A call in a thread with `t_hook_enable`, up to the timer at the address `a`; else the system sleeps, without a
timer. -/
def hooked (hookEnable : Bool) (m : TimerManager κ) (a : Addr) (cb : κ) (now : UInt64) (s : Sleep) :
    Except SleepFault (Option (TimerManager κ)) :=
  if !hookEnable then .ok none
  else do
    let ms ← s.timeoutMs
    return some (m.addTimer a ms (some cb) false now).2

def ArmsInTime (m : TimerManager κ) (a : Addr) (cb : κ) (now : UInt64) (s : Sleep) : Prop :=
  ∃ m', hooked true m a cb now s = .ok (some m') ∧ (m'.heap a).next.toNat = now.toNat + s.duration

end

/-- The milliseconds of `sleep` are in the range of `unsigned`, those of `nanosleep` in that of `int`. -/
def Sleep.Fits : Sleep → Prop
  | sleep seconds => seconds.toNat ≤ 4294967
  | usleep _ => True
  | nanosleep req => (nanosleep req).duration < 2 ^ 31

/-! ## The milliseconds -/

theorem toNat_uint64OfInt (x : Int) : (uint64OfInt x).toNat = (x % 2 ^ 64).toNat := by
  rw [uint64OfInt, UInt64.toNat_ofNat']
  omega

theorem timeoutMs_sleep (seconds : UInt32) :
    ∃ ms, (Sleep.sleep seconds).timeoutMs = .ok ms ∧ ms.toNat = seconds.toNat * 1000 % 2 ^ 32 := by
  refine ⟨_, rfl, ?_⟩
  rw [UInt32.toNat_toUInt64, UInt32.toNat_mul]
  rfl

theorem timeoutMs_usleep (usec : UInt32) :
    ∃ ms, (Sleep.usleep usec).timeoutMs = .ok ms ∧ ms.toNat = usec.toNat / 1000 := by
  refine ⟨_, rfl, ?_⟩
  rw [UInt32.toNat_toUInt64, UInt32.toNat_div]
  rfl

theorem duration_nanosleep (req : Timespec) :
    ((Sleep.nanosleep req).duration : Int) = req.sec * 1000 + (req.nsec.tdiv 1000).tdiv 1000 := by
  have hsec := req.sec_nonneg
  have hnsec := req.nsec_nonneg
  rw [Int.tdiv_eq_ediv_of_nonneg hnsec, Int.tdiv_eq_ediv_of_nonneg (by omega)]
  show ((req.sec.toNat * 1000 + req.nsec.toNat / 1000000 : Nat) : Int) = _
  omega

/-- **The milliseconds of `nanosleep`**: computed in `long`, and cut to `int`. -/
theorem timeoutMs_nanosleep (req : Timespec) :
    (Sleep.nanosleep req).timeoutMs =
      if (Sleep.nanosleep req).duration < 2 ^ 63 then .ok (uint64OfInt (intOfLong (Sleep.nanosleep req).duration))
      else .error .signedOverflow := by
  have hdur := duration_nanosleep req
  have hsec := req.sec_nonneg
  have hnsec : 0 ≤ (req.nsec.tdiv 1000).tdiv 1000 := Int.tdiv_nonneg (Int.tdiv_nonneg req.nsec_nonneg (by decide))
    (by decide)
  unfold Sleep.timeoutMs
  dsimp only
  by_cases hmul : req.sec * 1000 < 2 ^ 63
  · have h1 : long (req.sec * 1000) = .ok (req.sec * 1000) := if_pos (by omega)
    rw [h1]
    show (long (req.sec * 1000 + (req.nsec.tdiv 1000).tdiv 1000) >>= fun ms => .ok (uint64OfInt (intOfLong ms))) = _
    rw [← hdur]
    split_ifs with hfit
    · rw [long, if_pos (by omega)]
      rfl
    · rw [long, if_neg (by omega)]
      rfl
  · have h1 : long (req.sec * 1000) = .error .signedOverflow := if_neg (by omega)
    rw [h1, if_neg (by omega)]
    rfl

/-! ## The timer -/

section
variable {κ : Type} {m : TimerManager κ} {a : Addr} {cb : κ} {now : UInt64} {s : Sleep}

/-- The timer is due in time exactly when the right milliseconds are handed to `addTimer`. -/
theorem armsInTime_of_ok {ms : UInt64} (hms : s.timeoutMs = .ok ms) (hfit : now.toNat + s.duration < 2 ^ 64) :
    ArmsInTime m a cb now s ↔ ms.toNat = s.duration := by
  have hhooked : hooked true m a cb now s = .ok (some (m.addTimer a ms (some cb) false now).2) := by
    unfold hooked
    rw [hms]
    rfl
  have hnext : ((m.addTimer a ms (some cb) false now).2.heap a).next = ms + now := by
    show ((Function.update m.heap a ⟨false, ms, ms + now, some cb⟩) a).next = ms + now
    rw [Function.update_self]
  have hms64 := ms.toNat_lt
  constructor
  · rintro ⟨m', he, hdue⟩
    obtain rfl := Option.some.inj (Except.ok.inj (hhooked.symm.trans he))
    rw [hnext, UInt64.toNat_add] at hdue
    omega
  · intro h
    refine ⟨_, hhooked, ?_⟩
    rw [hnext, UInt64.toNat_add, h]
    omega

end

/-- **The hooked sleeps arm a timer that is due in time exactly when their milliseconds fit**: in `unsigned` for
`sleep`, in `int` for `nanosleep`, and always for `usleep`. -/
theorem armsInTime_iff {κ : Type} (m : TimerManager κ) (a : Addr) (cb : κ) {now : UInt64} {s : Sleep}
    (hfit : now.toNat + s.duration < 2 ^ 64) : ArmsInTime m a cb now s ↔ s.Fits := by
  cases s with
  | sleep seconds =>
    obtain ⟨ms, hms, htoNat⟩ := timeoutMs_sleep seconds
    rw [armsInTime_of_ok hms hfit, htoNat]
    show seconds.toNat * 1000 % 2 ^ 32 = seconds.toNat * 1000 ↔ seconds.toNat ≤ 4294967
    omega
  | usleep usec =>
    obtain ⟨ms, hms, htoNat⟩ := timeoutMs_usleep usec
    rw [armsInTime_of_ok hms hfit, htoNat]
    exact iff_of_true rfl trivial
  | nanosleep req =>
    have hms := timeoutMs_nanosleep req
    show _ ↔ (Sleep.nanosleep req).duration < 2 ^ 31
    split_ifs at hms with hlong
    · rw [armsInTime_of_ok hms hfit, toNat_uint64OfInt, intOfLong, Int.bmod_def]
      split_ifs <;> omega
    · refine iff_of_false ?_ (by omega)
      rintro ⟨m', he, -⟩
      rw [hooked, hms] at he
      cases he

/-- A sleep of one hour. -/
theorem armsInTime_iff_hour : ArmsInTime (TimerManager.new 0) 4 (0 : Nat) 1000 (.sleep 3600) :=
  (armsInTime_iff (TimerManager.new 0) 4 0 (by decide)).mpr (show (3600 : UInt32).toNat ≤ 4294967 by decide)

/-- `sleep(4294968)`: the timer is due after 704 milliseconds. -/
theorem not_armsInTime_sleep : ¬ ∀ (m : TimerManager Nat) (a : Addr) (cb : Nat) (now : UInt64) (s : Sleep),
    now.toNat + s.duration < 2 ^ 64 → ArmsInTime m a cb now s := by
  intro hall
  obtain ⟨m', he, hdue⟩ := hall (TimerManager.new 0) 4 0 0 (.sleep 4294968) (by decide)
  have harmed : hooked true (TimerManager.new 0) 4 0 0 (.sleep 4294968) =
      .ok (some ((TimerManager.new 0).addTimer 4 704 (some 0) false 0).2) := rfl
  obtain rfl := Option.some.inj (Except.ok.inj (harmed.symm.trans he))
  have hshort : (((TimerManager.new 0).addTimer 4 704 (some 0) false 0).2.heap 4).next.toNat = 704 := rfl
  rw [hshort] at hdue
  revert hdue
  decide

end QWebServer.Hook
