import Mathlib.Data.List.Induction
import Mathlib.Data.List.Infix
import QWebServer.Lib.Run

/-!
# `mutex.h`: the scoped lock guards

* `Guard` : `m_locked`, and how this guard holds its mutex;
* `acquire`, `release` : the calls of the mutex, which must not lock it twice nor unlock what is not held;
* `ScopedLockImpl`, `ReadScopedLockImpl`, `WriteScopedLockImpl` : the constructors and `lock`; `unlock` and the
  destructor are the same in all three;
* `Balanced` : a sequence of calls goes well up to the destructor, `balanced_iff` : when it does.
-/

namespace QWebServer

open Lib

inductive LockFn
  | lock
  | rdlock
  | wrlock
  deriving DecidableEq

/-- A guard: `m_locked`, and the function by which it holds `m_mutex`. -/
structure Guard where
  locked : Bool
  held : Option LockFn
  deriving DecidableEq

/-- A mutex locked by a guard that holds it, or unlocked by one that does not. -/
inductive Guard.Misuse
  | relocked
  | notHeld
  deriving DecidableEq

namespace Guard

/-- `m_mutex.lock()`, `m_mutex.rdlock()` or `m_mutex.wrlock()`. -/
def acquire (f : LockFn) (g : Guard) : Except Misuse Guard :=
  if g.held.isSome then .error .relocked else .ok { g with held := some f }

/-- `m_mutex.unlock()`. -/
def release (g : Guard) : Except Misuse Guard :=
  if g.held.isSome then .ok { g with held := none } else .error .notHeld

/-- The constructors: the mutex is locked, then `m_locked` is set. -/
def construct (f : LockFn) : Guard := { locked := true, held := some f }

/-- `lock` of `ReadScopedLockImpl` and `WriteScopedLockImpl`. -/
def relock (f : LockFn) (g : Guard) : Except Misuse Guard :=
  if !g.locked then do
    let g ← g.acquire f
    return { g with locked := true }
  else .ok g

def unlock (g : Guard) : Except Misuse Guard :=
  if g.locked then do
    let g ← g.release
    return { g with locked := false }
  else .ok g

/-- `ScopedLockImpl::lock`. It does not set `m_locked`. -/
def ScopedLockImpl.lock (g : Guard) : Except Misuse Guard := if !g.locked then g.acquire .lock else .ok g

def ReadScopedLockImpl.lock (g : Guard) : Except Misuse Guard := g.relock .rdlock

def WriteScopedLockImpl.lock (g : Guard) : Except Misuse Guard := g.relock .wrlock

/-- The guards. -/
inductive Impl
  | ScopedLockImpl
  | ReadScopedLockImpl
  | WriteScopedLockImpl
  deriving DecidableEq

def Impl.lockFn : Impl → LockFn
  | ScopedLockImpl => .lock
  | ReadScopedLockImpl => .rdlock
  | WriteScopedLockImpl => .wrlock

def Impl.lock : Impl → Guard → Except Misuse Guard
  | ScopedLockImpl => ScopedLockImpl.lock
  | ReadScopedLockImpl => ReadScopedLockImpl.lock
  | WriteScopedLockImpl => WriteScopedLockImpl.lock

inductive Call
  | lock
  | unlock
  deriving DecidableEq

def Impl.call (i : Impl) (g : Guard) : Call → Except Misuse Guard
  | .lock => i.lock g
  | .unlock => g.unlock

/-- The constructor, and the calls one after the other. -/
def Impl.run (i : Impl) (calls : List Call) : Except Misuse Guard := calls.foldlM i.call (construct i.lockFn)

/-- The whole life of a guard: the calls, and the destructor. -/
def Impl.life (i : Impl) (calls : List Call) : Except Misuse Guard := i.run calls >>= unlock

/-- `m_locked` is true exactly when the guard holds its mutex. -/
def Tracks (g : Guard) : Prop := g.locked = true ↔ g.held.isSome = true

/-- **A balanced guard.** After every beginning of the calls the mutex was not misused and `m_locked` says whether it is
held; after the destructor it is not. -/
structure Balanced (i : Impl) (calls : List Call) : Prop where
  sane : ∀ p, p <+: calls → ∃ g, i.run p = .ok g ∧ g.Tracks
  settled : ∃ g, i.life calls = .ok g ∧ g.held = none

/-! ## One call -/

section
variable {g : Guard}

theorem Tracks.held_eq_none (h : g.Tracks) (hl : g.locked = false) : g.held = none := by
  unfold Tracks at h
  rw [hl] at h
  simpa using h

theorem Tracks.unlock (h : g.Tracks) : g.unlock = .ok { locked := false, held := none } := by
  obtain ⟨locked, held⟩ := g
  cases locked with
  | true =>
    have hs : held.isSome = true := h.mp rfl
    simp [Guard.unlock, release, hs, bind, Except.bind, pure, Except.pure]
  | false =>
    obtain rfl : held = none := h.held_eq_none rfl
    rfl

theorem lock_of_locked (i : Impl) (hl : g.locked = true) : i.lock g = .ok g := by
  cases i with
  | ScopedLockImpl => simp [Impl.lock, ScopedLockImpl.lock, hl]
  | ReadScopedLockImpl => simp [Impl.lock, ReadScopedLockImpl.lock, relock, hl]
  | WriteScopedLockImpl => simp [Impl.lock, WriteScopedLockImpl.lock, relock, hl]

/-- The two guards of a read-write mutex set `m_locked` when they lock again. -/
theorem lock_of_rw {i : Impl} (hi : i ≠ .ScopedLockImpl) :
    i.lock { locked := false, held := none } = .ok (construct i.lockFn) := by
  cases i with
  | ScopedLockImpl => exact absurd rfl hi
  | ReadScopedLockImpl => rfl
  | WriteScopedLockImpl => rfl

theorem tracks_construct (f : LockFn) : (construct f).Tracks := by simp [Tracks, construct]

theorem scoped_lock_locked {g' : Guard} (h : ScopedLockImpl.lock g = .ok g') : g'.locked = g.locked := by
  unfold ScopedLockImpl.lock acquire at h
  split_ifs at h <;> cases h <;> rfl

theorem unlock_locked {g' : Guard} (h : g.unlock = .ok g') : g'.locked = false := by
  unfold Guard.unlock at h
  split_ifs at h with hl
  · obtain ⟨g₀, -, hg⟩ := bind_eq_ok h
    cases hg
    rfl
  · cases h
    simpa using hl

end

/-! ## Sequences of calls -/

theorem run_concat (i : Impl) (p : List Call) (c : Call) : i.run (p ++ [c]) = i.run p >>= fun g => i.call g c := by
  unfold Impl.run
  rw [List.foldlM_append]
  congr 1
  funext g
  rw [List.foldlM_cons]
  cases i.call g c with
  | error => rfl
  | ok g' => rfl

theorem locked_of_unlock_mem {p : List Call} {g : Guard} (h : Impl.ScopedLockImpl.run p = .ok g)
    (hu : Call.unlock ∈ p) : g.locked = false := by
  induction p using List.reverseRecOn generalizing g with
  | nil => cases hu
  | append_singleton p c ih =>
    rw [run_concat] at h
    obtain ⟨g₀, hp, hc⟩ := bind_eq_ok h
    cases c with
    | unlock => exact unlock_locked hc
    | lock =>
      rw [scoped_lock_locked hc]
      exact ih hp (by simpa using hu)

/-- **A sequence without a `lock` behind an `unlock`**, or on a guard of a read-write mutex: it goes well, and
`m_locked` is as the last call that counts left it. -/
theorem run_tracks {i : Impl} {p : List Call}
    (hp : i = .ScopedLockImpl → ∀ a b, p = a ++ .lock :: b → .unlock ∉ a) :
    ∃ g, i.run p = .ok g ∧ g.Tracks ∧ (i = .ScopedLockImpl → .unlock ∉ p → g.locked = true) := by
  induction p using List.reverseRecOn with
  | nil => exact ⟨_, rfl, tracks_construct _, fun _ _ => rfl⟩
  | append_singleton p c ih =>
    obtain ⟨g, hg, htracks, hlocked⟩ := ih fun hi a b he => hp hi a (b ++ [c]) (by rw [he]; simp)
    rw [run_concat, hg]
    cases c with
    | unlock =>
      refine ⟨_, htracks.unlock, by simp [Tracks], fun _ hu => ?_⟩
      exact absurd (List.mem_append_right p (List.mem_singleton_self _)) hu
    | lock =>
      cases hl : g.locked with
      | true => exact ⟨g, lock_of_locked i hl, htracks, fun _ _ => hl⟩
      | false =>
        have hne : i ≠ .ScopedLockImpl := by
          intro hi
          have hu := hp hi p [] rfl
          rw [hlocked hi hu] at hl
          cases hl
        obtain rfl : g = { locked := false, held := none } := by
          rw [← hl, ← htracks.held_eq_none hl]
        exact ⟨_, lock_of_rw hne, tracks_construct _, fun hi => absurd hi hne⟩

/-- **The guards are balanced**, but for a `ScopedLockImpl` that is locked again after it was unlocked: it holds the
mutex then and does not know it. -/
theorem balanced_iff (i : Impl) (calls : List Call) :
    Balanced i calls ↔ (i = .ScopedLockImpl → ∀ a b, calls = a ++ .lock :: b → .unlock ∉ a) := by
  constructor
  · rintro hb rfl a b rfl hu
    obtain ⟨g, hg, htracks⟩ := hb.sane a (List.prefix_append _ _)
    have hl := locked_of_unlock_mem hg hu
    obtain ⟨g', hg', htracks'⟩ := hb.sane (a ++ [.lock]) ⟨b, by simp⟩
    have hstep : Impl.ScopedLockImpl.call g .lock = .ok { g with held := some .lock } := by
      simp [Impl.call, Impl.lock, ScopedLockImpl.lock, acquire, hl, htracks.held_eq_none hl]
    rw [run_concat, hg] at hg'
    obtain rfl := Except.ok.inj (hstep.symm.trans hg')
    have hlocked : g.locked = true := htracks'.mpr rfl
    rw [hl] at hlocked
    cases hlocked
  · intro hc
    constructor
    · rintro p ⟨q, rfl⟩
      obtain ⟨g, hg, htracks, -⟩ := run_tracks (p := p) fun hi a b he => hc hi a (b ++ q) (by rw [he]; simp)
      exact ⟨g, hg, htracks⟩
    · obtain ⟨g, hg, htracks, -⟩ := run_tracks hc
      refine ⟨{ locked := false, held := none }, ?_, rfl⟩
      rw [Impl.life, hg]
      exact htracks.unlock

/-- A `ScopedLockImpl` that is unlocked and locked: the destructor leaves the mutex locked. -/
theorem not_balanced_relock : ¬ ∀ (i : Impl) (calls : List Call), Balanced i calls := by
  intro hall
  obtain ⟨g, hg, hheld⟩ := (hall .ScopedLockImpl [.unlock, .lock]).settled
  have hlife : Impl.ScopedLockImpl.life [.unlock, .lock] = .ok { locked := false, held := some .lock } := rfl
  obtain rfl := Except.ok.inj (hlife.symm.trans hg)
  cases hheld

end Guard

end QWebServer
