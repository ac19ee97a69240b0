import Mathlib.Data.List.Range
import Mathlib.Logic.Function.Basic
import QWebServer.Lib.Run

/-!
# `thread.cpp` and `Schedular::start`: threads that are started under a lock

* `Thread` : the object, with its semaphore; `Thread.construct` : the fields before `pthread_create`;
* `Kid` : where a new thread is in `Thread::run` and then in `Schedular::run`, and its own variables;
* `Main` : where the caller is in `Schedular::start`, which holds `m_mutex` while it constructs the threads one after
  the other and waits in each constructor for the new thread;
* `Starting`, `step` : a step of the caller or of a new thread, where every access to an object is a step of its own;
* `Inv` : what the object of a thread and its variables are, by the place where the thread is;
* `starts` : no new thread scans before `start` is over, `start` comes to its end, `m_threadIds` are the ids of the
  threads then, and nobody changes an object whose constructor has returned.
-/

namespace QWebServer

open Lib

/-- `Thread`; `handle` tells whether `m_thread` is set, and the semaphore is its count. -/
structure Thread (κ : Type) where
  id : Int := -1
  handle : Bool := false
  cb : Option κ
  name : List Char
  semaphore : Nat := 0

def Thread.construct {κ : Type} (cb : κ) (name : List Char) : Thread κ :=
  { cb := some cb, name := if name.isEmpty then "UNKNOW".toList else name }

namespace Starting

/-- Where a new thread is: it is not there; in `Thread::run` before it sets `t_thread`, `t_thread_name`, `m_id` and the
name that the system shows, before it takes `m_cb`, and before `notify`; in `Schedular::run` without a lock, and in its
scan; and at its end. It dangles when its object has been freed before `notify`. -/
inductive Stage
  | absent
  | setThis
  | setName
  | setId
  | setTitle
  | takeCb
  | notify
  | run
  | scan
  | ended
  | dangling
  deriving DecidableEq

/-- The object of the thread is freed. -/
def Stage.orphan : Stage → Stage
  | .run => .run
  | .scan => .scan
  | .ended => .ended
  | _ => .dangling

/-- A new thread: `t_thread`, `t_thread_name`, the name that the system shows, and the local variable `cb`. -/
structure Kid (κ : Type) where
  stage : Stage := .absent
  this : Option Nat := none
  threadName : List Char := "UNKNOW".toList
  title : List Char := []
  cb : Option κ := none

/-- Where the caller is in `start`: before the lock, before the test of `m_stopping`, before the constructor of the
thread `i`, in its `wait`, before `getId`, before `unlock`, before the unlocking by the guard when a constructor has
thrown, and when `start` has returned or thrown. -/
inductive Main
  | lock
  | test
  | create (i : Nat)
  | wait (i : Nat)
  | record (i : Nat)
  | unlock
  | unwind
  | returned
  | threw
  deriving DecidableEq

inductive Owner
  | main
  | kid (i : Nat)
  deriving DecidableEq

end Starting

/-- The scheduler as it is started: `m_mutex`, `m_stopping`, `m_threads`, `m_threadIds`, the caller and the threads. -/
structure Starting (κ : Type) where
  mutex : Option Starting.Owner := none
  stopping : Bool := true
  threads : Nat → Option (Thread κ) := fun _ => none
  threadIds : List Int := []
  main : Starting.Main := .lock
  kids : Nat → Starting.Kid κ := fun _ => {}

namespace Starting

/-- A scheduler: `m_threadCount`, `m_name`, the callback `Schedular::run`, the ids that the threads get, and with
`use_caller` the id of the thread that constructed it. -/
structure Setup (κ : Type) where
  threadCount : Nat
  name : List Char
  run : κ
  ids : Nat → Int
  rootThread : Option Int

variable {κ : Type}

def Setup.nameOf (c : Setup κ) (i : Nat) : List Char := c.name ++ '_' :: Nat.toDigits 10 i

/-- The labels: a step of the caller, where `ok` tells whether `pthread_create` or `sem_wait` succeeds, and a step of a
new thread, where `again` tells whether the loop of `Schedular::run` goes on. -/
inductive Label
  | main (ok : Bool)
  | kid (i : Nat) (again : Bool)
  deriving DecidableEq

def setKid (s : Starting κ) (i : Nat) (k : Kid κ) : Starting κ := { s with kids := Function.update s.kids i k }

def onThread (s : Starting κ) (i : Nat) (f : Thread κ → Thread κ) : Starting κ :=
  { s with threads := Function.update s.threads i ((s.threads i).map f) }

/-- The caller can go on: `lock` waits for the mutex, and `wait` for the semaphore, if it does not fail. -/
def MainReady (s : Starting κ) (ok : Bool) : Prop :=
  match s.main with
  | .lock => s.mutex = none
  | .wait i => ok = true → ∃ x, s.threads i = some x ∧ 0 < x.semaphore
  | .returned | .threw => False
  | _ => True

/-- The thread `i` can go on: only its scan waits for the mutex. -/
def KidReady (s : Starting κ) (i : Nat) (again : Bool) : Prop :=
  match (s.kids i).stage with
  | .absent | .ended | .dangling => False
  | .run => again = true → s.mutex = none
  | _ => True

def Ready (s : Starting κ) : Label → Prop
  | .main ok => s.MainReady ok
  | .kid i again => s.KidReady i again

instance (s : Starting κ) (ok : Bool) : Decidable (s.MainReady ok) :=
  match hpc : s.main with
  | .lock => decidable_of_iff (s.mutex = none) (by simp [MainReady, hpc])
  | .wait i => decidable_of_iff (ok = true → ∃ x ∈ s.threads i, 0 < x.semaphore) (by simp [MainReady, hpc])
  | .returned => isFalse (by simp [MainReady, hpc])
  | .threw => isFalse (by simp [MainReady, hpc])
  | .test | .create _ | .record _ | .unlock | .unwind => isTrue (by simp [MainReady, hpc])

instance (s : Starting κ) (i : Nat) (again : Bool) : Decidable (s.KidReady i again) :=
  match hst : (s.kids i).stage with
  | .absent => isFalse (by simp [KidReady, hst])
  | .ended => isFalse (by simp [KidReady, hst])
  | .dangling => isFalse (by simp [KidReady, hst])
  | .run => decidable_of_iff (again = true → s.mutex = none) (by simp [KidReady, hst])
  | .setThis | .setName | .setId | .setTitle | .takeCb | .notify | .scan => isTrue (by simp [KidReady, hst])

/-- The next step of the caller, in `Schedular::start` and in the constructor of `Thread`. -/
def mainStep (c : Setup κ) (s : Starting κ) (ok : Bool) : Starting κ :=
  match s.main with
  | .lock => { s with mutex := some .main, main := .test }
  | .test => if s.stopping then { s with stopping := false, main := .create 0 } else { s with main := .unlock }
  | .create i =>
    if i < c.threadCount then
      let x := Thread.construct c.run (c.nameOf i)
      if ok then
        { s with
          threads := Function.update s.threads i (some { x with handle := true })
          kids := Function.update s.kids i { stage := .setThis }
          main := .wait i }
      else { s with main := .unwind }
    else { s with main := .unlock }
  | .wait i =>
    if ok then { s.onThread i (fun x => { x with semaphore := x.semaphore - 1 }) with main := .record i }
    else
      { s with
        threads := Function.update s.threads i none
        kids := Function.update s.kids i { s.kids i with stage := (s.kids i).stage.orphan }
        main := .unwind }
  | .record i =>
    { s with threadIds := s.threadIds ++ ((s.threads i).map (·.id)).toList, main := .create (i + 1) }
  | .unlock => { s with mutex := none, main := .returned }
  | .unwind => { s with mutex := none, main := .threw }
  | .returned | .threw => s

/-- The next step of the thread `i`, in `Thread::run` and in `Schedular::run`. -/
def kidStep (c : Setup κ) (s : Starting κ) (i : Nat) (again : Bool) : Starting κ :=
  let k := s.kids i
  match k.stage with
  | .absent | .ended | .dangling => s
  | .setThis => s.setKid i { k with stage := .setName, this := some i }
  | .setName => s.setKid i { k with stage := .setId, threadName := ((s.threads i).map (·.name)).getD k.threadName }
  | .setId => (s.onThread i fun x => { x with id := c.ids i }).setKid i { k with stage := .setTitle }
  | .setTitle => s.setKid i { k with stage := .takeCb, title := ((s.threads i).map (·.name.take 15)).getD k.title }
  | .takeCb =>
    (s.onThread i fun x => { x with cb := k.cb }).setKid i { k with stage := .notify, cb := (s.threads i).bind (·.cb) }
  | .notify => (s.onThread i fun x => { x with semaphore := x.semaphore + 1 }).setKid i { k with stage := .run }
  | .run =>
    if again then { s with mutex := some (.kid i) }.setKid i { k with stage := .scan }
    else s.setKid i { k with stage := .ended }
  | .scan => { s with mutex := none }.setKid i { k with stage := .run }

def step (c : Setup κ) (s : Starting κ) : Label → Starting κ
  | .main ok => s.mainStep c ok
  | .kid i again => s.kidStep c i again

/-- `start`, called for a scheduler that was not started, and the threads. -/
def machine (c : Setup κ) : Machine (Starting κ) Label Unit Empty where
  init s := s = { threadIds := c.rootThread.toList }
  enabled := Ready
  step s l := .ok ((), s.step c l)

instance (c : Setup κ) (s : Starting κ) : (l : Label) → Decidable ((machine c).enabled s l)
  | .main ok => inferInstanceAs (Decidable (s.MainReady ok))
  | .kid i again => inferInstanceAs (Decidable (s.KidReady i again))

/-! ## The object of a thread, by the place where the thread is -/

/-- The steps of `Thread::run` up to `notify`, counted. -/
def Stage.level : Stage → Nat
  | .absent | .dangling => 0
  | .setThis => 1
  | .setName => 2
  | .setId => 3
  | .setTitle => 4
  | .takeCb => 5
  | .notify => 6
  | .run | .scan | .ended => 7

/-- The object of the thread `i` and its variables; `waits` tells whether the constructor waits. -/
structure Fits (c : Setup κ) (i : Nat) (waits : Bool) (x : Thread κ) (k : Kid κ) : Prop where
  present : 1 ≤ k.stage.level
  told : k.stage.level < 7 → waits = true
  name : x.name = c.nameOf i
  handle : x.handle = true
  id : x.id = if k.stage.level ≤ 3 then -1 else c.ids i
  cb : x.cb = if k.stage.level ≤ 5 then some c.run else none
  semaphore : x.semaphore = if waits = true ∧ k.stage.level = 7 then 1 else 0
  this : k.this = if k.stage.level ≤ 1 then none else some i
  threadName : k.threadName = if k.stage.level ≤ 2 then "UNKNOW".toList else c.nameOf i
  title : k.title = if k.stage.level ≤ 4 then [] else (c.nameOf i).take 15
  taken : k.cb = if k.stage.level ≤ 5 then none else some c.run

/-- A constructor has thrown. -/
def Main.failed : Main → Bool
  | .unwind | .threw => true
  | _ => false

def Main.waits (m : Main) (i : Nat) : Bool := m = .wait i

/-- A thread without an object is not there yet, or its constructor has thrown. -/
def Placed (c : Setup κ) (m : Main) (i : Nat) : Option (Thread κ) → Kid κ → Prop
  | none, k => k.stage = .absent ∨ m.failed = true ∧ k.stage = k.stage.orphan
  | some x, k => Fits c i (m.waits i) x k

/-- The first `a` threads have objects, and the ids of the first `b` are recorded. -/
def Made (c : Setup κ) (s : Starting κ) (a b : Nat) : Prop :=
  (∀ j, (s.threads j).isSome = true ↔ j < a) ∧ s.threadIds = c.rootThread.toList ++ (List.range b).map c.ids

/-- How far `start` has come. -/
def Reached (c : Setup κ) (s : Starting κ) : Prop :=
  match s.main with
  | .lock | .test => s.stopping = true ∧ Made c s 0 0
  | .create i => i ≤ c.threadCount ∧ Made c s i i
  | .wait i | .record i => i < c.threadCount ∧ Made c s (i + 1) i
  | .unlock | .returned => Made c s c.threadCount c.threadCount
  | .unwind | .threw => ∃ i < c.threadCount, Made c s i i

def Main.holds : Main → Bool
  | .lock | .returned | .threw => false
  | _ => true

structure Inv (c : Setup κ) (s : Starting κ) : Prop where
  mutexMain : s.mutex = some .main ↔ s.main.holds = true
  mutexKid : ∀ i, s.mutex = some (.kid i) ↔ (s.kids i).stage = .scan
  reached : Reached c s
  placed : ∀ i, Placed c s.main i (s.threads i) (s.kids i)

variable {c : Setup κ} {s s' : Starting κ} {i : Nat}

theorem Setup.nameOf_ne_nil (c : Setup κ) (i : Nat) : (c.nameOf i).isEmpty = false := by
  simp [Setup.nameOf]

theorem Fits.level_eq {x : Thread κ} {k : Kid κ} (hf : Fits c i false x k) : k.stage.level = 7 := by
  have hle : k.stage.level ≤ 7 := by cases k.stage <;> decide
  have htold := hf.told
  by_contra hne
  exact absurd (htold (by omega)) nofun

/-- The caller goes on, and the constructor of the thread does not wait before and after. -/
theorem Placed.congr {m m' : Main} {o : Option (Thread κ)} {k : Kid κ} (h : Placed c m i o k)
    (hwaits : m'.waits i = m.waits i) (hfailed : m.failed = true → m'.failed = true) : Placed c m' i o k := by
  cases o with
  | none => exact h.imp_right fun hk => ⟨hfailed hk.1, hk.2⟩
  | some x =>
    unfold Placed at h ⊢
    rwa [hwaits]

theorem Inv.absent_of (hi : Inv c s) (hx : s.threads i = none) (hm : s.main.failed = false) :
    (s.kids i).stage = .absent := by
  have hplaced := hi.placed i
  rw [hx] at hplaced
  rcases hplaced with habsent | ⟨hfailed, -⟩
  · exact habsent
  · rw [hm] at hfailed
    cases hfailed

/-! ## The steps of the caller -/

/-- A step of the caller that makes no object and waits for none. -/
theorem Inv.advance (hi : Inv c s) (hmutex : s'.mutex = some .main ↔ s'.main.holds = true)
    (hkid : ∀ i, s'.mutex = some (.kid i) ↔ s.mutex = some (.kid i)) (hreached : Reached c s')
    (hthreads : s'.threads = s.threads) (hkids : s'.kids = s.kids) (hwaits : ∀ i, s'.main.waits i = s.main.waits i)
    (hfailed : s.main.failed = true → s'.main.failed = true) : Inv c s' where
  mutexMain := hmutex
  mutexKid i := by rw [hkid, hkids, hi.mutexKid]
  reached := hreached
  placed i := by
    rw [hthreads, hkids]
    exact (hi.placed i).congr (hwaits i) hfailed

/-- `pthread_create` succeeds: the new thread starts, and the constructor waits. -/
theorem Inv.create (hi : Inv c s) (hpc : s.main = .create i) (hlt : i < c.threadCount) :
    Inv c { s with
      threads := Function.update s.threads i (some { Thread.construct c.run (c.nameOf i) with handle := true })
      kids := Function.update s.kids i { stage := .setThis }
      main := .wait i } := by
  obtain ⟨-, hmade⟩ : i ≤ c.threadCount ∧ Made c s i i := by simpa [Reached, hpc] using hi.reached
  have habsent : (s.kids i).stage = .absent := by
    have hnone : s.threads i = none := by simpa using (hmade.1 i).not.mpr (lt_irrefl i)
    exact hi.absent_of hnone (by rw [hpc]; rfl)
  constructor
  · simpa [Main.holds, hpc] using hi.mutexMain
  · intro j
    have hkid := hi.mutexKid j
    by_cases hj : j = i
    · subst hj
      rw [habsent] at hkid
      simpa using hkid
    · simpa [Function.update_of_ne hj] using hkid
  · refine ⟨hlt, fun j => ?_, hmade.2⟩
    have hj := hmade.1 j
    by_cases hji : j = i
    · subst hji
      simp
    · simp only [Function.update_of_ne hji]
      rw [hj]
      omega
  · intro j
    by_cases hj : j = i
    · subst hj
      simp only [Function.update_self]
      constructor <;> simp [Stage.level, Main.waits, Thread.construct, Setup.nameOf_ne_nil]
    · simp only [Function.update_of_ne hj]
      exact (hi.placed j).congr (by simp [Main.waits, Ne.symm hj, hpc]) (by simp [Main.failed, hpc])

theorem Inv.told (hi : Inv c s) (hpc : s.main = .wait i) {x : Thread κ} (hx : s.threads i = some x)
    (hpos : 0 < x.semaphore) :
    Inv c { s.onThread i (fun x => { x with semaphore := x.semaphore - 1 }) with main := .record i } := by
  obtain ⟨hlt, hmade⟩ : i < c.threadCount ∧ Made c s (i + 1) i := by simpa [Reached, hpc] using hi.reached
  have hfits : Fits c i true x (s.kids i) := by simpa [hx, hpc, Main.waits, Placed] using hi.placed i
  have hlevel : (s.kids i).stage.level = 7 := by
    by_contra hne
    rw [hfits.semaphore, if_neg fun h => hne h.2] at hpos
    exact lt_irrefl 0 hpos
  constructor
  · simpa [onThread, Main.holds, hpc] using hi.mutexMain
  · exact hi.mutexKid
  · refine ⟨hlt, fun j => ?_, hmade.2⟩
    rw [← hmade.1 j]
    by_cases hj : j = i
    · subst hj
      simp [onThread]
    · simp [onThread, Function.update_of_ne hj]
  · intro j
    by_cases hj : j = i
    · subst hj
      simp only [onThread, Function.update_self, hx, Option.map_some]
      exact { hfits with
        told := fun h => absurd hlevel (Nat.ne_of_lt h)
        semaphore := by simp [hfits.semaphore, hlevel, Main.waits] }
    · simp only [onThread, Function.update_of_ne hj]
      exact (hi.placed j).congr (by simp [Main.waits, Ne.symm hj, hpc]) (by simp [Main.failed, hpc])

theorem Stage.orphan_orphan (o : Stage) : o.orphan.orphan = o.orphan := by
  cases o <;> rfl

theorem Stage.orphan_eq_scan {o : Stage} : o.orphan = .scan ↔ o = .scan := by
  cases o <;> decide

/-- `sem_wait` fails: the exception frees the object that the constructor has not finished. -/
theorem Inv.broken (hi : Inv c s) (hpc : s.main = .wait i) :
    Inv c { s with
      threads := Function.update s.threads i none
      kids := Function.update s.kids i { s.kids i with stage := (s.kids i).stage.orphan }
      main := .unwind } := by
  obtain ⟨hlt, hmade⟩ : i < c.threadCount ∧ Made c s (i + 1) i := by simpa [Reached, hpc] using hi.reached
  constructor
  · simpa [Main.holds, hpc] using hi.mutexMain
  · intro j
    have hkid := hi.mutexKid j
    by_cases hj : j = i
    · subst hj
      simpa [Stage.orphan_eq_scan] using hkid
    · simpa [Function.update_of_ne hj] using hkid
  · refine ⟨i, hlt, fun j => ?_, hmade.2⟩
    have hj := hmade.1 j
    by_cases hji : j = i
    · subst hji
      simp
    · simp only [Function.update_of_ne hji]
      rw [hj]
      omega
  · intro j
    by_cases hj : j = i
    · subst hj
      simp only [Function.update_self]
      exact .inr ⟨rfl, (Stage.orphan_orphan _).symm⟩
    · simp only [Function.update_of_ne hj]
      exact (hi.placed j).congr (by simp [Main.waits, Ne.symm hj, hpc]) (by simp [Main.failed, hpc])

theorem Inv.record (hi : Inv c s) (hpc : s.main = .record i) :
    Inv c { s with threadIds := s.threadIds ++ ((s.threads i).map (·.id)).toList, main := .create (i + 1) } := by
  obtain ⟨hlt, hmade⟩ : i < c.threadCount ∧ Made c s (i + 1) i := by simpa [Reached, hpc] using hi.reached
  obtain ⟨x, hx⟩ := Option.isSome_iff_exists.mp ((hmade.1 i).mpr (Nat.lt_succ_self i))
  have hfits : Fits c i false x (s.kids i) := by simpa [hx, hpc, Main.waits, Placed] using hi.placed i
  have hid : x.id = c.ids i := by rw [hfits.id, hfits.level_eq, if_neg (by decide)]
  refine hi.advance (by simpa [Main.holds, hpc] using hi.mutexMain) (fun _ => Iff.rfl) ⟨hlt, hmade.1, ?_⟩ rfl rfl
    (fun j => ?_) (by simp [Main.failed, hpc])
  · simp [hx, hmade.2, hid, List.range_succ]
  · simp [Main.waits, hpc]

theorem Inv.mainStep {ok : Bool} (hi : Inv c s) (hr : s.MainReady ok) : Inv c (s.mainStep c ok) := by
  have hmain := hi.mutexMain
  have hreached := hi.reached
  unfold MainReady at hr
  unfold Reached at hreached
  unfold Starting.mainStep
  cases hpc : s.main with
  | lock =>
    simp only [hpc] at hr hreached
    exact hi.advance (by simp [Main.holds]) (by simp [hr]) hreached rfl rfl (fun _ => by simp [Main.waits, hpc])
      (by simp [Main.failed, hpc])
  | test =>
    simp only [hpc] at hreached
    simp only [hreached.1, if_true]
    exact hi.advance (by simpa [Main.holds, hpc] using hmain) (fun _ => Iff.rfl) ⟨Nat.zero_le _, hreached.2⟩ rfl rfl
      (fun _ => by simp [Main.waits, hpc]) (by simp [Main.failed, hpc])
  | create i =>
    simp only [hpc] at hreached
    by_cases hlt : i < c.threadCount
    · cases ok with
      | true =>
        simp only [hlt, if_true]
        exact hi.create hpc hlt
      | false =>
        simp only [hlt, if_true]
        exact hi.advance (by simpa [Main.holds, hpc] using hmain) (fun _ => Iff.rfl) ⟨i, hlt, hreached.2⟩ rfl rfl
          (fun _ => by simp [Main.waits, hpc]) (fun _ => rfl)
    · simp only [hlt, if_false]
      obtain rfl : i = c.threadCount := by omega
      exact hi.advance (by simpa [Main.holds, hpc] using hmain) (fun _ => Iff.rfl) hreached.2 rfl rfl
        (fun _ => by simp [Main.waits, hpc]) (by simp [Main.failed, hpc])
  | wait i =>
    simp only [hpc] at hr
    cases ok with
    | true =>
      obtain ⟨x, hx, hpos⟩ := hr rfl
      exact hi.told hpc hx hpos
    | false => exact hi.broken hpc
  | record i => exact hi.record hpc
  | unlock =>
    simp only [hpc] at hreached
    have hheld : s.mutex = some .main := hmain.mpr (by rw [hpc]; rfl)
    exact hi.advance (by simp [Main.holds]) (by simp [hheld]) hreached rfl rfl (fun _ => by simp [Main.waits, hpc])
      (by simp [Main.failed, hpc])
  | unwind =>
    simp only [hpc] at hreached
    have hheld : s.mutex = some .main := hmain.mpr (by rw [hpc]; rfl)
    exact hi.advance (by simp [Main.holds]) (by simp [hheld]) hreached rfl rfl (fun _ => by simp [Main.waits, hpc])
      (fun _ => rfl)
  | returned | threw => simp [hpc] at hr

/-! ## The steps of a new thread -/

theorem Reached.congr (h : Reached c s) (hmain : s'.main = s.main) (hstop : s'.stopping = s.stopping)
    (hids : s'.threadIds = s.threadIds) (hsome : ∀ j, (s'.threads j).isSome = (s.threads j).isSome) : Reached c s' := by
  have hmade : ∀ a b, Made c s a b → Made c s' a b := by
    rintro a b ⟨ha, hb⟩
    refine ⟨fun j => ?_, hids.trans hb⟩
    rw [hsome j]
    exact ha j
  unfold Reached at h ⊢
  rw [hmain]
  cases hpc : s.main with
  | lock | test =>
    simp only [hpc] at h ⊢
    exact ⟨hstop.trans h.1, hmade _ _ h.2⟩
  | create i | wait i | record i =>
    simp only [hpc] at h ⊢
    exact ⟨h.1, hmade _ _ h.2⟩
  | unlock | returned =>
    simp only [hpc] at h ⊢
    exact hmade _ _ h
  | unwind | threw =>
    simp only [hpc] at h ⊢
    obtain ⟨i, hi, h⟩ := h
    exact ⟨i, hi, hmade _ _ h⟩

theorem Inv.kid (hi : Inv c s) {k' : Kid κ} (hplaced : Placed c s.main i (s'.threads i) k')
    (hself : (s'.threads i).isSome = (s.threads i).isSome) (hother : ∀ j, j ≠ i → s'.threads j = s.threads j)
    (hkids : s'.kids = Function.update s.kids i k')
    (hmain : s'.main = s.main) (hstop : s'.stopping = s.stopping) (hids : s'.threadIds = s.threadIds)
    (hmutex : ∀ o, o ≠ .kid i → (s'.mutex = some o ↔ s.mutex = some o))
    (hscan : s'.mutex = some (.kid i) ↔ k'.stage = .scan) : Inv c s' := by
  constructor
  · rw [hmutex .main nofun, hmain]
    exact hi.mutexMain
  · intro j
    rw [hkids]
    by_cases hj : j = i
    · subst hj
      rw [Function.update_self]
      exact hscan
    · rw [Function.update_of_ne hj, hmutex _ fun h => hj (Owner.kid.inj h)]
      exact hi.mutexKid j
  · refine hi.reached.congr hmain hstop hids fun j => ?_
    by_cases hj : j = i
    · subst hj
      exact hself
    · rw [hother j hj]
  · intro j
    rw [hmain, hkids]
    by_cases hj : j = i
    · subst hj
      rw [Function.update_self]
      exact hplaced
    · rw [hother j hj, Function.update_of_ne hj]
      exact hi.placed j

/-- The thread goes on without the mutex, and stores to its object by `f`. -/
theorem Inv.store (hi : Inv c s) {x : Thread κ} {k' : Kid κ} (f : Thread κ → Thread κ) (hx : s.threads i = some x)
    (hst : (s.kids i).stage ≠ .scan) (hst' : k'.stage ≠ .scan) (hfits : Fits c i (s.main.waits i) (f x) k') :
    Inv c ((s.onThread i f).setKid i k') := by
  have hself : ((s.onThread i f).setKid i k').threads i = some (f x) := by simp [setKid, onThread, hx]
  refine hi.kid ?_ ?_ (fun j hj => Function.update_of_ne hj _ _) rfl rfl rfl rfl (fun _ _ => Iff.rfl) ?_
  · rw [hself]
    exact hfits
  · rw [hself, hx]
    rfl
  · exact iff_of_false (fun h => hst ((hi.mutexKid i).mp h)) hst'

/-- The thread goes on without the mutex, and leaves its object as it is. -/
theorem Inv.local (hi : Inv c s) {k' : Kid κ} (hst : (s.kids i).stage ≠ .scan) (hst' : k'.stage ≠ .scan)
    (hplaced : Placed c s.main i (s.threads i) k') : Inv c (s.setKid i k') := by
  refine hi.kid hplaced rfl (fun _ _ => rfl) rfl rfl rfl rfl (fun _ _ => Iff.rfl) ?_
  exact iff_of_false (fun h => hst ((hi.mutexKid i).mp h)) hst'

theorem Placed.running {m : Main} {o : Option (Thread κ)} {k : Kid κ} {st : Stage} (h : Placed c m i o k)
    (hk : k.stage.level = 7) (hst : st.level = 7) : Placed c m i o { k with stage := st } := by
  cases o with
  | none =>
    rcases h with habsent | ⟨hfailed, -⟩
    · rw [habsent] at hk
      cases hk
    · refine .inr ⟨hfailed, ?_⟩
      cases st with
      | run | scan | ended => rfl
      | _ => cases hst
  | some x =>
    obtain ⟨present, told, name, handle, id, cb, semaphore, this, threadName, title, taken⟩ := h
    constructor <;> simp_all

theorem Inv.kidStep_run (hi : Inv c s) {again : Bool} (hr : s.KidReady i again) (hlevel : (s.kids i).stage.level = 7) :
    Inv c (s.kidStep c i again) := by
  have hplaced := hi.placed i
  unfold KidReady at hr
  unfold Starting.kidStep
  dsimp only
  cases hst : (s.kids i).stage with
  | run =>
    cases again with
    | true =>
      have hfree : s.mutex = none := by simpa [hst] using hr
      simp only [if_true]
      refine hi.kid (hplaced.running hlevel rfl) rfl (fun _ _ => rfl) rfl rfl rfl rfl (fun o ho => ?_) ?_
      · simp [setKid, hfree, Ne.symm ho]
      · simp [setKid]
    | false =>
      simp only [Bool.false_eq_true, if_false]
      exact hi.local (by simp [hst]) nofun (hplaced.running hlevel rfl)
  | scan =>
    have hheld : s.mutex = some (.kid i) := (hi.mutexKid i).mpr hst
    dsimp only
    refine hi.kid (hplaced.running hlevel rfl) rfl (fun _ _ => rfl) rfl rfl rfl rfl (fun o ho => ?_) ?_
    · simp [setKid, hheld, Ne.symm ho]
    · simp [setKid]
  | ended => simp [hst] at hr
  | _ =>
    rw [hst] at hlevel
    cases hlevel

theorem Inv.kidStep (hi : Inv c s) {again : Bool} (hr : s.KidReady i again) : Inv c (s.kidStep c i again) := by
  by_cases hlevel : (s.kids i).stage.level = 7
  · exact hi.kidStep_run hr hlevel
  have hplaced := hi.placed i
  unfold KidReady at hr
  cases hx : s.threads i with
  | none =>
    rw [hx] at hplaced
    rcases hplaced with habsent | ⟨-, horphan⟩
    · simp [habsent] at hr
    · cases hst : (s.kids i).stage with
      | run | scan | ended =>
        rw [hst] at hlevel
        exact absurd rfl hlevel
      | absent | dangling => simp [hst] at hr
      | _ =>
        rw [hst] at horphan
        cases horphan
  | some x =>
    rw [hx] at hplaced
    obtain ⟨present, told, name, handle, id, cb, semaphore, this, threadName, title, taken⟩ := hplaced
    have hlocal : ∀ k', k'.stage ≠ .scan → Fits c i (s.main.waits i) x k' → Inv c (s.setKid i k') := by
      intro k' hst' hfits
      refine hi.local (fun h => hlevel (by rw [h]; rfl)) hst' ?_
      rw [hx]
      exact hfits
    unfold Starting.kidStep
    dsimp only
    cases hst : (s.kids i).stage with
    | absent | ended | dangling => simp [hst] at hr
    | run | scan =>
      rw [hst] at hlevel
      exact absurd rfl hlevel
    | setThis | setName | setTitle =>
      dsimp only
      refine hlocal _ nofun ?_
      constructor <;> simp_all [Stage.level]
    | setId | takeCb | notify =>
      dsimp only
      refine hi.store _ hx (by simp [hst]) nofun ?_
      constructor <;> simp_all [Stage.level]

/-! ## Runs -/

variable {h : List (Entry (Starting κ) Label Unit)}

theorem Inv.step (hi : Inv c s) {l : Label} (hr : s.Ready l) : Inv c (s.step c l) := by
  cases l with
  | main ok => exact hi.mainStep hr
  | kid i again => exact hi.kidStep hr

theorem run_inv (hr : Run (machine c) h s) : Inv c s := by
  apply hr.invariant
  · rintro _ rfl
    constructor
    · simp [Main.holds]
    · simp
    · exact ⟨rfl, by simp, by simp⟩
    · exact fun _ => .inl rfl
  · intro s l o s' hi hl hs
    cases hs
    exact hi.step hl

theorem Inv.absent (hi : Inv c s) (hpc : s.main = .lock) (i : Nat) : (s.kids i).stage = .absent := by
  have hreached := hi.reached
  simp only [Reached, hpc] at hreached
  exact hi.absent_of (by simpa using hreached.2.1 i) (by rw [hpc]; rfl)

/-- The steps up to the end of `start`, those of the thread it waits for included. -/
def ahead (c : Setup κ) (s : Starting κ) : Nat :=
  match s.main with
  | .lock => 9 * c.threadCount + 4
  | .test => 9 * c.threadCount + 3
  | .create i => 9 * (c.threadCount - i) + 2
  | .wait i => 9 * (c.threadCount - i) + 2 - (s.kids i).stage.level
  | .record i => 9 * (c.threadCount - i) - 6
  | .unlock | .unwind => 1
  | .returned | .threw => 0

theorem Inv.ahead_main (hi : Inv c s) (hr : s.MainReady true) : (s.mainStep c true).ahead c < s.ahead c := by
  have hreached := hi.reached
  unfold MainReady at hr
  unfold Reached at hreached
  unfold Starting.mainStep ahead
  cases hpc : s.main with
  | lock => simp
  | test =>
    simp only [hpc] at hreached
    simp [hreached.1]
  | create i =>
    by_cases hlt : i < c.threadCount
    · simp only [hlt, if_true, Function.update_self, Stage.level]
      omega
    · simp only [hlt, if_false]
      omega
  | wait i =>
    simp only [hpc] at hreached hr ⊢
    obtain ⟨x, hx, hpos⟩ := hr trivial
    have hfits : Fits c i true x (s.kids i) := by simpa [hx, hpc, Main.waits, Placed] using hi.placed i
    have hlevel : (s.kids i).stage.level ≤ 7 := by cases (s.kids i).stage <;> decide
    simp only [if_true]
    omega
  | record i =>
    simp only [hpc] at hreached
    dsimp only
    omega
  | unlock | unwind => simp
  | returned | threw => simp [hpc] at hr

/-- The step of a thread before `notify` leads it on, and leaves the caller where it is. -/
theorem kidStep_level (again : Bool) (hlevel : (s.kids i).stage.level < 7) (hpos : 1 ≤ (s.kids i).stage.level) :
    ((s.kidStep c i again).kids i).stage.level = (s.kids i).stage.level + 1 ∧ (s.kidStep c i again).main = s.main := by
  unfold Starting.kidStep
  cases hst : (s.kids i).stage <;> simp_all [Stage.level, setKid, onThread]

/-- **Somebody goes on**: the caller, or the thread that it waits for. -/
theorem Inv.chosen (hi : Inv c s) (hend : s.main ≠ .returned ∧ s.main ≠ .threw) :
    ∃ l, s.Ready l ∧ (s.step c l).ahead c < s.ahead c := by
  by_cases hr : s.MainReady true
  · exact ⟨.main true, hr, hi.ahead_main hr⟩
  · have hreached := hi.reached
    unfold Reached at hreached
    unfold MainReady at hr
    cases hpc : s.main with
    | lock =>
      -- nobody is there yet who could hold the mutex
      exfalso
      simp only [hpc] at hr hreached
      cases hm : s.mutex with
      | none => exact hr hm
      | some o =>
        cases o with
        | main =>
          have := hi.mutexMain.mp hm
          rw [hpc] at this
          cases this
        | kid j =>
          have hscan := (hi.mutexKid j).mp hm
          rw [hi.absent hpc] at hscan
          cases hscan
    | wait i =>
      simp only [hpc] at hr hreached
      obtain ⟨x, hx⟩ := Option.isSome_iff_exists.mp ((hreached.2.1 i).mpr (Nat.lt_succ_self i))
      have hfits : Fits c i true x (s.kids i) := by simpa [hx, hpc, Main.waits, Placed] using hi.placed i
      have hlevel : (s.kids i).stage.level < 7 := by
        by_contra hge
        have hle : (s.kids i).stage.level ≤ 7 := by cases (s.kids i).stage <;> decide
        refine hr fun _ => ⟨x, hx, ?_⟩
        rw [hfits.semaphore, if_pos ⟨rfl, by omega⟩]
        decide
      obtain ⟨hnext, hmain⟩ := kidStep_level (c := c) true hlevel hfits.present
      refine ⟨.kid i true, ?_, ?_⟩
      · have hpos := hfits.present
        show s.KidReady i true
        unfold KidReady
        cases hst : (s.kids i).stage <;> simp_all [Stage.level]
      · show (s.kidStep c i true).ahead c < s.ahead c
        unfold ahead
        rw [hmain, hpc]
        dsimp only
        rw [hnext]
        omega
    | returned => exact absurd hpc hend.1
    | threw => exact absurd hpc hend.2
    | test | create | record | unlock | unwind => simp [hpc] at hr

theorem run_ends (hr : Run (machine c) h s) :
    ∃ h' s', Run (machine c) (h ++ h') s' ∧ (s'.main = .returned ∨ s'.main = .threw) := by
  induction hn : s.ahead c using Nat.strong_induction_on generalizing h s with
  | _ n ih =>
    by_cases hend : s.main = .returned ∨ s.main = .threw
    · exact ⟨[], s, by rwa [List.append_nil], hend⟩
    · obtain ⟨l, hl, hlt⟩ := (run_inv hr).chosen (not_or.mp hend)
      rw [hn] at hlt
      obtain ⟨h', s', hr', hend'⟩ := ih _ hlt (Run.step hr hl rfl) rfl
      rw [List.append_assoc] at hr'
      exact ⟨_, s', hr', hend'⟩

theorem mainStep_threads (ok : Bool) {x : Thread κ} (hi : Inv c s) (hx : s.threads i = some x)
    (hwait : s.main ≠ .wait i) : (s.mainStep c ok).threads i = some x := by
  have hreached := hi.reached
  unfold Reached at hreached
  unfold Starting.mainStep
  cases hpc : s.main with
  | create j =>
    simp only [hpc] at hreached
    have hne : i ≠ j := by
      rintro rfl
      have := (hreached.2.1 i).mp (by rw [hx]; rfl)
      omega
    dsimp only
    split_ifs
    · exact (Function.update_of_ne hne _ _).trans hx
    · exact hx
    · exact hx
  | wait j =>
    have hne : i ≠ j := by
      rintro rfl
      exact hwait hpc
    dsimp only
    split_ifs <;> exact (Function.update_of_ne hne _ _).trans hx
  | test =>
    dsimp only
    split_ifs <;> exact hx
  | lock | record | unlock | unwind | returned | threw => exact hx

theorem kidStep_threads {j : Nat} (again : Bool) {x : Thread κ} (hi : Inv c s) (hx : s.threads i = some x)
    (hwait : s.main ≠ .wait i) : (s.kidStep c j again).threads i = some x := by
  by_cases hj : j = i
  · subst hj
    have hfits : Fits c j false x (s.kids j) := by simpa [hx, Main.waits, hwait, Placed] using hi.placed j
    have hlevel := hfits.level_eq
    unfold Starting.kidStep
    cases hst : (s.kids j).stage <;> simp_all [Stage.level, setKid]
    split_ifs <;> exact hx
  · unfold Starting.kidStep
    cases hst : (s.kids j).stage <;> simp_all [setKid, onThread, Function.update_of_ne (Ne.symm hj)]
    split_ifs <;> exact hx

/-- The object of a thread that is started, and what the thread has of it. -/
structure Started (c : Setup κ) (s : Starting κ) (i : Nat) : Prop where
  object : s.threads i = some { id := c.ids i, handle := true, cb := none, name := c.nameOf i, semaphore := 0 }
  this : (s.kids i).this = some i
  threadName : (s.kids i).threadName = c.nameOf i
  title : (s.kids i).title = (c.nameOf i).take 15
  cb : (s.kids i).cb = some c.run

theorem Inv.started (hi : Inv c s) (hx : (s.threads i).isSome = true) (hwait : s.main ≠ .wait i) : Started c s i := by
  obtain ⟨x, hx⟩ := Option.isSome_iff_exists.mp hx
  have hfits : Fits c i false x (s.kids i) := by simpa [hx, Main.waits, hwait, Placed] using hi.placed i
  have hlevel := hfits.level_eq
  obtain ⟨-, -, name, handle, id, cb, semaphore, this, threadName, title, taken⟩ := hfits
  simp only [hlevel] at id cb semaphore this threadName title taken
  refine ⟨?_, this, threadName, title, taken⟩
  rw [hx, ← name]
  obtain ⟨_, _, _, _, _⟩ := x
  simp_all

/-- **Threads that are started under the lock of their scheduler.** However the caller of `start` and the new threads go
on: no thread scans the queue before `start` is over; `start` can always come to its end; when it returns, all threads
are started and `m_threadIds` has their ids; the object of a thread whose constructor has returned stays as it is; and
a thread dangles only when a constructor has thrown. -/
theorem starts (c : Setup κ) {h : List (Entry (Starting κ) Label Unit)} {s : Starting κ} (hr : Run (machine c) h s) :
    (∀ i, (s.kids i).stage = .scan → s.main = .returned ∨ s.main = .threw) ∧
      (∃ h' s', Run (machine c) (h ++ h') s' ∧ (s'.main = .returned ∨ s'.main = .threw)) ∧
      (s.main = .returned → s.threadIds = c.rootThread.toList ++ (List.range c.threadCount).map c.ids ∧
        ∀ i < c.threadCount, Started c s i) ∧
      (∀ e ∈ h, ∀ i x, e.pre.threads i = some x → e.pre.main ≠ .wait i → e.post.threads i = some x) ∧
      ∀ i, (s.kids i).stage = .dangling → s.main.failed = true := by
  have hi := run_inv hr
  refine ⟨fun i hscan => ?_, run_ends hr, fun hret => ?_, fun e he i x hx hwait => ?_, fun i hst => ?_⟩
  · have hheld := (hi.mutexKid i).mpr hscan
    have hmain : s.main.holds = false := by
      by_contra hne
      rw [hi.mutexMain.mpr (by simpa using hne)] at hheld
      cases hheld
    cases hpc : s.main with
    | returned => exact .inl rfl
    | threw => exact .inr rfl
    | lock =>
      rw [hi.absent hpc] at hscan
      cases hscan
    | test | create | wait | record | unlock | unwind =>
      rw [hpc] at hmain
      cases hmain
  · have hreached := hi.reached
    simp only [Reached, hret] at hreached
    exact ⟨hreached.2, fun i hlt => hi.started ((hreached.1 i).mpr hlt) (by simp [hret])⟩
  · obtain ⟨h₁, hr₁, hen, hstep⟩ := hr.mem he
    have hpost : e.post = e.pre.step c e.inp := (Prod.mk.inj (Except.ok.inj hstep)).2.symm
    rw [hpost]
    cases e.inp with
    | main ok => exact mainStep_threads ok (run_inv hr₁) hx hwait
    | kid j again => exact kidStep_threads again (run_inv hr₁) hx hwait
  · have hplaced := hi.placed i
    cases hx : s.threads i with
    | none =>
      rw [hx] at hplaced
      rcases hplaced with habsent | ⟨hfailed, -⟩
      · rw [hst] at habsent
        cases habsent
      · exact hfailed
    | some x =>
      rw [hx] at hplaced
      have hpresent := Fits.present hplaced
      rw [hst] at hpresent
      exact absurd hpresent (by decide)

/-- The thread 7 starts one thread, which scans. -/
theorem starts_one : ∃ h s, Run (machine (κ := Nat) ⟨1, ['w'], 0, fun i => 100 + i, some 7⟩) h s ∧
    (s.kids 0).stage = .scan ∧ s.main = .returned ∧ s.threadIds = [7, 100] ∧
    Started ⟨1, ['w'], 0, fun i => 100 + i, some 7⟩ s 0 := by
  obtain ⟨h, s, hr, hp⟩ := Run.of_replay (machine (κ := Nat) ⟨1, ['w'], 0, fun i => 100 + i, some 7⟩) rfl
    (List.replicate 3 (.main true) ++ List.replicate 6 (.kid 0 true) ++ List.replicate 4 (.main true) ++ [.kid 0 true])
    (fun r => decide ((r.2.kids 0).stage = .scan ∧ r.2.main = .returned)) (by decide)
  obtain ⟨hscan, hret⟩ := of_decide_eq_true hp
  obtain ⟨hids, hstarted⟩ := (starts _ hr).2.2.1 hret
  exact ⟨h, s, hr, hscan, hret, hids, hstarted 0 (by decide)⟩

end Starting

end QWebServer
