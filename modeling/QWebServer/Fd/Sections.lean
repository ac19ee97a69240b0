import QWebServer.Fd.Reuse

/-!
# Contexts that several threads ask for

* `Sections`, `machine` : the two critical sections of `get` in any order, `setTimeout` through the pointers that it
  returns, `del`, and changes of descriptors;
* `Returned` : the results of `get` since the last `del`;
* `OneContext` : they are one object, and what is set through it is what is read through it;
* `Fills`, `oneContext_iff` : this holds all along a run exactly when every context is created at an empty place.
-/

namespace QWebServer

open Lib
open IOManager (Memory toInt toInt_of_lt)

theorem FdCtx.getTimeout_setTimeout (c : FdCtx) (v : UInt64) (type type' : FdCtx.TimeoutType) :
    (c.setTimeout v type).getTimeout type' = if type' = type then v else c.getTimeout type' := by
  cases type <;> cases type' <;> rfl

namespace FdManager

/-- The pointer at the place of a descriptor, if there is one. -/
def slot (m : FdManager) (fd : Int) : Option Nat := if fd < 0 then none else m.place fd.toNat

theorem slot_natCast (m : FdManager) (fd : Nat) : m.slot fd = m.place fd := by
  unfold slot
  rw [if_neg (by omega), Int.toNat_natCast]

theorem new_slot (fd : Int) : new.slot fd = none := by
  unfold slot place
  split_ifs
  · rfl
  · rw [show new.datas = List.replicate 64 none from rfl, List.getElem?_replicate]
    split_ifs <;> rfl

theorem data_eq_ok {m : FdManager} {fd : Int} {p : Option Nat} (h : m.data fd = .ok p) : ∃ n : Nat, fd = n ∧
    n < m.datas.length ∧ m.place n = p := by
  unfold data at h
  split_ifs at h with hneg
  obtain ⟨n, rfl⟩ := Int.eq_ofNat_of_zero_le (not_lt.mp hneg)
  rw [Int.toNat_natCast] at h
  refine ⟨n, rfl, ?_⟩
  cases hn : m.datas[n]? with
  | none =>
    rw [hn] at h
    cases h
  | some q =>
    rw [hn] at h
    cases h
    exact ⟨(List.getElem?_eq_some_iff.mp hn).1, by rw [place, hn]; rfl⟩

/-- A pointer that the read-locked section returns is at the place. -/
theorem find_eq_some {m : FdManager} {fd : Int} {autoCreate : Bool} {p : Nat}
    (h : m.find fd autoCreate = .ok (some (some p))) : m.slot fd = some p := by
  unfold find at h
  split_ifs at h
  · cases h
  · cases h
  · cases h
  obtain ⟨q, hq, hret⟩ := bind_eq_ok h
  obtain ⟨n, rfl, -, hplace⟩ := data_eq_ok hq
  rw [slot_natCast, hplace]
  have hs : (if q.isSome || !autoCreate then some q else none) = some (some p) := Except.ok.inj hret
  split_ifs at hs
  exact Option.some.inj hs

theorem create_slot {mem : Memory} {m m' : FdManager} (hm : m.datas.length < 2 ^ 31) {fd : Int} {p : Nat}
    {k k' : Kernel} (h : m.create mem fd k = .ok (p, m', k')) :
    m'.datas.length < 2 ^ 31 ∧ p = m.next ∧ m'.next = m.next + 1 ∧
      (∀ q, q ≠ p → m'.heap q = m.heap q) ∧ m'.slot fd = some p ∧ ∀ j, j ≠ fd → m'.slot j = m.slot j := by
  have hfd : ∃ n : Nat, fd = n := by
    unfold create at h
    generalize FdCtx.new fd k = r at h
    obtain ⟨m₂, -, h⟩ := bind_eq_ok h
    obtain ⟨q, hd, -⟩ := bind_eq_ok h
    obtain ⟨n, hn, -⟩ := data_eq_ok hd
    exact ⟨n, hn⟩
  obtain ⟨n, rfl⟩ := hfd
  obtain ⟨-, hlen, hplace, -, hother, hp, hnext, hheap⟩ := create_spec hm h
  refine ⟨hlen, hp, hnext, hheap, ?_, fun j hj => ?_⟩
  · rw [slot_natCast, hplace]
  · unfold slot
    split_ifs with hneg
    · rfl
    · exact hother j.toNat (by omega)

theorem del_slot {m m' : FdManager} (hm : m.datas.length < 2 ^ 31) {fd : Int} (h : m.del fd = .ok m') :
    m'.datas.length = m.datas.length ∧ m'.heap = m.heap ∧ m'.next = m.next ∧ m'.slot fd = none ∧
      ∀ j, j ≠ fd → m'.slot j = m.slot j := by
  unfold del at h
  rw [toInt_of_lt hm] at h
  split_ifs at h with hle
  · cases h
    refine ⟨rfl, rfl, rfl, ?_, fun _ _ => rfl⟩
    unfold slot place
    rw [if_neg (by omega), List.getElem?_eq_none (by omega)]
    rfl
  · obtain ⟨p, hp, h⟩ := bind_eq_ok h
    obtain ⟨n, rfl, hn, -⟩ := data_eq_ok hp
    cases h
    refine ⟨by simp, rfl, rfl, ?_, fun j hj => ?_⟩
    · rw [slot_natCast]
      unfold place
      simp [List.getElem?_set_self hn]
    · unfold slot
      split_ifs with hneg
      · rfl
      · unfold place
        dsimp only
        rw [Int.toNat_natCast, List.getElem?_set_ne (by omega)]

end FdManager

/-! ## The machine -/

/-- The open descriptors, the manager, and the descriptors for which a thread is between the two sections of `get`. -/
structure Sections where
  kernel : Kernel
  mgr : FdManager
  pending : Nat → Option Int

namespace Sections

/-- The sections of `get` on a thread, `setTimeout` through a pointer that `get` returned, `del`, and what else happens
to descriptors. -/
inductive Op
  | lookup (t : Nat) (fd : Int) (autoCreate : Bool)
  | create (t : Nat)
  | setTimeout (p : Nat) (type : FdCtx.TimeoutType) (v : UInt64)
  | del (fd : Int)
  | descriptors (k : Kernel)

/-- One step, with the descriptor and the result of a `get` that returns. -/
def step (mem : Memory) (s : Sections) : Op → Except FdManager.Fault (Option (Int × Option Nat) × Sections)
  | .lookup t fd autoCreate => do
    match ← s.mgr.find fd autoCreate with
    | some p => return (some (fd, p), s)
    | none => return (none, { s with pending := Function.update s.pending t (some fd) })
  | .create t =>
    match s.pending t with
    | none => .ok (none, s)
    | some fd => do
      let (p, mgr, kernel) ← s.mgr.create mem fd s.kernel
      return (some (fd, some p), { kernel, mgr, pending := Function.update s.pending t none })
  | .setTimeout p type v =>
    .ok (none, { s with mgr := { s.mgr with heap := Function.update s.mgr.heap p ((s.mgr.heap p).setTimeout v type) } })
  | .del fd => do
    return (none, { s with mgr := ← s.mgr.del fd })
  | .descriptors k => .ok (none, { s with kernel := k })

/-- A thread makes one call at a time, and pointers are those of contexts. -/
def enabled (s : Sections) : Op → Prop
  | .lookup t _ _ => s.pending t = none
  | .create t => s.pending t ≠ none
  | .setTimeout p _ _ => p < s.mgr.next
  | _ => True

def machine (mem : Memory) : Machine Sections Op (Option (Int × Option Nat)) FdManager.Fault where
  init s := s = { kernel := fun _ => none, mgr := .new, pending := fun _ => none }
  enabled := enabled
  step := step mem

instance (mem : Memory) (s : Sections) : (op : Op) → Decidable ((machine mem).enabled s op)
  | .lookup t _ _ => inferInstanceAs (Decidable (s.pending t = none))
  | .create t => inferInstanceAs (Decidable (s.pending t ≠ none))
  | .setTimeout p _ _ => inferInstanceAs (Decidable (p < s.mgr.next))
  | .del _ | .descriptors _ => isTrue trivial

abbrev Calls := List (Entry Sections Op (Option (Int × Option Nat)))

/-- `get(fd)` has returned `p` since the last `del(fd)`. -/
def Returned (h : Calls) (fd : Int) (p : Nat) : Prop :=
  ∃ h₁ e h₂, h = h₁ ++ e :: h₂ ∧ e.out = some (fd, some p) ∧ ∀ e' ∈ h₂, e'.inp ≠ .del fd

/-- **One context**: what `get(fd)` returned since the last `del(fd)` is one object, and a timeout that was set through
it is the one that is read from the result of a later `get(fd)`. -/
structure OneContext (h : Calls) (s : Sections) : Prop where
  single : ∀ fd p q, Returned h fd p → Returned h fd q → p = q
  seen : ∀ h₁ e h₂ fd p q type v, h = h₁ ++ e :: h₂ → Returned h₁ fd p → e.inp = .setTimeout p type v →
    (∀ e' ∈ h₂, e'.inp ≠ .del fd ∧ ∀ v', e'.inp ≠ .setTimeout p type v') → Returned h fd q →
    (s.mgr.heap q).getTimeout type = v

/-- The write-locked section finds the place of its descriptor empty. -/
def Fills (s : Sections) : Op → Prop
  | .create t => ∀ fd ∈ s.pending t, s.mgr.slot fd = none
  | _ => True

instance (s : Sections) : (op : Op) → Decidable (s.Fills op)
  | .create t => inferInstanceAs (Decidable (∀ fd ∈ s.pending t, s.mgr.slot fd = none))
  | .lookup .. | .setTimeout .. | .del _ | .descriptors _ => isTrue trivial

/-! ## The steps -/

variable {mem : Memory} {s s' : Sections} {op : Op} {o : Option (Int × Option Nat)}

/-- **What a step does** to the places and the contexts. -/
inductive Moved (s s' : Sections) : Op → Option (Int × Option Nat) → Prop
  | looked {t : Nat} {fd : Int} {autoCreate : Bool} {o : Option (Int × Option Nat)} (hmgr : s'.mgr = s.mgr)
      (hslot : ∀ fd p, o = some (fd, some p) → s.mgr.slot fd = some p) : Moved s s' (.lookup t fd autoCreate) o
  | created {t : Nat} {fd : Int} (hpending : s.pending t = some fd) (hlen : s'.mgr.datas.length < 2 ^ 31)
      (hnext : s'.mgr.next = s.mgr.next + 1) (hheap : ∀ q, q ≠ s.mgr.next → s'.mgr.heap q = s.mgr.heap q)
      (hslot : s'.mgr.slot fd = some s.mgr.next) (hother : ∀ j, j ≠ fd → s'.mgr.slot j = s.mgr.slot j) :
      Moved s s' (.create t) (some (fd, some s.mgr.next))
  | set {p : Nat} {type : FdCtx.TimeoutType} {v : UInt64} (hp : p < s.mgr.next)
      (hmgr : s'.mgr = { s.mgr with heap := Function.update s.mgr.heap p ((s.mgr.heap p).setTimeout v type) }) :
      Moved s s' (.setTimeout p type v) none
  | deleted {fd : Int} (hlen : s'.mgr.datas.length < 2 ^ 31) (hheap : s'.mgr.heap = s.mgr.heap)
      (hnext : s'.mgr.next = s.mgr.next) (hslot : s'.mgr.slot fd = none)
      (hother : ∀ j, j ≠ fd → s'.mgr.slot j = s.mgr.slot j) : Moved s s' (.del fd) none
  | descriptors {k : Kernel} (hmgr : s'.mgr = s.mgr) : Moved s s' (.descriptors k) none

theorem step_moved (hs : s.mgr.datas.length < 2 ^ 31) (he : s.enabled op) (h : s.step mem op = .ok (o, s')) :
    Moved s s' op o := by
  cases op with
  | lookup t fd autoCreate =>
    obtain ⟨r, hr, h⟩ := bind_eq_ok h
    cases r with
    | some p =>
      cases h
      refine .looked rfl fun fd' q hq => ?_
      cases hq
      exact FdManager.find_eq_some hr
    | none =>
      cases h
      exact .looked rfl nofun
  | create t =>
    cases hp : s.pending t with
    | none => exact absurd hp he
    | some fd =>
      simp only [step, hp] at h
      obtain ⟨⟨p, mgr, kernel⟩, hc, h⟩ := bind_eq_ok h
      obtain ⟨hlen, rfl, hnext, hheap, hslot, hother⟩ := FdManager.create_slot hs hc
      cases h
      exact .created hp hlen hnext hheap hslot hother
  | setTimeout p type v =>
    cases h
    exact .set he rfl
  | del fd =>
    obtain ⟨mgr, hd, h⟩ := bind_eq_ok h
    obtain ⟨hlen, hheap, hnext, hslot, hother⟩ := FdManager.del_slot hs hd
    cases h
    exact .deleted (hlen ▸ hs) hheap hnext hslot hother
  | descriptors k =>
    cases h
    exact .descriptors rfl

/-- What every step keeps: the size of the table is an `int`, and its pointers are those of contexts. -/
structure Sound (s : Sections) : Prop where
  length : s.mgr.datas.length < 2 ^ 31
  used : ∀ fd p, s.mgr.slot fd = some p → p < s.mgr.next

theorem Sound.step (hs : s.Sound) (h : Moved s s' op o) : s'.Sound := by
  cases h with
  | looked hmgr | descriptors hmgr =>
    constructor
    · rw [hmgr]
      exact hs.length
    · rw [hmgr]
      exact hs.used
  | @created t fd hpending hlen hnext hheap hslot hother =>
    refine ⟨hlen, fun j p hp => ?_⟩
    rw [hnext]
    by_cases hj : j = fd
    · subst hj
      rw [hslot] at hp
      cases hp
      exact Nat.lt_succ_self _
    · rw [hother j hj] at hp
      exact Nat.lt_succ_of_lt (hs.used j p hp)
  | set hp hmgr =>
    constructor
    · rw [hmgr]
      exact hs.length
    · rw [hmgr]
      exact hs.used
  | @deleted fd hlen hheap hnext hslot hother =>
    refine ⟨hlen, fun j p hp => ?_⟩
    rw [hnext]
    by_cases hj : j = fd
    · subst hj
      rw [hslot] at hp
      cases hp
    · rw [hother j hj] at hp
      exact hs.used j p hp

theorem run_sound {h : Calls} (hr : Run (machine mem) h s) : s.Sound := by
  refine hr.invariant ?_ fun s op o t hs he hstep => hs.step (step_moved hs.length he hstep)
  rintro s rfl
  refine ⟨by decide, fun fd p hp => ?_⟩
  rw [FdManager.new_slot] at hp
  cases hp

theorem run_moved {h : Calls} {e : Entry Sections Op (Option (Int × Option Nat))} (hr : Run (machine mem) h e.pre)
    (he : (machine mem).Steps e) : Moved e.pre e.post e.inp e.out :=
  step_moved (run_sound hr).length he.1 he.2

/-! ## The results of `get` -/

theorem returned_concat {h : Calls} {e : Entry Sections Op (Option (Int × Option Nat))} {fd : Int} {p : Nat} :
    Returned (h ++ [e]) fd p ↔ e.out = some (fd, some p) ∨ Returned h fd p ∧ e.inp ≠ .del fd := by
  constructor
  · rintro ⟨h₁, e₁, h₂, hh, ho, hdel⟩
    rcases List.eq_nil_or_concat' h₂ with rfl | ⟨h₂, e₂, rfl⟩
    · obtain ⟨-, he⟩ := List.append_inj' hh rfl
      cases he
      exact .inl ho
    · rw [← List.cons_append, ← List.append_assoc] at hh
      obtain ⟨rfl, he⟩ := List.append_inj' hh rfl
      cases he
      exact .inr ⟨⟨h₁, e₁, h₂, rfl, ho, fun e' he' => hdel e' (by simp [he'])⟩, hdel e (by simp)⟩
  · rintro (ho | ⟨⟨h₁, e₁, h₂, rfl, ho, hdel⟩, he⟩)
    · exact ⟨h, e, [], rfl, ho, nofun⟩
    · refine ⟨h₁, e₁, h₂ ++ [e], by simp, ho, fun e' he' => ?_⟩
      rcases List.mem_append.mp he' with he' | he'
      · exact hdel e' he'
      · rwa [List.mem_singleton.mp he']

theorem returned_append {h h' : Calls} {fd : Int} {p : Nat} (hp : Returned h fd p)
    (hdel : ∀ e ∈ h', e.inp ≠ .del fd) : Returned (h ++ h') fd p := by
  obtain ⟨h₁, e, h₂, rfl, ho, hdel'⟩ := hp
  refine ⟨h₁, e, h₂ ++ h', by simp, ho, fun e' he' => ?_⟩
  rcases List.mem_append.mp he' with he' | he'
  · exact hdel' e' he'
  · exact hdel e' he'

theorem returned_of_slot {h : Calls} (hr : Run (machine mem) h s) {fd : Int} {p : Nat}
    (hp : s.mgr.slot fd = some p) : Returned h fd p := by
  induction hr with
  | start hs =>
    cases hs
    rw [FdManager.new_slot] at hp
    cases hp
  | @step h s t op o hr he hs ih =>
    rw [returned_concat]
    have hmoved := step_moved (run_sound hr).length he hs
    cases hmoved with
    | looked hmgr =>
      rw [hmgr] at hp
      exact .inr ⟨ih hp, nofun⟩
    | @created t' fd' hpending hlen hnext hheap hslot hother =>
      by_cases hfd : fd = fd'
      · subst hfd
        rw [hslot] at hp
        cases hp
        exact .inl rfl
      · rw [hother fd hfd] at hp
        exact .inr ⟨ih hp, nofun⟩
    | set hlt hmgr =>
      rw [hmgr] at hp
      exact .inr ⟨ih hp, nofun⟩
    | @deleted fd' hlen hheap hnext hslot hother =>
      by_cases hfd : fd = fd'
      · subst hfd
        rw [hslot] at hp
        cases hp
      · rw [hother fd hfd] at hp
        refine .inr ⟨ih hp, fun hdel => hfd ?_⟩
        cases hdel
        rfl
    | descriptors hmgr =>
      rw [hmgr] at hp
      exact .inr ⟨ih hp, nofun⟩

/-- **Where contexts are created at empty places, what was returned is at its place.** -/
theorem slot_of_returned {h : Calls} (hr : Run (machine mem) h s) (hc : ∀ e ∈ h, e.pre.Fills e.inp) {fd : Int} {p : Nat}
    (hp : Returned h fd p) : s.mgr.slot fd = some p := by
  induction hr with
  | start hs =>
    obtain ⟨h₁, e, h₂, hh, -⟩ := hp
    simp at hh
  | @step h s t op o hr he hs ih =>
    have hold : Returned h fd p → s.mgr.slot fd = some p := ih fun e hmem => hc e (List.mem_append_left _ hmem)
    have hfills : s.Fills op := hc ⟨s, op, o, t⟩ (by simp)
    have hmoved := step_moved (run_sound hr).length he hs
    rw [returned_concat] at hp
    cases hmoved with
    | looked hmgr hslot =>
      rw [hmgr]
      rcases hp with ho | ⟨hp, -⟩
      · exact hslot fd p ho
      · exact hold hp
    | @created t' fd' hpending hlen hnext hheap hslot hother =>
      rcases hp with ho | ⟨hp, -⟩
      · cases ho
        exact hslot
      · have hfd : fd ≠ fd' := by
          rintro rfl
          have hnone := hfills fd hpending
          rw [hold hp] at hnone
          cases hnone
        rw [hother fd hfd]
        exact hold hp
    | set hlt hmgr =>
      rw [hmgr]
      rcases hp with ho | ⟨hp, -⟩
      · cases ho
      · exact hold hp
    | @deleted fd' hlen hheap hnext hslot hother =>
      rcases hp with ho | ⟨hp, hdel⟩
      · cases ho
      · rw [hother fd fun hfd => hdel (by rw [hfd])]
        exact hold hp
    | descriptors hmgr =>
      rw [hmgr]
      rcases hp with ho | ⟨hp, -⟩
      · cases ho
      · exact hold hp

/-- A step that does not set the timeout of a context keeps it. -/
theorem Moved.timeout (h : Moved s s' op o) {p : Nat} (hp : p < s.mgr.next) {type : FdCtx.TimeoutType}
    (hop : ∀ v, op ≠ .setTimeout p type v) :
    p < s'.mgr.next ∧ (s'.mgr.heap p).getTimeout type = (s.mgr.heap p).getTimeout type := by
  cases h with
  | looked hmgr | descriptors hmgr =>
    rw [hmgr]
    exact ⟨hp, rfl⟩
  | created hpending hlen hnext hheap hslot hother =>
    rw [hnext, hheap p (Nat.ne_of_lt hp)]
    exact ⟨Nat.lt_succ_of_lt hp, rfl⟩
  | @set q type' v hq hmgr =>
    rw [hmgr]
    refine ⟨hp, ?_⟩
    by_cases hpq : p = q
    · subst hpq
      have htype : type ≠ type' := fun ht => hop v (by rw [ht])
      simp only [Function.update_self, FdCtx.getTimeout_setTimeout, if_neg htype]
    · simp only [Function.update_of_ne hpq]
  | deleted hlen hheap hnext hslot hother =>
    rw [hnext, hheap]
    exact ⟨hp, rfl⟩

theorem timeout_after {h₁ h₂ : Calls} {e : Entry Sections Op (Option (Int × Option Nat))} {p : Nat}
    {type : FdCtx.TimeoutType} {v : UInt64} (he : e.inp = .setTimeout p type v)
    (hset : ∀ e' ∈ h₂, ∀ v', e'.inp ≠ .setTimeout p type v') (hr : Run (machine mem) (h₁ ++ e :: h₂) s) :
    p < s.mgr.next ∧ (s.mgr.heap p).getTimeout type = v := by
  induction h₂ using List.reverseRecOn generalizing s with
  | nil =>
    obtain ⟨hr₁, hstep, rfl⟩ := hr.last
    have hmoved := run_moved hr₁ hstep
    rw [he] at hmoved
    generalize e.out = o at hmoved
    cases hmoved with
    | set hp hmgr =>
      rw [hmgr]
      refine ⟨hp, ?_⟩
      simp only [Function.update_self, FdCtx.getTimeout_setTimeout, if_true]
  | append_singleton h₂ e' ih =>
    rw [← List.cons_append, ← List.append_assoc] at hr
    obtain ⟨hr₁, hstep, rfl⟩ := hr.last
    obtain ⟨hp, hv⟩ := ih (fun e' he' => hset e' (List.mem_append_left _ he')) hr₁
    obtain ⟨hp', hv'⟩ := (run_moved hr₁ hstep).timeout hp (hset e' (by simp))
    exact ⟨hp', hv'.trans hv⟩

theorem oneContext_of_fills {h : Calls} (hr : Run (machine mem) h s) (hc : ∀ e ∈ h, e.pre.Fills e.inp) :
    OneContext h s := by
  have hsingle : ∀ fd p q, Returned h fd p → Returned h fd q → p = q := by
    intro fd p q hp hq
    have hslot := (slot_of_returned hr hc hp).symm.trans (slot_of_returned hr hc hq)
    exact Option.some.inj hslot
  refine ⟨hsingle, ?_⟩
  rintro h₁ e h₂ fd p q type v rfl hp he hbetween hq
  have hp' : Returned (h₁ ++ e :: h₂) fd p := by
    refine returned_append hp fun e' he' => ?_
    rcases List.mem_cons.mp he' with rfl | he'
    · rw [he]
      exact nofun
    · exact (hbetween e' he').1
  rw [← hsingle fd p q hp' hq]
  exact (timeout_after he (fun e' he' => (hbetween e' he').2) hr).2

/-- **There is one context for each descriptor all along a run exactly when** every context is created at an empty
place. -/
theorem oneContext_iff {h : Calls} (hr : Run (machine mem) h s) :
    (∀ h₁ s₁, h₁ <+: h → Run (machine mem) h₁ s₁ → OneContext h₁ s₁) ↔ ∀ e ∈ h, e.pre.Fills e.inp := by
  constructor
  · intro hone e he
    obtain ⟨h₁, h₂, rfl⟩ := List.append_of_mem he
    obtain ⟨hr₁, hstep⟩ := hr.cut rfl
    have hmoved := run_moved hr₁ hstep
    have hlast : OneContext (h₁ ++ [e]) e.post := by
      refine hone _ _ ⟨h₂, by simp⟩ ?_
      exact hr₁.step hstep.1 hstep.2
    generalize hop : e.inp = op at hmoved
    generalize ho : e.out = o at hmoved
    cases hmoved with
    | @created t fd hpending hlen hnext hheap hslot hother =>
      intro fd' hfd'
      cases hpending.symm.trans hfd'
      cases hplace : e.pre.mgr.slot fd with
      | none => rfl
      | some p =>
        -- the old context and the new one were both returned
        have hold : Returned (h₁ ++ [e]) fd p := by
          rw [returned_concat, hop]
          exact .inr ⟨returned_of_slot hr₁ hplace, nofun⟩
        have hnew : Returned (h₁ ++ [e]) fd e.pre.mgr.next := by
          rw [returned_concat]
          exact .inl ho
        have hlt := (run_sound hr₁).used fd p hplace
        have heq := hlast.single fd _ _ hold hnew
        omega
    | looked | set | deleted | descriptors => trivial
  · intro hc h₁ s₁ hpre hr₁
    refine oneContext_of_fills hr₁ fun e he => hc e ?_
    exact hpre.subset he

/-- A context that is created, written to and looked up by another thread. -/
theorem oneContext_iff_shared : ∃ h s, Run (machine ⟨1000, by norm_num⟩) h s ∧ Returned h 5 0 ∧
    (s.mgr.heap 0).getTimeout .recv = 100 ∧ OneContext h s := by
  obtain ⟨h, s, hr, hp⟩ := Run.of_replay (machine ⟨1000, by norm_num⟩) rfl
    [.lookup 0 5 true, .create 0, .setTimeout 0 .recv 100, .lookup 1 5 false]
    (fun r => r.1.all (fun e => e.pre.Fills e.inp) && r.2.mgr.slot 5 == some 0 &&
      (r.2.mgr.heap 0).getTimeout .recv == 100)
    (by decide +kernel)
  simp only [Bool.and_eq_true, List.all_eq_true, decide_eq_true_eq, beq_iff_eq] at hp
  obtain ⟨⟨hfills, hslot⟩, hv⟩ := hp
  exact ⟨h, s, hr, returned_of_slot hr hslot, hv, (oneContext_iff hr).mpr hfills h s (List.prefix_refl h) hr⟩

/-- Two threads find the place empty, and each creates a context. -/
theorem oneContext_not_twice : ¬ ∀ h s, Run (machine ⟨1000, by norm_num⟩) h s → OneContext h s := by
  intro hall
  obtain ⟨h, s, hr, hp⟩ := Run.of_replay (machine ⟨1000, by norm_num⟩) rfl
    [.lookup 0 5 true, .lookup 1 5 true, .create 0, .create 1]
    (fun r => r.1.getLast?.any fun e => e.pre.mgr.slot 5 == some 0 && e.out == some (5, some 1)) (by decide +kernel)
  simp only [Option.any_eq_true, Bool.and_eq_true, beq_iff_eq] at hp
  obtain ⟨e, he, hslot, ho⟩ := hp
  obtain ⟨h₁, rfl⟩ := List.getLast?_eq_some_iff.mp he
  obtain ⟨hr₁, hstep, -⟩ := hr.last
  have hinp : e.inp ≠ .del 5 := by
    intro hdel
    have hmoved := run_moved hr₁ hstep
    rw [hdel, ho] at hmoved
    cases hmoved
  have hfirst : Returned (h₁ ++ [e]) 5 0 := returned_concat.mpr (.inr ⟨returned_of_slot hr₁ hslot, hinp⟩)
  have hsecond : Returned (h₁ ++ [e]) 5 1 := returned_concat.mpr (.inl ho)
  exact absurd ((hall _ _ hr).single 5 0 1 hfirst hsecond) (by decide)

end Sections

end QWebServer
