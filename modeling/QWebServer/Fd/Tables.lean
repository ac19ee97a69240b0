import QWebServer.Fd.Sections
import QWebServer.IOManager.Resize
import QWebServer.Socket.Model

/-!
# The tables that descriptors index

`m_fdContexts` of `IOManager` and `m_datas` of `FdManager` are vectors of pointers. Their sizes are compared with a
descriptor as `int`s, and grow to one and a half times a descriptor.

* `Pointers` : such a vector, `entry` : an access, `object` : one whose pointer is used, `resize`, `fill` : growth;
* `Tables`, `machine` : the critical sections of `addEvent`, `delEvent`, `cancelEvent`, `cancelAll`, `get` and `del` on
  any threads, for descriptors and for the -1 of a socket without one; the allocator may throw, which ends a call;
* `InRange` : the accesses of a section, `Checked`, `inRange_iff` : when they are in range and not null;
* `inRange_of_moderate` : descriptors below 1431655766 are safe;
* `shared_simulated`, `sections_simulated` : the models of `addEvent` and of `get` in sections make steps of `Tables`.
-/

namespace QWebServer

open Lib
open IOManager (toInt toInt_eq toInt_of_lt)

/-- A `std::vector` of pointers. -/
abbrev Pointers := List (Option Nat)

/-- Accesses that are undefined behaviour. -/
inductive BadAccess
  | outOfRange
  | null
  deriving DecidableEq

namespace Pointers

/-- `v[fd]`. -/
def entry (v : Pointers) (fd : Int) : Except BadAccess (Option Nat) :=
  if fd < 0 then .error .outOfRange
  else
    match v[fd.toNat]? with
    | none => .error .outOfRange
    | some p => .ok p

/-- `v[fd]`, and a use of the object it points to. -/
def object (v : Pointers) (fd : Int) : Except BadAccess Nat := do
  match ← v.entry fd with
  | none => .error .null
  | some p => return p

def resize (v : Pointers) (size : Nat) : Pointers := v.take size ++ List.replicate (size - v.length) none

/-- The loop of `contextResize`: `new FdContext()` for the places that are null, up to `cut` if that is where `new`
throws. -/
def fill (v : Pointers) (next : Nat) (cut : Option Nat) : Pointers :=
  v.mapIdx fun i p => if cut.all (i < ·) then some (p.getD (next + i)) else p

/-- A place from `cut` on is null. -/
def throws (v : Pointers) (cut : Option Nat) : Bool := cut.any fun i => (v.drop i).any (·.isNone)

end Pointers

/-- Where a thread is between two sections of a call: of `addEvent`, or of `get`. -/
inductive Tables.Stage
  | idle
  | growing (fd : Int)
  | creating (fd : Int)
  deriving DecidableEq

/-- `m_fdContexts` and `m_datas`, the first pointer that is not in use, and the calls. -/
structure Tables where
  contexts : Pointers
  datas : Pointers
  next : Nat
  calls : Nat → Tables.Stage := fun _ => .idle

namespace Tables

/-- What the allocator does in `contextResize`: the vector cannot grow, or it can, and `new` throws at a place or not at
all. -/
inductive Growth
  | refused
  | granted (cut : Option Nat)

/-- The sections: the read-locked lookup and the write-locked resize of `addEvent`, `delEvent`, `cancelEvent` and
`cancelAll` up to the context, the two sections of `get`, the second with whether the allocator provides what it asks
for, and `del`. -/
inductive Section
  | lookup (t : Nat) (fd : Int)
  | resize (t : Nat) (o : Growth)
  | delEvent (fd : Int)
  | cancelEvent (fd : Int)
  | cancelAll (fd : Int)
  | find (t : Nat) (fd : Int) (autoCreate : Bool)
  | create (t : Nat) (o : Bool)
  | del (fd : Int)

/-- `Socket::cancelRead`, `Socket::cancelWrite`, `Socket::cancelAll` and `Socket::cancelAccept`. -/
def cancelRead {σ : Type} (x : Sockets.Socket σ) : Section := .cancelEvent x.sock

def cancelWrite {σ : Type} (x : Sockets.Socket σ) : Section := .cancelEvent x.sock

def cancelAll {σ : Type} (x : Sockets.Socket σ) : Section := .cancelAll x.sock

def cancelAccept {σ : Type} (x : Sockets.Socket σ) : Section := .cancelEvent x.sock

def goOn (s : Tables) (t : Nat) (stage : Stage) : Tables := { s with calls := Function.update s.calls t stage }

/-- `contextResize(fd*1.5); fd_ctx = m_fdContexts[fd];`, and the use of `fd_ctx`; an exception leaves the places that
are null. -/
def grow (s : Tables) (fd : Int) (cut : Option Nat) : Except BadAccess Tables :=
  let v := s.contexts.resize (3 * fd.toNat / 2)
  let s' := { s with contexts := v.fill s.next cut, next := s.next + v.length }
  if v.throws cut then .ok s'
  else do
    let _ ← s'.contexts.object fd
    return s'

/-- `if((int)m_fdContexts.size() <= fd) return false; FdContext* fd_ctx = m_fdContexts[fd];`, and the use of
`fd_ctx`. -/
def context (s : Tables) (fd : Int) : Except BadAccess Unit :=
  if toInt s.contexts.length ≤ fd then .ok ()
  else do
    let _ ← s.contexts.object fd
    return ()

/-- The read-locked section of `get`: whether it goes on to create a context. -/
def find (s : Tables) (fd : Int) (autoCreate : Bool) : Except BadAccess Bool :=
  if fd = -1 then .ok false
  else if toInt s.datas.length ≤ fd then .ok autoCreate
  else do
    let p ← s.datas.entry fd
    return !(p.isSome || !autoCreate)

/-- The write-locked section of `get`. -/
def create (s : Tables) (fd : Int) : Except BadAccess Tables := do
  let datas := if fd ≥ toInt s.datas.length then s.datas.resize (3 * fd.toNat / 2) else s.datas
  let _ ← datas.entry fd
  return { s with datas := datas.set fd.toNat (some s.next), next := s.next + 1 }

def del (s : Tables) (fd : Int) : Except BadAccess Tables :=
  if toInt s.datas.length ≤ fd then .ok s
  else do
    let _ ← s.datas.entry fd
    return { s with datas := s.datas.set fd.toNat none }

def step (s : Tables) : Section → Except BadAccess (Unit × Tables)
  | .lookup t fd =>
    if toInt s.contexts.length > fd then do
      let _ ← s.contexts.object fd
      return ((), s)
    else return ((), s.goOn t (.growing fd))
  | .resize t o =>
    match s.calls t, o with
    | .growing fd, .granted cut => do return ((), (← s.grow fd cut).goOn t .idle)
    | .growing _, .refused => return ((), s.goOn t .idle)
    | _, _ => return ((), s)
  | .delEvent fd => do return (← s.context fd, s)
  | .cancelEvent fd => do return (← s.context fd, s)
  | .cancelAll fd => do return (← s.context fd, s)
  | .find t fd autoCreate => do return ((), if ← s.find fd autoCreate then s.goOn t (.creating fd) else s)
  | .create t o =>
    match s.calls t, o with
    | .creating fd, true => do return ((), (← s.create fd).goOn t .idle)
    | .creating _, false => return ((), s.goOn t .idle)
    | _, _ => return ((), s)
  | .del fd => do return ((), ← s.del fd)

/-- A thread makes one call at a time, with a descriptor or with -1. -/
def enabled (s : Tables) : Section → Prop
  | .lookup t fd => -1 ≤ fd ∧ s.calls t = .idle
  | .resize t _ => ∃ fd, s.calls t = .growing fd
  | .delEvent fd | .cancelEvent fd | .cancelAll fd | .del fd => -1 ≤ fd
  | .find t fd _ => -1 ≤ fd ∧ s.calls t = .idle
  | .create t _ => ∃ fd, s.calls t = .creating fd

def new : Tables where
  contexts := (Pointers.resize [] 32).fill 0 none
  datas := Pointers.resize [] 64
  next := 32

def machine : Machine Tables Section Unit BadAccess where
  init s := s = new
  enabled := enabled
  step := step

/-- No access of the section is out of range, and none through a null pointer. -/
def InRange (s : Tables) (l : Section) : Prop := ∃ s', s.step l = .ok ((), s')

/-- The descriptor is not -1, unless the comparison of the sizes keeps it out; and a table that grows grows beyond the
descriptor, which it does from 2 on. -/
def Checked (s : Tables) : Section → Prop
  | .lookup _ fd | .delEvent fd | .cancelEvent fd | .cancelAll fd => 0 ≤ fd ∨ toInt s.contexts.length ≤ fd
  | .resize _ .refused => True
  | .resize t (.granted cut) => ∀ fd, s.calls t = .growing fd →
    2 ≤ fd ∨ (s.contexts.resize (3 * fd.toNat / 2)).throws cut = true
  | .find .. => True
  | .create _ false => True
  | .create t true => ∀ fd, s.calls t = .creating fd → 2 ≤ fd ∨ fd < toInt s.datas.length
  | .del fd => 0 ≤ fd ∨ toInt s.datas.length ≤ fd

/-- `new` throws in the loop of `contextResize`. -/
def Section.isCut : Section → Bool
  | .resize _ (.granted (some _)) => true
  | _ => false

end Tables

/-! ## Vectors -/

namespace Pointers

variable {v : Pointers} {fd : Int}

theorem length_resize (v : Pointers) (size : Nat) : (v.resize size).length = size := by
  unfold resize
  rw [List.length_append, List.length_take, List.length_replicate]
  omega

theorem length_fill (v : Pointers) (next : Nat) (cut : Option Nat) : (v.fill next cut).length = v.length :=
  List.length_mapIdx

/-- Where `new` does not throw, `contextResize` leaves no null place. -/
theorem isSome_fill (next : Nat) {cut : Option Nat} (h : v.throws cut = false) :
    ∀ p ∈ v.fill next cut, p.isSome := by
  intro p hp
  obtain ⟨i, hi, rfl⟩ := List.mem_mapIdx.mp hp
  split_ifs with hc
  · rfl
  · cases cut with
    | none => exact absurd rfl hc
    | some c =>
      have hle : c ≤ i := by simpa using hc
      have hmem : v[i] ∈ v.drop c := by
        rw [List.mem_drop_iff_getElem]
        exact ⟨i - c, by omega, by congr 1; omega⟩
      have hall : ∀ q ∈ v.drop c, ¬ q = none := by simpa [throws] using h
      exact Option.isSome_iff_ne_none.mpr (hall _ hmem)

theorem entry_ok_iff : (∃ p, v.entry fd = .ok p) ↔ 0 ≤ fd ∧ fd < v.length := by
  unfold entry
  split_ifs with hneg
  · refine iff_of_false ?_ fun h => by omega
    rintro ⟨p, hp⟩
    cases hp
  · by_cases hlt : fd.toNat < v.length
    · rw [List.getElem?_eq_getElem hlt]
      exact iff_of_true ⟨_, rfl⟩ (by omega)
    · rw [List.getElem?_eq_none (by omega)]
      refine iff_of_false ?_ fun h => by omega
      rintro ⟨p, hp⟩
      cases hp

theorem entry_mem {p : Option Nat} (h : v.entry fd = .ok p) : p ∈ v := by
  unfold entry at h
  split_ifs at h
  split at h
  · cases h
  · next q hq =>
    cases h
    exact List.mem_of_getElem? hq

theorem object_ok_iff (hv : ∀ p ∈ v, p.isSome) : (∃ p, v.object fd = .ok p) ↔ 0 ≤ fd ∧ fd < v.length := by
  rw [← entry_ok_iff]
  constructor
  · rintro ⟨p, hp⟩
    obtain ⟨q, hq, -⟩ := bind_eq_ok hp
    exact ⟨q, hq⟩
  · rintro ⟨q, hq⟩
    obtain ⟨p, rfl⟩ := Option.isSome_iff_exists.mp (hv q (entry_mem hq))
    exact ⟨p, by rw [object, hq]; rfl⟩

end Pointers

theorem exists_bind_pure {ε α β : Type} {x : Except ε α} {f : α → β} :
    (∃ b, x >>= (fun a => pure (f a)) = .ok b) ↔ ∃ a, x = .ok a := by
  constructor
  · rintro ⟨b, h⟩
    obtain ⟨a, ha, -⟩ := bind_eq_ok h
    exact ⟨a, ha⟩
  · rintro ⟨a, rfl⟩
    exact ⟨f a, rfl⟩

/-! ## The accesses -/

namespace Tables

theorem toInt_le (n : Nat) : toInt n ≤ n := by
  rw [toInt_eq]
  split_ifs <;> omega

def Stage.Valid : Stage → Prop
  | creating fd => 0 ≤ fd
  | _ => True

/-- What every section keeps, unless `new` throws. -/
structure Sound (s : Tables) : Prop where
  full : ∀ p ∈ s.contexts, p.isSome
  valid : ∀ t, (s.calls t).Valid

variable {s : Tables} {fd : Int}

theorem Sound.object_iff (hs : s.Sound) (hlt : fd < toInt s.contexts.length) :
    (∃ p, s.contexts.object fd = .ok p) ↔ 0 ≤ fd := by
  have := toInt_le s.contexts.length
  rw [Pointers.object_ok_iff hs.full]
  omega

theorem Sound.context_iff (hs : s.Sound) :
    (∃ u, s.context fd = .ok u) ↔ 0 ≤ fd ∨ toInt s.contexts.length ≤ fd := by
  unfold context
  split_ifs with hle
  · exact iff_of_true ⟨(), rfl⟩ (.inr hle)
  · rw [exists_bind_pure, hs.object_iff (not_le.mp hle)]
    exact (or_iff_left hle).symm

theorem entry_datas_iff (hlt : fd < toInt s.datas.length) : (∃ p, s.datas.entry fd = .ok p) ↔ 0 ≤ fd := by
  have := toInt_le s.datas.length
  rw [Pointers.entry_ok_iff]
  omega

/-- A table that grows to one and a half times `fd` has a place for it exactly from 2 on. -/
theorem grow_iff (s : Tables) (fd : Int) (cut : Option Nat) : (∃ s', s.grow fd cut = .ok s') ↔
    2 ≤ fd ∨ (s.contexts.resize (3 * fd.toNat / 2)).throws cut = true := by
  unfold grow
  dsimp only
  split_ifs with hc
  · exact iff_of_true ⟨_, rfl⟩ (.inr hc)
  · have hfull := Pointers.isSome_fill s.next (Bool.eq_false_iff.mpr hc)
    rw [exists_bind_pure, Pointers.object_ok_iff hfull, Pointers.length_fill, Pointers.length_resize, or_iff_left hc]
    omega

theorem find_ok (hfd : -1 ≤ fd) (autoCreate : Bool) : ∃ b, s.find fd autoCreate = .ok b := by
  unfold find
  split_ifs with hneg hle
  · exact ⟨_, rfl⟩
  · exact ⟨_, rfl⟩
  · rw [exists_bind_pure, entry_datas_iff (not_le.mp hle)]
    omega

theorem create_iff (hfd : 0 ≤ fd) : (∃ s', s.create fd = .ok s') ↔ 2 ≤ fd ∨ fd < toInt s.datas.length := by
  unfold create
  rw [exists_bind_pure]
  split_ifs with hle
  · rw [Pointers.entry_ok_iff, Pointers.length_resize]
    omega
  · rw [entry_datas_iff (not_le.mp hle)]
    omega

theorem del_iff : (∃ s', s.del fd = .ok s') ↔ 0 ≤ fd ∨ toInt s.datas.length ≤ fd := by
  unfold del
  split_ifs with hle
  · exact iff_of_true ⟨_, rfl⟩ (.inr hle)
  · rw [exists_bind_pure, entry_datas_iff (not_le.mp hle)]
    exact (or_iff_left hle).symm

theorem Sound.inRange (hs : s.Sound) {l : Section} (he : s.enabled l) : s.InRange l ↔ s.Checked l := by
  have hunit : s.InRange l ↔ ∃ r, s.step l = .ok r := ⟨fun ⟨s', h⟩ => ⟨_, h⟩, fun ⟨(u, s'), h⟩ => ⟨s', h⟩⟩
  rw [hunit]
  cases l with
  | lookup t fd =>
    simp only [step, Checked]
    split_ifs with hlt
    · rw [exists_bind_pure, hs.object_iff hlt]
      exact (or_iff_left (not_le.mpr hlt)).symm
    · exact iff_of_true ⟨_, rfl⟩ (.inr (not_lt.mp hlt))
  | resize t o =>
    obtain ⟨fd, hfd⟩ := he
    cases o with
    | refused =>
      simp only [step, Checked, hfd]
      exact iff_of_true ⟨_, rfl⟩ trivial
    | granted cut =>
      simp only [step, Checked, hfd, Stage.growing.injEq, forall_eq']
      rw [exists_bind_pure, grow_iff]
  | delEvent fd | cancelEvent fd | cancelAll fd =>
    simp only [step, Checked]
    rw [exists_bind_pure, hs.context_iff]
  | find t fd autoCreate =>
    simp only [step, Checked]
    rw [exists_bind_pure]
    exact iff_of_true (find_ok he.1 autoCreate) trivial
  | create t o =>
    obtain ⟨fd, hfd⟩ := he
    cases o with
    | false =>
      simp only [step, Checked, hfd]
      exact iff_of_true ⟨_, rfl⟩ trivial
    | true =>
      have hvalid := hs.valid t
      rw [hfd] at hvalid
      simp only [step, Checked, hfd, Stage.creating.injEq, forall_eq']
      rw [exists_bind_pure, create_iff hvalid]
  | del fd =>
    simp only [step, Checked]
    rw [exists_bind_pure, del_iff]

/-! ## What the sections keep -/

variable {s' : Tables} {l : Section}

/-- What a section does to the tables and the calls. -/
inductive Moves (s : Tables) : Section → Tables → Prop
  | stays {l : Section} : Moves s l s
  | asked {t : Nat} {fd : Int} (hle : toInt s.contexts.length ≤ fd) : Moves s (.lookup t fd) (s.goOn t (.growing fd))
  | refused {t : Nat} : Moves s (.resize t .refused) (s.goOn t .idle)
  | grown {t : Nat} {fd : Int} {cut : Option Nat} {s₁ : Tables} (ht : s.calls t = .growing fd)
      (h : s.grow fd cut = .ok s₁) : Moves s (.resize t (.granted cut)) (s₁.goOn t .idle)
  | missed {t : Nat} {fd : Int} {autoCreate : Bool} (hfd : fd ≠ -1) :
      Moves s (.find t fd autoCreate) (s.goOn t (.creating fd))
  | failed {t : Nat} : Moves s (.create t false) (s.goOn t .idle)
  | created {t : Nat} {fd : Int} {s₁ : Tables} (ht : s.calls t = .creating fd) (h : s.create fd = .ok s₁) :
      Moves s (.create t true) (s₁.goOn t .idle)
  | deleted {fd : Int} {s₁ : Tables} (h : s.del fd = .ok s₁) : Moves s (.del fd) s₁

theorem step_moves (he : s.enabled l) (h : s.step l = .ok ((), s')) : s.Moves l s' := by
  cases l with
  | lookup t fd =>
    simp only [step] at h
    split_ifs at h with hlt
    · obtain ⟨p, -, h⟩ := bind_eq_ok h
      cases h
      exact .stays
    · cases h
      exact .asked (not_lt.mp hlt)
  | resize t o =>
    obtain ⟨fd, hfd⟩ := he
    cases o with
    | refused =>
      simp only [step, hfd] at h
      cases h
      exact .refused
    | granted cut =>
      simp only [step, hfd] at h
      obtain ⟨s₁, hg, h⟩ := bind_eq_ok h
      cases h
      exact .grown hfd hg
  | delEvent fd | cancelEvent fd | cancelAll fd =>
    obtain ⟨u, -, h⟩ := bind_eq_ok h
    cases h
    exact .stays
  | find t fd autoCreate =>
    obtain ⟨b, hb, h⟩ := bind_eq_ok h
    cases h
    cases b with
    | false => exact .stays
    | true =>
      refine .missed ?_
      rintro rfl
      cases hb
  | create t o =>
    obtain ⟨fd, hfd⟩ := he
    cases o with
    | false =>
      simp only [step, hfd] at h
      cases h
      exact .failed
    | true =>
      simp only [step, hfd] at h
      obtain ⟨s₁, hg, h⟩ := bind_eq_ok h
      cases h
      exact .created hfd hg
  | del fd =>
    obtain ⟨s₁, hd, h⟩ := bind_eq_ok h
    cases h
    exact .deleted hd

theorem grow_spec {cut : Option Nat} (h : s.grow fd cut = .ok s') : s'.calls = s.calls ∧ s'.datas = s.datas ∧
    s'.contexts.length = 3 * fd.toNat / 2 ∧ (cut = none → ∀ p ∈ s'.contexts, p.isSome) := by
  have hs' : s' = { s with
      contexts := (s.contexts.resize (3 * fd.toNat / 2)).fill s.next cut
      next := s.next + (s.contexts.resize (3 * fd.toNat / 2)).length } := by
    unfold grow at h
    dsimp only at h
    split_ifs at h
    · cases h
      rfl
    · obtain ⟨p, -, h⟩ := bind_eq_ok h
      cases h
      rfl
  subst hs'
  refine ⟨rfl, rfl, ?_, ?_⟩
  · rw [Pointers.length_fill, Pointers.length_resize]
  · rintro rfl
    exact Pointers.isSome_fill _ rfl

theorem create_spec (h : s.create fd = .ok s') : s'.calls = s.calls ∧ s'.contexts = s.contexts ∧
    s'.datas.length = if fd ≥ toInt s.datas.length then 3 * fd.toNat / 2 else s.datas.length := by
  obtain ⟨p, -, h⟩ := bind_eq_ok h
  cases h
  refine ⟨rfl, rfl, ?_⟩
  rw [List.length_set]
  split_ifs
  · exact Pointers.length_resize ..
  · rfl

theorem del_spec (h : s.del fd = .ok s') :
    s'.calls = s.calls ∧ s'.contexts = s.contexts ∧ s'.datas.length = s.datas.length := by
  unfold del at h
  split_ifs at h
  · cases h
    exact ⟨rfl, rfl, rfl⟩
  · obtain ⟨p, -, h⟩ := bind_eq_ok h
    cases h
    exact ⟨rfl, rfl, List.length_set⟩

theorem goOn_contexts (s : Tables) (t : Nat) (stage : Stage) : (s.goOn t stage).contexts = s.contexts := rfl

theorem goOn_datas (s : Tables) (t : Nat) (stage : Stage) : (s.goOn t stage).datas = s.datas := rfl

/-- A property of where the calls are, when the call of `t` goes on. -/
theorem forall_goOn {P : Stage → Prop} {t : Nat} {stage : Stage} (h : ∀ u, P (s.calls u)) (ht : P stage) (u : Nat) :
    P ((s.goOn t stage).calls u) := by
  show P (Function.update s.calls t stage u)
  by_cases hu : u = t
  · rwa [hu, Function.update_self]
  · rw [Function.update_of_ne hu]
    exact h u

theorem Sound.step (hs : s.Sound) (he : s.enabled l) (hl : l.isCut = false) (h : s.step l = .ok ((), s')) :
    s'.Sound := by
  cases step_moves he h with
  | stays => exact hs
  | asked => exact ⟨hs.full, forall_goOn hs.valid trivial⟩
  | refused | failed => exact ⟨hs.full, forall_goOn hs.valid trivial⟩
  | @grown t fd cut s₁ ht hg =>
    obtain ⟨hcalls, -, -, hfull⟩ := grow_spec hg
    have hnone : cut = none := by
      cases cut with
      | none => rfl
      | some => cases hl
    exact ⟨hfull hnone, forall_goOn (hcalls ▸ hs.valid) trivial⟩
  | @missed t fd autoCreate hfd =>
    have := he.1
    exact ⟨hs.full, forall_goOn hs.valid (show 0 ≤ fd by omega)⟩
  | created ht hc =>
    obtain ⟨hcalls, hcontexts, -⟩ := create_spec hc
    exact ⟨hcontexts ▸ hs.full, forall_goOn (hcalls ▸ hs.valid) trivial⟩
  | deleted hd =>
    obtain ⟨hcalls, hcontexts, -⟩ := del_spec hd
    exact ⟨hcontexts ▸ hs.full, hcalls ▸ hs.valid⟩

theorem length_new : new.contexts.length = 32 := by
  show ((Pointers.resize [] 32).fill 0 none).length = 32
  rw [Pointers.length_fill, Pointers.length_resize]

theorem sound_new : new.Sound := ⟨Pointers.isSome_fill 0 rfl, fun _ => trivial⟩

abbrev Steps := List (Entry Tables Section Unit)

theorem Sound.run {h : Steps} (hr : Run machine h s) (hcut : ∀ e ∈ h, e.inp.isCut = false) : s.Sound :=
  hr.invariant_of hcut (fun _ hinit => hinit ▸ sound_new) fun _ hs hstep hl => hs.step hstep.1 hl hstep.2

/-- **The accesses of a section are in range, and not null, exactly when the descriptor is checked**: it is not -1, and
a table does not grow for the descriptors 0 and 1. -/
theorem inRange_iff {h : Steps} (hr : Run machine h s) (hcut : ∀ e ∈ h, e.inp.isCut = false)
    (he : machine.enabled s l) : s.InRange l ↔ s.Checked l :=
  (Sound.run hr hcut).inRange he

/-- `addEvent(40)` grows the table to 60, and `cancelEvent(59)` is in range after it. -/
theorem inRange_iff_grown : ∃ h s, Run machine h s ∧ s.contexts.length = 60 ∧ s.InRange (.cancelEvent 59) := by
  have hmiss : ¬ toInt new.contexts.length > 40 := by
    rw [length_new, toInt_of_lt (by decide)]
    decide
  have hlookup : machine.step new (.lookup 0 40) = .ok ((), new.goOn 0 (.growing 40)) := by
    simp only [machine, step]
    rw [if_neg hmiss]
    rfl
  obtain ⟨s, hg⟩ := (grow_iff (new.goOn 0 (.growing 40)) 40 none).mpr (.inl (by decide))
  have hgrow : machine.step (new.goOn 0 (.growing 40)) (.resize 0 (.granted none)) = .ok ((), s.goOn 0 .idle) := by
    show ((new.goOn 0 (.growing 40)).grow 40 none >>= fun s => pure ((), s.goOn 0 .idle)) = _
    rw [hg]
    rfl
  have he : machine.enabled new (.lookup 0 40) := ⟨by decide, rfl⟩
  have he' : machine.enabled (new.goOn 0 (.growing 40)) (.resize 0 (.granted none)) := ⟨40, rfl⟩
  have hr := ((Run.start rfl).step he hlookup).step he' hgrow
  have hcancel : machine.enabled (s.goOn 0 .idle) (.cancelEvent 59) := show (-1 : Int) ≤ 59 by decide
  refine ⟨_, _, hr, (grow_spec hg).2.2.1, (inRange_iff hr ?_ hcancel).mpr (.inl (by decide))⟩
  simp [Section.isCut]

/-- `cancelRead` of a socket without a descriptor. -/
theorem not_inRange_closed : ¬ ∀ (h : Steps) (s : Tables) (l : Section), Run machine h s → machine.enabled s l →
    s.InRange l := by
  intro hall
  have he : new.enabled (cancelRead ({ family := Sockets.IPv4, type := .TCP } : Sockets.Socket Nat)) :=
    le_refl (-1 : Int)
  rcases (sound_new.inRange he).mp (hall [] new _ (.start rfl) he) with hneg | hneg
  · exact absurd hneg (by decide)
  · rw [length_new, toInt_of_lt (by decide)] at hneg
    exact absurd hneg (by decide)

/-! ## Moderate descriptors -/

/-- Descriptors for which the tables grow to a size that is an `int`. -/
def Section.Moderate : Section → Prop
  | .lookup _ fd | .delEvent fd | .cancelEvent fd | .cancelAll fd | .del fd => 0 ≤ fd ∧ fd < 1431655766
  | .find _ fd _ => fd < 1431655766
  | .resize .. | .create .. => True

def Stage.Moderate : Stage → Prop
  | idle => True
  | growing fd => 32 ≤ fd ∧ fd < 1431655766
  | creating fd => 0 ≤ fd ∧ fd < 1431655766

/-- The sizes are those of the constructors or more, and `int`s. -/
structure Sized (s : Tables) : Prop where
  contexts : 32 ≤ s.contexts.length ∧ s.contexts.length < 2 ^ 31
  datas : 64 ≤ s.datas.length ∧ s.datas.length < 2 ^ 31
  moderate : ∀ t, (s.calls t).Moderate

theorem Sized.step (hs : s.Sized) (he : s.enabled l) (hl : l.Moderate) (h : s.step l = .ok ((), s')) : s'.Sized := by
  have hcontexts := toInt_of_lt hs.contexts.2
  have hdatas := toInt_of_lt hs.datas.2
  obtain ⟨hlow, -⟩ := hs.contexts
  obtain ⟨hlow', hhigh'⟩ := hs.datas
  cases step_moves he h with
  | stays => exact hs
  | @asked t fd hle =>
    exact ⟨hs.contexts, hs.datas, forall_goOn hs.moderate (show 32 ≤ fd ∧ fd < 1431655766 from ⟨by omega, hl.2⟩)⟩
  | refused | failed => exact ⟨hs.contexts, hs.datas, forall_goOn hs.moderate trivial⟩
  | grown ht hg =>
    obtain ⟨hcalls, hd, hlen, -⟩ := grow_spec hg
    obtain ⟨h32, hlt⟩ := ht ▸ hs.moderate _
    refine ⟨?_, hd ▸ hs.datas, forall_goOn (hcalls ▸ hs.moderate) trivial⟩
    rw [goOn_contexts, hlen]
    omega
  | @missed t fd autoCreate hfd =>
    have := he.1
    exact ⟨hs.contexts, hs.datas, forall_goOn hs.moderate (show 0 ≤ fd ∧ fd < 1431655766 from ⟨by omega, hl⟩)⟩
  | created ht hc =>
    obtain ⟨hcalls, hcon, hlen⟩ := create_spec hc
    obtain ⟨h0, hlt⟩ := ht ▸ hs.moderate _
    refine ⟨hcon ▸ hs.contexts, ?_, forall_goOn (hcalls ▸ hs.moderate) trivial⟩
    rw [goOn_datas, hlen]
    split_ifs <;> omega
  | deleted hd =>
    obtain ⟨hcalls, hcon, hlen⟩ := del_spec hd
    exact ⟨hcon ▸ hs.contexts, hlen ▸ hs.datas, hcalls ▸ hs.moderate⟩

/-- **Descriptors below 1431655766 are safe**: no access with one of them is out of range or null. -/
theorem inRange_of_moderate {h : Steps} (hr : Run machine h s) (hcut : ∀ e ∈ h, e.inp.isCut = false)
    (hh : ∀ e ∈ h, e.inp.Moderate) (he : machine.enabled s l) (hl : l.Moderate) : s.InRange l := by
  have hnew : new.Sized := ⟨by decide, by decide, fun _ => trivial⟩
  have hsized : s.Sized :=
    hr.invariant_of hh (fun _ hinit => hinit ▸ hnew) fun _ hs hstep hl => hs.step hstep.1 hl hstep.2
  rw [(Sound.run hr hcut).inRange he]
  cases l with
  | lookup t fd | delEvent fd | cancelEvent fd | cancelAll fd | del fd => exact .inl hl.1
  | resize t o =>
    cases o with
    | refused => trivial
    | granted cut =>
      intro fd hfd
      obtain ⟨h32, -⟩ := hfd ▸ hsized.moderate t
      exact .inl (by omega)
  | find t fd autoCreate => trivial
  | create t o =>
    cases o with
    | false => trivial
    | true =>
      intro fd hfd
      have hlow := hsized.datas.1
      rw [toInt_of_lt hsized.datas.2]
      omega

/-! ## The sections of `addEvent` and of `get` -/

def Follows (s : Tables) : Option Section → Tables → Prop
  | some l, s' => s.step l = .ok ((), s')
  | none, s' => s' = s

theorem comp_update_eq {α : Type} (g : α → Stage) (f : Nat → α) (t : Nat) (c : α) :
    (fun u => g (Function.update f t c u)) = Function.update (fun u => g (f u)) t (g c) := by
  funext u
  exact Function.apply_update (fun _ => g) f t c u

section
variable {σ φ κ : Type} {mem : IOManager.Memory}

def Stage.ofCall : IOManager.Stage σ φ κ → Stage
  | .grow r => .growing r.fd
  | _ => .idle

/-- The table of the model of `addEvent` in sections, where no pointer is null. -/
def ofShared (s : IOManager.Shared Nat σ φ κ) (datas : Pointers) : Tables where
  contexts := s.table.map some
  datas := datas
  next := s.next
  calls t := .ofCall (s.calls t)

theorem ofShared_calls {s : IOManager.Shared Nat σ φ κ} {t : Nat} {c : IOManager.Stage σ φ κ} (h : s.calls t = c)
    (datas : Pointers) : (ofShared s datas).calls t = .ofCall c := congrArg Stage.ofCall h

/-- The sections of `addEvent`, less what follows under the mutex of the context. -/
def Section.ofShared : IOManager.Section Nat σ φ κ → Option Section
  | .lookup t r => some (.lookup t r.fd)
  | .resize t => some (.resize t (.granted none))
  | .register .. => none

theorem fill_resize_map {table table' : List Nat} {next size : Nat}
    (h : IOManager.contextResize mem (next + ·) table size = .ok table') :
    (Pointers.resize (table.map some) size).fill next none = table'.map some := by
  unfold IOManager.contextResize at h
  split_ifs at h
  cases h
  refine List.ext_getElem ?_ fun i hi hi' => ?_
  · rw [Pointers.length_fill, Pointers.length_resize, List.length_map, List.length_append, List.length_take,
      List.length_map, List.length_range']
    omega
  · have hsize : i < size := by rwa [Pointers.length_fill, Pointers.length_resize] at hi
    simp only [Pointers.fill, Pointers.resize, List.getElem_mapIdx, List.getElem_map, Option.all_none, if_true,
      List.getElem_append, List.length_take, List.length_map, List.getElem_take, List.getElem_replicate,
      List.getElem_range']
    split_ifs with hlt
    · rfl
    · show some (next + i) = some (next + _)
      congr 2
      omega

theorem object_map {table : List Nat} {p : Nat} (h : IOManager.pointer table fd = .ok p) :
    Pointers.object (table.map some) fd = .ok p := by
  unfold IOManager.pointer at h
  unfold Pointers.object Pointers.entry
  split_ifs at h ⊢
  rw [List.getElem?_map]
  cases hp : table[fd.toNat]? with
  | none => simp [hp] at h
  | some q =>
    rw [hp] at h
    cases h
    rfl

/-- A thread whose call is not between the sections stays so. -/
theorem goOn_idle {t : Nat} (h : s.calls t = .idle) : s.goOn t .idle = s := by
  show { s with calls := Function.update s.calls t .idle } = s
  rw [← h, Function.update_eq_self]

/-- **Every section of `addEvent` is a step of the tables**, or leaves them as they are. -/
theorem shared_simulated {s s' : IOManager.Shared Nat σ φ κ} {l : IOManager.Section Nat σ φ κ} {o : Int}
    (ha : s.Allowed l) (h : s.step mem l = .ok (o, s')) (datas : Pointers) :
    (ofShared s datas).Follows (Section.ofShared l) (ofShared s' datas) := by
  have hlen : (ofShared s datas).contexts.length = s.table.length := List.length_map ..
  have hcalls : ∀ (x : IOManager.Shared Nat σ φ κ) t c,
      ofShared { x with calls := Function.update x.calls t c } datas = (ofShared x datas).goOn t (.ofCall c) := by
    intro x t c
    unfold ofShared goOn
    dsimp only
    rw [comp_update_eq Stage.ofCall]
  cases IOManager.Shared.step_moves ha h with
  | @found t r p hlt hp =>
    have hidle : (ofShared s datas).calls t = .idle := by
      cases hc : s.calls t with
      | idle => exact ofShared_calls hc datas
      | grow | holds => simp [IOManager.Shared.Allowed, hc, IOManager.Stage.isIdle] at ha
    rw [hcalls]
    show (ofShared s datas).step (.lookup t r.fd) = .ok ((), (ofShared s datas).goOn t .idle)
    rw [goOn_idle hidle]
    unfold step
    dsimp only
    rw [hlen, if_pos hlt, show (ofShared s datas).contexts = s.table.map some from rfl, object_map hp]
    rfl
  | @missing t r hle =>
    rw [hcalls]
    show (ofShared s datas).step (.lookup t r.fd) = .ok ((), (ofShared s datas).goOn t (.growing r.fd))
    unfold step
    dsimp only
    rw [hlen, if_neg hle]
    rfl
  | @resized t r table p ht hc hp =>
    have hgrow : (ofShared s datas).grow r.fd none = .ok { ofShared s datas with
        contexts := table.map some, next := s.next + 3 * r.fd.toNat / 2 } := by
      unfold grow
      dsimp only
      rw [Pointers.length_resize, show (ofShared s datas).contexts = s.table.map some from rfl,
        show (ofShared s datas).next = s.next from rfl, fill_resize_map hc, object_map hp]
      rfl
    have hstage : (ofShared s datas).calls t = .growing r.fd := ofShared_calls ht datas
    show (ofShared s datas).step (.resize t (.granted none)) = _
    unfold step
    simp only [hstage, hgrow]
    unfold ofShared
    dsimp only
    rw [comp_update_eq Stage.ofCall]
    rfl
  | @refused t r p ht =>
    rw [hcalls]
    exact goOn_idle (ofShared_calls ht datas)
  | @registered t r p c ht hc =>
    have := hcalls s t .idle
    exact this.trans (goOn_idle (ofShared_calls ht datas))

def Stage.ofPending : Option Int → Stage
  | some fd => .creating fd
  | none => .idle

def ofSections (s : Sections) (contexts : Pointers) : Tables where
  contexts := contexts
  datas := s.mgr.datas
  next := s.mgr.next
  calls t := .ofPending (s.pending t)

def Section.ofOp : Sections.Op → Option Section
  | .lookup t fd autoCreate => some (.find t fd autoCreate)
  | .create t => some (.create t true)
  | .del fd => some (.del fd)
  | .setTimeout .. => none
  | .descriptors _ => none

theorem entry_of_data {m : FdManager} {p : Option Nat} (h : m.data fd = .ok p) :
    Pointers.entry m.datas fd = .ok p := by
  unfold FdManager.data at h
  unfold Pointers.entry
  split_ifs at h ⊢
  cases hp : m.datas[fd.toNat]? with
  | none => simp [hp] at h
  | some q =>
    rw [hp] at h
    cases h
    rfl

theorem find_of_find {s : Sections} {autoCreate : Bool} {r : Option (Option Nat)}
    (h : s.mgr.find fd autoCreate = .ok r) (contexts : Pointers) :
    (ofSections s contexts).find fd autoCreate = .ok r.isNone := by
  unfold FdManager.find at h
  unfold find
  rw [show (ofSections s contexts).datas = s.mgr.datas from rfl]
  split_ifs at h ⊢ with hneg hle hauto
  · cases h
    rfl
  · cases h
    rw [hauto]
    rfl
  · cases h
    rw [Bool.eq_false_iff.mpr hauto]
    rfl
  · obtain ⟨p, hp, h⟩ := bind_eq_ok h
    rw [entry_of_data hp]
    cases h
    show Except.ok (!(p.isSome || !autoCreate)) = _
    cases hsome : p.isSome || !autoCreate
    · rfl
    · rfl

theorem create_of_create {s : Sections} {p : Nat} {mgr : FdManager} {k k' : Kernel}
    (h : s.mgr.create mem fd k = .ok (p, mgr, k')) (contexts : Pointers) :
    (ofSections s contexts).create fd = .ok { ofSections s contexts with datas := mgr.datas, next := mgr.next } := by
  unfold FdManager.create at h
  generalize FdCtx.new fd k = r at h
  obtain ⟨m₁, hm₁, h⟩ := bind_eq_ok h
  obtain ⟨q, hq, h⟩ := bind_eq_ok h
  cases h
  have hnext : m₁.next = s.mgr.next ∧ m₁.datas =
      if fd ≥ toInt s.mgr.datas.length then Pointers.resize s.mgr.datas (3 * fd.toNat / 2) else s.mgr.datas := by
    unfold FdManager.reserve FdManager.resize at hm₁
    split_ifs at hm₁ ⊢
    · cases hm₁
      exact ⟨rfl, rfl⟩
    · cases hm₁
      exact ⟨rfl, rfl⟩
  unfold create
  dsimp only
  rw [show (ofSections s contexts).datas = s.mgr.datas from rfl, ← hnext.2, entry_of_data hq]
  show Except.ok _ = _
  rw [hnext.1]
  rfl

theorem del_of_del {s : Sections} {mgr : FdManager} (h : s.mgr.del fd = .ok mgr) (contexts : Pointers) :
    (ofSections s contexts).del fd = .ok (ofSections { s with mgr } contexts) := by
  unfold FdManager.del at h
  unfold del
  rw [show (ofSections s contexts).datas = s.mgr.datas from rfl]
  split_ifs at h ⊢
  · cases h
    rfl
  · obtain ⟨p, hp, h⟩ := bind_eq_ok h
    rw [entry_of_data hp]
    cases h
    rfl

/-- **Every section of `get`, and every `del`, is a step of the tables.** -/
theorem sections_simulated {s s' : Sections} {op : Sections.Op} {o : Option (Int × Option Nat)}
    (h : s.step mem op = .ok (o, s')) (ha : s.enabled op) (contexts : Pointers) :
    (ofSections s contexts).Follows (Section.ofOp op) (ofSections s' contexts) := by
  cases op with
  | lookup t fd autoCreate =>
    obtain ⟨r, hr, h⟩ := bind_eq_ok h
    show (ofSections s contexts).step (.find t fd autoCreate) = _
    unfold step
    dsimp only
    rw [find_of_find hr]
    cases r with
    | none =>
      cases h
      unfold ofSections
      dsimp only
      rw [comp_update_eq Stage.ofPending]
      rfl
    | some p =>
      cases h
      rfl
  | create t =>
    obtain ⟨fd, hfd⟩ := Option.ne_none_iff_exists'.mp ha
    simp only [Sections.step, hfd] at h
    obtain ⟨⟨p, mgr, k⟩, hc, h⟩ := bind_eq_ok h
    cases h
    have hstage : (ofSections s contexts).calls t = .creating fd := congrArg Stage.ofPending hfd
    show (ofSections s contexts).step (.create t true) = _
    unfold step
    simp only [hstage, create_of_create hc]
    unfold ofSections
    dsimp only
    rw [comp_update_eq Stage.ofPending]
    rfl
  | setTimeout p type v =>
    cases h
    rfl
  | del fd =>
    obtain ⟨mgr, hd, h⟩ := bind_eq_ok h
    cases h
    show (ofSections s contexts).step (.del fd) = _
    unfold step
    dsimp only
    rw [del_of_del hd]
    rfl
  | descriptors k =>
    cases h
    rfl

end

end Tables

end QWebServer
