import Mathlib
import QWebServer.IOManager.Bookkeeping
import QWebServer.Socket.Model

/-!
# `Socket::close` and the events of its descriptor

* `Socket`, `Socket.close` : `close` is not hooked, so that the kernel drops the descriptor from the epoll set and
  nothing else happens; `close_view` : the same `close` as that of the sockets with their addresses;
* `CtlOp.accepted` : the operations that `epoll_ctl` accepts, `readd` : `addEvent` with this answer;
* `Released` : what is left of a closed descriptor lets its number be used again;
* `step_setEpoll` : operations do the same to the contexts whatever is registered, `closing` : operations and closes in
  any order, `run_closing` : the managers they reach;
* `not_released` : a close releases nothing when somebody waits.
-/

namespace QWebServer

open Lib
open IOManager

/-- `Socket`, as far as `close` reads it. -/
structure Socket where
  sock : Int := -1
  isconnected : Bool := false

variable {σ φ κ : Type}

/-- `Socket::close`, with the manager in whose epoll set the descriptor is; `rt` tells whether `::close` returns 0. -/
def Socket.close (s : Socket) (m : IOManager σ φ κ) (rt : Bool) : Reply σ φ κ × Socket × IOManager σ φ κ :=
  if !s.isconnected && s.sock = -1 then ({ ret := 1 }, s, m)
  else
    let s := { s with isconnected := false }
    if s.sock ≠ -1 && rt then
      ({ ret := 1 }, { s with sock := -1 }, { m with epoll := Function.update m.epoll s.sock none })
    else ({ ret := 0 }, s, m)

/-- What `close` reads of a socket with its addresses. -/
def Sockets.Socket.view {α : Type} (x : Sockets.Socket α) : QWebServer.Socket := ⟨x.sock, x.isconnected⟩

/-- **One `close`** seen from the sockets and from the manager: the same result, the same members, and the descriptor
leaves the epoll set exactly when it leaves the table of open ones. -/
theorem Sockets.Socket.close_view {α : Type} (x : Sockets.Socket α) (k : Sockets.Kernel α) (m : IOManager σ φ κ)
    (rt : Bool) : (x.view.close m rt).1 = { ret := if (x.close k rt).1 then 1 else 0 } ∧
      (x.view.close m rt).2.1 = (x.close k rt).2.1.view ∧
      ((x.close k rt).2.2 = k ∧ (x.view.close m rt).2.2 = m ∨
        (x.close k rt).2.2 = Function.update k x.sock none ∧
          (x.view.close m rt).2.2 = { m with epoll := Function.update m.epoll x.sock none }) := by
  unfold Sockets.Socket.close QWebServer.Socket.close view
  by_cases hx : x.sock = -1
  · cases hc : x.isconnected <;> simp [hx, hc]
  · cases rt <;> simp [hx]

/-- `epoll_ctl` adds what is not registered, and changes and removes what is. -/
def IOManager.CtlOp.accepted (registered : Option (BitVec 32)) : CtlOp → Bool
  | .add => registered.isNone
  | .mod => registered.isSome
  | .del => registered.isSome

/-- `addEvent` on the context `c` of `fd`, with the answer of the kernel. -/
def IOManager.readd (mem : Memory) (m : IOManager σ φ κ) (fd : Int) (c : FdContext σ φ κ) (event : Event)
    (cb : Option κ)
    (caller : Caller σ φ) : Except Fault (Int × IOManager σ φ κ) :=
  m.addEvent mem fd event cb caller ((if c.events ≠ 0#32 then CtlOp.mod else CtlOp.add).accepted (m.epoll fd))

/-- **What a close should leave** of the context `c` of `fd`: no event bits, every waiter scheduled, and a number on
which events can be added again. -/
structure Released (mem : Memory) (c : FdContext σ φ κ) (fd : Int) (r : Reply σ φ κ) (m : IOManager σ φ κ) : Prop where
  bits : ∀ c', m.fdContext fd = .ok c' → c'.events = 0#32
  scheduled : ∀ e : Event, c.events &&& e.mask ≠ 0#32 → ∃ call ∈ r.scheduled,
    (c.getContext e).schedular = some call.1 ∧ (c.getContext e).fiber = call.2.fiber ∧ (c.getContext e).cb = call.2.cb
  reusable : ∀ c', m.fdContext fd = .ok c' → ∀ (event : Event) (cb : Option κ) (caller : Caller σ φ),
    caller.schedular.isSome → caller.state = .exec → ∃ m', m.readd mem fd c' event cb caller = .ok (0, m')

/-! ## Registrations are only written -/

def IOManager.setEpoll (m : IOManager σ φ κ) (x : Int → Option (BitVec 32)) : IOManager σ φ κ := { m with epoll := x }

/-- A result less the registrations. -/
def IOManager.forget {α : Type} (r : α × IOManager σ φ κ) : α × IOManager σ φ κ := (r.1, r.2.setEpoll fun _ => none)

section
variable (m : IOManager σ φ κ) (x : Int → Option (BitVec 32)) (fd : Int) (e : Event) (rt : Bool)

theorem trigger_setEpoll : (m.setEpoll x).trigger fd e = (m.trigger fd e).map fun r => (r.1, r.2.setEpoll x) := by
  unfold trigger
  rw [show (m.setEpoll x).fdContext fd = m.fdContext fd from rfl]
  cases m.fdContext fd with
  | error f => rfl
  | ok c =>
    dsimp only [bind, Except.bind]
    cases c.triggerEvent e <;> rfl

theorem triggerIf_setEpoll (ev : BitVec 32) :
    (m.setEpoll x).triggerIf fd ev e = (m.triggerIf fd ev e).map fun r => (r.1, r.2.setEpoll x) := by
  unfold triggerIf
  split_ifs
  · rw [trigger_setEpoll]
    cases m.trigger fd e <;> rfl
  · rfl

theorem epollCtl_setEpoll (op : CtlOp) (ev : BitVec 32) :
    (m.setEpoll x).epollCtl op fd ev rt =
      if rt then some (m.setEpoll (Function.update x fd (op.apply ev))) else none := rfl

theorem epollCtl_eq (op : CtlOp) (ev : BitVec 32) :
    m.epollCtl op fd ev rt = if rt then some (m.setEpoll (Function.update m.epoll fd (op.apply ev))) else none := rfl

theorem delEvent_setEpoll : ((m.setEpoll x).delEvent fd e rt).map forget = (m.delEvent fd e rt).map forget := by
  unfold delEvent
  rw [show (m.setEpoll x).fdContexts = m.fdContexts from rfl,
    show (m.setEpoll x).fdContext fd = m.fdContext fd from rfl]
  split_ifs
  · rfl
  · cases m.fdContext fd with
    | error f => rfl
    | ok c =>
      dsimp only [bind, Except.bind]
      by_cases hz : c.events &&& e.mask = 0#32
      · rw [if_pos hz, if_pos hz]
        rfl
      · rw [if_neg hz, if_neg hz]
        cases rt <;> rfl

theorem cancelEvent_setEpoll :
    ((m.setEpoll x).cancelEvent fd e rt).map (fun r => (r.1, forget r.2)) =
      (m.cancelEvent fd e rt).map fun r => (r.1, forget r.2) := by
  unfold cancelEvent
  rw [show (m.setEpoll x).fdContexts = m.fdContexts from rfl,
    show (m.setEpoll x).fdContext fd = m.fdContext fd from rfl]
  split_ifs
  · rfl
  · cases m.fdContext fd with
    | error f => rfl
    | ok c =>
      dsimp only [bind, Except.bind]
      by_cases hz : c.events &&& e.mask = 0#32
      · rw [if_pos hz, if_pos hz]
        rfl
      · rw [if_neg hz, if_neg hz, epollCtl_setEpoll, epollCtl_eq]
        cases rt with
        | false => rfl
        | true =>
          simp only [if_true, trigger_setEpoll]
          cases m.trigger fd e <;> rfl

theorem cancelAll_setEpoll :
    ((m.setEpoll x).cancelAll fd rt).map (fun r => (r.1, forget r.2)) =
      (m.cancelAll fd rt).map fun r => (r.1, forget r.2) := by
  unfold cancelAll
  rw [show (m.setEpoll x).fdContexts = m.fdContexts from rfl,
    show (m.setEpoll x).fdContext fd = m.fdContext fd from rfl]
  split_ifs
  · rfl
  · cases m.fdContext fd with
    | error f => rfl
    | ok c =>
      dsimp only [bind, Except.bind]
      split_ifs
      · rfl
      · rw [epollCtl_setEpoll, epollCtl_eq]
        cases rt with
        | false => rfl
        | true =>
          have hctx : ∀ (m : IOManager σ φ κ) y, (m.setEpoll y).fdContext fd = m.fdContext fd := fun _ _ => rfl
          simp only [if_true, hctx]
          cases m.fdContext fd with
          | error f => rfl
          | ok c₁ =>
            simp only [triggerIf_setEpoll]
            cases m.triggerIf fd c₁.events .read with
            | error f => rfl
            | ok r₁ =>
              simp only [Except.map, hctx]
              cases r₁.2.fdContext fd with
              | error f => rfl
              | ok c₂ =>
                simp only [triggerIf_setEpoll]
                cases r₁.2.triggerIf fd c₂.events .write with
                | error f => rfl
                | ok r₂ =>
                  simp only [Except.map, hctx]
                  cases r₂.2.fdContext fd with
                  | error f => rfl
                  | ok c₃ =>
                    dsimp only
                    split_ifs <;> rfl

theorem idleEvent_setEpoll (rep : BitVec 32) :
    ((m.setEpoll x).idleEvent fd rep rt).map forget = (m.idleEvent fd rep rt).map forget := by
  unfold idleEvent
  rw [show (m.setEpoll x).fdContext fd = m.fdContext fd from rfl]
  cases m.fdContext fd with
  | error f => rfl
  | ok c =>
    dsimp only [bind, Except.bind]
    by_cases hz : c.events &&& realEvents rep c.events = 0#32
    · rw [if_pos hz, if_pos hz]
      rfl
    · rw [if_neg hz, if_neg hz, epollCtl_setEpoll, epollCtl_eq]
      cases rt with
      | false => rfl
      | true =>
        simp only [if_true, triggerIf_setEpoll]
        cases m.triggerIf fd (realEvents rep c.events) .read with
        | error f => rfl
        | ok r₁ =>
          simp only [Except.map, triggerIf_setEpoll]
          cases r₁.2.triggerIf fd (realEvents rep c.events) .write <;> rfl

theorem addEventAt_setEpoll (cb : Option κ) (caller : Caller σ φ) :
    ((m.setEpoll x).addEventAt fd e cb caller rt).map forget = (m.addEventAt fd e cb caller rt).map forget := by
  unfold addEventAt
  rw [show (m.setEpoll x).fdContext fd = m.fdContext fd from rfl]
  cases m.fdContext fd with
  | error f => rfl
  | ok c =>
    dsimp only [bind, Except.bind]
    generalize (if c.events ≠ 0#32 then CtlOp.mod else CtlOp.add) = op
    by_cases hz : c.events &&& e.mask ≠ 0#32
    · rw [if_pos hz, if_pos hz]
    · rw [if_neg hz, if_neg hz, epollCtl_setEpoll, epollCtl_eq]
      cases rt with
      | false => rfl
      | true =>
        simp only [if_true]
        split_ifs <;> rfl

theorem addEvent_setEpoll (mem : Memory) (cb : Option κ) (caller : Caller σ φ) :
    ((m.setEpoll x).addEvent mem fd e cb caller rt).map forget = (m.addEvent mem fd e cb caller rt).map forget := by
  unfold addEvent lookup
  rw [show (m.setEpoll x).fdContexts = m.fdContexts from rfl]
  split_ifs
  · exact addEventAt_setEpoll m x fd e rt cb caller
  · cases contextResize mem freshContext m.fdContexts (3 * fd.toNat / 2) with
    | error f => rfl
    | ok table => exact addEventAt_setEpoll { m with fdContexts := table } x fd e rt cb caller

/-- **One operation** does the same to the contexts whatever is registered. -/
theorem step_setEpoll (mem : Memory) (o : Op σ φ κ) :
    (step mem (m.setEpoll x) o).map forget = (step mem m o).map forget := by
  cases o with
  | addEvent fd e cb caller rt =>
    refine bind_map_congr (addEvent_setEpoll m x fd e rt mem cb caller) ?_
    rintro ⟨a, m₁⟩ ⟨b, m₂⟩ h
    obtain ⟨rfl, h⟩ := Prod.mk.inj h
    exact congrArg (fun m => Except.ok (_, m)) h
  | delEvent fd e rt =>
    refine bind_map_congr (delEvent_setEpoll m x fd e rt) ?_
    rintro ⟨a, m₁⟩ ⟨b, m₂⟩ h
    obtain ⟨rfl, h⟩ := Prod.mk.inj h
    exact congrArg (fun m => Except.ok (_, m)) h
  | cancelEvent fd e rt =>
    refine bind_map_congr (cancelEvent_setEpoll m x fd e rt) ?_
    rintro ⟨a, l₁, m₁⟩ ⟨b, l₂, m₂⟩ h
    obtain ⟨rfl, h⟩ := Prod.mk.inj h
    obtain ⟨rfl, h⟩ := Prod.mk.inj h
    exact congrArg (fun m => Except.ok (_, m)) h
  | cancelAll fd rt =>
    refine bind_map_congr (cancelAll_setEpoll m x fd rt) ?_
    rintro ⟨a, l₁, m₁⟩ ⟨b, l₂, m₂⟩ h
    obtain ⟨rfl, h⟩ := Prod.mk.inj h
    obtain ⟨rfl, h⟩ := Prod.mk.inj h
    exact congrArg (fun m => Except.ok (_, m)) h
  | idle fd rep rt =>
    refine bind_map_congr (idleEvent_setEpoll m x fd rt rep) ?_
    rintro ⟨a, m₁⟩ ⟨b, m₂⟩ h
    obtain ⟨rfl, h⟩ := Prod.mk.inj h
    exact congrArg (fun m => Except.ok (_, m)) h

end

/-! ## Closes -/

/-- An operation on the manager, or the close of a descriptor. -/
inductive Act (σ φ κ : Type)
  | op (o : Op σ φ κ)
  | close (s : Socket) (rt : Bool)

def closing (mem : Memory) (σ φ κ : Type) : Machine (IOManager σ φ κ) (Act σ φ κ) (Reply σ φ κ) Fault where
  init m := m = IOManager.new
  enabled _ a := match a with
    | .op o => Allowed o
    | .close _ _ => True
  step m a := match a with
    | .op o => step mem m o
    | .close s rt => .ok ((s.close m rt).1, (s.close m rt).2.2)

instance (mem : Memory) (m : IOManager σ φ κ) : (a : Act σ φ κ) → Decidable ((closing mem σ φ κ).enabled m a)
  | .op o => inferInstanceAs (Decidable (Allowed o))
  | .close _ _ => isTrue trivial

theorem Socket.close_setEpoll (s : Socket) (m : IOManager σ φ κ) (rt : Bool) :
    ∃ x, (s.close m rt).2.2 = m.setEpoll x := by
  unfold Socket.close
  split
  · exact ⟨m.epoll, rfl⟩
  · dsimp only
    split
    · exact ⟨_, rfl⟩
    · exact ⟨m.epoll, rfl⟩

/-- The contexts of a reachable manager are those of a table of waiters. -/
theorem run_closing {mem : Memory} {h : List (Entry (IOManager σ φ κ) (Act σ φ κ) (Reply σ φ κ))} {m : IOManager σ φ κ}
    (hr : Run (closing mem σ φ κ) h m) : ∃ (W : Waiters σ φ κ)
    (x : Int → Option (BitVec 32)), m = W.manager.setEpoll x := by
  refine hr.invariant
    (P := fun m => ∃ (W : Waiters σ φ κ) (x : Int → Option (BitVec 32)), m = W.manager.setEpoll x) ?_ ?_
  · rintro m rfl
    obtain ⟨W, hW, -⟩ := new_manager (σ := σ) (φ := φ) (κ := κ)
    exact ⟨W, W.manager.epoll, hW⟩
  · rintro m a r m' ⟨W, x, rfl⟩ ha hs
    cases a with
    | op o =>
      have hmap := step_setEpoll W.manager x mem o
      rw [show step mem (W.manager.setEpoll x) o = .ok (r, m') from hs] at hmap
      cases hW : step mem W.manager o with
      | error f =>
        rw [hW] at hmap
        cases hmap
      | ok r₁ =>
        obtain ⟨W', hW', -⟩ := step_effect (r := r₁.1) (m := r₁.2) ha hW
        rw [hW] at hmap
        have hm := congrArg (fun p => p.2.setEpoll m'.epoll) (Except.ok.inj hmap)
        exact ⟨W', m'.epoll, by rw [← hW']; exact hm⟩
    | close s rt =>
      cases hs
      obtain ⟨y, hy⟩ := s.close_setEpoll (W.manager.setEpoll x) rt
      exact ⟨W, y, hy⟩

theorem Socket.close_eq {s : Socket} (hs : s.sock ≠ -1) (m : IOManager σ φ κ) :
    s.close m true = ({ ret := 1 }, ⟨-1, false⟩, m.setEpoll (Function.update m.epoll s.sock none)) := by
  unfold Socket.close
  simp [hs]
  rfl

theorem lt_of_fdContext {W : Waiters σ φ κ} {fd : Int} {c : FdContext σ φ κ} (h : W.manager.fdContext fd = .ok c) :
    toInt W.manager.fdContexts.length > fd := by
  obtain ⟨i, hi, rfl⟩ := inTable_of_fdContext h
  rw [Waiters.manager_length, Waiters.toInt_size]
  omega

/-- **A close with waiters releases nothing**: the event bits stay, nobody is scheduled, the same event cannot be added
again and another one is a change that `epoll_ctl` refuses. -/
theorem not_released {mem : Memory} {h : List (Entry (IOManager σ φ κ) (Act σ φ κ) (Reply σ φ κ))} {m : IOManager σ φ κ}
    (hr : Run (closing mem σ φ κ) h m) {s : Socket} {c : FdContext σ φ κ} (hc : m.fdContext s.sock = .ok c)
    (hev : c.events ≠ 0#32) {r : Reply σ φ κ} {s' : Socket} {m' : IOManager σ φ κ}
    (hcl : s.close m true = (r, s', m')) :
    ¬ Released mem c s.sock r m' ∧ m'.fdContext s.sock = .ok c ∧ r.scheduled = [] ∧
      ∀ (event : Event) (cb : Option κ) (caller : Caller σ φ), m'.readd mem s.sock c event cb caller =
        if c.events &&& event.mask ≠ 0#32 then .error .duplicate else .ok (-1, m') := by
  obtain ⟨W, x, rfl⟩ := run_closing hr
  have hfd : toInt W.manager.fdContexts.length > s.sock := lt_of_fdContext hc
  have hs : s.sock ≠ -1 := by
    intro he
    rw [he, fdContext_of_neg _ (by decide)] at hc
    cases hc
  rw [Socket.close_eq hs] at hcl
  cases hcl
  generalize hx : Function.update (W.manager.setEpoll x).epoll s.sock none = y
  have hy : y s.sock = none := hx ▸ Function.update_self ..
  have hc' : (W.manager.setEpoll y).fdContext s.sock = .ok c := hc
  refine ⟨fun hrel => hev (hrel.bits c hc'), hc', rfl, fun event cb caller => ?_⟩
  unfold IOManager.readd addEvent lookup
  rw [show ((W.manager.setEpoll x).setEpoll y).fdContexts = W.manager.fdContexts from rfl, if_pos hfd]
  dsimp only [bind, Except.bind]
  unfold addEventAt
  rw [show ((W.manager.setEpoll x).setEpoll y).fdContext s.sock = .ok c from hc,
    show ((W.manager.setEpoll x).setEpoll y).epoll s.sock = none from hy]
  simp only [bind, Except.bind, if_pos hev, CtlOp.accepted, Option.isSome_none, epollCtl, Bool.false_eq_true, if_false]
  rfl

/-- A connected socket with a reader. -/
theorem not_released_reader : ∃ h m c, Run (closing ⟨1024, by decide⟩ Nat Nat Nat) h m ∧ m.fdContext 5 = .ok c ∧
    c.events = Event.read.mask ∧ ∀ r s' m', Socket.close ⟨5, true⟩ m true = (r, s', m') →
      ¬ Released ⟨1024, by decide⟩ c 5 r m' := by
  obtain ⟨h, m, hr, hp⟩ := Run.of_replay (closing ⟨1024, by decide⟩ Nat Nat Nat) rfl
    [.op (.addEvent 5 .read none ⟨some 0, 7, .exec⟩ true)]
    (fun r => decide (r.2.fdContext 5 =
      .ok { fd := 5, read := { schedular := some 0, fiber := some 7 }, events := 1#32 }))
    (by decide)
  rw [decide_eq_true_eq] at hp
  refine ⟨h, m, _, hr, hp, rfl, fun r s' m' hcl => ?_⟩
  exact (not_released hr (s := ⟨5, true⟩) hp (by decide) hcl).1

/-- Its close leaves the event bit of the reader. -/
theorem close_keeps_reader : ¬ ∀ h m (s : Socket) c r s' m', Run (closing ⟨1024, by decide⟩ Nat Nat Nat) h m →
    m.fdContext s.sock = .ok c → c.events ≠ 0#32 → s.close m true = (r, s', m') →
      Released ⟨1024, by decide⟩ c s.sock r m' := by
  intro hall
  obtain ⟨h, m, hr, hp⟩ := Run.of_replay (closing ⟨1024, by decide⟩ Nat Nat Nat) rfl
    [.op (.addEvent 5 .read none ⟨some 0, 7, .exec⟩ true)]
    (fun r => decide (r.2.fdContext 5 =
      .ok { fd := 5, read := { schedular := some 0, fiber := some 7 }, events := 1#32 }))
    (by decide)
  rw [decide_eq_true_eq] at hp
  have hrel := hall h m ⟨5, true⟩ _ _ _ _ hr hp (by decide) (Socket.close_eq (by decide) m)
  exact absurd (hrel.bits _ hp) (by decide)

end QWebServer
