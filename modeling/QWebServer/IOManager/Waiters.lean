import Mathlib
import QWebServer.IOManager.Model

/-!
# The table of waiters behind an `IOManager`

* `Task`, `Slots`, `Waiters` : who waits for which event of which descriptor, and nothing else;
* `Waiters.manager` : the manager that stands for a table of waiters: contexts, event bits, `m_pendingEventCount` and
  the registered masks are all read off the table;
* `Waiters.patch` : such a manager in the middle of an operation on one descriptor;
* `addEventAt_manager`, `delEvent_manager`, `cancelEvent_manager`, `cancelAll_manager`, `idleEvent_manager` : what each
  operation does to the table.
-/

namespace QWebServer.IOManager

open Lib

variable {σ φ κ : Type}

/-- What waits for an event: a fiber or a callback. -/
inductive Task (φ κ : Type)
  | fiber (f : φ)
  | cb (k : κ)

/-- The entry of `m_fibers` that resumes a task. -/
def Task.entry : Task φ κ → FiberAndThread φ κ
  | .fiber f => { fiber := some f }
  | .cb k => { cb := some k }

/-- The call of `schedule` that resumes a waiter. -/
def resume (w : σ × Task φ κ) : σ × FiberAndThread φ κ := (w.1, w.2.entry)

/-- The waiters of one descriptor: the scheduler and the task of each event. -/
abbrev Slots (σ φ κ : Type) := Event → Option (σ × Task φ κ)

def EventContext.of : Option (σ × Task φ κ) → EventContext σ φ κ
  | none => {}
  | some (s, .fiber f) => { schedular := some s, fiber := some f }
  | some (s, .cb k) => { schedular := some s, cb := some k }

/-- The event bits of a descriptor with a reader and a writer or not. -/
def bits (r w : Bool) : BitVec 32 := (if r then Event.read.mask else 0#32) ||| (if w then Event.write.mask else 0#32)

def mask (ws : Slots σ φ κ) : BitVec 32 := bits (ws .read).isSome (ws .write).isSome

/-- The context of the descriptor `i` with the waiters `ws`. -/
def FdContext.of (i : Nat) (ws : Slots σ φ κ) : FdContext σ φ κ :=
  { read := .of (ws .read), write := .of (ws .write), fd := i, events := mask ws }

/-- The registration of a descriptor with the event bits `events`. -/
def registration (events : BitVec 32) : Option (BitVec 32) := if events = 0#32 then none else some (EPOLLET ||| events)

/-! ## Event bits -/

def Event.bit : Event → Nat
  | .read => 0
  | .write => 2

theorem Event.mask_eq (e : Event) : e.mask = BitVec.twoPow 32 e.bit := by
  cases e <;> rfl

theorem and_mask_eq_zero (x : BitVec 32) (e : Event) : x &&& e.mask = 0#32 ↔ x.getLsbD e.bit = false := by
  rw [Event.mask_eq, BitVec.and_twoPow]
  cases h : x.getLsbD e.bit <;> cases e <;> simp [BitVec.twoPow, Event.bit]

theorem getLsbD_bits (r w : Bool) (e : Event) :
    (bits r w).getLsbD e.bit = match e with | .read => r | .write => w := by
  cases e <;> revert r w <;> decide

theorem getLsbD_mask (ws : Slots σ φ κ) (e : Event) : (mask ws).getLsbD e.bit = (ws e).isSome := by
  rw [mask, getLsbD_bits]
  cases e <;> rfl

theorem mask_and (ws : Slots σ φ κ) (e : Event) : mask ws &&& e.mask = 0#32 ↔ ws e = none := by
  rw [and_mask_eq_zero, getLsbD_mask]
  simp

theorem mask_and_ne (ws : Slots σ φ κ) (e : Event) : mask ws &&& e.mask ≠ 0#32 ↔ ws e ≠ none :=
  not_congr (mask_and ws e)

theorem mask_or (ws : Slots σ φ κ) (e : Event) (w : σ × Task φ κ) :
    mask ws ||| e.mask = mask (Function.update ws e (some w)) := by
  cases e <;> simp only [mask, ne_eq, reduceCtorEq, not_false_eq_true, Function.update_of_ne, Function.update_self,
    Option.isSome_some] <;> generalize (ws _).isSome = r <;> generalize (ws _).isSome = w <;> revert r w <;> decide

theorem mask_andNot (ws : Slots σ φ κ) (e : Event) :
    mask ws &&& ~~~e.mask = mask (Function.update ws e none) := by
  cases e <;> simp only [mask, ne_eq, reduceCtorEq, not_false_eq_true, Function.update_of_ne, Function.update_self,
    Option.isSome_none] <;> generalize (ws _).isSome = r <;> generalize (ws _).isSome = w <;> revert r w <;> decide

theorem mask_eq_zero (ws : Slots σ φ κ) : mask ws = 0#32 ↔ ∀ e, ws e = none := by
  have : mask ws = 0#32 ↔ (ws .read).isSome = false ∧ (ws .write).isSome = false := by
    simp only [mask]
    generalize (ws .read).isSome = r
    generalize (ws .write).isSome = w
    revert r w
    decide
  rw [this]
  constructor
  · rintro ⟨hr, hw⟩ (_ | _)
    · simpa using hr
    · simpa using hw
  · intro h
    simp [h]

theorem apply_mod_del (x : BitVec 32) :
    (if x ≠ 0#32 then CtlOp.mod else CtlOp.del).apply (EPOLLET ||| x) = registration x := by
  unfold registration
  split_ifs <;> simp_all [CtlOp.apply]

theorem apply_mod_add (x y : BitVec 32) (h : x ||| y ≠ 0#32) :
    (if x ≠ 0#32 then CtlOp.mod else CtlOp.add).apply (EPOLLET ||| x ||| y) = registration (x ||| y) := by
  unfold registration
  split_ifs <;> simp_all [CtlOp.apply, BitVec.or_assoc]

/-! ## One context -/

theorem of_getContext (i : Nat) (ws : Slots σ φ κ) (e : Event) : (FdContext.of i ws).getContext e = .of (ws e) := by
  cases e <;> rfl

theorem of_events (i : Nat) (ws : Slots σ φ κ) : (FdContext.of i ws).events = mask ws := by
  unfold FdContext.of
  rfl

theorem of_and (i : Nat) (ws : Slots σ φ κ) (e : Event) : (FdContext.of i ws).events &&& e.mask = 0#32 ↔ ws e = none :=
  mask_and ws e

theorem of_triggerEvent (i : Nat) (ws : Slots σ φ κ) (e : Event) :
    (FdContext.of i ws).triggerEvent e = match ws e with
      | none => .error .notSet
      | some w => .ok (resume w, .of i (Function.update ws e none)) := by
  unfold FdContext.triggerEvent
  cases h : ws e with
  | none => rw [if_pos ((of_and i ws e).mpr h)]
  | some w =>
    rw [if_neg (fun h' => by simp [(of_and i ws e).mp h'] at h)]
    rcases w with ⟨s, f | k⟩ <;> cases e <;>
      simp [FdContext.of, FdContext.getContext, FdContext.setContext, EventContext.of, h, FiberAndThread.ofCbPtr,
        FiberAndThread.ofFiberPtr, resume, Task.entry, mask_andNot]

theorem of_register (i : Nat) (ws : Slots σ φ κ) (e : Event) (w : σ × Task φ κ) :
    { (FdContext.of i ws) with events := (FdContext.of i ws).events ||| e.mask : FdContext σ φ κ
      }.setContext e (.of (some w)) = .of i (Function.update ws e (some w)) := by
  cases e <;> simp [FdContext.of, FdContext.setContext, mask_or _ _ w]

theorem of_resetContext (i : Nat) (ws : Slots σ φ κ) (e : Event) :
    { (FdContext.of i ws) with events := (FdContext.of i ws).events &&& ~~~e.mask : FdContext σ φ κ
      }.resetContext e = .of i (Function.update ws e none) := by
  cases e <;> simp [FdContext.of, FdContext.resetContext, FdContext.setContext, EventContext.of, mask_andNot]

/-! ## The table -/

/-- Who waits for which event of which descriptor of a table of `size` contexts. -/
structure Waiters (σ φ κ : Type) where
  size : Nat
  slot : Nat → Slots σ φ κ
  outside : ∀ i, size ≤ i → slot i = fun _ => none
  bounded : size < 2 ^ 31

namespace Waiters

def count (ws : Slots σ φ κ) : Nat := (ws .read).isSome.toNat + (ws .write).isSome.toNat

def total (W : Waiters σ φ κ) : Nat := ∑ i ∈ Finset.range W.size, count (W.slot i)

/-- The masks registered with epoll. -/
def registered (W : Waiters σ φ κ) (fd : Int) : Option (BitVec 32) :=
  if fd < 0 then none else registration (mask (W.slot fd.toNat))

/-- The manager of a table of waiters. -/
def manager (W : Waiters σ φ κ) : IOManager σ φ κ :=
  { fdContexts := (List.range W.size).map fun i => .of i (W.slot i)
    pendingEventCount := UInt64.ofNat W.total
    epoll := W.registered }

/-- The table with the waiters `ws` on the descriptor `i`. -/
def put (W : Waiters σ φ κ) (i : Nat) (hi : i < W.size) (ws : Slots σ φ κ) : Waiters σ φ κ where
  size := W.size
  slot := Function.update W.slot i ws
  outside j hj := by
    rw [Function.update_of_ne (by omega)]
    exact W.outside j hj
  bounded := W.bounded

def grow (W : Waiters σ φ κ) (n : Nat) (hn : W.size ≤ n) (hb : n < 2 ^ 31) : Waiters σ φ κ where
  size := n
  slot := W.slot
  outside j hj := W.outside j (by omega)
  bounded := hb

/-- The manager of `W` in the middle of an operation on the descriptor `i`, which has the waiters `ws` now. -/
def patch (W : Waiters σ φ κ) (i : Nat) (ws : Slots σ φ κ) (p : UInt64) (e : Int → Option (BitVec 32)) :
    IOManager σ φ κ :=
  { fdContexts := (List.range W.size).map fun j => .of j (Function.update W.slot i ws j)
    pendingEventCount := p
    epoll := e }

theorem total_eq (W : Waiters σ φ κ) {n : Nat} (hn : W.size ≤ n) :
    W.total = ∑ i ∈ Finset.range n, count (W.slot i) := by
  apply Finset.sum_subset (Finset.range_subset_range.mpr hn)
  intro i _ hi
  rw [Finset.mem_range, not_lt] at hi
  simp [W.outside i hi, count]

theorem total_congr {W W' : Waiters σ φ κ} (h : W'.slot = W.slot) : W'.total = W.total := by
  rw [W.total_eq (Nat.le_max_left W.size W'.size), W'.total_eq (Nat.le_max_right W.size W'.size), h]

theorem total_update {W W' : Waiters σ φ κ} {i : Nat} {ws : Slots σ φ κ} (h : W'.slot = Function.update W.slot i ws) :
    W'.total + count (W.slot i) = W.total + count ws := by
  have hmem : i ∈ Finset.range (max (max W.size W'.size) (i + 1)) := Finset.mem_range.mpr (by omega)
  have hrest : ∀ j ∈ (Finset.range (max (max W.size W'.size) (i + 1))).erase i,
      count (Function.update W.slot i ws j) = count (W.slot j) := by
    intro j hj
    rw [Function.update_of_ne (Finset.ne_of_mem_erase hj)]
  rw [W.total_eq (n := max (max W.size W'.size) (i + 1)) (by omega),
    W'.total_eq (n := max (max W.size W'.size) (i + 1)) (by omega), h, ← Finset.add_sum_erase _ _ hmem,
    ← Finset.add_sum_erase _ (fun j => count (W.slot j)) hmem, Finset.sum_congr rfl hrest, Function.update_self]
  omega

theorem count_le (ws : Slots σ φ κ) : count ws ≤ 2 := by
  have h1 := Bool.toNat_le (ws .read).isSome
  have h2 := Bool.toNat_le (ws .write).isSome
  unfold count
  omega

/-- An `int` counts the contexts, so a `size_t` counts the waiters. -/
theorem total_lt (W : Waiters σ φ κ) : W.total < 2 ^ 64 := by
  have hb := W.bounded
  have hle : W.total ≤ ∑ _i ∈ Finset.range W.size, 2 := Finset.sum_le_sum fun i _ => count_le (W.slot i)
  rw [Finset.sum_const, Finset.card_range, smul_eq_mul] at hle
  omega

theorem registered_put (W : Waiters σ φ κ) {i : Nat} (hi : i < W.size) (ws : Slots σ φ κ) :
    (W.put i hi ws).registered = Function.update W.registered (i : Int) (registration (mask ws)) := by
  funext fd
  by_cases hfd : fd = i
  · subst hfd
    simp [registered, put]
  · rw [Function.update_of_ne hfd]
    unfold registered
    split_ifs with hneg
    · rfl
    · show registration (mask (Function.update W.slot i ws fd.toNat)) = _
      rw [Function.update_of_ne (by omega)]

/-- The manager of a changed table, as an operation that counts and registers right leaves it. -/
theorem manager_put (W : Waiters σ φ κ) {i : Nat} (hi : i < W.size) (ws : Slots σ φ κ) {p : UInt64}
    (hp : p + UInt64.ofNat (count (W.slot i)) = UInt64.ofNat W.total + UInt64.ofNat (count ws)) :
    W.patch i ws p (Function.update W.registered (i : Int) (registration (mask ws))) = (W.put i hi ws).manager := by
  have ht : UInt64.ofNat (W.put i hi ws).total = p := by
    apply add_right_cancel (b := UInt64.ofNat (count (W.slot i)))
    rw [hp, ← UInt64.ofNat_add, ← UInt64.ofNat_add, total_update rfl]
  unfold patch manager
  rw [ht, registered_put]
  rfl

theorem manager_eq_patch (W : Waiters σ φ κ) (i : Nat) :
    W.manager = W.patch i (W.slot i) (UInt64.ofNat W.total) W.registered := by
  simp [manager, patch]

theorem manager_length (W : Waiters σ φ κ) : W.manager.fdContexts.length = W.size := by
  simp [manager]

theorem toInt_size (W : Waiters σ φ κ) : toInt W.size = W.size := toInt_of_lt W.bounded

theorem patch_fdContext (W : Waiters σ φ κ) {i : Nat} (hi : i < W.size) (ws : Slots σ φ κ) (p : UInt64)
    (e : Int → Option (BitVec 32)) : (W.patch i ws p e).fdContext i = .ok (.of i ws) := by
  simp [fdContext, patch, hi]

theorem fdContext_manager (W : Waiters σ φ κ) {i : Nat} (hi : i < W.size) :
    W.manager.fdContext i = .ok (.of i (W.slot i)) := by
  rw [W.manager_eq_patch i]
  exact patch_fdContext W hi _ _ _

theorem patch_set (W : Waiters σ φ κ) (i : Nat) (ws ws' : Slots σ φ κ) (p : UInt64)
    (e : Int → Option (BitVec 32)) : (W.patch i ws p e).setFdContext i (.of i ws') = W.patch i ws' p e := by
  unfold setFdContext patch
  congr 1
  apply List.ext_getElem
  · simp
  · intro j h1 h2
    by_cases hj : i = j
    · subst hj
      simp
    · simp [List.getElem_set_ne hj, Function.update_of_ne (Ne.symm hj)]

theorem patch_length (W : Waiters σ φ κ) (i : Nat) (ws : Slots σ φ κ) (p : UInt64) (e : Int → Option (BitVec 32)) :
    (W.patch i ws p e).fdContexts.length = W.size := by
  simp [patch]

theorem patch_epollCtl (W : Waiters σ φ κ) (i : Nat) (ws : Slots σ φ κ) (p : UInt64) (k : Int → Option (BitVec 32))
    (op : CtlOp) (fd : Int) (x : BitVec 32) (rt : Bool) :
    (W.patch i ws p k).epollCtl op fd x rt =
      if rt then some (W.patch i ws p (Function.update k fd (op.apply x))) else none := rfl

/-! ## Triggering -/

theorem patch_trigger (W : Waiters σ φ κ) {i : Nat} (hi : i < W.size) (ws : Slots σ φ κ) (p : UInt64)
    (k : Int → Option (BitVec 32)) (e : Event) :
    (W.patch i ws p k).trigger i e = match ws e with
      | none => .error .notSet
      | some w => .ok (resume w, W.patch i (Function.update ws e none) (p - 1) k) := by
  unfold trigger
  rw [patch_fdContext W hi]
  simp only [bind, Except.bind, of_triggerEvent]
  cases ws e with
  | none => rfl
  | some w => exact congrArg (fun m => Except.ok (resume w, m)) (W.patch_set i ws _ (p - 1) k)

def clear (ws : Slots σ φ κ) (evs : List Event) : Slots σ φ κ := fun e => if e ∈ evs then none else ws e

/-- The calls of `schedule` that resume the waiters of `evs`. -/
def pass (ws : Slots σ φ κ) (evs : List Event) : List (σ × FiberAndThread φ κ) :=
  evs.filterMap fun e => (ws e).map resume

def sel (x : BitVec 32) (e : Event) : List Event := if x &&& e.mask = 0#32 then [] else [e]

/-- The events of a mask, in the order in which they are triggered. -/
def eventsOf (x : BitVec 32) : List Event := sel x .read ++ sel x .write

theorem mem_sel {x : BitVec 32} {e e' : Event} : e' ∈ sel x e ↔ e' = e ∧ x &&& e.mask ≠ 0#32 := by
  unfold sel
  split_ifs with h <;> simp [h]

theorem mem_eventsOf {x : BitVec 32} {e : Event} : e ∈ eventsOf x ↔ x &&& e.mask ≠ 0#32 := by
  rw [eventsOf, List.mem_append, mem_sel, mem_sel]
  cases e <;> simp

theorem eventsOf_nodup (x : BitVec 32) : (eventsOf x).Nodup := by
  unfold eventsOf sel
  split_ifs <;> simp

@[simp] theorem clear_nil (ws : Slots σ φ κ) : clear ws [] = ws := by
  funext e
  simp [clear]

theorem clear_singleton (ws : Slots σ φ κ) (e : Event) : clear ws [e] = Function.update ws e none := by
  funext e'
  by_cases h : e' = e <;> simp [clear, h]

theorem clear_append (ws : Slots σ φ κ) (xs ys : List Event) : clear (clear ws xs) ys = clear ws (xs ++ ys) := by
  funext e
  by_cases hx : e ∈ xs <;> by_cases hy : e ∈ ys <;> simp [clear, hx, hy]

theorem clear_of_notMem (ws : Slots σ φ κ) {evs : List Event} {e : Event} (h : e ∉ evs) : clear ws evs e = ws e := by
  simp [clear, h]

theorem patch_triggerIf (W : Waiters σ φ κ) {i : Nat} (hi : i < W.size) (ws : Slots σ φ κ) (p : UInt64)
    (k : Int → Option (BitVec 32)) (x : BitVec 32) (e : Event) :
    (W.patch i ws p k).triggerIf i x e =
      if ∀ e' ∈ sel x e, (ws e').isSome then
        .ok (pass ws (sel x e), W.patch i (clear ws (sel x e)) (p - UInt64.ofNat (sel x e).length) k)
      else .error .notSet := by
  unfold triggerIf sel
  rw [patch_trigger W hi]
  by_cases hx : x &&& e.mask = 0#32
  · simp [hx, pass]
  · cases he : ws e <;> simp [hx, he, bind, Except.bind, pure, Except.pure, pass, clear_singleton]

theorem patch_triggerIf_write (W : Waiters σ φ κ) {i : Nat} (hi : i < W.size) (ws : Slots σ φ κ) (p : UInt64)
    (k : Int → Option (BitVec 32)) (x y : BitVec 32) :
    (W.patch i (clear ws (sel x .read)) (p - UInt64.ofNat (sel x .read).length) k).triggerIf i y .write =
      if ∀ e ∈ sel y .write, (ws e).isSome then
        .ok (pass ws (sel y .write), W.patch i (clear ws (sel x .read ++ sel y .write))
          (p - UInt64.ofNat (sel x .read ++ sel y .write).length) k)
      else .error .notSet := by
  have hws : ∀ e ∈ sel y .write, clear ws (sel x .read) e = ws e := by
    intro e he
    apply clear_of_notMem
    simp [mem_sel, (mem_sel.mp he).1]
  have hpass : pass (clear ws (sel x .read)) (sel y .write) = pass ws (sel y .write) :=
    List.filterMap_congr fun e he => by rw [hws e he]
  have hocc : (∀ e ∈ sel y .write, (clear ws (sel x .read) e).isSome) ↔ ∀ e ∈ sel y .write, (ws e).isSome :=
    forall₂_congr fun e he => by rw [hws e he]
  rw [patch_triggerIf W hi, hpass, clear_append, List.length_append, UInt64.ofNat_add, sub_sub]
  simp only [hocc]

/-! ## The operations -/

theorem count_clear {ws : Slots σ φ κ} {evs : List Event} (hnd : evs.Nodup) (hocc : ∀ e ∈ evs, (ws e).isSome) :
    count (clear ws evs) + evs.length = count ws := by
  induction evs generalizing ws with
  | nil => simp [clear, count]
  | cons e evs ih =>
    obtain ⟨hne, hnd⟩ := List.nodup_cons.mp hnd
    have hstep : count (Function.update ws e none) + 1 = count ws := by
      obtain ⟨w, hw⟩ := Option.isSome_iff_exists.mp (hocc e (by simp))
      cases e
      · simp [count, hw, Nat.add_comm]
      · simp [count, hw]
    have hclear : clear ws (e :: evs) = clear (Function.update ws e none) evs := by
      funext e'
      by_cases h : e' = e <;> simp [clear, h]
    have hocc' : ∀ e' ∈ evs, (Function.update ws e none e').isSome := by
      intro e' he'
      rw [Function.update_of_ne (by rintro rfl; exact hne he')]
      exact hocc e' (by simp [he'])
    have hrest := ih hnd hocc'
    rw [hclear, List.length_cons]
    omega

theorem count_register {ws : Slots σ φ κ} {e : Event} (he : ws e = none) (w : σ × Task φ κ) :
    count (Function.update ws e (some w)) = count ws + 1 := by
  cases e <;> simp [count, he]
  omega

theorem pending_clear (W : Waiters σ φ κ) (i : Nat) {evs : List Event} (hnd : evs.Nodup)
    (hocc : ∀ e ∈ evs, (W.slot i e).isSome) :
    UInt64.ofNat W.total - UInt64.ofNat evs.length + UInt64.ofNat (count (W.slot i)) =
      UInt64.ofNat W.total + UInt64.ofNat (count (clear (W.slot i) evs)) := by
  rw [← count_clear hnd hocc, UInt64.ofNat_add]
  abel

theorem mask_clear (ws : Slots σ φ κ) (r w : Bool) :
    mask ws &&& ~~~(bits r w) = mask (clear ws (eventsOf (bits r w))) := by
  have : ∀ a b r w : Bool, bits a b &&& ~~~(bits r w) = bits (a && !r) (b && !w) := by decide
  have hclear : ∀ e, (clear ws (eventsOf (bits r w)) e).isSome = ((ws e).isSome && !(bits r w).getLsbD e.bit) := by
    intro e
    simp only [clear, mem_eventsOf, ne_eq, and_mask_eq_zero]
    cases (bits r w).getLsbD e.bit <;> simp
  rw [mask, mask, this, hclear, hclear, getLsbD_bits, getLsbD_bits]

theorem delEvent_manager (W : Waiters σ φ κ) {i : Nat} (hi : i < W.size) (e : Event) (rt : Bool) :
    W.manager.delEvent i e rt =
      if rt = true ∧ (W.slot i e).isSome then .ok (true, (W.put i hi (clear (W.slot i) [e])).manager)
      else .ok (false, W.manager) := by
  have hlt : ¬ (W.size : Int) ≤ i := by omega
  rw [W.manager_eq_patch i]
  unfold delEvent
  rw [patch_length, toInt_size, if_neg hlt, patch_fdContext W hi]
  simp only [bind, Except.bind, of_and]
  cases he : W.slot i e with
  | none => simp [pure, Except.pure]
  | some w =>
    cases rt with
    | false => simp [epollCtl, pure, Except.pure]
    | true =>
      simp only [epollCtl, if_true, pure, Except.pure, apply_mod_del, of_resetContext]
      rw [if_neg (by simp), if_pos (by simp),
        ← W.manager_put hi _ (W.pending_clear i (List.nodup_singleton e) (by simp [he])),
        clear_singleton, show (FdContext.of i (W.slot i)).events &&& ~~~e.mask = _ from mask_andNot _ _]
      exact congrArg (fun m => Except.ok (true, m)) (W.patch_set i _ _ _ _)

theorem cancelEvent_manager (W : Waiters σ φ κ) {i : Nat} (hi : i < W.size) (e : Event) (rt : Bool) :
    W.manager.cancelEvent i e rt =
      if rt = true ∧ (W.slot i e).isSome then
        .ok (true, pass (W.slot i) [e], (W.put i hi (clear (W.slot i) [e])).manager)
      else .ok (false, [], W.manager) := by
  have hlt : ¬ (W.size : Int) ≤ i := by omega
  rw [W.manager_eq_patch i]
  unfold cancelEvent
  rw [patch_length, toInt_size, if_neg hlt, patch_fdContext W hi]
  simp only [bind, Except.bind, of_and]
  cases he : W.slot i e with
  | none => simp [pure, Except.pure]
  | some w =>
    cases rt with
    | false => simp [patch_epollCtl, pure, Except.pure]
    | true =>
      simp only [patch_epollCtl, if_true, pure, Except.pure, apply_mod_del, patch_trigger W hi, he]
      rw [if_neg (by simp), if_pos (by simp),
        ← W.manager_put hi _ (W.pending_clear i (List.nodup_singleton e) (by simp [he])), clear_singleton,
        show (FdContext.of i (W.slot i)).events &&& ~~~e.mask = _ from mask_andNot _ _]
      simp [pass, he]

theorem pass_append (ws : Slots σ φ κ) (xs ys : List Event) : pass ws (xs ++ ys) = pass ws xs ++ pass ws ys :=
  List.filterMap_append

/-- The waiters of a mask of their own are all there. -/
theorem occupied_mask (ws : Slots σ φ κ) : ∀ e ∈ eventsOf (mask ws), (ws e).isSome := by
  intro e he
  rw [mem_eventsOf, ne_eq, mask_and] at he
  exact Option.isSome_iff_ne_none.mpr he

theorem clear_mask (ws : Slots σ φ κ) : clear ws (eventsOf (mask ws)) = fun _ => none := by
  funext e
  simp only [clear, mem_eventsOf, ne_eq, mask_and]
  split_ifs with h
  · exact h
  · rfl

theorem sel_write_clear_read (ws : Slots σ φ κ) :
    sel (mask (clear ws (sel (mask ws) .read))) .write = sel (mask ws) .write := by
  have : clear ws (sel (mask ws) .read) .write = ws .write := clear_of_notMem _ (by simp [mem_sel])
  exact if_congr (by rw [mask_and, mask_and, this]) rfl rfl

theorem cancelAll_manager (W : Waiters σ φ κ) {i : Nat} (hi : i < W.size) (rt : Bool) :
    W.manager.cancelAll i rt =
      if rt = true ∧ mask (W.slot i) ≠ 0#32 then
        .ok (true, pass (W.slot i) (eventsOf (mask (W.slot i))),
          (W.put i hi (clear (W.slot i) (eventsOf (mask (W.slot i))))).manager)
      else .ok (false, [], W.manager) := by
  have hlt : ¬ (W.size : Int) ≤ i := by omega
  rw [W.manager_eq_patch i]
  unfold cancelAll
  rw [patch_length, toInt_size, if_neg hlt, patch_fdContext W hi]
  simp only [bind, Except.bind]
  by_cases hz : mask (W.slot i) = 0#32
  · simp [of_events, hz, pure, Except.pure]
  cases rt with
  | false => simp [of_events, hz, patch_epollCtl, pure, Except.pure]
  | true =>
    have hocc := occupied_mask (W.slot i)
    have hread : ∀ e ∈ sel (mask (W.slot i)) .read, (W.slot i e).isSome :=
      fun e he => hocc e (List.mem_append_left _ he)
    have hwrite : ∀ e ∈ sel (mask (W.slot i)) .write, (W.slot i e).isSome :=
      fun e he => hocc e (List.mem_append_right _ he)
    have hclear : clear (W.slot i) (sel (mask (W.slot i)) .read ++ sel (mask (W.slot i)) .write) = fun _ => none :=
      clear_mask _
    have hreg : registration (mask fun _ => (none : Option (σ × Task φ κ))) = CtlOp.apply 0#32 .del := by
      simp [registration, mask, bits, CtlOp.apply]
    rw [of_events, if_neg hz, if_pos ⟨rfl, hz⟩, ← W.manager_put hi _ (W.pending_clear i (eventsOf_nodup _) hocc),
      clear_mask, hreg]
    simp only [patch_epollCtl, if_true]
    generalize Function.update W.registered (i : Int) (CtlOp.apply 0#32 .del) = k
    have h1 := W.patch_triggerIf hi (W.slot i) (UInt64.ofNat W.total) k (mask (W.slot i)) .read
    have h2 := W.patch_triggerIf_write hi (W.slot i) (UInt64.ofNat W.total) k (mask (W.slot i))
      (mask (clear (W.slot i) (sel (mask (W.slot i)) .read)))
    rw [if_pos hread] at h1
    rw [sel_write_clear_read, if_pos hwrite, hclear] at h2
    simp only [patch_fdContext W hi, of_events, h1, h2]
    rw [if_pos ((mask_eq_zero _).mpr fun _ => rfl), ← pass_append]
    rfl

theorem realEvents_eq (x y : BitVec 32) : ∃ r w, realEvents x y = bits r w := by
  let x' := if x &&& (EPOLLERR ||| EPOLLHUP) ≠ 0#32 then x ||| ((EPOLLIN ||| EPOLLOUT) &&& y) else x
  exact ⟨decide (x' &&& EPOLLIN ≠ 0#32), decide (x' &&& EPOLLOUT ≠ 0#32), by simp only [realEvents, bits,
    decide_eq_true_eq, x']⟩

theorem idleEvent_manager (W : Waiters σ φ κ) {i : Nat} (hi : i < W.size) (x : BitVec 32) (rt : Bool) :
    W.manager.idleEvent i x rt =
      if rt = true ∧ mask (W.slot i) &&& realEvents x (mask (W.slot i)) ≠ 0#32 then
        if ∀ e ∈ eventsOf (realEvents x (mask (W.slot i))), (W.slot i e).isSome then
          .ok (pass (W.slot i) (eventsOf (realEvents x (mask (W.slot i)))),
            (W.put i hi (clear (W.slot i) (eventsOf (realEvents x (mask (W.slot i)))))).manager)
        else .error .notSet
      else .ok ([], W.manager) := by
  rw [W.manager_eq_patch i]
  unfold idleEvent
  rw [patch_fdContext W hi]
  simp only [bind, Except.bind, of_events]
  obtain ⟨r, w, hreal⟩ := realEvents_eq x (mask (W.slot i))
  rw [hreal]
  by_cases hz : mask (W.slot i) &&& bits r w = 0#32
  · simp [hz, pure, Except.pure]
  cases rt with
  | false => simp [hz, patch_epollCtl, pure, Except.pure]
  | true =>
    have hgo : true = true ∧ mask (W.slot i) &&& bits r w ≠ 0#32 := ⟨rfl, hz⟩
    rw [if_neg hz, if_pos hgo]
    simp only [patch_epollCtl, if_true, apply_mod_del, mask_clear]
    have h1 := W.patch_triggerIf hi (W.slot i) (UInt64.ofNat W.total)
      (Function.update W.registered (i : Int) (registration (mask (clear (W.slot i) (eventsOf (bits r w))))))
      (bits r w) .read
    have h2 := W.patch_triggerIf_write hi (W.slot i) (UInt64.ofNat W.total)
      (Function.update W.registered (i : Int) (registration (mask (clear (W.slot i) (eventsOf (bits r w))))))
      (bits r w) (bits r w)
    rw [← eventsOf] at h2
    have hall : (∀ e ∈ eventsOf (bits r w), (W.slot i e).isSome) ↔
        (∀ e ∈ sel (bits r w) .read, (W.slot i e).isSome) ∧ ∀ e ∈ sel (bits r w) .write, (W.slot i e).isSome := by
      simp only [eventsOf, List.mem_append, or_imp, forall_and]
    by_cases hr : ∀ e ∈ sel (bits r w) .read, (W.slot i e).isSome
    · rw [if_pos hr] at h1
      simp only [FdContext.of, h1, h2]
      by_cases hw : ∀ e ∈ sel (bits r w) .write, (W.slot i e).isSome
      · rw [if_pos hw, if_pos (hall.mpr ⟨hr, hw⟩),
          ← W.manager_put hi _ (W.pending_clear i (eventsOf_nodup _) (hall.mpr ⟨hr, hw⟩)), eventsOf, pass_append]
        rfl
      · rw [if_neg hw, if_neg (fun h => hw (hall.mp h).2)]
    · rw [if_neg hr] at h1
      simp only [FdContext.of, h1]
      rw [if_neg (fun h => hr (hall.mp h).1)]

/-- What waits after `addEvent`: the callback, or the calling fiber if there is none. -/
def taskOf (cb : Option κ) (f : φ) : Task φ κ :=
  match cb with
  | some k => .cb k
  | none => .fiber f

theorem manager_grow (W : Waiters σ φ κ) {n : Nat} (hn : W.size ≤ n) (hb : n < 2 ^ 31) :
    (W.grow n hn hb).manager =
      { W.manager with
        fdContexts := W.manager.fdContexts.take n ++
          (List.range' W.manager.fdContexts.length (n - W.manager.fdContexts.length)).map freshContext } := by
  have htotal : (W.grow n hn hb).total = W.total := total_congr rfl
  have htable : (List.range n).map (fun i => FdContext.of i (W.slot i)) =
      (List.range W.size).map (fun i => FdContext.of i (W.slot i)) ++
        (List.range' W.size (n - W.size)).map freshContext := by
    have hfresh : ∀ i ∈ List.range' W.size (n - W.size), freshContext i = FdContext.of i (W.slot i) := by
      intro i hi
      have hle : W.size ≤ i := (List.mem_range'_1.mp hi).1
      simp [freshContext, FdContext.of, W.outside i hle, EventContext.of, mask, bits]
    rw [List.map_congr_left hfresh, ← List.map_append, List.range_eq_range', List.range_eq_range']
    have := List.range'_append_1 (s := 0) (m := W.size) (n := n - W.size)
    rw [Nat.zero_add, Nat.add_sub_cancel' hn] at this
    rw [this]
  rw [manager_length]
  unfold manager
  rw [htotal, List.take_of_length_le (by simpa using hn), ← htable]
  rfl

theorem lookup_manager {mem : Memory} {W : Waiters σ φ κ} {fd : Int} {m : IOManager σ φ κ}
    (h : lookup mem W.manager fd = .ok m) : ∃ W' : Waiters σ φ κ, m = W'.manager ∧ W'.slot = W.slot := by
  unfold lookup at h
  rw [manager_length, toInt_size] at h
  split_ifs at h with hfd
  · cases h
    exact ⟨W, rfl, rfl⟩
  have hle : W.size ≤ 3 * fd.toNat / 2 := by omega
  unfold contextResize at h
  split_ifs at h with hcap
  · cases h
    exact ⟨W.grow _ hle (lt_of_le_of_lt hcap mem.bounded), (W.manager_grow hle _).symm, rfl⟩
  · cases h

theorem pending_register (W : Waiters σ φ κ) {i : Nat} {e : Event} (he : W.slot i e = none) (w : σ × Task φ κ) :
    UInt64.ofNat W.total + 1 + UInt64.ofNat (count (W.slot i)) =
      UInt64.ofNat W.total + UInt64.ofNat (count (Function.update (W.slot i) e (some w))) := by
  rw [count_register he, UInt64.ofNat_add]
  show _ = _ + (_ + 1)
  abel

theorem addEventAt_manager (W : Waiters σ φ κ) {i : Nat} (hi : i < W.size) (e : Event) (cb : Option κ)
    {caller : Caller σ φ} {s : σ} (hs : caller.schedular = some s) (rt : Bool) :
    W.manager.addEventAt i e cb caller rt =
      if (W.slot i e).isSome then .error .duplicate
      else if rt = false then .ok (-1, W.manager)
      else if cb = none ∧ caller.state ≠ .exec then .error .notExec
      else .ok (0, (W.put i hi (Function.update (W.slot i) e (some (s, taskOf cb caller.fiber)))).manager) := by
  rw [W.manager_eq_patch i]
  unfold addEventAt
  rw [patch_fdContext W hi]
  simp only [bind, Except.bind]
  cases he : W.slot i e with
  | some w =>
    have : (FdContext.of i (W.slot i)).events &&& e.mask ≠ 0#32 := by
      rw [ne_eq, of_and, he]
      simp
    simp [this]
  | none =>
    have hfree : ¬ (FdContext.of i (W.slot i)).events &&& e.mask ≠ 0#32 := by
      simp [of_and, he]
    cases rt with
    | false => simp [hfree, patch_epollCtl, pure, Except.pure]
    | true =>
      have hctx : { FdContext.of i (W.slot i) with events := (FdContext.of i (W.slot i)).events ||| e.mask :
          FdContext σ φ κ }.getContext e = {} := by
        cases e <;> simp [FdContext.of, FdContext.getContext, EventContext.of, he]
      have hmask : (FdContext.of i (W.slot i)).events ||| e.mask =
          mask (Function.update (W.slot i) e (some (s, taskOf cb caller.fiber))) := mask_or _ _ _
      have hne : (FdContext.of i (W.slot i)).events ||| e.mask ≠ 0#32 := by
        intro h0
        have := (mask_eq_zero _).mp (hmask.symm.trans h0) e
        simp at this
      have hset := of_register i (W.slot i) e (s, taskOf cb caller.fiber)
      have hstate := W.patch_set i (W.slot i) (Function.update (W.slot i) e (some (s, taskOf cb caller.fiber)))
        (UInt64.ofNat W.total + 1) (Function.update W.registered (i : Int)
          (registration (mask (Function.update (W.slot i) e (some (s, taskOf cb caller.fiber))))))
      rw [W.manager_put hi _ (W.pending_register he (s, taskOf cb caller.fiber)), ← hset, ← hmask] at hstate
      dsimp only at hctx hstate
      simp only [patch_epollCtl, apply_mod_add _ _ hne, hctx, if_neg hfree, if_true, Option.isSome_none,
        Bool.false_eq_true, if_false, Bool.or_self, reduceCtorEq, pure, Except.pure, ← hstate]
      cases cb with
      | some k => simp [hs, EventContext.of, taskOf, patch]
      | none =>
        by_cases hx : caller.state = .exec
        · simp [hx, hs, EventContext.of, taskOf, patch]
        · simp [hx]

end Waiters

end QWebServer.IOManager
