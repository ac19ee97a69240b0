import QWebServer.Lib.Count
import QWebServer.Schedular.Hands

/-!
# The ledger of a scheduler

* `inHand`, `leaving`, `activeWorkers` : how many workers have a node in their hand, have a fiber on its way out as
  `READY`, and are between taking an entry and their decrement;
* `Turn` : what a worker's move does to these, `Ambient` : what the other moves do;
* `Move.turn` : every move is one or the other, `Move.counter` : the part about `m_activeThreadCount`, of any state;
* `Ledger` : the nodes, the `READY` fibers and `m_activeThreadCount` balance, `Ledger.move` : moves keep it.
-/

namespace QWebServer.Schedular

open Lib

variable {τ κ : Type}

/-- The entry in the hand, from the scan to the moment its fiber or callback is executed. -/
def Pc.entry : Pc κ → Option (Item κ)
  | .taken x => some x
  | .swapIn x _ _ => some x
  | .load x _ _ => some x
  | _ => none

/-- The node of that entry. -/
def Pc.node (pc : Pc κ) : Option Nat := pc.entry.map (·.node)

/-- The fiber that is on its way out as `READY`, up to its push. -/
def Pc.readies : Pc κ → Option Addr
  | .exec f _ (.leaving o) => if o = .ready then some f else none
  | .back f _ o => if o = .ready then some f else none
  | .check f _ o => if o = .ready then some f else none
  | .requeue f _ => some f
  | _ => none

/-- The worker is between taking an entry and its decrement of `m_activeThreadCount`. -/
def Pc.active : Pc κ → Bool
  | .taken _ => true
  | .swapIn _ _ _ => true
  | .load _ _ _ => true
  | .exec _ _ _ => true
  | .back _ _ _ => true
  | .discard => true
  | _ => false

def Pc.weight (pc : Pc κ) : UInt64 := if pc.active then 1 else 0

def queued (s : Schedular τ κ) (n : Nat) : Nat := (s.queue.map (·.node)).count n

/-- The node has been pushed. -/
def issued (s : Schedular τ κ) (n : Nat) : Nat := if n < s.pushed then 1 else 0

/-- What the move of the worker `t` to `pc` does. -/
structure Turn [DecidableEq τ] (s s' : Schedular τ κ) (r : Reply) (t : τ) (pc : Pc κ) : Prop where
  workers : ∃ c, s'.workers = Function.update s.workers t ⟨pc, c⟩
  nodes : ∀ n, s'.queued n + r.executed.count n + r.dropped.count n + pc.node.toList.count n + s.issued n =
    s.queued n + (s.workers t).pc.node.toList.count n + s'.issued n
  ready : (s.workers t).pc.readies.toList ++ r.readied = r.requeued ++ pc.readies.toList
  active : s'.activeThreadCount + (s.workers t).pc.weight = s.activeThreadCount + pc.weight
  entry : ∀ x, pc.entry = some x → (s.workers t).pc.entry = some x ∨ x ∈ s.queue

/-- What a move does that moves no worker. -/
structure Ambient (s s' : Schedular τ κ) (r : Reply) : Prop where
  workers : s'.workers = s.workers
  nodes : ∀ n, s'.queued n + s.issued n = s.queued n + s'.issued n
  silent : r.executed = [] ∧ r.dropped = [] ∧ r.readied = [] ∧ r.requeued = []
  active : s'.activeThreadCount = s.activeThreadCount

theorem count_numbered (k : Nat) (fts : List (FiberAndThread Addr κ)) (n : Nat) :
    ((numbered k fts).map (·.node)).count n + (if n < k then 1 else 0) = if n < k + fts.length then 1 else 0 := by
  induction fts generalizing k with
  | nil => simp [numbered]
  | cons ft fts ih =>
    have := ih (k + 1)
    simp only [numbered, List.map_cons, List.count_cons, List.length_cons, beq_iff_eq]
    split_ifs at this ⊢ <;> omega

theorem schedule_nodes (s : Schedular τ κ) (fts : List (FiberAndThread Addr κ)) (n : Nat) :
    (s.schedule fts).2.queued n + s.issued n = s.queued n + (s.schedule fts).2.issued n := by
  have := count_numbered s.pushed (fts.filter (·.nonempty)) n
  rw [schedule_eq]
  unfold queued issued
  simp only [List.map_append, List.count_append]
  omega

theorem push_nodes (s : Schedular τ κ) (ft : FiberAndThread Addr κ) (n : Nat) :
    (s.push ft).queued n + s.issued n = s.queued n + (s.push ft).issued n := by
  unfold queued issued push
  simp only [List.map_append, List.map_cons, List.map_nil, List.count_append, List.count_singleton, beq_iff_eq]
  split_ifs <;> omega

section
variable [DecidableEq τ]

theorem Turn.of_queue {s s' : Schedular τ κ} {r : Reply} {t : τ} {pc₀ pc : Pc κ} {c : Option Addr}
    (hpc : (s.workers t).pc = pc₀) (hw : s'.workers = Function.update s.workers t ⟨pc, c⟩) (hq : s'.queue = s.queue)
    (hp : s'.pushed = s.pushed) (hn : pc₀.node.toList = r.executed ++ r.dropped ++ pc.node.toList)
    (hr : pc₀.readies.toList ++ r.readied = r.requeued ++ pc.readies.toList)
    (ha : s'.activeThreadCount + pc₀.weight = s.activeThreadCount + pc.weight)
    (he : ∀ x, pc.entry = some x → pc₀.entry = some x) : Turn s s' r t pc where
  workers := ⟨c, hw⟩
  nodes n := by
    unfold queued issued
    rw [hpc, hn, hq, hp, List.count_append, List.count_append]
    omega
  ready := by rwa [hpc]
  active := by rwa [hpc]
  entry x hx := by
    rw [hpc]
    exact .inl (he x hx)

theorem Turn.take {s : Schedular τ κ} {r : Reply} {t : τ} {x : Item κ} {p q : List (Item κ)}
    (hpc : (s.workers t).pc = .scan) (hq : s.queue = p ++ x :: q)
    (hr : r.executed = [] ∧ r.dropped = [] ∧ r.readied = [] ∧ r.requeued = []) :
    Turn s ({ s with queue := p ++ q, activeThreadCount := s.activeThreadCount + 1 }.goto t (.taken x)) r t
      (.taken x) where
  workers := ⟨_, rfl⟩
  nodes n := by
    obtain ⟨h1, h2, -, -⟩ := hr
    rw [h1, h2, hpc]
    show ((p ++ q).map (·.node)).count n + 0 + 0 + [x.node].count n + _ =
      (s.queue.map (·.node)).count n + 0 + s.issued n
    rw [hq]
    simp only [List.map_append, List.map_cons, List.count_append, List.count_cons, List.count_nil]
    omega
  ready := by
    obtain ⟨-, -, h3, h4⟩ := hr
    rw [h3, h4, hpc]
    rfl
  active := by
    rw [hpc]
    exact UInt64.add_zero _
  entry y hy := by
    obtain rfl : x = y := Option.some.inj hy
    right
    simp [hq]

theorem Turn.requeue {s : Schedular τ κ} {t : τ} {f : Addr} {via tk : Bool} (hpc : (s.workers t).pc = .requeue f via) :
    Turn s (((s.push { fiber := some f }).release t via).goto t .scan) { tickle := tk, requeued := [f] } t .scan where
  workers := ⟨_, release_workers ..⟩
  nodes n := by
    have := push_nodes s { fiber := some f } n
    rw [hpc]
    cases via <;> exact this
  ready := by
    rw [hpc]
    rfl
  active := by
    rw [hpc]
    cases via <;> rfl
  entry x hx := by cases hx

/-- **What a move does to the ledger.** -/
theorem Move.turn {ids : Threads τ} {s s' : Schedular τ κ} {l : Label τ κ} {r : Reply} (hi : Inv s)
    (hm : Move ids s l r s') : Ambient s s' r ∨ ∃ t pc, Turn s s' r t pc := by
  cases hm with
  | schedule fts =>
    refine .inl ⟨?_, schedule_nodes s fts, ⟨rfl, rfl, rfl, rfl⟩, ?_⟩ <;> rw [schedule_eq]
  | newFiber a cb => exact .inl ⟨rfl, fun _ => rfl, ⟨rfl, rfl, rfl, rfl⟩, rfl⟩
  | trigger f => exact .inl ⟨rfl, push_nodes _ _, ⟨rfl, rfl, rfl, rfl⟩, rfl⟩
  | idle hpc hscan =>
    obtain ⟨rfl, -⟩ := hscan
    exact .inl ⟨rfl, fun _ => rfl, ⟨rfl, rfl, rfl, rfl⟩, rfl⟩
  | take hpc hscan =>
    obtain ⟨p, q, hq, rfl, -, -⟩ := hscan
    exact .inr ⟨_, _, .take hpc hq ⟨rfl, rfl, rfl, rfl⟩⟩
  | resume hpc hf hrun => exact .inr ⟨_, _, .of_queue hpc rfl rfl rfl rfl rfl rfl (fun _ h => h)⟩
  | reuse hpc hx hcb => exact .inr ⟨_, _, .of_queue hpc rfl rfl rfl rfl rfl rfl (fun _ h => h)⟩
  | @create t a x hpc hx hcb ha =>
    exact .inr ⟨t, .swapIn x a true, .of_queue hpc (create_workers ..) rfl rfl rfl rfl rfl (fun _ h => h)⟩
  | drop hpc hcb hdone => exact .inr ⟨_, _, .of_queue hpc rfl rfl rfl rfl rfl rfl nofun⟩
  | enter hpc => exact .inr ⟨_, _, .of_queue hpc rfl rfl rfl rfl rfl rfl (fun _ h => h)⟩
  | load hpc => exact .inr ⟨_, _, .of_queue hpc rfl rfl rfl rfl rfl rfl nofun⟩
  | @save t a f via o hpc =>
    refine .inr ⟨_, _, .of_queue hpc rfl rfl rfl rfl ?_ rfl nofun⟩
    simp [Pc.readies]
  | @leave t a f via o hpc =>
    refine .inr ⟨_, _, .of_queue hpc rfl rfl rfl rfl ?_ ?_ nofun⟩
    · simp [Pc.readies]
    · show s.activeThreadCount - 1 + 1 = s.activeThreadCount + 0
      rw [UInt64.sub_add_cancel, UInt64.add_zero]
  | @checkReady t a f via o hpc hst =>
    obtain ⟨⟨rfl, -⟩, -⟩ := hi.here hpc rfl
    refine .inr ⟨_, _, .of_queue hpc rfl rfl rfl rfl ?_ rfl nofun⟩
    simp [Pc.readies, hst]
  | @checkEnd t a f via o hpc hst =>
    obtain ⟨⟨rfl, -⟩, -⟩ := hi.here hpc rfl
    refine .inr ⟨_, _, .of_queue hpc rfl rfl rfl rfl ?_ rfl nofun⟩
    rcases hst with hst | hst <;> simp [Pc.readies, hst]
  | @checkHold t a f via o hpc hready hend =>
    obtain ⟨⟨rfl, -⟩, -⟩ := hi.here hpc rfl
    refine .inr ⟨_, _, .of_queue hpc rfl rfl rfl rfl ?_ rfl nofun⟩
    simp [Pc.readies, hready]
  | requeue hpc => exact .inr ⟨_, _, .requeue hpc⟩
  | recycle hpc => exact .inr ⟨_, _, .of_queue hpc rfl rfl rfl rfl rfl rfl nofun⟩
  | forget hpc => exact .inr ⟨_, _, .of_queue hpc rfl rfl rfl rfl rfl rfl nofun⟩
  | @update t a f via hpc =>
    refine .inr ⟨_, _, .of_queue hpc (release_workers ..) ?_ ?_ rfl rfl ?_ nofun⟩ <;> cases via <;> rfl
  | @discard t a hpc =>
    refine .inr ⟨_, _, .of_queue hpc rfl rfl rfl rfl rfl ?_ nofun⟩
    show s.activeThreadCount - 1 + 1 = s.activeThreadCount + 0
    rw [UInt64.sub_add_cancel, UInt64.add_zero]
  | publish hpc => exact .inr ⟨_, _, .of_queue hpc rfl rfl rfl rfl rfl rfl nofun⟩
  | hold hpc hp =>
    refine .inr ⟨_, _, .of_queue hpc rfl rfl rfl rfl ?_ rfl nofun⟩
    rcases hp with rfl | rfl <;> rfl
  | ready hpc => exact .inr ⟨_, _, .of_queue hpc rfl rfl rfl rfl rfl rfl nofun⟩
  | throw hpc => exact .inr ⟨_, _, .of_queue hpc rfl rfl rfl rfl rfl rfl nofun⟩
  | finish hpc => exact .inr ⟨_, _, .of_queue hpc rfl rfl rfl rfl rfl rfl nofun⟩

/-- **What a move does to `m_activeThreadCount`.** -/
theorem Move.counter {ids : Threads τ} {s s' : Schedular τ κ} {l : Label τ κ} {r : Reply}
    (hm : Move ids s l r s') :
    s'.workers = s.workers ∧ s'.activeThreadCount = s.activeThreadCount ∨
      ∃ t w, s'.workers = Function.update s.workers t w ∧
        s'.activeThreadCount + (s.workers t).pc.weight = s.activeThreadCount + w.pc.weight := by
  cases hm with
  | schedule fts => exact .inl (by rw [schedule_eq]; exact ⟨rfl, rfl⟩)
  | newFiber | trigger | idle => exact .inl ⟨rfl, rfl⟩
  | take hpc =>
    refine .inr ⟨_, _, rfl, ?_⟩
    rw [hpc]
    exact UInt64.add_zero _
  | leave hpc | discard hpc =>
    refine .inr ⟨_, _, rfl, ?_⟩
    rw [hpc]
    show s.activeThreadCount - 1 + 1 = s.activeThreadCount + 0
    rw [UInt64.sub_add_cancel, UInt64.add_zero]
  | create hpc =>
    refine .inr ⟨_, _, create_workers .., ?_⟩
    rw [hpc]
    rfl
  | @requeue t a f via hpc =>
    refine .inr ⟨_, _, release_workers .., ?_⟩
    rw [hpc]
    cases via <;> rfl
  | @update t a f via hpc =>
    refine .inr ⟨_, _, release_workers .., ?_⟩
    rw [hpc]
    cases via <;> rfl
  | resume hpc | reuse hpc | drop hpc | enter hpc | load hpc | save hpc | checkReady hpc | checkEnd hpc | checkHold hpc
  | recycle hpc | forget hpc | publish hpc | hold hpc | ready hpc | throw hpc | finish hpc =>
    refine .inr ⟨_, _, rfl, ?_⟩
    rw [hpc]
    rfl

/-! ## Runs -/

/-- The nodes executed in a history, those dropped, the fibers that left as `READY`, and those pushed back for it. -/
def executed (h : List (Entry (Schedular τ κ) (Label τ κ) Reply)) : List Nat := h.flatMap (·.out.executed)

@[inherit_doc executed]
def dropped (h : List (Entry (Schedular τ κ) (Label τ κ) Reply)) : List Nat := h.flatMap (·.out.dropped)

@[inherit_doc executed]
def readied (h : List (Entry (Schedular τ κ) (Label τ κ) Reply)) : List Addr := h.flatMap (·.out.readied)

@[inherit_doc executed]
def requeued (h : List (Entry (Schedular τ κ) (Label τ κ) Reply)) : List Addr := h.flatMap (·.out.requeued)

end

section
variable [Fintype τ]

theorem Threads.card_le (ids : Threads τ) : Fintype.card τ ≤ 2 ^ 31 := by
  have hinj : Function.Injective fun t => (ids.id t).toNat := by
    intro t t' h
    apply ids.inj
    have := (ids.range t).1
    have := (ids.range t').1
    dsimp only at h
    omega
  have hle := Finset.card_le_card_of_injOn (s := Finset.univ) (t := Finset.range (2 ^ 31)) (fun t => (ids.id t).toNat)
    (by
      intro t _
      have := (ids.range t).1
      have := (ids.range t).2
      simp
      omega) hinj.injOn
  simpa using hle

theorem Threads.card_lt (ids : Threads τ) : Fintype.card τ < 2 ^ 64 :=
  lt_of_le_of_lt ids.card_le (by decide)

def inHand (s : Schedular τ κ) (n : Nat) : Nat := countAt (fun w : Worker κ => w.pc.node = some n) s.workers

/-- How many workers have the fiber on its way out as `READY`. -/
def leaving (s : Schedular τ κ) (f : Addr) : Nat := countAt (fun w : Worker κ => w.pc.readies = some f) s.workers

/-- How many workers are between taking an entry and their decrement. -/
def activeWorkers (s : Schedular τ κ) : Nat := countAt (fun w : Worker κ => w.pc.active = true) s.workers

structure Ledger (h : List (Entry (Schedular τ κ) (Label τ κ) Reply)) (s : Schedular τ κ) : Prop where
  nodes : ∀ n, s.queued n + (executed h).count n + (dropped h).count n + s.inHand n = s.issued n
  ready : ∀ f, (readied h).count f = (requeued h).count f + s.leaving f
  active : s.activeThreadCount = UInt64.ofNat s.activeWorkers
  origin : ∀ t x, (s.workers t).pc.entry = some x → ∃ e ∈ h, x ∈ e.pre.queue

theorem count_toList {α : Type} [DecidableEq α] (o : Option α) (a : α) :
    o.toList.count a = if o = some a then 1 else 0 := by
  cases o with
  | none => simp
  | some b => simp [List.count_singleton]

theorem Ledger.ambient {h : List (Entry (Schedular τ κ) (Label τ κ) Reply)} {s s' : Schedular τ κ} {l : Label τ κ}
    {r : Reply} (hl : Ledger h s) (ha : Ambient s s' r) : Ledger (h ++ [⟨s, l, r, s'⟩]) s' := by
  obtain ⟨hw, hn, ⟨h1, h2, h3, h4⟩, hact⟩ := ha
  refine ⟨fun n => ?_, fun f => ?_, ?_, ?_⟩
  · have hnodes := hl.nodes n
    have hmove := hn n
    unfold executed dropped inHand at *
    simp only [List.flatMap_append, List.flatMap_cons, List.flatMap_nil, h1, h2, hw, List.append_nil]
    omega
  · have := hl.ready f
    unfold readied requeued leaving at *
    simpa only [List.flatMap_append, List.flatMap_cons, List.flatMap_nil, h3, h4, hw, List.append_nil] using this
  · unfold activeWorkers
    rw [hact, hw]
    exact hl.active
  · intro t x hx
    rw [hw] at hx
    obtain ⟨e, he, hq⟩ := hl.origin t x hx
    exact ⟨e, List.mem_append_left _ he, hq⟩

variable [DecidableEq τ]

theorem Ledger.turn {h : List (Entry (Schedular τ κ) (Label τ κ) Reply)} {s s' : Schedular τ κ} {l : Label τ κ}
    {r : Reply} {t : τ} {pc : Pc κ} (hl : Ledger h s) (ht : Turn s s' r t pc) : Ledger (h ++ [⟨s, l, r, s'⟩]) s' := by
  obtain ⟨⟨c, hw⟩, hn, hrd, hact, hentry⟩ := ht
  refine ⟨fun n => ?_, fun f => ?_, ?_, ?_⟩
  · have hnodes := hl.nodes n
    have hmove := hn n
    have hcount := countAt_update (p := fun w : Worker κ => w.pc.node = some n) s.workers t ⟨pc, c⟩
    rw [← hw] at hcount
    dsimp only at hcount
    rw [count_toList, count_toList] at hmove
    unfold executed dropped inHand at *
    simp only [List.flatMap_append, List.flatMap_cons, List.flatMap_nil, List.append_nil, List.count_append]
    omega
  · have hready := hl.ready f
    have hmove := congrArg (List.count f) hrd
    have hcount := countAt_update (p := fun w : Worker κ => w.pc.readies = some f) s.workers t ⟨pc, c⟩
    rw [← hw] at hcount
    dsimp only at hcount
    rw [List.count_append, List.count_append, count_toList, count_toList] at hmove
    unfold readied requeued leaving at *
    simp only [List.flatMap_append, List.flatMap_cons, List.flatMap_nil, List.append_nil, List.count_append]
    omega
  · unfold activeWorkers
    rw [hw]
    exact counter_update hl.active hact
  · intro v x hx
    have hold : (s.workers v).pc.entry = some x ∨ x ∈ s.queue := by
      rw [hw] at hx
      by_cases hv : v = t
      · subst hv
        rw [Function.update_self] at hx
        exact hentry x hx
      · rw [Function.update_of_ne hv] at hx
        exact .inl hx
    rcases hold with hold | hold
    · obtain ⟨e, he, hq⟩ := hl.origin v x hold
      exact ⟨e, List.mem_append_left _ he, hq⟩
    · exact ⟨⟨s, l, r, s'⟩, by simp, hold⟩

theorem Ledger.move {ids : Threads τ} {h : List (Entry (Schedular τ κ) (Label τ κ) Reply)} {s s' : Schedular τ κ}
    {l : Label τ κ} {r : Reply} (hl : Ledger h s) (hi : Inv s) (hm : Move ids s l r s') :
    Ledger (h ++ [⟨s, l, r, s'⟩]) s' := by
  rcases hm.turn hi with ha | ⟨t, pc, ht⟩
  · exact hl.ambient ha
  · exact hl.turn ht

end

end QWebServer.Schedular
