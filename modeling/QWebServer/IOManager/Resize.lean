import Mathlib
import QWebServer.IOManager.Model

/-!
# The table of contexts under several calls of `addEvent`

`addEvent` looks the size of `m_fdContexts` up under the read lock and resizes the table later, under the write lock.

* `Shared` : the table of pointers, the objects they point to, and where every call of `addEvent` stands;
* `sections` : the machine whose steps are the lookups, the resizes and what follows under the mutex of the context;
* `Overtaken` : another call has resized the table further since the lookup of a call;
* `table_stable_iff` : the table only grows, and no context with events gets lost, exactly when no call that was
  overtaken resizes the table;
* `view` : the manager that the objects of the table make up, `call_view` : a call whose sections nobody comes between
  is `IOManager.addEvent` on it.
-/

namespace QWebServer.IOManager

open Lib

variable {τ σ φ κ : Type}

/-- The arguments of a call of `addEvent`, and its caller. -/
structure Request (σ φ κ : Type) where
  fd : Int
  event : Event
  cb : Option κ := none
  caller : Caller σ φ

/-- A call of `addEvent`: not begun, about to resize the table, or with its pointer `fd_ctx`. -/
inductive Stage (σ φ κ : Type)
  | idle
  | grow (r : Request σ φ κ)
  | holds (r : Request σ φ κ) (p : Nat)

def Stage.isIdle : Stage σ φ κ → Bool
  | idle => true
  | _ => false

def Stage.isGrow : Stage σ φ κ → Bool
  | grow _ => true
  | _ => false

def Stage.isHolds : Stage σ φ κ → Bool
  | holds _ _ => true
  | _ => false

/-- The table of pointers `m_fdContexts` and the objects, the first pointer that is not in use, and the calls. -/
structure Shared (τ σ φ κ : Type) where
  table : List Nat
  heap : Nat → FdContext σ φ κ
  next : Nat
  pendingEventCount : UInt64 := 0
  epoll : Int → Option (BitVec 32) := fun _ => none
  calls : τ → Stage σ φ κ := fun _ => .idle

/-- A section of the call of the thread `t`: the read-locked lookup, the write-locked resize, and the rest. -/
inductive Section (τ σ φ κ : Type)
  | lookup (t : τ) (r : Request σ φ κ)
  | resize (t : τ)
  | register (t : τ) (rt : Bool)

def Section.thread : Section τ σ φ κ → τ
  | lookup t _ => t
  | resize t => t
  | register t _ => t

def Section.isResize : Section τ σ φ κ → Bool
  | resize _ => true
  | _ => false

def pointer (table : List Nat) (fd : Int) : Except Fault Nat :=
  if fd < 0 then .error .outOfRange
  else
    match table[fd.toNat]? with
    | none => .error .outOfRange
    | some p => .ok p

/-- What `addEvent` does to the context of the descriptor: `none` when `epoll_ctl` does not return 0. -/
def FdContext.addEvent (c : FdContext σ φ κ) (r : Request σ φ κ) (rt : Bool) :
    Except Fault (Option (FdContext σ φ κ)) :=
  if c.events &&& r.event.mask ≠ 0#32 then .error .duplicate
  else if rt = false then .ok none
  else
    let c := { c with events := c.events ||| r.event.mask }
    let ctx := c.getContext r.event
    if ctx.schedular.isSome || ctx.fiber.isSome || ctx.cb.isSome then .error .contextInUse
    else
      let ctx := { ctx with schedular := r.caller.schedular }
      if r.cb.isSome then .ok (some (c.setContext r.event { ctx with cb := r.cb }))
      else if r.caller.state = .exec then .ok (some (c.setContext r.event { ctx with fiber := some r.caller.fiber }))
      else .error .notExec

def Shared.step [DecidableEq τ] (mem : Memory) (s : Shared τ σ φ κ) :
    Section τ σ φ κ → Except Fault (Int × Shared τ σ φ κ)
  | .lookup t r =>
    if toInt s.table.length > r.fd then do
      let p ← pointer s.table r.fd
      return (0, { s with calls := Function.update s.calls t (.holds r p) })
    else return (0, { s with calls := Function.update s.calls t (.grow r) })
  | .resize t =>
    match s.calls t with
    | .grow r => do
      let size := 3 * r.fd.toNat / 2
      let table ← contextResize mem (s.next + ·) s.table size
      let p ← pointer table r.fd
      return (0, { s with
        table, calls := Function.update s.calls t (.holds r p), next := s.next + size
        heap := fun p => if p < s.next then s.heap p else freshContext (p - s.next) })
    | _ => return (0, s)
  | .register t rt =>
    match s.calls t with
    | .holds r p => do
      let c := s.heap p
      match ← c.addEvent r rt with
      | none => return (-1, { s with calls := Function.update s.calls t .idle })
      | some c' =>
        return (0, { s with
          heap := Function.update s.heap p c', calls := Function.update s.calls t .idle
          pendingEventCount := s.pendingEventCount + 1
          epoll := Function.update s.epoll r.fd (some (EPOLLET ||| c.events ||| r.event.mask)) })
    | _ => return (0, s)

def Shared.Allowed (s : Shared τ σ φ κ) : Section τ σ φ κ → Prop
  | .lookup t _ => (s.calls t).isIdle
  | .resize t => (s.calls t).isGrow
  | .register t _ => (s.calls t).isHolds

instance (s : Shared τ σ φ κ) : (l : Section τ σ φ κ) → Decidable (s.Allowed l)
  | .lookup t _ => inferInstanceAs (Decidable ((s.calls t).isIdle = true))
  | .resize t => inferInstanceAs (Decidable ((s.calls t).isGrow = true))
  | .register t _ => inferInstanceAs (Decidable ((s.calls t).isHolds = true))

/-- The table after `contextResize(32)`. -/
def Shared.new : Shared τ σ φ κ where
  table := List.range 32
  heap := freshContext
  next := 32

def sections (mem : Memory) (τ σ φ κ : Type) [DecidableEq τ] :
    Machine (Shared τ σ φ κ) (Section τ σ φ κ) Int Fault where
  init s := s = Shared.new
  enabled := Shared.Allowed
  step := Shared.step mem

instance [DecidableEq τ] (mem : Memory) (s : Shared τ σ φ κ) (l : Section τ σ φ κ) :
    Decidable ((sections mem τ σ φ κ).enabled s l) :=
  inferInstanceAs (Decidable (s.Allowed l))

abbrev Interleaving (τ σ φ κ : Type) := List (Entry (Shared τ σ φ κ) (Section τ σ φ κ) Int)

/-! ## What the sections do -/

/-- What a section does. -/
inductive Shared.Moves (mem : Memory) (s : Shared τ σ φ κ) [DecidableEq τ] : Section τ σ φ κ → Shared τ σ φ κ → Prop
  | found {t : τ} {r : Request σ φ κ} {p : Nat} (h : toInt s.table.length > r.fd) (hp : pointer s.table r.fd = .ok p) :
      Moves mem s (.lookup t r) { s with calls := Function.update s.calls t (.holds r p) }
  | missing {t : τ} {r : Request σ φ κ} (h : ¬ toInt s.table.length > r.fd) :
      Moves mem s (.lookup t r) { s with calls := Function.update s.calls t (.grow r) }
  | resized {t : τ} {r : Request σ φ κ} {table : List Nat} {p : Nat} (ht : s.calls t = .grow r)
      (hc : contextResize mem (s.next + ·) s.table (3 * r.fd.toNat / 2) = .ok table) (hp : pointer table r.fd = .ok p) :
      Moves mem s (.resize t) { s with
        table, calls := Function.update s.calls t (.holds r p), next := s.next + 3 * r.fd.toNat / 2
        heap := fun p => if p < s.next then s.heap p else freshContext (p - s.next) }
  | refused {t : τ} {r : Request σ φ κ} {p : Nat} (ht : s.calls t = .holds r p) :
      Moves mem s (.register t false) { s with calls := Function.update s.calls t .idle }
  | registered {t : τ} {r : Request σ φ κ} {p : Nat} {c : FdContext σ φ κ} (ht : s.calls t = .holds r p)
      (hc : (s.heap p).addEvent r true = .ok (some c)) :
      Moves mem s (.register t true) { s with
        heap := Function.update s.heap p c, calls := Function.update s.calls t .idle
        pendingEventCount := s.pendingEventCount + 1
        epoll := Function.update s.epoll r.fd (some (EPOLLET ||| (s.heap p).events ||| r.event.mask)) }

section
variable [DecidableEq τ] {mem : Memory}

theorem FdContext.addEvent_false {c : FdContext σ φ κ} {r : Request σ φ κ} {o : Option (FdContext σ φ κ)}
    (h : c.addEvent r false = .ok o) : o = none := by
  unfold FdContext.addEvent at h
  rw [if_pos rfl] at h
  split_ifs at h
  cases h
  rfl

theorem FdContext.addEvent_true {c : FdContext σ φ κ} {r : Request σ φ κ} {o : Option (FdContext σ φ κ)}
    (h : c.addEvent r true = .ok o) : ∃ c', o = some c' ∧ c'.fd = c.fd := by
  unfold FdContext.addEvent at h
  simp only [Bool.true_eq_false, if_false] at h
  split_ifs at h
  · cases h
    exact ⟨_, rfl, by cases r.event <;> rfl⟩
  · cases h
    exact ⟨_, rfl, by cases r.event <;> rfl⟩

/-- Every section that does not fault is one of the moves. -/
theorem Shared.step_moves {s s' : Shared τ σ φ κ} {l : Section τ σ φ κ} {ret : Int} (ha : s.Allowed l)
    (hs : s.step mem l = .ok (ret, s')) : s.Moves mem l s' := by
  cases l with
  | lookup t r =>
    simp only [Shared.step] at hs
    split_ifs at hs with hfd
    · obtain ⟨p, hp, h⟩ := bind_eq_ok hs
      cases h
      exact .found hfd hp
    · cases hs
      exact .missing hfd
  | resize t =>
    unfold Shared.step at hs
    cases ht : s.calls t with
    | idle => simp [Shared.Allowed, ht, Stage.isGrow] at ha
    | holds => simp [Shared.Allowed, ht, Stage.isGrow] at ha
    | grow r =>
      simp only [ht] at hs
      obtain ⟨table, hc, h⟩ := bind_eq_ok hs
      obtain ⟨p, hp, h⟩ := bind_eq_ok h
      cases h
      exact .resized ht hc hp
  | register t rt =>
    unfold Shared.step at hs
    cases ht : s.calls t with
    | idle => simp [Shared.Allowed, ht, Stage.isHolds] at ha
    | grow => simp [Shared.Allowed, ht, Stage.isHolds] at ha
    | holds r p =>
      simp only [ht] at hs
      obtain ⟨o, hc, h⟩ := bind_eq_ok hs
      cases rt with
      | false =>
        cases FdContext.addEvent_false hc
        cases h
        exact .refused ht
      | true =>
        obtain ⟨c', rfl, -⟩ := FdContext.addEvent_true hc
        cases h
        exact .registered ht hc

/-! ## Overtaken calls -/

/-- The size that the call of `t` resizes the table to, when it is about to. -/
def Shared.growsTo (s : Shared τ σ φ κ) (t : τ) : Option Nat :=
  match s.calls t with
  | .grow r => some (3 * r.fd.toNat / 2)
  | _ => none

/-- While the call of `t` was about to resize the table, another call resized it further. -/
def Overtaken (h : Interleaving τ σ φ κ) (t : τ) : Prop :=
  ∃ h₁ e h₂ u n n', h = h₁ ++ e :: h₂ ∧ e.inp = .resize u ∧ e.pre.growsTo t = some n ∧ e.pre.growsTo u = some n' ∧
    n < n' ∧ ∀ e' ∈ h₂, e'.inp ≠ .resize t

/-- A context with events is the one that the table has for its descriptor. -/
def Reachable (s : Shared τ σ φ κ) : Prop :=
  ∀ p, p < s.next → (s.heap p).events ≠ 0#32 → ∃ i : Nat, (s.heap p).fd = i ∧ s.table[i]? = some p

/-- Where the table and the calls stand in a run. -/
structure Ordered (h : Interleaving τ σ φ κ) (s : Shared τ σ φ κ) : Prop where
  small : s.table.length < 2 ^ 31
  behind : ∀ t n, s.growsTo t = some n → s.table.length ≤ n ∨ Overtaken h t

omit [DecidableEq τ] in
theorem Shared.growsTo_eq_some {s : Shared τ σ φ κ} {t : τ} {n : Nat} :
    s.growsTo t = some n ↔ ∃ r, s.calls t = .grow r ∧ n = 3 * r.fd.toNat / 2 := by
  unfold Shared.growsTo
  cases s.calls t <;> simp [eq_comm]

theorem Shared.Moves.calls {s s' : Shared τ σ φ κ} {l : Section τ σ φ κ} (hm : s.Moves mem l s') {t : τ}
    (ht : t ≠ l.thread) :
    s'.calls t = s.calls t := by
  cases hm <;> exact Function.update_of_ne ht _ _

/-- A call that waits for the write lock goes on by its resize. -/
theorem Shared.Moves.waits {s s' : Shared τ σ φ κ} {l : Section τ σ φ κ} (hm : s.Moves mem l s') (ha : s.Allowed l)
    {t : τ}
    {n : Nat} (ht : s.growsTo t = some n) (hl : l ≠ .resize t) : s'.growsTo t = some n := by
  obtain ⟨r, hr, hn⟩ := Shared.growsTo_eq_some.mp ht
  have hne : t ≠ l.thread := by
    rintro rfl
    cases l with
    | lookup u q => simp [Shared.Allowed, show s.calls u = .grow r from hr, Stage.isIdle] at ha
    | resize u => exact hl rfl
    | register u rt => simp [Shared.Allowed, show s.calls u = .grow r from hr, Stage.isHolds] at ha
  exact Shared.growsTo_eq_some.mpr ⟨r, (hm.calls hne).trans hr, hn⟩

/-- Where a call that waits for the write lock comes from. -/
theorem Shared.Moves.of_waits {s s' : Shared τ σ φ κ} {l : Section τ σ φ κ} (hm : s.Moves mem l s') {t : τ} {n : Nat}
    (ht : s'.growsTo t = some n) :
    s.growsTo t = some n ∧ l ≠ .resize t ∨ s'.table = s.table ∧ ∃ r : Request σ φ κ, ¬ toInt s.table.length > r.fd ∧
      n = 3 * r.fd.toNat / 2 := by
  obtain ⟨r, hr, hn⟩ := Shared.growsTo_eq_some.mp ht
  by_cases hne : t = l.thread
  · subst hne
    cases hm with
    | missing h =>
      cases (Function.update_self ..).symm.trans hr
      exact .inr ⟨rfl, r, h, hn⟩
    | found | resized | refused | registered => cases (Function.update_self ..).symm.trans hr
  · refine .inl ⟨Shared.growsTo_eq_some.mpr ⟨r, (hm.calls hne).symm.trans hr, hn⟩, ?_⟩
    rintro rfl
    exact hne rfl

omit [DecidableEq τ] in
theorem Overtaken.snoc {h : Interleaving τ σ φ κ} {t : τ} (ho : Overtaken h t)
    {e : Entry (Shared τ σ φ κ) (Section τ σ φ κ) Int} (he : e.inp ≠ .resize t) : Overtaken (h ++ [e]) t := by
  obtain ⟨h₁, e₀, h₂, u, n, n', rfl, hinp, hn, hn', hlt, hno⟩ := ho
  refine ⟨h₁, e₀, h₂ ++ [e], u, n, n', by simp, hinp, hn, hn', hlt, fun e' he' => ?_⟩
  rcases List.mem_append.mp he' with he' | he'
  · exact hno e' he'
  · rwa [List.mem_singleton.mp he']

theorem contextResize_spec {α : Type} {fresh : Nat → α} {table table' : List α} {size : Nat}
    (h : contextResize mem fresh table size = .ok table') : table'.length = size ∧ size < 2 ^ 31 ∧
      (table <+: table' ↔ table.length ≤ size) ∧ ∀ i a, table'[i]? = some a → table[i]? = some a ∨ a = fresh i := by
  unfold contextResize at h
  split_ifs at h with hc
  cases h
  have hlen : (table.take size ++ (List.range' table.length (size - table.length)).map fresh).length = size := by
    rw [List.length_append, List.length_take, List.length_map, List.length_range']
    omega
  refine ⟨hlen, lt_of_le_of_lt hc mem.bounded, ⟨fun hp => hlen ▸ hp.length_le, fun hle => ?_⟩, ?_⟩
  · rw [List.take_of_length_le hle]
    exact List.prefix_append _ _
  · intro i a ha
    by_cases hi : i < (table.take size).length
    · rw [List.getElem?_append_left hi] at ha
      rw [List.length_take] at hi
      rw [List.getElem?_take, if_pos (by omega)] at ha
      exact .inl ha
    · rw [List.getElem?_append_right (by omega), List.getElem?_map, Option.map_eq_some_iff] at ha
      obtain ⟨j, hj, rfl⟩ := ha
      obtain ⟨hlt, hj⟩ := List.getElem?_eq_some_iff.mp hj
      rw [List.length_range'] at hlt
      rw [List.getElem_range'] at hj
      rw [List.length_take] at hi hlt hj
      right
      congr 1
      omega

theorem Shared.Moves.table {s s' : Shared τ σ φ κ} {l : Section τ σ φ κ} (hm : s.Moves mem l s') :
    (∀ u, l ≠ .resize u) ∧ s'.table = s.table ∨
      ∃ u n, l = .resize u ∧ s.growsTo u = some n ∧ s'.table.length = n ∧ n < 2 ^ 31 ∧
      (s.table <+: s'.table ↔ s.table.length ≤ n) := by
  cases hm with
  | @resized t r table p ht hc hp =>
    obtain ⟨hlen, hlt, hpre, -⟩ := contextResize_spec hc
    exact .inr ⟨t, _, rfl, Shared.growsTo_eq_some.mpr ⟨r, ht, rfl⟩, hlen, hlt, hpre⟩
  | found | missing | refused | registered => exact .inl ⟨by simp, rfl⟩

/-! ## Runs -/

/-- A call that is about to resize the table wants more places than there are, unless it was overtaken. -/
theorem Ordered.step {h : Interleaving τ σ φ κ} {s s' : Shared τ σ φ κ} {l : Section τ σ φ κ} {ret : Int}
    (ho : Ordered h s)
    (hm : s.Moves mem l s') : Ordered (h ++ [⟨s, l, ret, s'⟩]) s' := by
  constructor
  · rcases hm.table with ⟨-, htab⟩ | ⟨u, n, -, -, hlen, hlt, -⟩
    · exact htab ▸ ho.small
    · exact hlen ▸ hlt
  · intro t n ht
    rcases hm.of_waits ht with ⟨ht, hl⟩ | ⟨htab, r, hr, hn⟩
    · rcases hm.table with ⟨-, htab⟩ | ⟨u, n', hu, hn', hlen, -, -⟩
      · rw [htab]
        exact (ho.behind t n ht).imp_right fun hov => hov.snoc hl
      · by_cases hle : n' ≤ n
        · exact .inl (hlen ▸ hle)
        · exact .inr ⟨h, ⟨s, l, ret, s'⟩, [], u, n, n', rfl, hu, ht, hn', not_le.mp hle, by simp⟩
    · left
      rw [htab]
      rw [toInt_of_lt ho.small] at hr
      omega

theorem run_ordered {h : Interleaving τ σ φ κ} {s : Shared τ σ φ κ} (hr : Run (sections mem τ σ φ κ) h s) :
    Ordered h s := by
  induction hr with
  | start h0 =>
    subst h0
    exact ⟨by simp [Shared.new], fun _ _ ht => nomatch ht⟩
  | step _ ha hs ih => exact ih.step (Shared.step_moves ha hs)

/-- The size that an overtaken call finds, when the table has only grown since. -/
theorem Overtaken.lt_length {h : Interleaving τ σ φ κ} {s : Shared τ σ φ κ} (hr : Run (sections mem τ σ φ κ) h s)
    (hpre : ∀ e ∈ h, e.pre.table <+: e.post.table) {t : τ} (ho : Overtaken h t) :
    ∃ n, s.growsTo t = some n ∧ n < s.table.length := by
  obtain ⟨h₁, e, h₂, u, n, n', hh, hinp, hn, hn', hlt, hno⟩ := ho
  induction h₂ using List.reverseRecOn generalizing h s with
  | nil =>
    subst hh
    obtain ⟨-, ⟨ha, hs⟩, rfl⟩ := hr.last
    have hm := Shared.step_moves ha hs
    have hne : e.inp ≠ .resize t := by
      rw [hinp]
      rintro ⟨⟩
      rw [hn] at hn'
      cases hn'
      exact lt_irrefl _ hlt
    refine ⟨n, hm.waits ha hn hne, ?_⟩
    rcases hm.table with ⟨hno, -⟩ | ⟨u', m, hu', hm', hlen, -⟩
    · exact absurd hinp (hno u)
    · rw [hinp] at hu'
      cases hu'
      rw [hn'] at hm'
      cases hm'
      rwa [hlen]
  | append_singleton h₂ e' ih =>
    rw [← List.cons_append, ← List.append_assoc] at hh
    subst hh
    obtain ⟨hr₁, ⟨ha, hs⟩, rfl⟩ := hr.last
    obtain ⟨m, hm, hlt'⟩ := ih hr₁ (fun e he => hpre e (List.mem_append_left _ he)) rfl
      fun e'' h'' => hno e'' (List.mem_append_left _ h'')
    refine ⟨m, (Shared.step_moves ha hs).waits ha hm (hno e' (by simp)), ?_⟩
    exact lt_of_lt_of_le hlt' (hpre e' (by simp)).length_le

/-! ## The contexts -/

/-- The table has the context of every descriptor at its place, the calls hold pointers of the table, and so do all
contexts with events. -/
structure Placed (s : Shared τ σ φ κ) : Prop where
  own : ∀ (i p : Nat), s.table[i]? = some p → p < s.next ∧ (s.heap p).fd = i
  held : ∀ t r p, s.calls t = .holds r p → ∃ i : Nat, r.fd = i ∧ s.table[i]? = some p
  events : ∀ p, p < s.next → (s.heap p).events ≠ 0#32 → ∃ i : Nat, s.table[i]? = some p

omit [DecidableEq τ] in
theorem Placed.reachable {s : Shared τ σ φ κ} (hp : Placed s) : Reachable s := by
  intro p hlt he
  obtain ⟨i, hi⟩ := hp.events p hlt he
  exact ⟨i, (hp.own i p hi).2, hi⟩

theorem pointer_eq_ok {table : List Nat} {fd : Int} {p : Nat} (h : pointer table fd = .ok p) :
    ∃ i : Nat, fd = i ∧ table[i]? = some p := by
  unfold pointer at h
  split_ifs at h with hneg
  cases ht : table[fd.toNat]? with
  | none => simp [ht] at h
  | some q =>
    rw [ht] at h
    cases h
    exact ⟨fd.toNat, by omega, ht⟩

theorem held_update {table : List Nat} {calls : τ → Stage σ φ κ} {t : τ} {x : Stage σ φ κ}
    (hx : ∀ r p, x = .holds r p → ∃ i : Nat, r.fd = i ∧ table[i]? = some p)
    (hc : ∀ t r p, calls t = .holds r p → ∃ i : Nat, r.fd = i ∧ table[i]? = some p) (u : τ) (r : Request σ φ κ)
    (p : Nat)
    (hu : Function.update calls t x u = .holds r p) : ∃ i : Nat, r.fd = i ∧ table[i]? = some p := by
  by_cases he : u = t
  · subst he
    rw [Function.update_self] at hu
    exact hx r p hu
  · rw [Function.update_of_ne he] at hu
    exact hc u r p hu

/-- **One section** loses no context when the table does not shrink. -/
theorem Placed.step {s s' : Shared τ σ φ κ} {l : Section τ σ φ κ} (hp : Placed s) (hm : s.Moves mem l s')
    (hpre : s.table <+: s'.table) : Placed s' := by
  cases hm with
  | @found t r p h hq =>
    refine ⟨hp.own, held_update ?_ hp.held, hp.events⟩
    rintro _ _ ⟨⟩
    exact pointer_eq_ok hq
  | missing h => exact ⟨hp.own, held_update (fun _ _ h => nomatch h) hp.held, hp.events⟩
  | refused ht => exact ⟨hp.own, held_update (fun _ _ h => nomatch h) hp.held, hp.events⟩
  | @registered t r p c ht hc =>
    obtain ⟨i, hri, hi⟩ := hp.held t r p ht
    obtain ⟨c', hcc, hfd⟩ := FdContext.addEvent_true hc
    cases hcc
    refine ⟨?_, held_update (fun _ _ h => nomatch h) hp.held, ?_⟩
    · intro j q hj
      refine ⟨(hp.own j q hj).1, ?_⟩
      dsimp only
      by_cases hq : q = p
      · subst hq
        rw [Function.update_self, hfd]
        exact (hp.own j q hj).2
      · rw [Function.update_of_ne hq]
        exact (hp.own j q hj).2
    · intro q hq he
      dsimp only at he
      by_cases hqp : q = p
      · exact ⟨i, hqp ▸ hi⟩
      · rw [Function.update_of_ne hqp] at he
        exact hp.events q hq he
  | @resized t r table p ht hc hq =>
    obtain ⟨hlen, -, -, hget⟩ := contextResize_spec hc
    dsimp only at hpre
    have hkeep : ∀ (i q : Nat), s.table[i]? = some q → table[i]? = some q := by
      intro i q hi
      obtain ⟨rest, rfl⟩ := hpre
      rw [List.getElem?_append_left (List.getElem?_eq_some_iff.mp hi).1]
      exact hi
    have hold : ∀ q, q < s.next → (if q < s.next then s.heap q else freshContext (q - s.next)) = s.heap q :=
      fun q hq => if_pos hq
    refine ⟨?_, ?_, ?_⟩
    · intro i q hi
      dsimp only
      have hlt : i < 3 * r.fd.toNat / 2 := hlen ▸ (List.getElem?_eq_some_iff.mp hi).1
      rcases hget i q hi with hi' | rfl
      · obtain ⟨hq, hfd⟩ := hp.own i q hi'
        rw [hold q hq]
        exact ⟨by omega, hfd⟩
      · rw [if_neg (by omega), Nat.add_sub_cancel_left]
        exact ⟨by omega, rfl⟩
    · refine held_update ?_ ?_
      · rintro _ _ ⟨⟩
        exact pointer_eq_ok hq
      · intro u q p' hu
        obtain ⟨i, hri, hi⟩ := hp.held u q p' hu
        exact ⟨i, hri, hkeep i p' hi⟩
    · intro q _ he
      dsimp only at he
      by_cases hq : q < s.next
      · rw [hold q hq] at he
        obtain ⟨i, hi⟩ := hp.events q hq he
        exact ⟨i, hkeep i q hi⟩
      · rw [if_neg hq] at he
        exact absurd rfl he

omit [DecidableEq τ] in
theorem new_placed : Placed (Shared.new : Shared τ σ φ κ) := by
  refine ⟨fun i p hi => ?_, (fun _ _ _ h => nomatch h), fun _ _ he => absurd rfl he⟩
  obtain ⟨hlt, rfl⟩ := List.getElem?_eq_some_iff.mp hi
  rw [show (Shared.new : Shared τ σ φ κ).table = List.range 32 from rfl, List.length_range] at hlt
  simp only [Shared.new, List.getElem_range]
  exact ⟨hlt, rfl⟩

/-- The calls that grow the table while others wait to do so. -/
theorem table_grows {h : Interleaving τ σ φ κ} {s : Shared τ σ φ κ} (hr : Run (sections mem τ σ φ κ) h s)
    (hno : ∀ h₁ e h₂ t, h = h₁ ++ e :: h₂ → e.inp = .resize t → ¬ Overtaken h₁ t) :
    (∀ e ∈ h, e.pre.table <+: e.post.table) ∧ Placed s := by
  induction hr with
  | start h0 =>
    subst h0
    exact ⟨by simp, new_placed⟩
  | @step h s s' l ret hr ha hs ih =>
    obtain ⟨hpre, hp⟩ := ih fun h₁ e h₂ t hh => hno h₁ e (h₂ ++ [⟨s, l, ret, s'⟩]) t (by simp [hh])
    have hm := Shared.step_moves ha hs
    have hlast : s.table <+: s'.table := by
      rcases hm.table with ⟨-, htab⟩ | ⟨u, n, hu, hn, -, -, hiff⟩
      · rw [htab]
      · have hov := hno h ⟨s, l, ret, s'⟩ [] u rfl hu
        exact hiff.mpr (((run_ordered hr).behind u n hn).resolve_right hov)
    refine ⟨?_, hp.step hm hlast⟩
    intro e he
    rcases List.mem_append.mp he with he | he
    · exact hpre e he
    · rwa [List.mem_singleton.mp he]

/-- **The table is stable exactly in the runs** in which no call that was overtaken resizes it. -/
theorem table_stable_iff {h : Interleaving τ σ φ κ} {s : Shared τ σ φ κ} (hr : Run (sections mem τ σ φ κ) h s) :
    ((∀ e ∈ h, e.pre.table <+: e.post.table) ∧ Reachable s) ↔
      ∀ h₁ e h₂ t, h = h₁ ++ e :: h₂ → e.inp = .resize t → ¬ Overtaken h₁ t := by
  constructor
  · rintro ⟨hpre, -⟩ h₁ e h₂ t rfl hinp hov
    obtain ⟨hr₁, ha, hs⟩ := hr.cut rfl
    obtain ⟨n, hn, hlt⟩ := hov.lt_length hr₁ fun e' he' => hpre e' (List.mem_append_left _ he')
    rcases (Shared.step_moves ha hs).table with ⟨hno, -⟩ | ⟨u, n', hu, hn', -, -, hiff⟩
    · exact hno t hinp
    · rw [hinp] at hu
      cases hu
      rw [hn] at hn'
      cases hn'
      exact absurd (hiff.mp (hpre e (by simp))) (not_le.mpr hlt)
  · intro hno
    obtain ⟨hpre, hp⟩ := table_grows hr hno
    exact ⟨hpre, hp.reachable⟩

/-- One call that grows the table. -/
theorem table_stable_iff_one : ∃ h s, Run (sections ⟨1000, by norm_num⟩ Bool Unit Unit Unit) h s ∧
    s.table.length = 150 ∧
    (∀ e ∈ h, e.pre.table <+: e.post.table) ∧ Reachable s := by
  obtain ⟨h, s, hr, hp⟩ := Run.of_replay (sections ⟨1000, by norm_num⟩ Bool Unit Unit Unit) rfl
    [.lookup true ⟨100, .read, none, ⟨some (), (), .exec⟩⟩, .resize true, .register true true]
    (fun r => decide (r.2.table.length = 150) && decide (r.1.map (·.inp.isResize) = [false, true, false]))
    (by decide +kernel)
  rw [Bool.and_eq_true, decide_eq_true_eq, decide_eq_true_eq] at hp
  refine ⟨h, s, hr, hp.1, (table_stable_iff hr).mpr ?_⟩
  rintro h₁ e h₂ t rfl he ⟨g₁, e', g₂, u, -, -, rfl, he', -⟩
  have hcount := congrArg (List.count true) hp.2
  simp [he, he', Section.isResize] at hcount
  omega

/-- Two calls find the table too small; the one for the smaller descriptor resizes it last. -/
theorem table_shrinks : ∃ h s, Run (sections ⟨1000, by norm_num⟩ Bool Unit Unit Unit) h s ∧
    (¬ ∀ e ∈ h, e.pre.table <+: e.post.table) ∧ ¬ Reachable s := by
  obtain ⟨h, s, hr, hp⟩ := Run.of_replay (sections ⟨1000, by norm_num⟩ Bool Unit Unit Unit) rfl
    [.lookup true ⟨100, .read, none, ⟨some (), (), .exec⟩⟩, .lookup false ⟨40, .read, none, ⟨some (), (), .exec⟩⟩,
      .resize true, .register true true, .resize false]
    (fun r => decide (r.2.table.length = 60) && decide (132 < r.2.next) && decide ((r.2.heap 132).events ≠ 0#32) &&
      decide ((r.2.heap 132).fd = 100) && r.1.any fun e => decide (¬ e.pre.table.length ≤ e.post.table.length))
    (by decide +kernel)
  simp only [Bool.and_eq_true, decide_eq_true_eq, List.any_eq_true] at hp
  obtain ⟨⟨⟨⟨hlen, hlt⟩, hev⟩, hfd⟩, e, he, hshrinks⟩ := hp
  refine ⟨h, s, hr, fun hpre => hshrinks (hpre e he).length_le, fun hreach => ?_⟩
  obtain ⟨i, hi, htab⟩ := hreach 132 hlt hev
  have := (List.getElem?_eq_some_iff.mp htab).1
  omega

/-! ## A call without interruption -/

/-- The manager that the objects of the table make up. -/
def Shared.view (s : Shared τ σ φ κ) : IOManager σ φ κ where
  fdContexts := s.table.map s.heap
  pendingEventCount := s.pendingEventCount
  epoll := s.epoll

/-- A call of the thread `t` whose sections nobody comes between; the resize is made when the lookup asks for it. -/
def Shared.call (mem : Memory) (s : Shared τ σ φ κ) (t : τ) (r : Request σ φ κ) (rt : Bool) :
    Except Fault (Int × Shared τ σ φ κ) := do
  let (_, s) ← s.step mem (.lookup t r)
  let (_, s) ← s.step mem (.resize t)
  s.step mem (.register t rt)

omit [DecidableEq τ] in
theorem view_length (s : Shared τ σ φ κ) : s.view.fdContexts.length = s.table.length := List.length_map ..

omit [DecidableEq τ] in
theorem view_fdContext (s : Shared τ σ φ κ) (fd : Int) : s.view.fdContext fd = (pointer s.table fd).map s.heap := by
  unfold fdContext pointer Shared.view
  split_ifs
  · rfl
  · rw [List.getElem?_map]
    cases s.table[fd.toNat]? <;> rfl

/-- The objects after a resize are those that `contextResize` makes. -/
theorem contextResize_map {table : List Nat} {heap : Nat → FdContext σ φ κ} {next : Nat} (hlt : ∀ p ∈ table, p < next)
    (size : Nat) :
    contextResize mem freshContext (table.map heap) size = (contextResize mem (next + ·) table size).map
      (List.map fun p => if p < next then heap p else freshContext (p - next)) := by
  unfold contextResize
  split_ifs
  · simp only [Except.map, List.map_append, List.map_take, List.map_map, List.length_map]
    congr 2
    · congr 1
      exact (List.map_congr_left fun p hp => if_pos (hlt p hp)).symm
    · refine List.map_congr_left fun i _ => ?_
      simp
  · rfl

omit [DecidableEq τ] in
theorem view_set {s : Shared τ σ φ κ} (hp : Placed s) {i p : Nat} (hi : s.table[i]? = some p) (c : FdContext σ φ κ) :
    s.table.map (Function.update s.heap p c) = (s.table.map s.heap).set i c := by
  refine List.ext_getElem? fun j => ?_
  rw [List.getElem?_map, List.getElem?_set, List.getElem?_map, List.length_map]
  cases hj : s.table[j]? with
  | none =>
    have hne : i ≠ j := by
      rintro rfl
      cases hi.symm.trans hj
    simp [hne]
  | some q =>
    by_cases hij : i = j
    · subst hij
      cases hi.symm.trans hj
      simp [(List.getElem?_eq_some_iff.mp hi).1]
    · -- another place has another pointer, by the descriptors of the objects
      have hqp : q ≠ p := by
        rintro rfl
        have h₁ := (hp.own i q hi).2
        rw [(hp.own j q hj).2] at h₁
        exact hij (Int.ofNat_inj.mp h₁).symm
      simp [hij, Function.update_of_ne hqp]

/-- The rest of a call under the mutex of its context. -/
theorem register_view {s : Shared τ σ φ κ} (hp : Placed s) {t : τ} {r : Request σ φ κ} {p : Nat}
    (ht : s.calls t = .holds r p) (rt : Bool) :
    (s.step mem (.register t rt)).map (fun x => (x.1, x.2.view)) = s.view.addEventAt r.fd r.event r.cb r.caller rt := by
  obtain ⟨i, hri, hi⟩ := hp.held t r p ht
  have hctx : s.view.fdContext r.fd = .ok (s.heap p) := by
    rw [view_fdContext, hri]
    simp only [pointer, Int.toNat_natCast, hi, if_neg (Int.not_lt.mpr (Int.natCast_nonneg i))]
    rfl
  have hset : ∀ (c : FdContext σ φ κ) (pend : UInt64) (ep : Int → Option (BitVec 32)) (calls : τ → Stage σ φ κ),
      Shared.view
        { s with heap := Function.update s.heap p c, pendingEventCount := pend, epoll := ep, calls := calls } =
        setFdContext { fdContexts := s.table.map s.heap, pendingEventCount := pend, epoll := ep } r.fd c := by
    intro c pend ep calls
    simp only [Shared.view, setFdContext, hri, Int.toNat_natCast, view_set hp hi]
  unfold addEventAt
  rw [hctx]
  simp only [Shared.step, ht, FdContext.addEvent, bind, Except.bind]
  cases rt with
  | false =>
    simp only [epollCtl, if_true, Bool.false_eq_true, if_false]
    split_ifs <;> rfl
  | true =>
    have happly : ∀ (c : Prop) [Decidable c] (ev : BitVec 32),
        (if c then CtlOp.mod else CtlOp.add).apply ev = some ev := by
      intro c _ ev
      split_ifs <;> rfl
    simp only [epollCtl, if_true, Bool.true_eq_false, if_false, happly]
    split_ifs
    · rfl
    · rfl
    · exact congrArg (fun m => Except.ok (0, m)) (hset ..)
    · exact congrArg (fun m => Except.ok (0, m)) (hset ..)
    · rfl

theorem step_found {s : Shared τ σ φ κ} {t : τ} {r : Request σ φ κ} {p : Nat} (hfd : toInt s.table.length > r.fd)
    (hq : pointer s.table r.fd = .ok p) :
    s.step mem (.lookup t r) = .ok (0, { s with calls := Function.update s.calls t (.holds r p) }) := by
  simp only [Shared.step, if_pos hfd, hq]
  rfl

theorem step_held {s : Shared τ σ φ κ} {t : τ} {r : Request σ φ κ} {p : Nat} (ht : s.calls t = .holds r p) :
    s.step mem (.resize t) = .ok (0, s) := by
  simp only [Shared.step, ht]
  rfl

theorem step_resized {s : Shared τ σ φ κ} {t : τ} {r : Request σ φ κ} {table : List Nat} {p : Nat}
    (ht : s.calls t = .grow r)
    (hc : contextResize mem (s.next + ·) s.table (3 * r.fd.toNat / 2) = .ok table) (hq : pointer table r.fd = .ok p) :
    s.step mem (.resize t) = .ok (0, { s with
      table, calls := Function.update s.calls t (.holds r p), next := s.next + 3 * r.fd.toNat / 2
      heap := fun p => if p < s.next then s.heap p else freshContext (p - s.next) }) := by
  simp only [Shared.step, ht, hc, hq, bind, Except.bind]
  rfl

theorem call_view_found {s : Shared τ σ φ κ} (hp : Placed s) (t : τ) {r : Request σ φ κ} (rt : Bool)
    (hfd : toInt s.table.length > r.fd) :
    (s.call mem t r rt).map (fun x => (x.1, x.2.view)) = s.view.addEvent mem r.fd r.event r.cb r.caller rt := by
  have hview : s.view.addEvent mem r.fd r.event r.cb r.caller rt =
      s.view.addEventAt r.fd r.event r.cb r.caller rt := by
    unfold addEvent lookup
    rw [view_length, if_pos hfd]
    rfl
  rw [hview]
  cases hq : pointer s.table r.fd with
  | error f =>
    have hstep : s.step mem (.lookup t r) = .error f := by
      simp only [Shared.step, if_pos hfd, hq]
      rfl
    unfold Shared.call addEventAt
    rw [hstep, view_fdContext, hq]
    rfl
  | ok p =>
    have hm : s.Moves mem (.lookup t r) { s with calls := Function.update s.calls t (.holds r p) } := .found hfd hq
    unfold Shared.call
    rw [step_found hfd hq]
    simp only [bind, Except.bind]
    rw [step_held (r := r) (p := p) (Function.update_self ..)]
    exact register_view (hp.step hm (List.prefix_refl _)) (Function.update_self ..) rt

theorem call_view_missing {s : Shared τ σ φ κ} (hp : Placed s) (hsmall : s.table.length < 2 ^ 31) (t : τ)
    {r : Request σ φ κ} (rt : Bool) (hfd : ¬ toInt s.table.length > r.fd) :
    (s.call mem t r rt).map (fun x => (x.1, x.2.view)) = s.view.addEvent mem r.fd r.event r.cb r.caller rt := by
  have hlt : ∀ p ∈ s.table, p < s.next := by
    intro p hp'
    obtain ⟨i, hi⟩ := List.mem_iff_getElem?.mp hp'
    exact (hp.own i p hi).1
  generalize hs₁ : ({ s with calls := Function.update s.calls t (.grow r) } : Shared τ σ φ κ) = s₁
  have hm : s.Moves mem (.lookup t r) s₁ := hs₁ ▸ .missing hfd
  have hstep : s.step mem (.lookup t r) = .ok (0, s₁) := by
    simp only [Shared.step, if_neg hfd, hs₁]
    rfl
  have hp₁ : Placed s₁ := hp.step hm (by rw [← hs₁])
  have ht₁ : s₁.calls t = .grow r := by
    rw [← hs₁]
    exact Function.update_self ..
  have hview : s.view.addEvent mem r.fd r.event r.cb r.caller rt =
      (contextResize mem (s₁.next + ·) s₁.table (3 * r.fd.toNat / 2)).bind fun table =>
        addEventAt { s₁.view with
          fdContexts := table.map fun p => if p < s₁.next then s₁.heap p else freshContext (p - s₁.next) }
          r.fd r.event r.cb r.caller rt := by
    unfold addEvent lookup
    rw [view_length, if_neg hfd, show s.view.fdContexts = s.table.map s.heap from rfl, contextResize_map hlt, ← hs₁]
    cases contextResize mem (s.next + ·) s.table (3 * r.fd.toNat / 2) <;> rfl
  unfold Shared.call
  rw [hview, hstep]
  simp only [bind, Except.bind]
  cases hc : contextResize mem (s₁.next + ·) s₁.table (3 * r.fd.toNat / 2) with
  | error f =>
    have hstep₁ : s₁.step mem (.resize t) = .error f := by
      simp only [Shared.step, ht₁, hc]
      rfl
    rw [hstep₁]
    rfl
  | ok table =>
    cases hq : pointer table r.fd with
    | error f =>
      have hstep₁ : s₁.step mem (.resize t) = .error f := by
        simp only [Shared.step, ht₁, hc, hq, bind, Except.bind]
      have hctx := view_fdContext { s₁ with
        table, heap := fun p => if p < s₁.next then s₁.heap p else freshContext (p - s₁.next) } r.fd
      dsimp only at hctx
      rw [hq] at hctx
      rw [hstep₁]
      unfold addEventAt
      exact (congrArg (fun x => x >>= _) hctx).symm
    | ok p =>
      rw [step_resized ht₁ hc hq]
      have hm₁ := Shared.Moves.resized ht₁ hc hq
      refine register_view (hp₁.step hm₁ ((contextResize_spec hc).2.2.1.mpr ?_)) (Function.update_self ..) rt
      rw [toInt_of_lt hsmall] at hfd
      rw [← hs₁]
      dsimp only
      omega

/-- **A call without interruption** is `IOManager.addEvent`. -/
theorem call_view {s : Shared τ σ φ κ} (hp : Placed s) (hsmall : s.table.length < 2 ^ 31) (t : τ) (r : Request σ φ κ)
    (rt : Bool) :
    (s.call mem t r rt).map (fun x => (x.1, x.2.view)) = s.view.addEvent mem r.fd r.event r.cb r.caller rt := by
  by_cases hfd : toInt s.table.length > r.fd
  · exact call_view_found hp t rt hfd
  · exact call_view_missing hp hsmall t rt hfd

end

end QWebServer.IOManager
