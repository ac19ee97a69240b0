import Mathlib.Data.Fintype.Basic
import QWebServer.Config.Model

/-!
# What listeners see of several writers

* `writers` : threads inside `setValue`, cut at its two sections;
* `received` : the notifications of a listener, `Chain` : each starts from the value the one before it announced;
* `Alone` : no other call is between its notification and its store when a call notifies;
* `listeners_iff` : listeners see a consistent history exactly in the runs of such steps;
* `connectTimeout` : the variable `tcp.connect.timeout` with the listener of `hook.cpp`.
-/

namespace QWebServer.ConfigVar

open Lib

variable {τ α ρ : Type}

/-- A variable, what its listeners have written, and for every thread between its two sections the value it is to
store. -/
structure Shared (τ α ρ : Type) where
  var : ConfigVar α ρ
  world : ρ
  pending : τ → Option α := fun _ => none

/-- The two sections of a call of `setValue(v)` by the thread `t`. -/
inductive Section (τ α : Type)
  | compare (t : τ) (v : α)
  | store (t : τ)

/-- One section, and the calls of listeners it makes: key, `old_value` and `new_value`. -/
def Shared.step [BEq α] [DecidableEq τ] (s : Shared τ α ρ) :
    Section τ α → Except Empty (List (Nat × α × α) × Shared τ α ρ)
  | .compare t v =>
    match s.var.compareAndNotify v s.world with
    | none => .ok ([], s)
    | some w => .ok (s.var.cbs.map fun cb => (cb.1, s.var.val, v),
        { s with world := w, pending := Function.update s.pending t (some v) })
  | .store t =>
    match s.pending t with
    | none => .ok ([], s)
    | some v => .ok ([], { s with var := s.var.store v, pending := Function.update s.pending t none })

/-- A thread is in one call at a time. -/
def Shared.Allowed (s : Shared τ α ρ) : Section τ α → Prop
  | .compare t _ => s.pending t = none
  | .store t => s.pending t ≠ none

instance [DecidableEq α] (s : Shared τ α ρ) : (l : Section τ α) → Decidable (s.Allowed l)
  | .compare t _ => inferInstanceAs (Decidable (s.pending t = none))
  | .store t => inferInstanceAs (Decidable (s.pending t ≠ none))

/-- Any interleaving of calls of `setValue`, from the variable `c` and `w` on. -/
def writers [BEq α] [DecidableEq τ] (c : ConfigVar α ρ) (w : ρ) :
    Machine (Shared τ α ρ) (Section τ α) (List (Nat × α × α)) Empty where
  init s := s = { var := c, world := w }
  enabled := Shared.Allowed
  step := Shared.step

instance [BEq α] [DecidableEq τ] [DecidableEq α] (c : ConfigVar α ρ) (w : ρ) (s : Shared τ α ρ) (l : Section τ α) :
    Decidable ((writers c w).enabled s l) :=
  inferInstanceAs (Decidable (s.Allowed l))

abbrev History (τ α ρ : Type) := List (Entry (Shared τ α ρ) (Section τ α) (List (Nat × α × α)))

/-! ## Histories of a listener -/

/-- The notifications that the listener at the key `i` received. -/
def received (h : History τ α ρ) (i : Nat) : List (α × α) :=
  (h.flatMap (·.out)).filterMap fun c => if c.1 = i then some c.2 else none

/-- Each notification starts from what the one before it announced, the first one from `x`. -/
def Chain (x : α) : List (α × α) → Prop
  | [] => True
  | p :: l => p.1 = x ∧ Chain p.2 l

/-- What the last notification announced, `x` when there was none. -/
def lastNew (x : α) (l : List (α × α)) : α := (l.getLast?.map Prod.snd).getD x

/-- The listener at `i` keeps `g new_value` at `get`, where no other listener writes. -/
def Mirrors {β : Type} (c : ConfigVar α ρ) (i : Nat) (get : ρ → β) (g : α → β) : Prop :=
  ∀ cb ∈ c.cbs, ∀ o n w, get (cb.2 o n w) = if cb.1 = i then g n else get w

/-- **A consistent history**: the notifications form a chain, and when no call is in progress `m_val` is what the last
one announced, and a listener that keeps the value has this one. -/
structure Consistent (c : ConfigVar α ρ) (w : ρ) (h : History τ α ρ) (s : Shared τ α ρ) (i : Nat) : Prop where
  chain : Chain c.val (received h i)
  settled : (∀ t, s.pending t = none) → s.var.val = lastNew c.val (received h i)
  mirrored : ∀ (β : Type) (get : ρ → β) (g : α → β), c.Mirrors i get g → get w = g c.val → (∀ t, s.pending t = none) →
    get s.world = g s.var.val

/-- A call that notifies is the only one between its sections. -/
def Alone [BEq α] (s : Shared τ α ρ) : Section τ α → Prop
  | .compare _ v => (s.var.val == v) = false → ∀ u, s.pending u = none
  | .store _ => True

instance [BEq α] [DecidableEq α] [Fintype τ] (s : Shared τ α ρ) : (l : Section τ α) → Decidable (Alone s l)
  | .compare _ _ => inferInstanceAs (Decidable (_ → _))
  | .store _ => inferInstanceAs (Decidable True)

theorem lastNew_cons (x : α) (q : α × α) (l : List (α × α)) : lastNew x (q :: l) = lastNew q.2 l := by
  unfold lastNew
  rw [List.getLast?_cons]
  cases l.getLast? <;> rfl

theorem chain_concat {x : α} {l : List (α × α)} {p : α × α} : Chain x (l ++ [p]) ↔ Chain x l ∧ p.1 = lastNew x l := by
  induction l generalizing x with
  | nil => simp [Chain, lastNew]
  | cons q l ih =>
    rw [List.cons_append, Chain, Chain, ih, and_assoc, lastNew_cons]

theorem Chain.init {x : α} {l l' : List (α × α)} (hc : Chain x (l ++ l')) : Chain x l := by
  induction l generalizing x with
  | nil => trivial
  | cons q l ih => exact ⟨hc.1, ih hc.2⟩

theorem lastNew_concat (x : α) (l : List (α × α)) (p : α × α) : lastNew x (l ++ [p]) = p.2 := by
  simp [lastNew]

theorem received_concat (h : History τ α ρ) (e : Entry (Shared τ α ρ) (Section τ α) (List (Nat × α × α))) (i : Nat) :
    received (h ++ [e]) i = received h i ++ e.out.filterMap fun c => if c.1 = i then some c.2 else none := by
  simp [received, List.filterMap_append]

theorem filterMap_calls (c : ConfigVar α ρ) (o n : α) {i : Nat} (hi : i ∈ c.cbs.map Prod.fst) :
    ((c.cbs.map fun cb => (cb.1, o, n)).filterMap fun x : Nat × α × α => if x.1 = i then some x.2 else none) =
      [(o, n)] := by
  obtain ⟨val, cbs, keys⟩ := c
  dsimp only at hi ⊢
  clear val
  induction cbs with
  | nil => cases hi
  | cons cb cbs ih =>
    rw [List.map_cons, List.nodup_cons] at keys
    rw [List.map_cons, List.filterMap_cons]
    by_cases hk : cb.1 = i
    · subst hk
      have hnone : ((cbs.map fun cb => (cb.1, o, n)).filterMap
          fun x : Nat × α × α => if x.1 = cb.1 then some x.2 else none) = [] := by
        rw [List.filterMap_eq_nil_iff]
        intro x hx
        obtain ⟨cb', hcb', rfl⟩ := List.mem_map.mp hx
        rw [if_neg]
        exact fun he => keys.1 (he ▸ List.mem_map_of_mem hcb')
      simp [hnone]
    · rw [if_neg hk]
      refine ih keys.2 ?_
      rw [List.map_cons, List.mem_cons] at hi
      exact hi.resolve_left (Ne.symm hk)

theorem Mirrors.notify {β : Type} {c : ConfigVar α ρ} {i : Nat} {get : ρ → β} {g : α → β} (hm : c.Mirrors i get g)
    (hi : i ∈ c.cbs.map Prod.fst) (v : α) (w : ρ) : get (c.notify v w) = g v := by
  have hfold : ∀ (l : List (Nat × (α → α → ρ → ρ))) (w : ρ), (∀ cb ∈ l, cb ∈ c.cbs) →
      get (l.foldl (fun w cb => cb.2 c.val v w) w) = if i ∈ l.map Prod.fst then g v else get w := by
    intro l
    induction l with
    | nil => intro w _; simp
    | cons cb l ih =>
      intro w hl
      rw [List.foldl_cons, ih _ fun cb' h => hl cb' (List.mem_cons_of_mem _ h), hm cb (hl cb (by simp))]
      by_cases h1 : i ∈ l.map Prod.fst
      · simp only [h1, if_true, List.map_cons, List.mem_cons, or_true]
      · simp only [h1, if_false, List.map_cons, List.mem_cons, or_false]
        simp [eq_comm]
  unfold ConfigVar.notify
  rw [hfold c.cbs w fun _ h => h, if_pos hi]

/-! ## Steps and runs -/

theorem received_silent (h : History τ α ρ) (s s' : Shared τ α ρ) (l : Section τ α) (i : Nat) :
    received (h ++ [⟨s, l, [], s'⟩]) i = received h i := by
  rw [received_concat]
  exact List.append_nil _

theorem received_notify {s : Shared τ α ρ} {i : Nat} (hi : i ∈ s.var.cbs.map Prod.fst) (h : History τ α ρ)
    (s' : Shared τ α ρ) (l : Section τ α) (v : α) :
    received (h ++ [⟨s, l, s.var.cbs.map (fun cb => (cb.1, s.var.val, v)), s'⟩]) i =
      received h i ++ [(s.var.val, v)] := by
  rw [received_concat, filterMap_calls s.var s.var.val v hi]

section
variable [BEq α] {c : ConfigVar α ρ} {w : ρ} {i : Nat}

/-- Where runs without overlapping notifications stand after the notifications `l`: `m_val` is what was announced last,
or one call is to store it. -/
structure Orderly (c : ConfigVar α ρ) (w : ρ) (i : Nat) (l : List (α × α)) (s : Shared τ α ρ) : Prop where
  cbs : s.var.cbs = c.cbs
  chain : Chain c.val l
  one : ∀ t u, s.pending t ≠ none → s.pending u ≠ none → t = u
  idle : (∀ t, s.pending t = none) → s.var.val = lastNew c.val l
  busy : ∀ t v, s.pending t = some v → lastNew c.val l = v ∧ (s.var.val == v) = false
  mirrored : ∀ (β : Type) (get : ρ → β) (g : α → β), c.Mirrors i get g → get w = g c.val →
    get s.world = g (lastNew c.val l)

theorem orderly_start : Orderly (τ := τ) c w i [] { var := c, world := w } where
  cbs := rfl
  chain := trivial
  one := fun _ _ h => absurd rfl h
  idle := fun _ => rfl
  busy := fun _ _ h => nomatch h
  mirrored := fun _ _ _ _ hw => hw

theorem Orderly.consistent {h : History τ α ρ} {s : Shared τ α ρ} (ho : Orderly c w i (received h i) s) :
    Consistent c w h s i where
  chain := ho.chain
  settled := ho.idle
  mirrored := by
    intro β get g hm hw hnone
    rw [ho.mirrored β get g hm hw, ho.idle hnone]

theorem Orderly.notify [DecidableEq τ] {l : List (α × α)} {s : Shared τ α ρ} (hi : i ∈ c.cbs.map Prod.fst)
    (ho : Orderly c w i l s) (hnone : ∀ u, s.pending u = none) (t : τ) {v : α} (hv : (s.var.val == v) = false) :
    Orderly c w i (l ++ [(s.var.val, v)])
      { s with world := s.var.notify v s.world, pending := Function.update s.pending t (some v) } := by
  have hpend : ∀ u x, Function.update s.pending t (some v) u = some x → u = t ∧ x = v := by
    intro u x hu
    by_cases he : u = t
    · subst he
      rw [Function.update_self] at hu
      exact ⟨rfl, (Option.some.inj hu).symm⟩
    · rw [Function.update_of_ne he, hnone u] at hu
      cases hu
  constructor
  · exact ho.cbs
  · exact chain_concat.mpr ⟨ho.chain, ho.idle hnone⟩
  · intro u u' hu hu'
    obtain ⟨x, hx⟩ := Option.ne_none_iff_exists'.mp hu
    obtain ⟨x', hx'⟩ := Option.ne_none_iff_exists'.mp hu'
    rw [(hpend u x hx).1, (hpend u' x' hx').1]
  · intro hall
    have := hall t
    dsimp only at this
    rw [Function.update_self] at this
    cases this
  · intro u x hu
    rw [(hpend u x hu).2, lastNew_concat]
    exact ⟨rfl, hv⟩
  · intro β get g hm _
    have hm' : s.var.Mirrors i get g := fun cb hcb => hm cb (ho.cbs ▸ hcb)
    rw [lastNew_concat]
    exact hm'.notify (by rwa [ho.cbs]) v s.world

theorem Orderly.store [DecidableEq τ] {l : List (α × α)} {s : Shared τ α ρ} (ho : Orderly c w i l s) {t : τ} {v : α}
    (ht : s.pending t = some v) :
    Orderly c w i l { s with var := s.var.store v, pending := Function.update s.pending t none } := by
  have hnone : ∀ u, Function.update s.pending t none u = none := by
    intro u
    by_cases he : u = t
    · rw [he, Function.update_self]
    · rw [Function.update_of_ne he]
      by_contra hu
      exact he (ho.one u t hu (by simp [ht]))
  constructor
  · exact ho.cbs
  · exact ho.chain
  · intro u _ hu
    exact absurd (hnone u) hu
  · intro _
    exact (ho.busy t v ht).1.symm
  · intro u x hu
    cases (hnone u).symm.trans hu
  · exact ho.mirrored

end

section
variable [BEq α] [DecidableEq τ] {c : ConfigVar α ρ} {w : ρ} {i : Nat}

theorem Shared.step_cases {s s' : Shared τ α ρ} {l : Section τ α} {out : List (Nat × α × α)} (ha : s.Allowed l)
    (hs : s.step l = .ok (out, s')) :
    (∃ t v, l = .compare t v ∧ (s.var.val == v) = true ∧ out = [] ∧ s' = s) ∨
    (∃ t v, l = .compare t v ∧ (s.var.val == v) = false ∧ out = s.var.cbs.map (fun cb => (cb.1, s.var.val, v)) ∧
      s' = { s with world := s.var.notify v s.world, pending := Function.update s.pending t (some v) }) ∨
    (∃ t v, l = .store t ∧ s.pending t = some v ∧ out = [] ∧
      s' = { s with var := s.var.store v, pending := Function.update s.pending t none }) := by
  cases l with
  | compare t v =>
    unfold Shared.step compareAndNotify at hs
    cases hv : s.var.val == v with
    | true =>
      simp only [hv, if_true] at hs
      cases hs
      exact .inl ⟨t, v, rfl, hv, rfl, rfl⟩
    | false =>
      simp only [hv, Bool.false_eq_true, if_false] at hs
      cases hs
      exact .inr (.inl ⟨t, v, rfl, hv, rfl, rfl⟩)
  | store t =>
    unfold Shared.step at hs
    cases hp : s.pending t with
    | none => exact absurd hp ha
    | some v =>
      simp only [hp] at hs
      cases hs
      exact .inr (.inr ⟨t, v, rfl, hp, rfl, rfl⟩)

/-- **One section** keeps the order when its notification does not overlap. -/
theorem Orderly.step {h : History τ α ρ} {s s' : Shared τ α ρ} {l : Section τ α} {out : List (Nat × α × α)}
    (hi : i ∈ c.cbs.map Prod.fst) (ho : Orderly c w i (received h i) s) (ha : s.Allowed l) (hl : Alone s l)
    (hs : s.step l = .ok (out, s')) : Orderly c w i (received (h ++ [⟨s, l, out, s'⟩]) i) s' := by
  rcases Shared.step_cases ha hs with ⟨t, v, rfl, -, rfl, rfl⟩ | ⟨t, v, rfl, hv, rfl, rfl⟩ | ⟨t, v, rfl, hp, rfl, rfl⟩
  · rwa [received_silent]
  · rw [received_notify (by rwa [ho.cbs])]
    exact ho.notify hi (hl hv) t hv
  · rw [received_silent]
    exact ho.store hp

theorem orderly {h : History τ α ρ} {s : Shared τ α ρ} (hi : i ∈ c.cbs.map Prod.fst) (hr : Run (writers c w) h s)
    (hal : ∀ e ∈ h, Alone e.pre e.inp) : Orderly c w i (received h i) s := by
  induction hr with
  | start h0 =>
    subst h0
    exact orderly_start
  | @step h s s' l out hr ha hs ih =>
    have ho := ih fun e he => hal e (List.mem_append_left _ he)
    exact ho.step hi ha (hal ⟨s, l, out, s'⟩ (by simp)) hs

/-- The first notification that overlaps another call breaks the chain. -/
theorem alone_of_chain [ReflBEq α] {h : History τ α ρ} {s : Shared τ α ρ} (hi : i ∈ c.cbs.map Prod.fst)
    (hr : Run (writers c w) h s) (hc : Chain c.val (received h i)) : ∀ e ∈ h, Alone e.pre e.inp := by
  induction hr with
  | start => simp
  | @step h s s' l out hr ha hs ih =>
    have hal : ∀ e ∈ h, Alone e.pre e.inp := by
      rw [received_concat] at hc
      exact ih hc.init
    have ho := orderly hi hr hal
    intro e he
    rcases List.mem_append.mp he with he | he
    · exact hal e he
    rw [List.mem_singleton.mp he]
    rcases Shared.step_cases ha hs with ⟨t, v, rfl, hv, -⟩ | ⟨t, v, rfl, hv, rfl, rfl⟩ | ⟨t, v, rfl, -⟩
    · intro hv'
      rw [hv] at hv'
      cases hv'
    · intro _ u
      by_contra hu
      obtain ⟨v', hv'⟩ := Option.ne_none_iff_exists'.mp hu
      obtain ⟨hlast, hne⟩ := ho.busy u v' hv'
      rw [received_notify (by rwa [ho.cbs]), chain_concat, hlast] at hc
      rw [← hc.2, beq_self_eq_true] at hne
      cases hne
    · trivial

/-- **Listeners see a consistent history exactly in the runs** whose notifications never overlap another call; that they
do not overlap is enough for any `==`, and needed when it is reflexive. -/
theorem listeners_iff {h : History τ α ρ} {s : Shared τ α ρ} (hi : i ∈ c.cbs.map Prod.fst)
    (hr : Run (writers c w) h s) :
    ((∀ e ∈ h, Alone e.pre e.inp) → Consistent c w h s i) ∧
      (ReflBEq α → Consistent c w h s i → ∀ e ∈ h, Alone e.pre e.inp) := by
  constructor
  · intro hal
    exact (orderly hi hr hal).consistent
  · intro _ hc
    exact alone_of_chain hi hr hc.chain

end

/-! ## `tcp.connect.timeout` -/

/-- `s_connect_timeout = v` for an `int` value `v`. -/
def toTimeout (v : Int32) : UInt64 := v.toInt64.toUInt64

/-- `g_tcp_connect_timeout` after `_init_HOOK`; its listener writes `s_connect_timeout`. -/
def connectTimeout : ConfigVar Int32 UInt64 :=
  (new 5000).addListener 0 (fun _ v _ => toTimeout v) (by simp [new])

theorem connectTimeout_mirrors : connectTimeout.Mirrors 1 id toTimeout := by
  intro cb hcb o n w
  rw [List.mem_singleton.mp (show cb ∈ [(1, fun _ v _ => toTimeout v)] from hcb)]
  rfl

/-- When no call is in progress, `s_connect_timeout` is the value of `tcp.connect.timeout`. -/
theorem connectTimeout_settled [DecidableEq τ] {h : History τ Int32 UInt64} {s : Shared τ Int32 UInt64}
    (hr : Run (writers connectTimeout (toTimeout connectTimeout.val)) h s) (hal : ∀ e ∈ h, Alone e.pre e.inp)
    (hnone : ∀ t, s.pending t = none) : s.world = toTimeout s.var.val :=
  (orderly (i := 1) (by decide) hr hal).consistent.mirrored UInt64 id toTimeout connectTimeout_mirrors rfl hnone

/-- Two calls one after the other, by two threads. -/
theorem listeners_iff_in_turn : ∃ h s, Run (writers (τ := Bool) connectTimeout (toTimeout connectTimeout.val)) h s ∧
    received h 1 = [(5000, 1000), (1000, 2000)] ∧
    Consistent connectTimeout (toTimeout connectTimeout.val) h s 1 ∧ ∀ e ∈ h, Alone e.pre e.inp := by
  obtain ⟨h, s, hr, hp⟩ := Run.of_replay (writers (τ := Bool) connectTimeout (toTimeout connectTimeout.val)) rfl
    [.compare true 1000, .store true, .compare false 2000, .store false]
    (fun r => decide (received r.1 1 = [(5000, 1000), (1000, 2000)]) && r.1.all fun e => decide (Alone e.pre e.inp))
    (by decide)
  simp only [Bool.and_eq_true, List.all_eq_true, decide_eq_true_eq] at hp
  have hiff := listeners_iff (i := 1) (by decide) hr
  have hc := hiff.1 hp.2
  exact ⟨h, s, hr, hp.1, hc, hiff.2 inferInstance hc⟩

/-- Two threads set 1000 and 2000: both notify before either stores, and the one that notified last stores first. -/
theorem listeners_overlapping : ∃ h s, Run (writers (τ := Bool) connectTimeout (toTimeout connectTimeout.val)) h s ∧
    (∀ t, s.pending t = none) ∧ received h 1 = [(5000, 1000), (5000, 2000)] ∧ s.var.val = 1000 ∧ s.world = 2000 ∧
    ¬ Consistent connectTimeout (toTimeout connectTimeout.val) h s 1 := by
  obtain ⟨h, s, hr, hp⟩ := Run.of_replay (writers (τ := Bool) connectTimeout (toTimeout connectTimeout.val)) rfl
    [.compare true 1000, .compare false 2000, .store false, .store true]
    (fun r => decide (∀ t, r.2.pending t = none) && decide (received r.1 1 = [(5000, 1000), (5000, 2000)]) &&
      decide (r.2.var.val = 1000) && decide (r.2.world = 2000)) (by decide)
  simp only [Bool.and_eq_true, decide_eq_true_eq] at hp
  obtain ⟨⟨⟨hnone, hrec⟩, hval⟩, hworld⟩ := hp
  refine ⟨h, s, hr, hnone, hrec, hval, hworld, fun hc => ?_⟩
  have hset := hc.settled hnone
  rw [hval, hrec] at hset
  revert hset
  decide

end QWebServer.ConfigVar
