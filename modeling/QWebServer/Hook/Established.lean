import QWebServer.Hook.Connect

/-!
# A successful connect is a connection

* `Op.Triggers` : an operation of the manager resumes who waits for an event;
* `Waiting` : a call of `connect_with_timeout` waits for a connection in progress, and its timeout has not fired;
* `Undisturbed` : the `addEvent` of such a call does not fail, nobody triggers its event, and who enters
  `connect_with_timeout` is awaited nowhere, on a descriptor that nobody else connects;
* `connected` : in runs of such steps a call returns 0 only where the connection is established.
-/

namespace QWebServer

open Lib

namespace IOManager

variable {σ φ κ : Type}

/-- What `epoll_wait` reported makes `idle` trigger `event` on `fd`. -/
def reports (m : IOManager σ φ κ) (fd : Int) (event : Event) (reported : BitVec 32) : Bool :=
  match m.fdContext fd with
  | .ok c => realEvents reported c.events &&& event.mask != 0#32
  | .error _ => false

/-- The operation resumes who waits for `event` on `fd`. -/
def Op.Triggers (m : IOManager σ φ κ) (fd : Int) (event : Event) : Op σ φ κ → Prop
  | .cancelEvent fd' event' rt => fd' = fd ∧ event' = event ∧ rt = true
  | .cancelAll fd' rt => fd' = fd ∧ rt = true
  | .idle fd' reported rt => fd' = fd ∧ rt = true ∧ m.reports fd event reported = true
  | _ => False

instance (m : IOManager σ φ κ) (fd : Int) (event : Event) : (o : Op σ φ κ) → Decidable (o.Triggers m fd event)
  | .cancelEvent .. => inferInstanceAs (Decidable (_ ∧ _))
  | .cancelAll .. => inferInstanceAs (Decidable (_ ∧ _))
  | .idle .. => inferInstanceAs (Decidable (_ ∧ _))
  | .addEvent .. => isFalse id
  | .delEvent .. => isFalse id

open Waiters

theorem mem_pass {ws : Slots σ φ κ} {evs : List Event} {f : φ} (h : f ∈ (pass ws evs).filterMap (·.2.fiber)) :
    ∃ e ∈ evs, ∃ u, ws e = some (u, .fiber f) := by
  obtain ⟨x, hx, hf⟩ := List.mem_filterMap.mp h
  obtain ⟨e, he, hw⟩ := List.mem_filterMap.mp hx
  obtain ⟨⟨u, task⟩, hu, rfl⟩ := Option.map_eq_some_iff.mp hw
  refine ⟨e, he, u, ?_⟩
  cases task with
  | fiber g =>
    obtain rfl : g = f := Option.some.inj hf
    exact hu
  | cb k => cases hf

/-- Who is resumed was waiting for an event that the operation triggers. -/
theorem triggers_of_step {mem : Memory} {W : Waiters σ φ κ} {o : Op σ φ κ} {r : Reply σ φ κ} {m : IOManager σ φ κ}
    (h : step mem W.manager o = .ok (r, m)) {f : φ} (hf : f ∈ r.scheduled.filterMap (·.2.fiber)) :
    ∃ (i : Nat) (e : Event) (u : σ), W.slot i e = some (u, .fiber f) ∧ o.Triggers W.manager i e := by
  cases o with
  | addEvent fd e cb caller rt =>
    obtain ⟨⟨ret, m⟩, -, hr⟩ := bind_eq_ok h
    cases hr
    cases hf
  | delEvent fd e rt =>
    obtain ⟨⟨ret, m⟩, -, hr⟩ := bind_eq_ok h
    cases hr
    cases hf
  | cancelEvent fd e rt =>
    obtain ⟨⟨ret, calls, m⟩, h, hr⟩ := bind_eq_ok h
    cases hr
    rcases fd_cases W fd with hneg | hout | ⟨i, hi, rfl⟩
    · simp [cancelEvent, not_size_le_of_neg W hneg, fdContext_of_neg _ hneg, bind, Except.bind] at h
    · rw [cancelEvent, if_pos hout] at h
      cases h
      cases hf
    · rw [cancelEvent_manager W hi] at h
      split_ifs at h with hgo
      · cases h
        obtain ⟨e', he', u, hu⟩ := mem_pass hf
        obtain rfl := List.mem_singleton.mp he'
        exact ⟨i, e', u, hu, rfl, rfl, hgo.1⟩
      · cases h
        cases hf
  | cancelAll fd rt =>
    obtain ⟨⟨ret, calls, m⟩, h, hr⟩ := bind_eq_ok h
    cases hr
    rcases fd_cases W fd with hneg | hout | ⟨i, hi, rfl⟩
    · simp [cancelAll, not_size_le_of_neg W hneg, fdContext_of_neg _ hneg, bind, Except.bind] at h
    · rw [cancelAll, if_pos hout] at h
      cases h
      cases hf
    · rw [cancelAll_manager W hi] at h
      split_ifs at h with hgo
      · cases h
        obtain ⟨e, -, u, hu⟩ := mem_pass hf
        exact ⟨i, e, u, hu, rfl, hgo.1⟩
      · cases h
        cases hf
  | idle fd x rt =>
    obtain ⟨⟨calls, m⟩, h, hr⟩ := bind_eq_ok h
    cases hr
    obtain ⟨c, hc, -⟩ := bind_eq_ok h
    obtain ⟨i, hi, rfl⟩ := inTable_of_fdContext hc
    rw [idleEvent_manager W hi] at h
    split_ifs at h with hgo hocc
    · cases h
      obtain ⟨e, he, u, hu⟩ := mem_pass hf
      refine ⟨i, e, u, hu, rfl, hgo.1, ?_⟩
      unfold reports
      rw [fdContext_manager W hi]
      simpa [of_events] using mem_eventsOf.mp he
    · cases h
      cases hf

end IOManager

namespace Connects

open Hook (Call Outside Firing Advances Fires Move)
open IOManager (Waiters Memory Op Effect Event Task)

variable {φ κ : Type}

/-- The call waits in `YieldToHold`, or is about to, for a connection that is in progress, and `cancelled` is not
set. -/
def Waiting (s : Connects φ κ) (c : Call φ) : Prop :=
  c.kind = .connect ∧ (c.pc = .yield ∨ c.pc = .suspended) ∧ s.link c.fd = .connecting ∧ c.cancelled = 0

/-- No call of `connect_with_timeout` on the descriptor has still to return. -/
def Vacant (s : Connects φ κ) (fd : Int) : Prop :=
  ∀ a < s.hook.calls.length, ∀ c ∈ s.hook.calls[a]?, c.kind = .connect → c.fd = fd →
    c.pc = .returned ∧ s.asking a = false

/-- The fiber is not queued, and no event resumes it. -/
def Unawaited (s : Hook φ κ) (f : φ) : Prop :=
  f ∉ s.queue ∧ ∀ x ∈ s.iom.fdContexts, x.read.fiber ≠ some f ∧ x.write.fiber ≠ some f

/-- The callback is in the `cancelEvent` of a timeout, which triggers `event` on `fd`. -/
def Cancels (s : Hook φ κ) (rt : Bool) (fd : Int) (event : Event) (b : Firing κ) : Prop :=
  match b.cb, b.stage with
  | .timeout _ fd' event', .cancel => (Op.cancelEvent fd' event' rt : Op Unit φ κ).Triggers s.iom fd event
  | _, _ => False

/-- Who enters `connect_with_timeout` is awaited nowhere, and nobody else connects the descriptor; `addEvent` does not
fail while the connection is in progress; and nobody triggers the event of a call that waits for it. -/
def Undisturbed (s : Connects φ κ) : Label φ κ → Prop
  | .enter _ _ fd _ fiber _ => s.Vacant fd ∧ Unawaited s.hook fiber
  | .call a x => ∀ c ∈ s.hook.calls[a]?, c.kind = .connect → c.pc = .add → s.link c.fd = .connecting → x.rt = true
  | .hook (.manage o) => ∀ c ∈ s.hook.calls, s.Waiting c → ¬ o.Triggers s.hook.iom c.fd .write
  | .hook (.fire k rt) => ∀ b ∈ s.hook.firings[k]?, ∀ c ∈ s.hook.calls, s.Waiting c → ¬ Cancels s.hook rt c.fd .write b
  | _ => True

instance (s : Connects φ κ) (c : Call φ) : Decidable (s.Waiting c) := inferInstanceAs (Decidable (_ ∧ _ ∧ _ ∧ _))

instance (s : Connects φ κ) (fd : Int) : Decidable (s.Vacant fd) :=
  inferInstanceAs (Decidable (∀ a < s.hook.calls.length, ∀ c ∈ s.hook.calls[a]?, c.kind = .connect → c.fd = fd →
    c.pc = .returned ∧ s.asking a = false))

instance [DecidableEq φ] (s : Hook φ κ) (f : φ) : Decidable (Unawaited s f) := inferInstanceAs (Decidable (_ ∧ _))

instance (s : Hook φ κ) (rt : Bool) (fd : Int) (event : Event) : (b : Firing κ) → Decidable (Cancels s rt fd event b)
  | ⟨_, .timeout _ fd' event', .cancel⟩ =>
    inferInstanceAs (Decidable ((Op.cancelEvent fd' event' rt : Op Unit φ κ).Triggers s.iom fd event))
  | ⟨_, .timeout _ _ _, .onTimer⟩ => isFalse id
  | ⟨_, .timeout _ _ _, .check⟩ => isFalse id
  | ⟨_, .timeout _ _ _, .store⟩ => isFalse id
  | ⟨_, .timeout _ _ _, .done⟩ => isFalse id
  | ⟨_, .other _, _⟩ => isFalse id

instance [DecidableEq φ] (s : Connects φ κ) : (l : Label φ κ) → Decidable (s.Undisturbed l)
  | .enter .. => inferInstanceAs (Decidable (_ ∧ _))
  | .call a x => inferInstanceAs (Decidable (∀ c ∈ s.hook.calls[a]?, c.kind = .connect → c.pc = .add →
      s.link c.fd = .connecting → x.rt = true))
  | .hook (.manage o) =>
    inferInstanceAs (Decidable (∀ c ∈ s.hook.calls, s.Waiting c → ¬ o.Triggers s.hook.iom c.fd .write))
  | .hook (.fire k rt) => inferInstanceAs (Decidable (∀ b ∈ s.hook.firings[k]?, ∀ c ∈ s.hook.calls, s.Waiting c →
      ¬ Cancels s.hook rt c.fd .write b))
  | .hook (.start _) => isTrue trivial
  | .hook (.call _ _) => isTrue trivial
  | .hook (.expire _ _) => isTrue trivial
  | .hook (.timer _) => isTrue trivial
  | .connectF _ _ => isTrue trivial
  | .getsockopt _ _ => isTrue trivial
  | .establish _ => isTrue trivial
  | .fail _ _ => isTrue trivial

/-! ## The invariant -/

/-- The call `c`, number `a`, of `connect_with_timeout` has still to return. -/
def Live (s : Connects φ κ) (a : Nat) (c : Call φ) : Prop :=
  c.kind = .connect ∧ (c.pc ≠ .returned ∨ s.asking a = true)

/-- The fiber `f` waits for `e` on `i`. -/
def Holds (W : Waiters Unit φ κ) (f : φ) (i : Nat) (e : Event) : Prop := W.slot i e = some ((), .fiber f)

/-- What holds of a call that has still to return. Before `addEvent` nothing resumes its fiber; then its event does, but
not while the connection is in progress; and after the wait the connection is not in progress unless `cancelled` is
set. -/
structure CallOk (W : Waiters Unit φ κ) (s : Connects φ κ) (a : Nat) (c : Call φ) : Prop where
  link : c.pc ≠ .io → s.link c.fd ≠ .idle
  before : c.pc = .io ∨ c.pc = .arm ∨ c.pc = .add → c.fiber ∉ s.hook.queue ∧ ∀ i e, ¬ Holds W c.fiber i e
  held : c.pc = .yield ∨ c.pc = .suspended → ∀ i e, Holds W c.fiber i e → (i : Int) = c.fd ∧ e = .write
  waits : s.Waiting c → c.fiber ∉ s.hook.queue
  after : c.pc = .awake ∨ c.pc = .check → s.link c.fd = .connecting → c.cancelled ≠ 0
  asks : c.pc = .failed ∨ s.asking a = true → s.link c.fd ≠ .connecting

/-- A fiber is in one call at a time, and one call at a time connects a descriptor. -/
structure Inv (W : Waiters Unit φ κ) (s : Connects φ κ) : Prop where
  iom : s.hook.iom = W.manager
  apart : ∀ (a a' : Nat) (c c' : Call φ), s.hook.calls[a]? = some c → s.hook.calls[a']? = some c' → c.pc ≠ .returned →
    c'.pc ≠ .returned → c.fiber = c'.fiber → a = a'
  alone : ∀ (a a' : Nat) (c c' : Call φ), s.hook.calls[a]? = some c → s.hook.calls[a']? = some c' → s.Live a c →
    s.Live a' c' → c.fd = c'.fd → a = a'
  event : ∀ c ∈ s.hook.calls, c.kind = .connect → c.event = .write
  asked : ∀ a, s.asking a = true →
    a < s.hook.calls.length ∧ ∀ c ∈ s.hook.calls[a]?, c.kind = .connect ∧ c.pc = .returned
  call : ∀ (a : Nat) (c : Call φ), s.hook.calls[a]? = some c → s.Live a c → CallOk W s a c

structure Goes (c c' : Call φ) : Prop where
  kind : c'.kind = c.kind
  fd : c'.fd = c.fd
  event : c'.event = c.event
  fiber : c'.fiber = c.fiber
  returned : c.pc = .returned → c'.pc = .returned

theorem Goes.refl (c : Call φ) : Goes c c := ⟨rfl, rfl, rfl, rfl, id⟩

theorem Goes.cancelled (c : Call φ) (n : Int) : Goes c { c with cancelled := n } := ⟨rfl, rfl, rfl, rfl, id⟩

section
variable {W W' : Waiters Unit φ κ} {s s' : Connects φ κ}

theorem Inv.of (hi : Inv W s) (hiom : s'.hook.iom = W'.manager)
    (hcalls : ∀ (a : Nat) (c' : Call φ), s'.hook.calls[a]? = some c' →
      ∃ c, s.hook.calls[a]? = some c ∧ Goes c c' ∧ (s'.Live a c' → s.Live a c))
    (hasked : ∀ a, s'.asking a = true →
      a < s'.hook.calls.length ∧ ∀ c ∈ s'.hook.calls[a]?, c.kind = .connect ∧ c.pc = .returned)
    (hok : ∀ (a : Nat) (c c' : Call φ), s.hook.calls[a]? = some c → s'.hook.calls[a]? = some c' → s.Live a c →
      s'.Live a c' → CallOk W' s' a c') : Inv W' s' := by
  refine ⟨hiom, ?_, ?_, ?_, hasked, ?_⟩
  · intro a a' c₁ c₂ h₁ h₂ hp₁ hp₂ hf
    obtain ⟨d₁, hd₁, hg₁, -⟩ := hcalls a c₁ h₁
    obtain ⟨d₂, hd₂, hg₂, -⟩ := hcalls a' c₂ h₂
    apply hi.apart a a' d₁ d₂ hd₁ hd₂ (fun h => hp₁ (hg₁.returned h)) (fun h => hp₂ (hg₂.returned h))
    rw [← hg₁.fiber, ← hg₂.fiber, hf]
  · intro a a' c₁ c₂ h₁ h₂ hl₁ hl₂ hf
    obtain ⟨d₁, hd₁, hg₁, hlive₁⟩ := hcalls a c₁ h₁
    obtain ⟨d₂, hd₂, hg₂, hlive₂⟩ := hcalls a' c₂ h₂
    apply hi.alone a a' d₁ d₂ hd₁ hd₂ (hlive₁ hl₁) (hlive₂ hl₂)
    rw [← hg₁.fd, ← hg₂.fd, hf]
  · intro c' hc' hk
    obtain ⟨a, hc'⟩ := List.mem_iff_getElem?.mp hc'
    obtain ⟨c, hc, hg, -⟩ := hcalls a c' hc'
    rw [hg.event]
    exact hi.event c (List.mem_of_getElem? hc) (hg.kind ▸ hk)
  · intro a c' hc' hl
    obtain ⟨c, hc, -, hlive⟩ := hcalls a c' hc'
    exact hok a c c' hc hc' (hlive hl) hl

/-- The call stays where it is; the kernel may decide its connection, and `cancelled` may be set. -/
theorem CallOk.mono {a : Nat} {c : Call φ} (h : CallOk W s a c) {n : Int} (hn : n = 0 → c.cancelled = 0)
    (hlink : s'.link c.fd = s.link c.fd ∨ s'.link c.fd ≠ .connecting ∧ s'.link c.fd ≠ .idle)
    (hask : s'.asking a = s.asking a)
    (hslot : c.pc ≠ .returned → ∀ i e, Holds W' c.fiber i e → Holds W c.fiber i e)
    (hqueue : c.fiber ∈ s'.hook.queue → c.fiber ∈ s.hook.queue ∨
      ∃ i e, Holds W c.fiber i e ∧ ((i : Int) = c.fd → e = .write → ¬ s.Waiting c)) :
    CallOk W' s' a { c with cancelled := n } := by
  have hconn : s'.link c.fd = .connecting → s.link c.fd = .connecting := by
    intro h
    rcases hlink with hl | hl
    · rwa [hl] at h
    · exact absurd h hl.1
  have hwait : s'.Waiting { c with cancelled := n } → s.Waiting c := fun ⟨hk, hp, hl, hz⟩ => ⟨hk, hp, hconn hl, hn hz⟩
  refine ⟨?_, ?_, ?_, ?_, ?_, ?_⟩
  · intro hp
    rcases hlink with hl | hl
    · rw [hl]
      exact h.link hp
    · exact hl.2
  · intro hp
    have hnr : c.pc ≠ .returned := by
      rcases hp with hp | hp | hp <;> rw [show c.pc = _ from hp] <;> decide
    obtain ⟨hq, hno⟩ := h.before hp
    refine ⟨fun hmem => ?_, fun i e he => hno i e (hslot hnr i e he)⟩
    rcases hqueue hmem with hmem | ⟨i, e, he, -⟩
    · exact hq hmem
    · exact hno i e he
  · intro hp i e he
    have hnr : c.pc ≠ .returned := by
      rcases hp with hp | hp <;> rw [show c.pc = _ from hp] <;> decide
    exact h.held hp i e (hslot hnr i e he)
  · intro hw hmem
    have hw := hwait hw
    rcases hqueue hmem with hmem | ⟨i, e, he, hno⟩
    · exact h.waits hw hmem
    · obtain ⟨hfd, hev⟩ := h.held hw.2.1 i e he
      exact hno hfd hev hw
  · intro hp hl hz
    exact h.after hp (hconn hl) (hn hz)
  · intro hp hl
    rw [hask] at hp
    exact h.asks hp (hconn hl)

theorem Inv.env (hi : Inv W s) (hiom : s'.hook.iom = W'.manager) (hlen : s'.hook.calls.length = s.hook.calls.length)
    (hcalls : ∀ (a : Nat) (c' : Call φ), s'.hook.calls[a]? = some c' →
      ∃ c n, s.hook.calls[a]? = some c ∧ c' = { c with cancelled := n } ∧ (n = 0 → c.cancelled = 0))
    (hlink : ∀ (a : Nat) (c : Call φ), s.hook.calls[a]? = some c → s.Live a c →
      s'.link c.fd = s.link c.fd ∨ s'.link c.fd ≠ .connecting ∧ s'.link c.fd ≠ .idle) (hask : s'.asking = s.asking)
    (hslot : ∀ c ∈ s.hook.calls, c.pc ≠ .returned → ∀ i e, Holds W' c.fiber i e → Holds W c.fiber i e)
    (hqueue : ∀ c ∈ s.hook.calls, c.fiber ∈ s'.hook.queue → c.fiber ∈ s.hook.queue ∨
      ∃ i e, Holds W c.fiber i e ∧ ((i : Int) = c.fd → e = .write → ¬ s.Waiting c)) : Inv W' s' := by
  apply hi.of hiom
  · intro a c' hc'
    obtain ⟨c, n, hc, rfl, -⟩ := hcalls a c' hc'
    refine ⟨c, hc, Goes.cancelled c n, fun hl => ?_⟩
    unfold Live at hl
    rw [hask] at hl
    exact hl
  · intro a ha
    rw [hask] at ha
    refine ⟨hlen ▸ (hi.asked a ha).1, fun c' hc' => ?_⟩
    obtain ⟨c, n, hc, rfl, -⟩ := hcalls a c' hc'
    exact (hi.asked a ha).2 c hc
  · intro a c c' hc hc' hl _
    obtain ⟨d, n, hd, rfl, hn⟩ := hcalls a c' hc'
    obtain rfl : c = d := Option.some.inj (hc.symm.trans hd)
    have hmem := List.mem_of_getElem? hc
    exact (hi.call a c hc hl).mono hn (hlink a c hc hl) (by rw [hask]) (hslot c hmem) (hqueue c hmem)

/-- Nothing happens to the calls, to who waits, and to the queue. -/
theorem Inv.still (hi : Inv W s) {hook : Hook φ κ} (hcalls : hook.calls = s.hook.calls) (hiom : hook.iom = s.hook.iom)
    (hqueue : hook.queue = s.hook.queue) : Inv W { s with hook := hook } := by
  refine hi.env (hiom.trans hi.iom) (by rw [hcalls]) (fun a c hc => ?_) (fun _ _ _ _ => .inl rfl) rfl
    (fun _ _ _ _ _ h => h) fun _ _ h => .inl (hqueue ▸ h)
  rw [hcalls] at hc
  exact ⟨c, c.cancelled, hc, rfl, id⟩

/-- The call number `a` goes on to `c₁`, and nobody else does. -/
theorem Inv.go (hi : Inv W s) {a : Nat} {c c₁ : Call φ} (hc : s.hook.calls[a]? = some c)
    (hcalls : s'.hook.calls = s.hook.calls.set a c₁) (hg : Goes c c₁) (hiom : s'.hook.iom = W'.manager)
    (hlink : ∀ fd, s'.link fd = s.link fd ∨ fd = c.fd ∧ s.Live a c) (hask : ∀ i, i ≠ a → s'.asking i = s.asking i)
    (hslot : ∀ f i e, Holds W' f i e → Holds W f i e ∨ f = c.fiber ∧ c.pc ≠ .returned)
    (hqueue : ∀ f ∈ s'.hook.queue, f ∈ s.hook.queue)
    (hasked : s'.asking a = true → c₁.kind = .connect ∧ c₁.pc = .returned) (hlive : s'.Live a c₁ → s.Live a c)
    (hself : s'.Live a c₁ → CallOk W' s' a c₁) : Inv W' s' := by
  apply hi.of hiom
  · intro i c' hc'
    rw [hcalls] at hc'
    rcases Hook.getElem?_set_cases hc' with ⟨rfl, rfl⟩ | ⟨hne, hc'⟩
    · exact ⟨c, hc, hg, hlive⟩
    · refine ⟨c', hc', Goes.refl c', fun hl => ?_⟩
      unfold Live at hl
      rw [hask i hne] at hl
      exact hl
  · intro i hi'
    rw [hcalls, List.length_set]
    by_cases hia : i = a
    · subst hia
      refine ⟨(List.getElem?_eq_some_iff.mp hc).1, fun c' hc' => ?_⟩
      rcases Hook.getElem?_set_cases hc' with ⟨-, rfl⟩ | ⟨hne, -⟩
      · exact hasked hi'
      · exact absurd rfl hne
    · rw [hask i hia] at hi'
      refine ⟨(hi.asked i hi').1, fun c' hc' => ?_⟩
      rcases Hook.getElem?_set_cases hc' with ⟨rfl, -⟩ | ⟨-, hc'⟩
      · exact absurd rfl hia
      · exact (hi.asked i hi').2 c' hc'
  · intro i d d' hd hd' hl hl'
    rw [hcalls] at hd'
    rcases Hook.getElem?_set_cases hd' with ⟨rfl, rfl⟩ | ⟨hne, hd'⟩
    · exact hself hl'
    · obtain rfl : d = d' := Option.some.inj (hd.symm.trans hd')
      refine (hi.call i d hd hl).mono id ?_ (hask i hne) (fun hp i' e he => ?_) fun hmem => .inl (hqueue _ hmem)
      · rcases hlink d.fd with h | ⟨hfd, hla⟩
        · exact .inl h
        · exact absurd (hi.alone i a d c hd hc hl hla hfd) hne
      · rcases hslot _ i' e he with h | ⟨hf, hp'⟩
        · exact h
        · exact absurd (hi.apart i a d c hd hc hp hp' hf) hne

/-! ## The manager -/

theorem holds_of_effect {o : Op Unit φ κ} {r : IOManager.Reply Unit φ κ} (he : Effect W o r W') (ho : s.hook.ManageOk o)
    {c : Call φ} (hc : c ∈ s.hook.calls) (hp : c.pc ≠ .returned) {i : Nat} {e : Event} (h : Holds W' c.fiber i e) :
    Holds W c.fiber i e := by
  rcases he.slot h with h | ⟨cb, caller, rfl, -, -, htask⟩
  · exact h
  · cases cb with
    | none =>
      obtain hf : c.fiber = caller.fiber := Task.fiber.inj htask
      exact absurd hf (ho.2 c hc hp)
    | some k => cases htask

/-- The manager does something that resumes nobody who waits for a connection. -/
theorem Inv.operate (hi : Inv W s) {mem : Memory} {o : Op Unit φ κ} {r : IOManager.Reply Unit φ κ}
    {m : IOManager Unit φ κ} (ho : s.hook.ManageOk o)
    (hd : ∀ c ∈ s.hook.calls, s.Waiting c → ¬ o.Triggers s.hook.iom c.fd .write)
    (h : s.hook.iom.step mem o = .ok (r, m)) {hook : Hook φ κ} (hcalls : hook.calls = s.hook.calls)
    (hiom : hook.iom = m)
    (hqueue : hook.queue = s.hook.queue ++ r.scheduled.filterMap (·.2.fiber)) :
    ∃ W', Inv W' { s with hook := hook } := by
  rw [hi.iom] at h hd
  obtain ⟨W', rfl, he⟩ := IOManager.step_effect ho.allowed h
  refine ⟨W', hi.env hiom (by rw [hcalls]) (fun a c hc => ?_) (fun _ _ _ _ => .inl rfl) rfl
    (fun c hc hp i e hh => ?_) fun c hc hmem => ?_⟩
  · rw [hcalls] at hc
    exact ⟨c, c.cancelled, hc, rfl, id⟩
  · exact holds_of_effect he ho hc hp hh
  · rw [hqueue] at hmem
    rcases List.mem_append.mp hmem with hmem | hmem
    · exact .inl hmem
    · obtain ⟨i, e, u, hu, ht⟩ := IOManager.triggers_of_step h hmem
      refine .inr ⟨i, e, hu, fun hfd hev hw => hd c hc hw ?_⟩
      rw [← hfd, ← hev]
      exact ht

theorem Inv.fire (hi : Inv W s) (mem : Memory) {k : Nat} {b : Firing κ} {rt : Bool} {hook : Hook φ κ}
    (hd : ∀ c ∈ s.hook.calls, s.Waiting c → ¬ Cancels s.hook rt c.fd .write b) (h : Fires s.hook k b rt hook) :
    ∃ W', Inv W' { s with hook := hook } := by
  cases h with
  | store hcb hst =>
    refine ⟨W, hi.env hi.iom (List.length_modify ..) (fun a c' hc' => ?_) (fun _ _ _ _ => .inl rfl) rfl
      (fun _ _ _ _ _ h => h) fun _ _ h => .inl h⟩
    exact Hook.getElem?_setCancelled hc'
  | @cancel tinfo fd event ret calls m hcb hst hce =>
    have hs : s.hook.iom.step mem (.cancelEvent fd event rt) = .ok ({ ret := ret.toInt, scheduled := calls }, m) := by
      simp [IOManager.step, hce, bind, Except.bind, pure, Except.pure]
    refine hi.operate (o := .cancelEvent fd event rt) trivial (fun c hc hw ht => hd c hc hw ?_) hs rfl rfl rfl
    unfold Cancels
    rw [hcb, hst]
    exact ht
  | other | onTimer | check | done =>
    exact ⟨W, hi.still rfl rfl rfl⟩

/-! ## A call -/

theorem addEvent_ret {mem : Memory} {m m' : IOManager Unit φ κ} {fd : Int} {event : Event}
    {caller : IOManager.Caller Unit φ} {ret : Int} (h : m.addEvent mem fd event none caller true = .ok (ret, m')) :
    ret = 0 := by
  obtain ⟨m₁, -, h⟩ := bind_eq_ok h
  obtain ⟨c, -, h⟩ := bind_eq_ok h
  simp only [IOManager.epollCtl, if_true] at h
  split_ifs at h
  all_goals
    cases h
    rfl

/-- Who waits after the `addEvent` of a call did so before, or it is the fiber of the call. -/
theorem holds_of_addEvent {mem : Memory} {c : Call φ} {rt : Bool} {ret : Int} {m : IOManager Unit φ κ}
    (h : W.manager.addEvent mem c.fd c.event none { schedular := some (), fiber := c.fiber } rt = .ok (ret, m)) :
    ∃ W' : Waiters Unit φ κ, m = W'.manager ∧ ∀ f i e, Holds W' f i e → Holds W f i e ∨
      f = c.fiber ∧ (i : Int) = c.fd ∧ e = c.event := by
  obtain ⟨W', rfl, he⟩ := IOManager.addEvent_effect rfl h
  refine ⟨W', rfl, fun f i e hh => ?_⟩
  rcases he.slot hh with hh | ⟨cb, caller, ho, -, -, htask⟩
  · exact .inl hh
  · injection ho with hfd hev hcb hcaller
    subst hcb hcaller
    exact .inr ⟨Task.fiber.inj htask, hfd.symm, hev.symm⟩

/-- A call that has not returned makes a step that answers nothing. -/
theorem Inv.step (hi : Inv W s) {a : Nat} {c c₁ : Call φ} (hc : s.hook.calls[a]? = some c) (hp : c.pc ≠ .returned)
    {hook : Hook φ κ} (hcalls : hook.calls = s.hook.calls.set a c₁) (hg : Goes c c₁) (hiom : hook.iom = W'.manager)
    (hslot : ∀ f i e, Holds W' f i e → Holds W f i e ∨ f = c.fiber) (hqueue : ∀ f ∈ hook.queue, f ∈ s.hook.queue)
    (hself : c.kind = .connect → c₁.pc ≠ .returned → CallOk W' { s with hook := hook } a c₁) :
    Inv W' { s with hook := hook } := by
  have hask : ¬ s.asking a = true := fun h => hp ((hi.asked a h).2 c hc).2
  refine hi.go hc hcalls hg hiom (fun _ => .inl rfl) (fun _ _ => rfl) (fun f i e hh => ?_) hqueue
    (fun h => absurd h hask) (fun hl => ⟨hg.kind ▸ hl.1, .inl hp⟩) fun hl => ?_
  · exact (hslot f i e hh).imp_right fun hf => ⟨hf, hp⟩
  · exact hself (hg.kind ▸ hl.1) (hl.2.resolve_right hask)

theorem Inv.ask (hi : Inv W s) {a : Nat} {c c₁ : Call φ} (hc : s.hook.calls[a]? = some c) (hp : c.pc ≠ .returned)
    (hio : c.pc ≠ .io) (hk : c.kind = .connect) {hook : Hook φ κ} (hcalls : hook.calls = s.hook.calls.set a c₁)
    (hg : Goes c c₁) (hpc : c₁.pc = .returned) (hiom : hook.iom = s.hook.iom) (hqueue : hook.queue = s.hook.queue)
    (hlink : s.link c.fd ≠ .connecting) :
    Inv W { s with hook := hook, asking := Function.update s.asking a true } := by
  have hl : s.Live a c := ⟨hk, .inl hp⟩
  have hno : ∀ {p : Hook.Pc}, p ≠ .returned → c₁.pc ≠ p := fun h h' => h (h'.symm.trans hpc)
  refine hi.go hc hcalls hg (hiom.trans hi.iom) (fun _ => .inl rfl) (fun i hne => Function.update_of_ne hne _ _)
    (fun _ _ _ h => .inl h) (fun f hf => hqueue ▸ hf) (fun _ => ⟨hg.kind.trans hk, hpc⟩) (fun _ => hl) fun _ => ?_
  refine ⟨fun _ => ?_, ?_, ?_, ?_, ?_, fun _ => ?_⟩
  · rw [hg.fd]
    exact (hi.call a c hc hl).link hio
  · rintro (h | h | h) <;> exact absurd h (hno (by decide))
  · rintro (h | h) <;> exact absurd h (hno (by decide))
  · rintro ⟨-, h | h, -⟩ <;> exact absurd h (hno (by decide))
  · rintro (h | h) <;> exact absurd h (hno (by decide))
  · rw [hg.fd]
    exact hlink

theorem proceed_eq {a : Nat} {c : Call φ} (h : c.kind = .connect → c.pc ≠ .failed ∧ c.pc ≠ .check) :
    s.proceed a c = (none, s) := by
  unfold proceed
  split
  · next hk hp => exact absurd hp (h hk).1
  · next hk hp => exact absurd hp (h hk).2
  · rfl

/-- A call goes on to a place where it does not leave the wait. -/
theorem Inv.stay (hi : Inv W s) {a : Nat} {c : Call φ} (hc : s.hook.calls[a]? = some c) {p p' : Hook.Pc}
    {tm : Option Addr} (hpc : c.pc = p) (hp : p ≠ .returned ∧ p ≠ .failed ∧ p ≠ .check) {hook : Hook φ κ}
    (hcalls : hook.calls = s.hook.calls.set a { c with pc := p', timer := tm }) (hiom : hook.iom = s.hook.iom)
    (hqueue : ∀ f ∈ hook.queue, f ∈ s.hook.queue)
    (hself : c.kind = .connect → CallOk W { s with hook := hook } a { c with pc := p', timer := tm }) :
    ∃ W', Inv W' ({ s with hook := hook }.proceed a c).2 := by
  rw [proceed_eq fun _ => ⟨hpc ▸ hp.2.1, hpc ▸ hp.2.2⟩]
  exact ⟨W, hi.step hc (hpc ▸ hp.1) hcalls ⟨rfl, rfl, rfl, rfl, fun h => absurd h (hpc ▸ hp.1)⟩ (hiom.trans hi.iom)
    (fun _ _ _ h => .inl h) hqueue fun hk _ => hself hk⟩

/-- The two ends of the wait: the call goes on to `getsockopt`, or it returns. -/
theorem Inv.leave (hi : Inv W s) {a : Nat} {c : Call φ} (hc : s.hook.calls[a]? = some c) {p p' : Hook.Pc}
    {tm : Option Addr} (hpc : c.pc = p) (hp : p ≠ .returned ∧ p ≠ .io) {hook : Hook φ κ}
    (hcalls : hook.calls = s.hook.calls.set a { c with pc := p', timer := tm }) (hiom : hook.iom = s.hook.iom)
    (hqueue : hook.queue = s.hook.queue) (hend : c.kind = .connect → p' = .returned)
    (hthen : c.kind = .connect →
      (∀ t : Connects φ κ, t.proceed a c = (none, { t with asking := Function.update t.asking a true })) ∧
        s.link c.fd ≠ .connecting ∨ ∀ t : Connects φ κ, (t.proceed a c).2 = t) :
    ∃ W', Inv W' ({ s with hook := hook }.proceed a c).2 := by
  have hg : Goes c { c with pc := p', timer := tm } := ⟨rfl, rfl, rfl, rfl, fun h => absurd h (hpc ▸ hp.1)⟩
  have hstay : Inv W { s with hook := hook } :=
    hi.step hc (hpc ▸ hp.1) hcalls hg (hiom.trans hi.iom) (fun _ _ _ h => .inl h) (fun f hf => hqueue ▸ hf)
      fun hk h => absurd (hend hk) h
  by_cases hk : c.kind = .connect
  · rcases hthen hk with ⟨hpr, hl⟩ | hpr
    · rw [hpr]
      exact ⟨W, hi.ask hc (hpc ▸ hp.1) (hpc ▸ hp.2) hk hcalls hg (hend hk) hiom hqueue hl⟩
    · rw [hpr]
      exact ⟨W, hstay⟩
  · rw [proceed_eq fun h => absurd h hk]
    exact ⟨W, hstay⟩

/-- The call makes its `addEvent`, after which its fiber is the only new one that waits. -/
theorem Inv.add (hi : Inv W s) {mem : Memory} {a : Nat} {c : Call φ} (hc : s.hook.calls[a]? = some c)
    (hpc : c.pc = .add) {rt : Bool} (hrt : c.kind = .connect → s.link c.fd = .connecting → rt = true) {ret : Int}
    {m : IOManager Unit φ κ}
    (h : s.hook.iom.addEvent mem c.fd c.event none { schedular := some (), fiber := c.fiber } rt = .ok (ret, m))
    {hook : Hook φ κ}
    (hcalls : hook.calls = s.hook.calls.set a { c with pc := if c.kind.added ret then .yield else .failed })
    (hiom : hook.iom = m) (hqueue : hook.queue = s.hook.queue) :
    ∃ W', Inv W' ({ s with hook := hook }.proceed a c).2 := by
  have hp : c.pc ≠ .returned := by
    rw [hpc]
    decide
  have hret : c.kind = .connect → s.link c.fd = .connecting → ret = 0 := by
    intro hk hl
    rw [hrt hk hl] at h
    exact addEvent_ret h
  rw [hi.iom] at h
  obtain ⟨W', rfl, hholds⟩ := holds_of_addEvent h
  rw [proceed_eq fun _ => ⟨by rw [hpc]; decide, by rw [hpc]; decide⟩]
  refine ⟨W', hi.step hc hp hcalls ⟨rfl, rfl, rfl, rfl, fun h => absurd h hp⟩ hiom (fun f i e hh => ?_)
    (fun f hf => hqueue ▸ hf) fun hk _ => ?_⟩
  · exact (hholds f i e hh).imp_right And.left
  · have ok : CallOk W s a c := hi.call a c hc ⟨hk, .inl hp⟩
    obtain ⟨hfree, hno⟩ := ok.before (.inr (.inr hpc))
    cases hr : c.kind.added ret with
    | true =>
      refine ⟨fun _ => ok.link (by rw [hpc]; decide), nofun, fun _ i e hh => ?_, fun _ hf => hfree (hqueue ▸ hf),
        nofun, fun h => ok.asks (.inr (h.resolve_left nofun))⟩
      rcases hholds _ i e hh with hh | ⟨-, hfd, hev⟩
      · exact absurd hh (hno i e)
      · exact ⟨hfd, hev.trans (hi.event c (List.mem_of_getElem? hc) hk)⟩
    | false =>
      refine ⟨fun _ => ok.link (by rw [hpc]; decide), nofun, nofun, nofun, nofun, fun _ hl => ?_⟩
      rw [hk, hret hk hl] at hr
      cases hr

theorem Inv.advance [DecidableEq φ] (hi : Inv W s) {mem : Memory} {a : Nat} {c : Call φ} {x : Hook.Input}
    (hc : s.hook.calls[a]? = some c) (hio : c.kind = .connect → c.pc ≠ .io)
    (hq : c.pc = .suspended → c.fiber ∈ s.hook.queue)
    (hx : c.kind = .connect → c.pc = .add → s.link c.fd = .connecting → x.rt = true) {hook : Hook φ κ}
    (h : Advances mem s.hook a c x hook) : ∃ W', Inv W' ({ s with hook := hook }.proceed a c).2 := by
  have hok : c.kind = .connect → c.pc ≠ .returned → CallOk W s a c := fun hk hp => hi.call a c hc ⟨hk, .inl hp⟩
  cases h with
  | io hpc =>
    exact hi.stay hc hpc (by decide) rfl rfl (fun _ h => h) fun hk => absurd hpc (hio hk)
  | arm hpc ht | armNone hpc ht =>
    refine hi.stay hc hpc (by decide) rfl rfl (fun _ h => h) fun hk => ?_
    have ok := hok hk (by rw [hpc]; decide)
    exact ⟨fun _ => ok.link (by rw [hpc]; decide), fun _ => ok.before (.inr (.inl hpc)), nofun, nofun, nofun,
      fun h => ok.asks (.inr (h.resolve_left nofun))⟩
  | add hpc hadd => exact hi.add hc hpc (fun hk => hx hk hpc) hadd rfl rfl rfl
  | failed hpc =>
    refine hi.leave hc hpc (by decide) (Hook.cancelTimer_calls ..) (Hook.cancelTimer_iom ..)
      (Hook.cancelTimer_queue ..) (fun _ => rfl) fun hk => ?_
    have ok := hok hk (by rw [hpc]; decide)
    refine .inl ⟨?_, ok.asks (.inl hpc)⟩
    intro t
    unfold proceed
    rw [hk, hpc]
  | yield hpc =>
    refine hi.stay hc hpc (by decide) rfl rfl (fun _ h => h) fun hk => ?_
    have ok := hok hk (by rw [hpc]; decide)
    exact ⟨fun _ => ok.link (by rw [hpc]; decide), nofun, fun _ => ok.held (.inl hpc),
      fun hw => ok.waits ⟨hk, .inl hpc, hw.2.2⟩, nofun, fun h => ok.asks (.inr (h.resolve_left nofun))⟩
  | wake hpc =>
    refine hi.stay hc hpc (by decide) rfl rfl (fun _ h => List.mem_of_mem_erase h) fun hk => ?_
    have ok := hok hk (by rw [hpc]; decide)
    exact ⟨fun _ => ok.link (by rw [hpc]; decide), nofun, nofun, nofun,
      fun _ hl hz => ok.waits ⟨hk, .inr hpc, hl, hz⟩ (hq hpc), fun h => ok.asks (.inr (h.resolve_left nofun))⟩
  | cancel hpc =>
    refine hi.stay hc hpc (by decide) (Hook.cancelTimer_calls ..) (Hook.cancelTimer_iom ..)
      (fun f hf => (Hook.cancelTimer_queue s.hook c) ▸ hf) fun hk => ?_
    have ok := hok hk (by rw [hpc]; decide)
    exact ⟨fun _ => ok.link (by rw [hpc]; decide), nofun, nofun, nofun, fun _ => ok.after (.inl hpc),
      fun h => ok.asks (.inr (h.resolve_left nofun))⟩
  | check hpc =>
    refine hi.leave hc hpc (by decide) rfl rfl rfl (fun hk => ?_) fun hk => ?_
    · show (if c.cancelled ≠ 0 then Hook.Pc.returned else c.kind.retry) = .returned
      rw [hk]
      split <;> rfl
    · have ok := hok hk (by rw [hpc]; decide)
      by_cases hz : c.cancelled = 0
      · refine .inl ⟨fun t => ?_, fun hl => ok.after (.inr hpc) hl hz⟩
        unfold proceed
        simp only [hk, hpc, ne_eq, hz, not_true_eq_false, if_false]
      · refine .inr fun t => ?_
        unfold proceed
        simp only [hk, hpc, ne_eq, hz, not_false_eq_true, if_true]
  | returned hpc =>
    rw [proceed_eq fun _ => ⟨by rw [hpc]; decide, by rw [hpc]; decide⟩]
    exact ⟨W, hi⟩

/-! ## The other steps -/

theorem Unawaited.holds (hW : s.hook.iom = W.manager) {f : φ} (h : Unawaited s.hook f) (i : Nat) (e : Event) :
    ¬ Holds W f i e := by
  intro hh
  have hi : i < W.size := by
    by_contra hge
    unfold Holds at hh
    rw [W.outside i (by omega)] at hh
    cases hh
  have hmem : IOManager.FdContext.of i (W.slot i) ∈ s.hook.iom.fdContexts := by
    rw [hW]
    exact List.mem_map.mpr ⟨i, List.mem_range.mpr hi, rfl⟩
  have hctx : ((IOManager.FdContext.of i (W.slot i)).getContext e).fiber = some f := by
    rw [IOManager.of_getContext, show W.slot i e = _ from hh]
    rfl
  cases e with
  | read => exact (h.2 _ hmem).1 hctx
  | write => exact (h.2 _ hmem).2 hctx

theorem Vacant.not_live {fd : Int} (h : s.Vacant fd) {a : Nat} {c : Call φ} (hc : s.hook.calls[a]? = some c)
    (hl : s.Live a c) : c.fd ≠ fd := by
  intro hfd
  obtain ⟨hp, hask⟩ := h a (List.getElem?_eq_some_iff.mp hc).1 c hc hl.1 hfd
  rcases hl.2 with h | h
  · exact h hp
  · rw [hask] at h
    cases h

theorem Inv.start (hi : Inv W s) {c : Call φ} (hpc : c.pc = .io) (hout : s.hook.Outside c.fiber)
    (hcon : c.kind = .connect → c.event = .write ∧ s.Vacant c.fd ∧ Unawaited s.hook c.fiber) :
    Inv W { s with hook := { s.hook with calls := s.hook.calls ++ [c] } } := by
  have hask : s.asking s.hook.calls.length = false := by
    by_contra h
    exact absurd (hi.asked _ (by simpa using h)).1 (lt_irrefl _)
  refine ⟨hi.iom, ?_, ?_, ?_, ?_, ?_⟩
  · intro a a' c₁ c₂ h₁ h₂ hp₁ hp₂ hf
    rcases Hook.getElem?_concat_cases h₁ with k₁ | ⟨ha, rfl⟩ <;>
      rcases Hook.getElem?_concat_cases h₂ with k₂ | ⟨ha', rfl⟩
    · exact hi.apart a a' c₁ c₂ k₁ k₂ hp₁ hp₂ hf
    · exact absurd hf (hout c₁ (List.mem_of_getElem? k₁) hp₁)
    · exact absurd hf.symm (hout c₂ (List.mem_of_getElem? k₂) hp₂)
    · rw [ha, ha']
  · intro a a' c₁ c₂ h₁ h₂ hl₁ hl₂ hf
    rcases Hook.getElem?_concat_cases h₁ with k₁ | ⟨ha, rfl⟩ <;>
      rcases Hook.getElem?_concat_cases h₂ with k₂ | ⟨ha', rfl⟩
    · exact hi.alone a a' c₁ c₂ k₁ k₂ hl₁ hl₂ hf
    · exact absurd hf ((hcon hl₂.1).2.1.not_live k₁ hl₁)
    · exact absurd hf.symm ((hcon hl₁.1).2.1.not_live k₂ hl₂)
    · rw [ha, ha']
  · intro d hd hk
    rcases List.mem_append.mp hd with hd | hd
    · exact hi.event d hd hk
    · obtain rfl := List.mem_singleton.mp hd
      exact (hcon hk).1
  · intro a ha
    obtain ⟨hlt, hret⟩ := hi.asked a ha
    refine ⟨?_, fun d hd => ?_⟩
    · show a < (s.hook.calls ++ [c]).length
      rw [List.length_append]
      omega
    · rcases Hook.getElem?_concat_cases hd with hd | ⟨rfl, -⟩
      · exact hret d hd
      · exact absurd hlt (lt_irrefl _)
  · intro a d hd hl
    rcases Hook.getElem?_concat_cases hd with hd | ⟨rfl, rfl⟩
    · exact (hi.call a d hd hl).mono id (.inl rfl) rfl (fun _ _ _ h => h) .inl
    · obtain ⟨-, -, hun⟩ := hcon hl.1
      have hno : ∀ {p : Hook.Pc}, p ≠ .io → d.pc ≠ p := fun h h' => h (h'.symm.trans hpc)
      refine ⟨fun h => absurd hpc h, fun _ => ⟨hun.1, hun.holds hi.iom⟩, ?_, ?_, ?_, ?_⟩
      · rintro (h | h) <;> exact absurd h (hno (by decide))
      · rintro ⟨-, h | h, -⟩ <;> exact absurd h (hno (by decide))
      · rintro (h | h) <;> exact absurd h (hno (by decide))
      · rintro (h | h)
        · exact absurd h (hno (by decide))
        · change s.asking s.hook.calls.length = true at h
          rw [hask] at h
          cases h

theorem Inv.plain (hi : Inv W s) {fd : Int} (hv : s.Vacant fd) (o : Outcome) : Inv W (s.connectF fd o) := by
  refine hi.env hi.iom rfl (fun a c hc => ⟨c, c.cancelled, hc, rfl, id⟩) (fun a c hc hl => .inl ?_) rfl
    (fun _ _ _ _ _ h => h) fun _ _ h => .inl h
  exact Function.update_of_ne (hv.not_live hc hl) _ _

theorem Inv.enter (hi : Inv W s) {hookEnable : Bool} {ctx : Option FdCtx} {fd : Int} {timeout : UInt64} {fiber : φ}
    {o : Outcome} (hout : s.hook.Outside fiber) (hv : s.Vacant fd) (hun : Unawaited s.hook fiber) :
    Inv W (s.connectWithTimeout hookEnable ctx fd timeout fiber o).2 := by
  unfold connectWithTimeout
  split_ifs
  · exact hi.plain hv o
  · cases ctx with
    | none => exact hi.plain hv o
    | some ctx =>
      dsimp only
      split_ifs
      · exact hi
      · exact hi.plain hv o
      · exact hi.plain hv o
      · exact hi.start rfl hout fun _ => ⟨rfl, hv, hun⟩

/-- `connect_f` in a call that waits if it is in progress. -/
theorem Inv.connectF [DecidableEq φ] (hi : Inv W s) {mem : Memory} {a : Nat} {c : Call φ} {o : Outcome}
    {hook : Hook φ κ} (hc : s.hook.calls[a]? = some c) (hk : c.kind = .connect) (hpc : c.pc = .io)
    (h : Advances mem s.hook a c { again := o = .inProgress } hook) :
    Inv W { s.connectF c.fd o with hook := hook } := by
  have hp : c.pc ≠ .returned := by
    rw [hpc]
    decide
  have hl : s.Live a c := ⟨hk, .inl hp⟩
  have hask : ¬ s.asking a = true := fun h => hp ((hi.asked a h).2 c hc).2
  cases h with
  | io =>
    refine hi.go hc rfl ⟨rfl, rfl, rfl, rfl, fun h => absurd h hp⟩ hi.iom (fun fd => ?_) (fun _ _ => rfl)
      (fun _ _ _ h => .inl h) (fun _ h => h) (fun h => absurd h hask) (fun _ => hl) fun hl' => ?_
    · by_cases hfd : fd = c.fd
      · exact .inr ⟨hfd, hl⟩
      · exact .inl (Function.update_of_ne hfd _ _)
    · have hprog : o = .inProgress := by
        by_contra hne
        simp only [hne, decide_false] at hl'
        exact hl'.2.elim (fun h => h rfl) hask
      subst hprog
      have hlink : (s.connectF c.fd .inProgress).link c.fd = .connecting := Function.update_self ..
      refine ⟨fun _ => ?_, fun _ => (hi.call a c hc hl).before (.inl hpc), nofun, nofun, nofun, fun h => ?_⟩
      · show (s.connectF c.fd .inProgress).link c.fd ≠ .idle
        rw [hlink]
        decide
      · exact absurd (h.resolve_left nofun) hask
  | arm h | armNone h | add h | failed h | yield h | wake h | cancel h | check h | returned h =>
    rw [hpc] at h
    cases h

theorem Inv.getsockopt (hi : Inv W s) {a : Nat} {c : Call φ} (hc : s.hook.calls[a]? = some c) (ha : s.asking a = true)
    (rt : Bool) : Inv W (s.getsockopt a c.fd rt).2 := by
  obtain ⟨hk, hpc⟩ := (hi.asked a ha).2 c hc
  have hl : s.Live a c := ⟨hk, .inr ha⟩
  have hset : s.hook.calls = s.hook.calls.set a c := by
    obtain ⟨hlt, rfl⟩ := List.getElem?_eq_some_iff.mp hc
    exact (List.set_getElem_self hlt).symm
  have hgo : ∀ {link : Int → Link}, (∀ fd, link fd = s.link fd ∨ fd = c.fd) →
      Inv W { s with link := link, asking := Function.update s.asking a false } := by
    intro link hlink
    have hdead : ¬ Live { s with link := link, asking := Function.update s.asking a false } a c := by
      rintro ⟨-, h | h⟩
      · exact h hpc
      · change Function.update s.asking a false a = true at h
        rw [Function.update_self] at h
        cases h
    refine hi.go hc hset (Goes.refl c) hi.iom (fun fd => (hlink fd).imp_right fun h => ⟨h, hl⟩)
      (fun i hne => Function.update_of_ne hne _ _) (fun _ _ _ h => .inl h) (fun _ h => h) (fun _ => ⟨hk, hpc⟩)
      (fun _ => hl) fun h => absurd h hdead
  unfold Connects.getsockopt
  dsimp only
  split_ifs
  · exact hgo fun _ => .inl rfl
  all_goals
    refine hgo fun fd => ?_
    by_cases hfd : fd = c.fd
    · exact .inr hfd
    · exact .inl (Function.update_of_ne hfd _ _)

theorem Inv.settle (hi : Inv W s) (fd : Int) {link : Link} (hlink : link ≠ .connecting ∧ link ≠ .idle) :
    Inv W { s with link := Function.update s.link fd link } := by
  refine hi.env hi.iom rfl (fun a c hc => ⟨c, c.cancelled, hc, rfl, id⟩) (fun a c _ _ => ?_) rfl (fun _ _ _ _ _ h => h)
    fun _ _ h => .inl h
  by_cases hfd : c.fd = fd
  · refine .inr ?_
    rw [hfd]
    show Function.update s.link fd link fd ≠ _ ∧ Function.update s.link fd link fd ≠ _
    rw [Function.update_self]
    exact hlink
  · exact .inl (Function.update_of_ne hfd _ _)

/-! ## Runs -/

def Label.of : Label φ κ → Option Nat
  | .connectF a _ => some a
  | .call a _ => some a
  | .getsockopt a _ => some a
  | _ => none

/-- The steps. A label for a call that does not exist does nothing. -/
inductive Moves [DecidableEq φ] (mem : Memory) (s : Connects φ κ) : Label φ κ → Option (Int × Int) → Connects φ κ → Prop
  | enter {hookEnable : Bool} {ctx : Option FdCtx} {fd : Int} {timeout : UInt64} {fiber : φ} {o : Outcome}
      {r : Option (Int × Int)} {s₁ : Connects φ κ}
      (h : s.connectWithTimeout hookEnable ctx fd timeout fiber o = (r, s₁)) :
      Moves mem s (.enter hookEnable ctx fd timeout fiber o) r s₁
  | connectF {a : Nat} {c : Call φ} {o : Outcome} {hook : Hook φ κ} (hc : s.hook.calls[a]? = some c)
      (h : Advances mem s.hook a c { again := o = .inProgress } hook) :
      Moves mem s (.connectF a o) (if o = .inProgress then none else some (c.fd, o.ret))
        { s.connectF c.fd o with hook := hook }
  | call {a : Nat} {c : Call φ} {x : Hook.Input} {hook : Hook φ κ} {r : Option (Int × Int)} {s₁ : Connects φ κ}
      (hc : s.hook.calls[a]? = some c) (h : Advances mem s.hook a c x hook)
      (hr : { s with hook := hook }.proceed a c = (r, s₁)) : Moves mem s (.call a x) r s₁
  | getsockopt {a : Nat} {c : Call φ} {rt : Bool} {r : Option (Int × Int)} {s₁ : Connects φ κ}
      (hc : s.hook.calls[a]? = some c) (hr : s.getsockopt a c.fd rt = (r, s₁)) : Moves mem s (.getsockopt a rt) r s₁
  | noCall {a : Nat} {l : Label φ κ} (ha : l.of = some a) (hc : s.hook.calls[a]? = none) : Moves mem s l none s
  | hook {l : Hook.Label φ κ} {hook : Hook φ κ} (h : Move mem s.hook l hook) :
      Moves mem s (.hook l) none { s with hook := hook }
  | establish (fd : Int) : Moves mem s (.establish fd) none { s with link := Function.update s.link fd .established }
  | fail (fd : Int) (error : Errno) :
      Moves mem s (.fail fd error) none { s with link := Function.update s.link fd (.failed error) }

theorem step_moves [DecidableEq φ] {mem : Memory} {l : Label φ κ} {r : Option (Int × Int)}
    (h : s.step mem l = .ok (r, s')) : Moves mem s l r s' := by
  cases l with
  | enter => exact .enter (Except.ok.inj h)
  | connectF a o =>
    unfold step at h
    cases hc : s.hook.calls[a]? with
    | none =>
      simp only [hc] at h
      cases h
      exact .noCall rfl hc
    | some c =>
      simp only [hc] at h
      obtain ⟨hook, hs, hr⟩ := bind_eq_ok h
      cases hr
      exact .connectF hc (Hook.advance_spec hs)
  | call a x =>
    unfold step at h
    cases hc : s.hook.calls[a]? with
    | none =>
      simp only [hc] at h
      cases h
      exact .noCall rfl hc
    | some c =>
      simp only [hc] at h
      obtain ⟨hook, hs, hr⟩ := bind_eq_ok h
      exact .call hc (Hook.advance_spec hs) (Except.ok.inj hr)
  | getsockopt a rt =>
    unfold step at h
    cases hc : s.hook.calls[a]? with
    | none =>
      simp only [hc] at h
      cases h
      exact .noCall rfl hc
    | some c =>
      simp only [hc] at h
      exact .getsockopt hc (Except.ok.inj h)
  | hook l =>
    obtain ⟨⟨_, hook⟩, hs, hr⟩ := bind_eq_ok h
    cases hr
    exact .hook (Hook.step_move hs)
  | establish fd =>
    cases h
    exact .establish fd
  | fail fd error =>
    cases h
    exact .fail fd error

theorem Inv.move [DecidableEq φ] (hi : Inv W s) {mem : Memory} {l : Label φ κ} {r : Option (Int × Int)}
    (he : s.Enabled l)
    (hd : s.Undisturbed l) (hm : Moves mem s l r s') : ∃ W', Inv W' s' := by
  cases hm with
  | @enter hookEnable ctx fd timeout fiber o _ _ h =>
    have hs : Inv W (s.connectWithTimeout hookEnable ctx fd timeout fiber o).2 := hi.enter he.1 hd.1 hd.2
    rw [h] at hs
    exact ⟨W, hs⟩
  | connectF hc h =>
    obtain ⟨hk, hpc, -⟩ := he _ hc
    exact ⟨W, hi.connectF hc hk hpc h⟩
  | call hc h hr =>
    have hs := hi.advance hc (he.2 _ hc) (he.1.2 _ hc) (hd _ hc) h
    rw [hr] at hs
    exact hs
  | @getsockopt a c rt _ _ hc hr =>
    have hs := hi.getsockopt hc he rt
    rw [hr] at hs
    exact ⟨W, hs⟩
  | noCall => exact ⟨W, hi⟩
  | hook hm =>
    cases hm with
    | start c =>
      refine ⟨W, hi.start he.1.1.1 he.1.2 fun hk => ?_⟩
      have hdo : c.kind = .doIo := by simpa [isElsewhere] using he.2
      rw [hdo] at hk
      cases hk
    | call | noCall => exact absurd he.2 (by simp [isElsewhere])
    | expire | timer => exact ⟨W, hi.still rfl rfl rfl⟩
    | fire hb hf => exact hi.fire mem (hd _ hb) hf
    | noFiring => exact ⟨W, hi⟩
    | manage hs => exact hi.operate he.1 hd hs rfl rfl rfl
  | establish fd => exact ⟨W, hi.settle fd (by decide)⟩
  | fail fd error => exact ⟨W, hi.settle fd ⟨nofun, nofun⟩⟩

theorem connectF_established {fd : Int} {o : Outcome} (h : o.ret = 0) : (s.connectF fd o).link fd = .established := by
  cases o with
  | done => exact Function.update_self ..
  | inProgress | error => cases h

theorem connectWithTimeout_established {hookEnable : Bool} {ctx : Option FdCtx} {fd fd' : Int} {timeout : UInt64}
    {fiber : φ} {o : Outcome} (h : s.connectWithTimeout hookEnable ctx fd timeout fiber o = (some (fd', 0), s')) :
    s'.link fd' = .established := by
  have hplain : (some (fd, o.ret), s.connectF fd o) = (some (fd', 0), s') → s'.link fd' = .established := by
    intro h
    simp only [Prod.mk.injEq, Option.some.injEq] at h
    obtain ⟨⟨rfl, hret⟩, rfl⟩ := h
    exact connectF_established hret
  unfold connectWithTimeout at h
  split_ifs at h
  · exact hplain h
  · cases ctx with
    | none => exact hplain h
    | some ctx =>
      dsimp only at h
      split_ifs at h
      · cases h
      · exact hplain h
      · exact hplain h
      · cases h

theorem getsockopt_established {a : Nat} {fd fd' : Int} {rt : Bool} (hl : s.link fd ≠ .connecting)
    (hi : s.link fd ≠ .idle)
    (h : s.getsockopt a fd rt = (some (fd', 0), s')) : s'.link fd' = .established := by
  unfold Connects.getsockopt at h
  dsimp only at h
  split_ifs at h with hrt herr
  · cases h
  · simp only [Prod.mk.injEq, Option.some.injEq, and_true] at h
    obtain ⟨rfl, rfl⟩ := h
    show Function.update s.link fd (s.link fd).read fd = .established
    rw [Function.update_self]
    cases hlink : s.link fd with
    | idle => exact absurd hlink hi
    | connecting => exact absurd hlink hl
    | established => rfl
    | failed error =>
      rw [hlink] at herr
      exact absurd herr error.2
  · cases h

theorem proceed_ret {a : Nat} {c : Call φ} {fd : Int} (h : s.proceed a c = (some (fd, 0), s')) : False := by
  unfold proceed at h
  split at h
  · cases h
  · split_ifs at h <;> cases h
  · cases h

theorem Inv.returns [DecidableEq φ] (hi : Inv W s) {mem : Memory} {l : Label φ κ} (he : s.Enabled l)
    {r : Option (Int × Int)} (hm : Moves mem s l r s') {fd : Int} (hr : r = some (fd, 0)) :
    s'.link fd = .established := by
  cases hm with
  | enter h =>
    rw [hr] at h
    exact connectWithTimeout_established h
  | @connectF a c o hook hc h =>
    split_ifs at hr
    obtain ⟨rfl, hret⟩ := Prod.mk.inj (Option.some.inj hr)
    exact connectF_established hret
  | call hc h hpr =>
    rw [hr] at hpr
    exact (proceed_ret hpr).elim
  | @getsockopt a c rt _ _ hc h =>
    rw [hr] at h
    obtain ⟨hk, hpc⟩ := (hi.asked a he).2 c hc
    have ok := hi.call a c hc ⟨hk, .inr he⟩
    exact getsockopt_established (ok.asks (.inr he)) (ok.link (by rw [hpc]; decide)) h
  | noCall | hook | establish | fail => cases hr

end

theorem run_inv [DecidableEq φ] {mem : Memory} {h : List (Entry (Connects φ κ) (Label φ κ) (Option (Int × Int)))}
    {s : Connects φ κ} (hr : Run (machine mem) h s) (hd : ∀ e ∈ h, e.pre.Undisturbed e.inp) : ∃ W, Inv W s := by
  refine hr.invariant_of (P := fun s => ∃ W, Inv W s) hd ?_ ?_
  · rintro _ ⟨now, rfl⟩
    obtain ⟨W, hW, -⟩ := IOManager.new_manager (σ := Unit) (φ := φ) (κ := κ)
    have hnone : ∀ (a : Nat) (c : Call φ), ¬ ([] : List (Call φ))[a]? = some c := by simp
    exact ⟨W, hW, fun a _ c _ h => absurd h (hnone a c), fun a _ c _ h => absurd h (hnone a c),
      fun c hc => absurd hc List.not_mem_nil, nofun, fun a c h => absurd h (hnone a c)⟩
  · rintro e ⟨W, hi⟩ ⟨hen, hs⟩ hde
    exact hi.move hen hde (step_moves hs)

/-- **A successful connect is a connection.** In a run of undisturbed steps `connect_with_timeout` returns 0 only where
the kernel has established the connection. -/
theorem connected [DecidableEq φ] {mem : Memory} {h : List (Entry (Connects φ κ) (Label φ κ) (Option (Int × Int)))}
    {s : Connects φ κ} (hr : Run (machine mem) h s) (hd : ∀ e ∈ h, e.pre.Undisturbed e.inp) :
    ∀ e ∈ h, ∀ fd, e.out = some (fd, 0) → e.post.link fd = .established := by
  intro e he fd hout
  obtain ⟨h₁, h₂, rfl⟩ := List.append_of_mem he
  obtain ⟨hr₁, hen, hs⟩ := hr.cut rfl
  obtain ⟨W, hi⟩ := run_inv hr₁ fun e' he' => hd e' (List.mem_append_left _ he')
  exact hi.returns hen (step_moves hs) hout

/-- The fiber 0 enters `connect_with_timeout` on the socket 3 with a timeout of 10 ms, is in progress, and arms the
timer 1. -/
def attempt : List (Label Nat Nat) :=
  [.enter true (some { isInit := true, isSocket := true, sysNonblock := true, fd := 3 }) 3 10 0 .inProgress,
    .connectF 0 .inProgress, .call 0 { timer := 1 }]

def wait : List (Label Nat Nat) := List.replicate 2 (.call 0 { timer := 3 })

/-- The fiber is resumed, cancels its timer, reads `cancelled` and then `SO_ERROR`. -/
def finish : List (Label Nat Nat) := List.replicate 3 (.call 0 { timer := 3 }) ++ [.getsockopt 0 true]

def Label.isHook : Label φ κ → Bool
  | .hook _ => true
  | _ => false

/-- The connection is established while the fiber waits, and reported. -/
theorem connected_reported : ∃ h s, Run (machine (φ := Nat) (κ := Nat) Hook.smallMemory) h s ∧
    (∀ e ∈ h, e.pre.Undisturbed e.inp) ∧ ∃ e ∈ h, e.out = some (3, 0) ∧ e.post.link 3 = .established := by
  obtain ⟨h, s, hr, hp⟩ := Run.of_replay (machine (φ := Nat) (κ := Nat) Hook.smallMemory) ⟨0, rfl⟩
    (attempt ++ wait ++ [.establish 3, .hook (.manage (.idle 3 IOManager.EPOLLOUT true))] ++ finish)
    (fun r => decide ((∀ e ∈ r.1, e.pre.Undisturbed e.inp) ∧ ∃ e ∈ r.1, e.out = some (3, 0))) (by decide +kernel)
  obtain ⟨hd, e, he, hout⟩ := of_decide_eq_true hp
  exact ⟨h, s, hr, hd, e, he, hout, connected hr hd e he 3 hout⟩

/-- Another fiber calls `cancelAll` while the connection is in progress; or `addEvent` fails then, and nothing happens
elsewhere. -/
theorem connected_in_progress :
    (∃ h s, Run (machine (φ := Nat) (κ := Nat) Hook.smallMemory) h s ∧
      ∃ e ∈ h, e.out = some (3, 0) ∧ e.post.link 3 ≠ .established) ∧
    ∃ h s, Run (machine (φ := Nat) (κ := Nat) Hook.smallMemory) h s ∧
      (∀ e ∈ h, e.inp.isHook = false) ∧ ∃ e ∈ h, e.out = some (3, 0) ∧ e.post.link 3 ≠ .established := by
  constructor
  · obtain ⟨h, s, hr, hp⟩ := Run.of_replay (machine (φ := Nat) (κ := Nat) Hook.smallMemory) ⟨0, rfl⟩
      (attempt ++ wait ++ [.hook (.manage (.cancelAll 3 true))] ++ finish)
      (fun r => decide (∃ e ∈ r.1, e.out = some (3, 0) ∧ e.post.link 3 ≠ .established)) (by decide +kernel)
    exact ⟨h, s, hr, of_decide_eq_true hp⟩
  · obtain ⟨h, s, hr, hp⟩ := Run.of_replay (machine (φ := Nat) (κ := Nat) Hook.smallMemory) ⟨0, rfl⟩
      (attempt ++ [.call 0 { timer := 3, rt := false }, .call 0 { timer := 3 }, .getsockopt 0 true])
      (fun r => decide ((∀ e ∈ r.1, e.inp.isHook = false) ∧
        ∃ e ∈ r.1, e.out = some (3, 0) ∧ e.post.link 3 ≠ .established)) (by decide +kernel)
    exact ⟨h, s, hr, of_decide_eq_true hp⟩

end Connects

end QWebServer
