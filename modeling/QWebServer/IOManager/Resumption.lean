import QWebServer.IOManager.Idle

/-!
# Every waiter is resumed once

Places in a history are numbered from 0.

* `BitSet` : an event bit of a manager;
* `Registers h i` : the step `i` is a successful `addEvent`, with what it registers;
* `ClearedBy h i j` : the bit set by the step `i` stays set until the step `j` clears it;
* `resumed_once` : the calls of `schedule` that a step makes are those of the waiters whose bits it clears, each once,
  and `delEvent` makes none.
-/

namespace QWebServer.IOManager

open Lib Waiters

variable {σ φ κ : Type}

abbrev History (σ φ κ : Type) := List (Entry (IOManager σ φ κ) (Op σ φ κ) (Reply σ φ κ))

/-- The bit of `event` is set in the context of `fd`. -/
def BitSet (m : IOManager σ φ κ) (fd : Int) (event : Event) : Prop := eventBits m fd &&& event.mask ≠ 0#32

/-- The step `i` is an `addEvent` for `event` of `fd` that returned 0, and `call` passes what it was given, the callback
or else the calling fiber, to the scheduler it was called on. -/
def Registers (h : History σ φ κ) (i : Nat) (fd : Int) (event : Event) (call : σ × FiberAndThread φ κ) : Prop :=
  ∃ e cb caller rt, h[i]? = some e ∧ e.inp = .addEvent fd event cb caller rt ∧ e.out.ret = 0 ∧
    caller.schedular = some call.1 ∧ call.2 = (taskOf cb caller.fiber).entry

/-- The bit of `event` is set from the step `i` on until the step `j` clears it. -/
def ClearedBy (h : History σ φ κ) (i j : Nat) (fd : Int) (event : Event) : Prop :=
  i < j ∧ (∀ k e, i < k → k ≤ j → h[k]? = some e → BitSet e.pre fd event) ∧
    ∃ e, h[j]? = some e ∧ ¬ BitSet e.post fd event

def Op.IsDel : Op σ φ κ → Prop
  | .delEvent .. => True
  | _ => False

theorem bitSet_manager (W : Waiters σ φ κ) (fd : Int) (event : Event) :
    BitSet W.manager fd event ↔ ∃ i : Nat, fd = i ∧ W.slot i event ≠ none := by
  unfold BitSet
  cases hc : W.manager.fdContext fd with
  | error f =>
    have hz : eventBits W.manager fd = 0#32 := by simp [eventBits, hc]
    simp only [hz, BitVec.zero_and, ne_eq, not_true_eq_false, false_iff]
    rintro ⟨i, rfl, hi⟩
    by_cases hlt : i < W.size
    · rw [W.manager_eq_patch i, patch_fdContext W hlt] at hc
      cases hc
    · exact hi (by rw [W.outside i (by omega)])
  | ok c =>
    obtain ⟨i, hi, rfl⟩ := inTable_of_fdContext hc
    rw [eventBits_manager W hi, mask_and_ne]
    constructor
    · exact fun h => ⟨i, rfl, h⟩
    · rintro ⟨j, hj, h⟩
      obtain rfl : i = j := by omega
      exact h

/-! ## Who registered a waiter -/

theorem slot_of_clear {W W' : Waiters σ φ κ} {i n : Nat} {evs : List Event} {event : Event} {w : σ × Task φ κ}
    (hslot : W'.slot = Function.update W.slot i (clear (W.slot i) evs)) (hw : W'.slot n event = some w) :
    W.slot n event = some w := by
  rw [hslot] at hw
  by_cases hn : n = i
  · subst hn
    rw [Function.update_self, clear] at hw
    split_ifs at hw
    exact hw
  · rwa [Function.update_of_ne hn] at hw

/-- The bit of `event` is set since the step `i`. -/
def Since (h : History σ φ κ) (i : Nat) (fd : Int) (event : Event) : Prop :=
  ∀ k e, i < k → h[k]? = some e → BitSet e.pre fd event

/-- Every waiter was registered by a step, and its bit is set since. -/
def Owned (h : History σ φ κ) (W : Waiters σ φ κ) : Prop :=
  ∀ (n : Nat) (event : Event) (w : σ × Task φ κ), W.slot n event = some w →
    ∃ i, i < h.length ∧ Registers h i n event (resume w) ∧ Since h i n event

theorem Registers.append {h : History σ φ κ} {i : Nat} {fd : Int} {event : Event} {call : σ × FiberAndThread φ κ}
    (hreg : Registers h i fd event call) (h' : History σ φ κ) : Registers (h ++ h') i fd event call := by
  obtain ⟨e, cb, caller, rt, hi, hrest⟩ := hreg
  obtain ⟨hlt, -⟩ := List.getElem?_eq_some_iff.mp hi
  exact ⟨e, cb, caller, rt, by rwa [List.getElem?_append_left hlt], hrest⟩

theorem Registers.of_append {h h' : History σ φ κ} {i : Nat} {fd : Int} {event : Event}
    {call : σ × FiberAndThread φ κ} (hreg : Registers (h ++ h') i fd event call) (hi : i < h.length) :
    Registers h i fd event call := by
  obtain ⟨e, cb, caller, rt, he, hrest⟩ := hreg
  rw [List.getElem?_append_left hi] at he
  exact ⟨e, cb, caller, rt, he, hrest⟩

theorem Since.snoc {h : History σ φ κ} {i : Nat} {fd : Int} {event : Event} (hsince : Since h i fd event)
    {e : Entry (IOManager σ φ κ) (Op σ φ κ) (Reply σ φ κ)} (hset : BitSet e.pre fd event) :
    Since (h ++ [e]) i fd event := by
  intro k e' hk hke
  rcases Nat.lt_or_ge k h.length with hlt | hge
  · rw [List.getElem?_append_left hlt] at hke
    exact hsince k e' hk hke
  · have hlt := (List.getElem?_eq_some_iff.mp hke).1
    rw [List.length_append, List.length_singleton] at hlt
    obtain rfl : k = h.length := by omega
    rw [List.getElem?_concat_length] at hke
    cases hke
    exact hset

/-- A waiter was there before the step, or the step registers it. -/
theorem Effect.slot {W W' : Waiters σ φ κ} {o : Op σ φ κ} {r : Reply σ φ κ} (he : Effect W o r W') {n : Nat}
    {event : Event} {w : σ × Task φ κ} (hw : W'.slot n event = some w) :
    W.slot n event = some w ∨ ∃ cb caller, o = .addEvent n event cb caller true ∧ r.ret = 0 ∧
      caller.schedular = some w.1 ∧ w.2 = taskOf cb caller.fiber := by
  cases he with
  | quiet hslot => exact .inl (by rwa [hslot] at hw)
  | @add i e cb caller s _ hs hfree hslot =>
    rw [hslot] at hw
    by_cases hn : n = i
    · subst hn
      rw [Function.update_self] at hw
      by_cases hev : event = e
      · subst hev
        rw [Function.update_self] at hw
        cases hw
        exact .inr ⟨cb, caller, rfl, rfl, hs, rfl⟩
      · rw [Function.update_of_ne hev] at hw
        exact .inl hw
    · rw [Function.update_of_ne hn] at hw
      exact .inl hw
  | drop hocc hslot => exact .inl (slot_of_clear hslot hw)
  | resume ho hnd hocc hslot => exact .inl (slot_of_clear hslot hw)

theorem owned_step {h : History σ φ κ} {W W' : Waiters σ φ κ} {o : Op σ φ κ} {r : Reply σ φ κ} (hown : Owned h W)
    (he : Effect W o r W') : Owned (h ++ [⟨W.manager, o, r, W'.manager⟩]) W' := by
  intro n event w hw
  rcases he.slot hw with hw | ⟨cb, caller, rfl, hret, hs, htask⟩
  · obtain ⟨i, hi, hreg, hsince⟩ := hown n event w hw
    have hset : BitSet W.manager n event := (bitSet_manager W n event).mpr ⟨n, rfl, by simp [hw]⟩
    exact ⟨i, by rw [List.length_append]; omega, hreg.append _, hsince.snoc hset⟩
  · refine ⟨h.length, by simp, ⟨_, cb, caller, true, List.getElem?_concat_length, rfl, hret, hs, by rw [← htask]; rfl⟩,
      ?_⟩
    intro k e hk hke
    have := (List.getElem?_eq_some_iff.mp hke).1
    simp at this
    omega

theorem run_owned {mem : Memory} {h : History σ φ κ} {m : IOManager σ φ κ} (hr : Run (machine mem σ φ κ) h m) :
    ∃ W : Waiters σ φ κ, m = W.manager ∧ Owned h W := by
  induction hr with
  | start hs =>
    obtain ⟨W, hW, hnone⟩ := new_manager (σ := σ) (φ := φ) (κ := κ)
    refine ⟨W, hs.trans hW, fun n event w hw => ?_⟩
    rw [hnone] at hw
    cases hw
  | step hr he hs ih =>
    obtain ⟨W, rfl, hown⟩ := ih
    obtain ⟨W', rfl, heff⟩ := step_effect he hs
    exact ⟨W', rfl, owned_step hown heff⟩

theorem clear_of_registers {mem : Memory} {h : History σ φ κ} {m : IOManager σ φ κ} (hr : Run (machine mem σ φ κ) h m)
    {i : Nat} {fd : Int} {event : Event} {call : σ × FiberAndThread φ κ} (hreg : Registers h i fd event call) :
    ∃ e, h[i]? = some e ∧ ¬ BitSet e.pre fd event := by
  obtain ⟨⟨pre, inp, out, post⟩, cb, caller, rt, hi, hinp, hret, -⟩ := hreg
  refine ⟨_, hi, ?_⟩
  obtain ⟨h₁, hrun, ha, hs⟩ := hr.mem (List.mem_of_getElem? hi)
  dsimp only at hinp hret hrun ha hs ⊢
  subst hinp
  obtain ⟨W, rfl⟩ := run_manager hrun
  change Allowed (.addEvent fd event cb caller rt) at ha
  change step mem W.manager (.addEvent fd event cb caller rt) = .ok (out, post) at hs
  obtain ⟨W', -, heff⟩ := step_effect ha hs
  rw [bitSet_manager]
  rintro ⟨n, rfl, hn⟩
  cases heff with
  | quiet => simp [Op.failure] at hret
  | add hs hfree hslot => exact hn (by simpa using hfree)
  | resume ho => exact ho

theorem owner_unique {mem : Memory} {h : History σ φ κ} {m : IOManager σ φ κ} (hr : Run (machine mem σ φ κ) h m)
    {i i' : Nat} {fd : Int} {event : Event} {call call' : σ × FiberAndThread φ κ} (hreg : Registers h i fd event call)
    (hreg' : Registers h i' fd event call') (hsince : Since h i fd event) (hsince' : Since h i' fd event) : i = i' := by
  obtain ⟨e, he, hclear⟩ := clear_of_registers hr hreg
  obtain ⟨e', he', hclear'⟩ := clear_of_registers hr hreg'
  rcases Nat.lt_trichotomy i i' with hlt | heq | hlt
  · exact absurd (hsince i' e' hlt he') hclear'
  · exact heq
  · exact absurd (hsince' i e hlt he) hclear

/-! ## What a step resumes -/

theorem forall₂_filterMap {α β γ : Type} {R : β → γ → Prop} {g : α → β} {f : α → Option γ} {l : List α}
    (h : ∀ a ∈ l, ∃ c, f a = some c ∧ R (g a) c) : List.Forall₂ R (l.map g) (l.filterMap f) := by
  induction l with
  | nil => exact .nil
  | cons a l ih =>
    obtain ⟨c, hc, hR⟩ := h a (by simp)
    rw [List.map_cons, List.filterMap_cons, hc]
    exact .cons hR (ih fun b hb => h b (by simp [hb]))

/-- A bit that an effect clears is that of a waiter it drops or resumes. -/
theorem slot_cleared {W W' : Waiters σ φ κ} {i n : Nat} {evs : List Event} {event : Event}
    (hslot : W'.slot = Function.update W.slot i (clear (W.slot i) evs)) (hn : W.slot n event ≠ none) :
    W'.slot n event = none ↔ n = i ∧ event ∈ evs := by
  rw [hslot]
  by_cases hni : n = i
  · subst hni
    rw [Function.update_self, clear]
    split_ifs with hev
    · simp [hev]
    · simp [hn, hev]
  · rw [Function.update_of_ne hni]
    simp [hn, hni]

/-- The waiters that a step resumes, each with the step that registered it. -/
def Resumed (h : History σ φ κ) (j : Nat) (e : Entry (IOManager σ φ κ) (Op σ φ κ) (Reply σ φ κ))
    (L : List (Nat × Int × Event)) : Prop :=
  L.Nodup ∧
    (∀ i fd event, (i, fd, event) ∈ L ↔
      (∃ call, Registers h i fd event call) ∧ ClearedBy h i j fd event ∧ ¬ e.inp.IsDel) ∧
    List.Forall₂ (fun p call => Registers h p.1 p.2.1 p.2.2 call) L e.out.scheduled

theorem clearedBy_last {h : History σ φ κ} {e : Entry (IOManager σ φ κ) (Op σ φ κ) (Reply σ φ κ)} {k : Nat} {fd : Int}
    {event : Event} : ClearedBy (h ++ [e]) k h.length fd event ↔
      k < h.length ∧ Since h k fd event ∧ BitSet e.pre fd event ∧ ¬ BitSet e.post fd event := by
  constructor
  · rintro ⟨hlt, hset, e', he', hclear⟩
    rw [List.getElem?_concat_length] at he'
    cases he'
    refine ⟨hlt, fun k' e' hk hke => ?_, hset _ e hlt (Nat.le_refl _) List.getElem?_concat_length, hclear⟩
    have hlt' := (List.getElem?_eq_some_iff.mp hke).1
    exact hset k' e' hk (Nat.le_of_lt hlt') (by rwa [List.getElem?_append_left hlt'])
  · rintro ⟨hlt, hsince, hset, hclear⟩
    exact ⟨hlt, fun k' e' hk _ hke => hsince.snoc hset k' e' hk hke, e, List.getElem?_concat_length, hclear⟩

theorem resumed_nil {h : History σ φ κ} {e : Entry (IOManager σ φ κ) (Op σ φ κ) (Reply σ φ κ)}
    (hsched : e.out.scheduled = [])
    (hnone : ¬ e.inp.IsDel → ∀ fd event, BitSet e.pre fd event → BitSet e.post fd event) :
    Resumed (h ++ [e]) h.length e [] := by
  refine ⟨List.nodup_nil, fun i fd event => ?_, by rw [hsched]; exact .nil⟩
  simp only [List.not_mem_nil, false_iff, clearedBy_last]
  rintro ⟨-, ⟨-, -, hset, hclear⟩, hdel⟩
  exact hclear (hnone hdel fd event hset)

theorem bitSet_register {W W' : Waiters σ φ κ} {i : Nat} {e : Event} {w : σ × Task φ κ}
    (hslot : W'.slot = Function.update W.slot i (Function.update (W.slot i) e (some w))) {fd : Int} {event : Event}
    (hset : BitSet W.manager fd event) : BitSet W'.manager fd event := by
  rw [bitSet_manager] at hset ⊢
  obtain ⟨n, rfl, hn⟩ := hset
  refine ⟨n, rfl, ?_⟩
  rw [hslot]
  by_cases hni : n = i
  · subst hni
    rw [Function.update_self]
    by_cases hev : event = e
    · simp [hev]
    · rwa [Function.update_of_ne hev]
  · rwa [Function.update_of_ne hni]

/-- The bits that are set before the waiters for `evs` of the descriptor `i` are cleared and not after. -/
theorem bitSet_cleared {W W' : Waiters σ φ κ} {i : Nat} {evs : List Event} (hocc : ∀ e ∈ evs, (W.slot i e).isSome)
    (hslot : W'.slot = Function.update W.slot i (clear (W.slot i) evs)) (fd : Int) (event : Event) :
    BitSet W.manager fd event ∧ ¬ BitSet W'.manager fd event ↔ fd = i ∧ event ∈ evs := by
  rw [bitSet_manager, bitSet_manager]
  constructor
  · rintro ⟨⟨n, rfl, hn⟩, hclear⟩
    have hnone : W'.slot n event = none := by
      by_contra hne
      exact hclear ⟨n, rfl, hne⟩
    obtain ⟨rfl, hev⟩ := (slot_cleared hslot hn).mp hnone
    exact ⟨rfl, hev⟩
  · rintro ⟨rfl, hev⟩
    have hne : W.slot i event ≠ none := Option.isSome_iff_ne_none.mp (hocc event hev)
    refine ⟨⟨i, rfl, hne⟩, ?_⟩
    rintro ⟨n, hn, hset⟩
    obtain rfl : i = n := by omega
    exact hset ((slot_cleared hslot hne).mpr ⟨rfl, hev⟩)

theorem resumed_last {mem : Memory} {h : History σ φ κ} {W W' : Waiters σ φ κ} {o : Op σ φ κ} {r : Reply σ φ κ}
    (hr : Run (machine mem σ φ κ) h W.manager) (hown : Owned h W) (he : Effect W o r W') :
    ∃ L, Resumed (h ++ [⟨W.manager, o, r, W'.manager⟩]) h.length ⟨W.manager, o, r, W'.manager⟩ L := by
  cases he with
  | quiet hslot =>
    refine ⟨[], resumed_nil rfl fun _ fd event hset => ?_⟩
    rw [bitSet_manager] at hset ⊢
    rwa [hslot]
  | add hs hfree hslot => exact ⟨[], resumed_nil rfl fun _ fd event hset => bitSet_register hslot hset⟩
  | drop hocc hslot => exact ⟨[], resumed_nil rfl fun hdel => absurd trivial hdel⟩
  | @resume o i evs ret W' ho hnd hocc hslot =>
    have howner : ∀ event, ∃ k, event ∈ evs → ∃ w, W.slot i event = some w ∧ k < h.length ∧
        Registers h k i event (resume w) ∧ Since h k i event := by
      intro event
      by_cases hev : event ∈ evs
      · obtain ⟨w, hw⟩ := Option.isSome_iff_exists.mp (hocc event hev)
        obtain ⟨k, hk⟩ := hown i event w hw
        exact ⟨k, fun _ => ⟨w, hw, hk⟩⟩
      · exact ⟨0, fun h => absurd h hev⟩
    choose owner howner using howner
    have hdel : ¬ o.IsDel := by
      intro hdel
      cases o <;> first | exact hdel | exact ho
    refine ⟨evs.map fun event => (owner event, (i : Int), event), ?_, ?_, ?_⟩
    · exact hnd.map (fun a b hab => by simpa using congrArg (fun p => p.2.2) hab)
    · intro k fd event
      rw [List.mem_map, clearedBy_last]
      constructor
      · rintro ⟨event', hev, heq⟩
        cases heq
        obtain ⟨w, -, hlt, hreg, hsince⟩ := howner event hev
        exact ⟨⟨_, hreg.append _⟩, ⟨hlt, hsince, (bitSet_cleared hocc hslot i event).mpr ⟨rfl, hev⟩⟩, hdel⟩
      · rintro ⟨⟨call, hreg⟩, ⟨hlt, hsince, hcleared⟩, -⟩
        obtain ⟨rfl, hev⟩ := (bitSet_cleared hocc hslot fd event).mp hcleared
        obtain ⟨w, -, -, hreg', hsince'⟩ := howner event hev
        have hk := owner_unique hr (hreg.of_append hlt) hreg' hsince hsince'
        exact ⟨event, hev, by rw [hk]⟩
    · apply forall₂_filterMap
      intro event hev
      obtain ⟨w, hw, -, hreg, -⟩ := howner event hev
      exact ⟨resume w, by rw [hw]; rfl, hreg.append _⟩

/-! ## Whole histories -/

theorem clearedBy_append {h h' : History σ φ κ} {i j : Nat} {fd : Int} {event : Event} (hj : j < h.length) :
    ClearedBy (h ++ h') i j fd event ↔ ClearedBy h i j fd event := by
  unfold ClearedBy
  rw [List.getElem?_append_left hj]
  refine and_congr_right fun _ => and_congr_left fun _ => ?_
  constructor
  · intro hset k e hk hkj hke
    exact hset k e hk hkj (by rwa [List.getElem?_append_left (by omega)])
  · intro hset k e hk hkj hke
    rw [List.getElem?_append_left (by omega)] at hke
    exact hset k e hk hkj hke

theorem Resumed.append {h h' : History σ φ κ} {j : Nat} {e : Entry (IOManager σ φ κ) (Op σ φ κ) (Reply σ φ κ)}
    {L : List (Nat × Int × Event)} (hres : Resumed h j e L) (hj : j < h.length) : Resumed (h ++ h') j e L := by
  obtain ⟨hnd, hmem, hcalls⟩ := hres
  refine ⟨hnd, fun i fd event => ?_, hcalls.imp fun _ _ hreg => hreg.append h'⟩
  rw [hmem, clearedBy_append hj]
  constructor
  · rintro ⟨⟨call, hreg⟩, hcleared⟩
    exact ⟨⟨call, hreg.append h'⟩, hcleared⟩
  · rintro ⟨⟨call, hreg⟩, hcleared⟩
    exact ⟨⟨call, hreg.of_append (by have := hcleared.1.1; omega)⟩, hcleared⟩

/-- A bit that was set by one step is cleared by at most one. -/
theorem clearedBy_unique {mem : Memory} {h : History σ φ κ} {m : IOManager σ φ κ} (hr : Run (machine mem σ φ κ) h m)
    {i j j' : Nat} {fd : Int} {event : Event} (hj : ClearedBy h i j fd event) (hj' : ClearedBy h i j' fd event) :
    ¬ j < j' := by
  intro hlt
  obtain ⟨hij, -, e, he, hclear⟩ := hj
  obtain ⟨-, hset, e', he', -⟩ := hj'
  obtain ⟨e₂, he₂⟩ : ∃ e₂, h[j + 1]? = some e₂ := by
    have hlen := (List.getElem?_eq_some_iff.mp he').1
    exact ⟨_, List.getElem?_eq_getElem (by omega)⟩
  have hpre := hset (j + 1) e₂ (by omega) (by omega) he₂
  rw [hr.chain he he₂] at hpre
  exact hclear hpre

/-- **Every waiter is resumed once.** A bit that was set by one step is cleared by at most one. The calls of `schedule`
that a step makes are, one for one, those registered by the successful `addEvent`s whose bits it clears, unless it is a
`delEvent`, which makes none. -/
theorem resumed_once {mem : Memory} {h : History σ φ κ} {m : IOManager σ φ κ} (hr : Run (machine mem σ φ κ) h m) :
    (∀ i j j' fd event, ClearedBy h i j fd event → ClearedBy h i j' fd event → j = j') ∧
      ∀ j e, h[j]? = some e → ∃ L, Resumed h j e L := by
  constructor
  · intro i j j' fd event hj hj'
    rcases Nat.lt_trichotomy j j' with hlt | heq | hlt
    · exact absurd hlt (clearedBy_unique hr hj hj')
    · exact heq
    · exact absurd hlt (clearedBy_unique hr hj' hj)
  · intro j e he
    obtain ⟨hlt, rfl⟩ := List.getElem?_eq_some_iff.mp he
    have hsplit : h = h.take j ++ h[j] :: h.drop (j + 1) := by
      rw [← List.drop_eq_getElem_cons hlt, List.take_append_drop]
    have hlen : (h.take j).length = j := by
      rw [List.length_take]
      omega
    obtain ⟨hrun, ha, hs⟩ := hr.cut hsplit
    generalize h[j] = e at *
    obtain ⟨pre, inp, out, post⟩ := e
    obtain ⟨W, rfl, hown⟩ := run_owned hrun
    obtain ⟨W', rfl, heff⟩ := step_effect ha hs
    obtain ⟨L, hL⟩ := resumed_last hrun hown heff
    rw [hlen] at hL
    refine ⟨L, ?_⟩
    rw [hsplit, List.append_cons]
    apply hL.append
    rw [List.length_append, hlen, List.length_singleton]
    omega

/-- A fiber and a callback wait for one descriptor, and `cancelAll` resumes both. -/
theorem resumed_once_cancelAll :
    ∃ h m e, Run (machine ⟨1024, by decide⟩ Nat Nat Nat) h m ∧ h[2]? = some e ∧
      e.out.scheduled = [(0, { fiber := some 7 }), (0, { cb := some 3 })] ∧ ∃ L, Resumed h 2 e L := by
  obtain ⟨h, m, hr, hp⟩ := Run.of_replay (machine ⟨1024, by decide⟩ Nat Nat Nat) rfl
    [.addEvent 5 .read none ⟨some 0, 7, .exec⟩ true, .addEvent 5 .write (some 3) ⟨some 0, 8, .exec⟩ true,
      .cancelAll 5 true]
    (fun r => r.1[2]?.any fun e => e.out.scheduled == [(0, { fiber := some 7 }), (0, { cb := some 3 })]) (by decide)
  rw [Option.any_eq_true] at hp
  obtain ⟨e, he, hsched⟩ := hp
  rw [beq_iff_eq] at hsched
  exact ⟨h, m, e, hr, he, hsched, (resumed_once hr).2 2 e he⟩

end QWebServer.IOManager
