import Mathlib.Data.List.Induction

/-!
# Step machines and their runs

* `Machine` : start states, enabled labels, and a step that answers or faults;
* `Entry` : one step as a history keeps it; `Run M h s` : the history `h` leads from a start state to `s`;
* `Run.invariant` : what every start state has and every step keeps holds of every reached state, `Run.invariant_of` :
  the same where every step meets a condition;
* `Run.forall_post_iff` : all states of a run have a property exactly when all its steps meet a condition;
* `Run.last`, `Run.of_nil`, `Run.cut`, `Run.mem` : the runs inside a run, `Run.enters` : where it comes to a property;
* `replay` : a list of labels executed, `Run.of_replay` : it is a run.
-/

namespace QWebServer.Lib

/-- What a sequence of two fallible computations returned, the first one's result between them. -/
theorem bind_eq_ok {ε α β : Type} {x : Except ε α} {f : α → Except ε β} {b : β} (h : x >>= f = .ok b) :
    ∃ a, x = .ok a ∧ f a = .ok b := by
  cases x with
  | error => cases h
  | ok a => exact ⟨a, rfl, h⟩

theorem bind_eq_error {ε α β : Type} {x : Except ε α} {f : α → Except ε β} {e : ε} (h : x >>= f = .error e) :
    x = .error e ∨ ∃ a, x = .ok a ∧ f a = .error e := by
  cases x with
  | error =>
    cases h
    exact .inl rfl
  | ok a => exact .inr ⟨a, rfl, h⟩

theorem foldlM_invariant {ε α β : Type} {f : β → α → Except ε β} {P : β → Prop}
    (hf : ∀ b a b', P b → f b a = .ok b' → P b') {l : List α} {b b' : β} (hb : P b) (h : l.foldlM f b = .ok b') :
    P b' := by
  induction l generalizing b with
  | nil =>
    cases h
    exact hb
  | cons a l ih =>
    obtain ⟨c, hc, h⟩ := bind_eq_ok h
    exact ih (hf b a c hb hc) h

theorem mapM_some {α β : Type} {f : α → Option β} {g : α → β} {l : List α} (h : ∀ a ∈ l, f a = some (g a)) :
    l.mapM f = some (l.map g) := by
  induction l with
  | nil => rfl
  | cons a l ih =>
    rw [List.mapM_cons, h a (by simp), ih fun b hb => h b (by simp [hb])]
    rfl

theorem map_eq_ok {ε α β : Type} {f : α → β} {x : Except ε α} {b : β} (h : x.map f = .ok b) :
    ∃ a, x = .ok a ∧ f a = b := by
  cases x with
  | error => cases h
  | ok a => exact ⟨a, rfl, Except.ok.inj h⟩

theorem mapError_eq_ok {ε ε' α : Type} {f : ε → ε'} {x : Except ε α} {a : α} (h : x.mapError f = .ok a) :
    x = .ok a := by
  cases x with
  | error => cases h
  | ok b =>
    cases h
    rfl

/-- Two sequences that start alike, and go on alike after results that agree under `p`. -/
theorem bind_map_congr {ε α β γ δ : Type} {a b : Except ε α} {p : α → β} {k : α → Except ε γ} {q : γ → δ}
    (h : a.map p = b.map p) (hk : ∀ y z, p y = p z → (k y).map q = (k z).map q) :
    (a >>= k).map q = (b >>= k).map q := by
  cases a with
  | error f =>
    cases b with
    | error g =>
      cases h
      rfl
    | ok z => cases h
  | ok y =>
    cases b with
    | error g => cases h
    | ok z => exact hk y z (Except.ok.inj h)

/-- A machine over states `σ`, labels `ι`, replies `ο` and faults `ε`. A label is taken only where it is enabled,
and a step that faults ends the run. -/
structure Machine (σ ι ο ε : Type) where
  init : σ → Prop
  enabled : σ → ι → Prop
  step : σ → ι → Except ε (ο × σ)

/-- One step of a history: the state before, the label, the reply and the state after. -/
structure Entry (σ ι ο : Type) where
  pre : σ
  inp : ι
  out : ο
  post : σ

section
variable {σ ι ο ε : Type} {M : Machine σ ι ο ε}

/-- `Run M h s` : the steps `h` lead from a start state of `M` to `s`. -/
inductive Run (M : Machine σ ι ο ε) : List (Entry σ ι ο) → σ → Prop
  | start {s : σ} (hs : M.init s) : Run M [] s
  | step {h : List (Entry σ ι ο)} {s t : σ} {i : ι} {o : ο} (hr : Run M h s) (he : M.enabled s i)
      (hs : M.step s i = .ok (o, t)) : Run M (h ++ [⟨s, i, o, t⟩]) t

/-- `M.Steps e` : the entry `e` is a step of `M`. -/
def Machine.Steps (M : Machine σ ι ο ε) (e : Entry σ ι ο) : Prop :=
  M.enabled e.pre e.inp ∧ M.step e.pre e.inp = .ok (e.out, e.post)

/-- **The invariant rule**, for the runs whose steps all meet a condition `C`. -/
theorem Run.invariant_of {P : σ → Prop} {C : Entry σ ι ο → Prop} {h : List (Entry σ ι ο)} {s : σ} (hr : Run M h s)
    (hc : ∀ e ∈ h, C e) (h0 : ∀ s, M.init s → P s) (hstep : ∀ e, P e.pre → M.Steps e → C e → P e.post) : P s := by
  induction hr with
  | start hs => exact h0 _ hs
  | step _ he hs ih =>
    have hp := ih fun e hmem => hc e (List.mem_append_left _ hmem)
    exact hstep _ hp ⟨he, hs⟩ (hc _ (List.mem_append_right _ (List.mem_singleton_self _)))

theorem Run.invariant {P : σ → Prop} (h0 : ∀ s, M.init s → P s)
    (hstep : ∀ s i o t, P s → M.enabled s i → M.step s i = .ok (o, t) → P t)
    {h : List (Entry σ ι ο)} {s : σ} (hr : Run M h s) : P s :=
  hr.invariant_of (C := fun _ => True) (fun _ _ => trivial) h0 fun _ hp hs _ => hstep _ _ _ _ hp hs.1 hs.2

theorem Run.last {h : List (Entry σ ι ο)} {e : Entry σ ι ο} {s : σ} (hr : Run M (h ++ [e]) s) :
    Run M h e.pre ∧ M.Steps e ∧ s = e.post := by
  generalize hg : h ++ [e] = g at hr
  cases hr with
  | start => simp at hg
  | step hr he hs =>
    obtain ⟨rfl, he'⟩ := List.append_inj' hg rfl
    cases List.singleton_inj.mp he'
    exact ⟨hr, ⟨he, hs⟩, rfl⟩

theorem Run.of_nil {s : σ} (hr : Run M [] s) : M.init s := by
  generalize hg : ([] : List (Entry σ ι ο)) = g at hr
  cases hr with
  | start hs => exact hs
  | step => simp at hg

theorem Run.unique (hinit : ∀ s t, M.init s → M.init t → s = t) {h : List (Entry σ ι ο)} {s t : σ} (hs : Run M h s)
    (ht : Run M h t) : s = t := by
  cases h using List.reverseRecOn with
  | nil => exact hinit s t hs.of_nil ht.of_nil
  | append_singleton h e => rw [hs.last.2.2, ht.last.2.2]

theorem Run.cut {h : List (Entry σ ι ο)} {s : σ} (hr : Run M h s) {h₁ h₂ : List (Entry σ ι ο)} {e : Entry σ ι ο}
    (hh : h = h₁ ++ e :: h₂) : Run M h₁ e.pre ∧ M.Steps e := by
  induction h₂ using List.reverseRecOn generalizing h s with
  | nil =>
    subst hh
    exact ⟨hr.last.1, hr.last.2.1⟩
  | append_singleton h₂ e' ih =>
    subst hh
    rw [← List.cons_append, ← List.append_assoc] at hr
    exact ih hr.last.1 rfl

/-- **The invariant rule from an entry on**: `P` holds after the entry and is kept by the steps that follow. -/
theorem Run.after {P : List (Entry σ ι ο) → σ → Prop} {h₁ h₂ : List (Entry σ ι ο)} {e : Entry σ ι ο} {s : σ}
    (hr : Run M (h₁ ++ e :: h₂) s) (h0 : P [] e.post)
    (hstep : ∀ h e', h ++ [e'] <+: h₂ → Run M (h₁ ++ e :: h) e'.pre → M.Steps e' → P h e'.pre →
      P (h ++ [e']) e'.post) : P h₂ s := by
  induction h₂ using List.reverseRecOn generalizing s with
  | nil =>
    rw [hr.last.2.2]
    exact h0
  | append_singleton h₂ e' ih =>
    rw [← List.cons_append, ← List.append_assoc] at hr
    obtain ⟨hr', he', rfl⟩ := hr.last
    refine hstep h₂ e' (List.prefix_refl _) hr' he' (ih hr' fun h e₁ hpre => ?_)
    exact hstep h e₁ (hpre.trans (List.prefix_append _ _))

theorem Run.chain {h : List (Entry σ ι ο)} {s : σ} (hr : Run M h s) {k : Nat} {e e' : Entry σ ι ο}
    (he : h[k]? = some e) (he' : h[k + 1]? = some e') : e'.pre = e.post := by
  obtain ⟨hk, rfl⟩ := List.getElem?_eq_some_iff.mp he
  obtain ⟨hk', rfl⟩ := List.getElem?_eq_some_iff.mp he'
  have hsplit : h = h.take (k + 1) ++ h[k + 1] :: h.drop (k + 2) := by
    rw [← List.drop_eq_getElem_cons hk', List.take_append_drop]
  have hcut := (hr.cut hsplit).1
  rw [List.take_succ_eq_append_getElem hk] at hcut
  exact hcut.last.2.2

theorem Run.mem {h : List (Entry σ ι ο)} {s : σ} (hr : Run M h s) {e : Entry σ ι ο} (he : e ∈ h) :
    ∃ h₁, Run M h₁ e.pre ∧ M.Steps e := by
  obtain ⟨h₁, h₂, hh⟩ := List.append_of_mem he
  exact ⟨h₁, hr.cut hh⟩

/-- The last time that a run comes to states with a property, in which it then stays. -/
theorem Run.enters {P : σ → Prop} {h : List (Entry σ ι ο)} {s : σ} (hr : Run M h s) (h0 : ∀ s, M.init s → ¬ P s)
    (hp : P s) : ∃ h₁ e h₂, h = h₁ ++ e :: h₂ ∧ ¬ P e.pre ∧ P e.post ∧ ∀ x ∈ h₂, P x.pre := by
  induction hr with
  | start hs => exact absurd hp (h0 _ hs)
  | @step h s t i o hr he hs ih =>
    by_cases hpre : P s
    · obtain ⟨h₁, e, h₂, rfl, he₁, he₂, hstay⟩ := ih hpre
      refine ⟨h₁, e, h₂ ++ [⟨s, i, o, t⟩], by simp, he₁, he₂, fun x hx => ?_⟩
      rcases List.mem_append.mp hx with hx | hx
      · exact hstay x hx
      · cases List.mem_singleton.mp hx
        exact hpre
    · exact ⟨h, ⟨s, i, o, t⟩, [], rfl, hpre, hp, nofun⟩

theorem Run.post_of_forall {P : σ → Prop} {h : List (Entry σ ι ο)} {s : σ} (hr : Run M h s)
    (h0 : ∀ s, M.init s → P s) (hp : ∀ e ∈ h, P e.post) : P s := by
  cases hr with
  | start hs => exact h0 _ hs
  | step _ he hs => exact hp _ (List.mem_append_right _ (List.mem_singleton_self _))

/-- **The exact condition rule**: where a step of a run from a state with `P` leads to a state with `P` exactly when it
meets `C`, all states of a run have `P` exactly when all its steps meet `C`. -/
theorem Run.forall_post_iff {P : σ → Prop} {C : Entry σ ι ο → Prop} (h0 : ∀ s, M.init s → P s)
    (hstep : ∀ h e, Run M h e.pre → M.Steps e → P e.pre → (P e.post ↔ C e)) {h : List (Entry σ ι ο)} {s : σ}
    (hr : Run M h s) : (∀ e ∈ h, P e.post) ↔ ∀ e ∈ h, C e := by
  induction hr with
  | start => simp
  | @step h s t i o hr he hs ih =>
    simp only [List.forall_mem_append, List.forall_mem_singleton, ih]
    refine and_congr_right fun hc => hstep h ⟨s, i, o, t⟩ hr ⟨he, hs⟩ ?_
    exact hr.post_of_forall h0 (ih.mpr hc)

/-- The labels `is` executed one after the other from `s`. -/
def Machine.replay (M : Machine σ ι ο ε) [∀ s i, Decidable (M.enabled s i)] (s : σ) :
    List ι → Option (List (Entry σ ι ο) × σ)
  | [] => some ([], s)
  | i :: is =>
    if M.enabled s i then
      match M.step s i with
      | .error _ => none
      | .ok (o, t) => (M.replay t is).map fun r => (⟨s, i, o, t⟩ :: r.1, r.2)
    else none

theorem Run.append_replay [∀ s i, Decidable (M.enabled s i)] {is : List ι} {h h' : List (Entry σ ι ο)} {s t : σ}
    (hr : Run M h s)
    (ht : M.replay s is = some (h', t)) : Run M (h ++ h') t := by
  induction is generalizing h h' s with
  | nil =>
    simp only [Machine.replay, Option.some.injEq, Prod.mk.injEq] at ht
    obtain ⟨rfl, rfl⟩ := ht
    simpa using hr
  | cons i is ih =>
    rw [Machine.replay] at ht
    split_ifs at ht with he
    cases hs : M.step s i with
    | error => simp [hs] at ht
    | ok r =>
      simp only [hs, Option.map_eq_some_iff, Prod.mk.injEq] at ht
      obtain ⟨⟨h₂, u⟩, h2, rfl, rfl⟩ := ht
      have := ih (Run.step hr he hs) h2
      simpa using this

/-- A replay from a start state is a run: what is checked of its result holds of a run. -/
theorem Run.of_replay (M : Machine σ ι ο ε) [∀ s i, Decidable (M.enabled s i)] {s : σ} (hs : M.init s) (is : List ι)
    (p : List (Entry σ ι ο) × σ → Bool) (h : (M.replay s is).any p = true) : ∃ h t, Run M h t ∧ p (h, t) = true := by
  cases hr : M.replay s is with
  | none => simp [hr] at h
  | some r =>
    rw [hr] at h
    exact ⟨r.1, r.2, by simpa using (Run.start hs).append_replay hr, h⟩

end

end QWebServer.Lib
