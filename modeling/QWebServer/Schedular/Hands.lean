import QWebServer.Schedular.Moves

/-!
# One hand for every fiber

* `tokens` : how often a fiber is queued or waits to be;
* `WorkerOk` : what a worker relies on about the fibers in its hand;
* `Inv` : no fiber is in two hands, and it is queued or waits at most once, and while it is in a hand only if it is on
  its way out as `HOLD`;
* `Clear` : the scan does not take an entry of a fiber that is still in a hand;
* `Inv.move` : the moves keep `Inv` where scans are clear.
-/

namespace QWebServer.Schedular

open Lib

variable {τ κ : Type}

/-- How often `f` is queued or waits to be. -/
def tokens (s : Schedular τ κ) (f : Addr) : Nat := (s.queue.filterMap (·.ft.fiber)).count f + s.waiting.count f

/-- The fiber that the worker works on is `cb_fiber`. -/
def Pc.via : Pc κ → Bool
  | .swapIn _ _ via => via
  | .load _ _ via => via
  | .exec _ via _ => via
  | .back _ via _ => via
  | .check _ via _ => via
  | .requeue _ via => via
  | .recycle _ via => via
  | .update _ via => via
  | _ => false

/-- The fiber's context is the one the thread runs on. -/
def Pc.runs : Pc κ → Prop
  | .exec .. => True
  | _ => False

/-- The fiber may be queued or wait to be, although it is still in the hand. -/
def Pc.mayWait : Pc κ → Prop
  | .exec _ _ .published => True
  | .exec _ _ (.leaving o) => o = .hold
  | .back _ _ o => o = .hold
  | .check _ _ o => o = .hold
  | .update _ _ => True
  | _ => False

def Left (o : Fiber.State) : Prop := o = .hold ∨ o = .ready ∨ o = .term ∨ o = .except

/-- The states that the fiber in the hand may have. -/
def Pc.allows (st : Fiber.State) : Pc κ → Prop
  | .scan => True
  | .taken _ => st ≠ .exec
  | .swapIn _ _ _ => st ≠ .exec
  | .load _ _ _ => st = .exec
  | .exec _ _ (.leaving o) => st = o ∧ Left o
  | .exec _ _ _ => st = .exec
  | .back _ _ o => st = o ∧ Left o
  | .check _ _ o => st = o ∧ Left o
  | .requeue _ _ => st = .ready
  | .recycle _ _ => st = .term ∨ st = .except
  | .update _ _ => st = .hold
  | .discard => True

/-- The worker has `f` in its hand. -/
def Worker.Holds (w : Worker κ) (f : Addr) : Prop := w.pc.fiber = some f ∨ w.cbFiber = some f

/-- What a worker relies on. -/
structure WorkerOk (fibers : Addr → Fiber κ) (tokens : Addr → Nat) (w : Worker κ) : Prop where
  via : ∀ f, w.pc.fiber = some f → (w.cbFiber = some f ↔ w.pc.via = true)
  state : ∀ f, w.pc.fiber = some f → w.pc.allows (fibers f).state
  spare : ∀ f, w.cbFiber = some f → w.pc.fiber ≠ some f → (fibers f).state = .init
  quiet : ∀ f, w.Holds f → 0 < tokens f → w.pc.fiber = some f ∧ w.pc.mayWait

/-- One hand for every fiber. -/
structure Inv (s : Schedular τ κ) : Prop where
  worker : ∀ t, WorkerOk s.fibers s.tokens (s.workers t)
  one : ∀ t t' f, s.Holds t f → s.Holds t' f → t = t'
  token : ∀ f, s.tokens f ≤ 1
  created : ∀ f, ((∃ t, s.Holds t f) ∨ 0 < s.tokens f) → f ∈ s.created
  entries : ∀ x ∈ s.queue, x.ft.nonempty = true
  saved : ∀ f, (s.fibers f).saved = false → ∃ t, (s.workers t).pc.fiber = some f ∧ (s.workers t).pc.runs

theorem WorkerOk.frame {fibers fibers' : Addr → Fiber κ} {tok tok' : Addr → Nat} {w : Worker κ}
    (h : WorkerOk fibers tok w) (hf : ∀ f, w.Holds f → fibers' f = fibers f ∧ tok' f = tok f) :
    WorkerOk fibers' tok' w where
  via := h.via
  state f hf' := by
    rw [(hf f (.inl hf')).1]
    exact h.state f hf'
  spare f hf' hne := by
    rw [(hf f (.inr hf')).1]
    exact h.spare f hf' hne
  quiet f hf' ht := by
    rw [(hf f hf').2] at ht
    exact h.quiet f hf' ht

theorem Inv.env {s s' : Schedular τ κ} (hi : Inv s) (hw : s'.workers = s.workers)
    (hframe : ∀ t f, s.Holds t f → s'.fibers f = s.fibers f ∧ s'.tokens f = s.tokens f)
    (htoken : ∀ f, s'.tokens f ≤ 1) (hcreated : ∀ f, f ∈ s.created ∨ 0 < s'.tokens f → f ∈ s'.created)
    (hentries : ∀ x ∈ s'.queue, x.ft.nonempty = true)
    (hsaved : ∀ f, (s'.fibers f).saved = false → (s.fibers f).saved = false) : Inv s' where
  worker t := by
    rw [hw]
    exact (hi.worker t).frame (hframe t)
  one t t' f h h' := by
    unfold Holds at h h'
    rw [hw] at h h'
    exact hi.one t t' f h h'
  token := htoken
  created f h := by
    rcases h with ⟨t, h⟩ | h
    · unfold Holds at h
      rw [hw] at h
      exact hcreated f (.inl (hi.created f (.inl ⟨t, h⟩)))
    · exact hcreated f (.inr h)
  entries := hentries
  saved f h := by
    rw [hw]
    exact hi.saved f (hsaved f h)

theorem Inv.empty : Inv ({} : Schedular τ κ) where
  worker _ := ⟨nofun, nofun, nofun, fun f hh => hh.elim nofun nofun⟩
  one _ _ f hh := hh.elim nofun nofun
  token _ := Nat.zero_le 1
  created f h := by
    rcases h with ⟨t, h | h⟩ | h
    · cases h
    · cases h
    · exact absurd h (Nat.lt_irrefl 0)
  entries _ hx := by cases hx
  saved _ h := by cases h

section
variable [DecidableEq τ]

theorem Inv.local {s s' : Schedular τ κ} {t : τ} {w : Worker κ} (hi : Inv s)
    (hw : s'.workers = Function.update s.workers t w)
    (hframe : ∀ v, v ≠ t → ∀ f, s.Holds v f → s'.fibers f = s.fibers f ∧ s'.tokens f = s.tokens f)
    (hown : ∀ f, w.Holds f → s.Holds t f ∨ ∀ v, ¬ s.Holds v f)
    (hok : WorkerOk s'.fibers s'.tokens w) (htoken : ∀ f, s'.tokens f ≤ 1)
    (hcreated : ∀ f, f ∈ s.created ∨ w.Holds f ∨ 0 < s'.tokens f → f ∈ s'.created)
    (hentries : ∀ x ∈ s'.queue, x.ft.nonempty = true)
    (hsaved : ∀ f, (s'.fibers f).saved = false →
      w.pc.fiber = some f ∧ w.pc.runs ∨ (s.fibers f).saved = false ∧ (s.workers t).pc.fiber ≠ some f) : Inv s' := by
  have hself : s'.workers t = w := by rw [hw, Function.update_self]
  have hother : ∀ v, v ≠ t → s'.workers v = s.workers v := fun v hv => by rw [hw, Function.update_of_ne hv]
  have hholds : ∀ v f, s'.Holds v f → (v = t ∧ w.Holds f) ∨ (v ≠ t ∧ s.Holds v f) := by
    intro v f h
    by_cases hv : v = t
    · subst hv
      refine .inl ⟨rfl, ?_⟩
      unfold Holds at h
      rwa [hself] at h
    · refine .inr ⟨hv, ?_⟩
      unfold Holds at h ⊢
      rwa [hother v hv] at h
  refine ⟨?_, ?_, htoken, ?_, hentries, ?_⟩
  · intro v
    by_cases hv : v = t
    · rw [hv, hself]
      exact hok
    · rw [hother v hv]
      exact (hi.worker v).frame (hframe v hv)
  · intro v v' f h h'
    rcases hholds v f h with ⟨rfl, hh⟩ | ⟨hv, hh⟩ <;> rcases hholds v' f h' with ⟨rfl, hh'⟩ | ⟨hv', hh'⟩
    · rfl
    · rcases hown f hh with ho | ho
      · exact hi.one _ _ f ho hh'
      · exact absurd hh' (ho v')
    · rcases hown f hh' with ho | ho
      · exact hi.one _ _ f hh ho
      · exact absurd hh (ho v)
    · exact hi.one v v' f hh hh'
  · rintro f (⟨v, h⟩ | h)
    · rcases hholds v f h with ⟨-, hh⟩ | ⟨-, hh⟩
      · exact hcreated f (.inr (.inl hh))
      · exact hcreated f (.inl (hi.created f (.inl ⟨v, hh⟩)))
    · exact hcreated f (.inr (.inr h))
  · intro f h
    rcases hsaved f h with hh | ⟨hh, hne⟩
    · exact ⟨t, by rwa [hself]⟩
    · obtain ⟨v, hv⟩ := hi.saved f hh
      have hvt : v ≠ t := by
        rintro rfl
        exact hne hv.1
      exact ⟨v, by rwa [hother v hvt]⟩

/-- The worker goes on with the fiber in its hand. -/
theorem Inv.advance {s s' : Schedular τ κ} {t : τ} {f : Addr} {pc : Pc κ} {y : Fiber κ} (hi : Inv s)
    (hf : (s.workers t).pc.fiber = some f)
    (hw : s'.workers = Function.update s.workers t { s.workers t with pc := pc })
    (hfib : s'.fibers = Function.update s.fibers f y) (hcr : s'.created = s.created) (hq : s'.queue = s.queue)
    (htok : ∀ g, g ≠ f → s'.tokens g = s.tokens g) (htokf : s'.tokens f ≤ 1) (hpc : pc.fiber = some f)
    (hvia : pc.via = (s.workers t).pc.via) (hst : pc.allows y.state) (hwait : 0 < s'.tokens f → pc.mayWait)
    (hsv : y.saved = false → pc.runs) : Inv s' := by
  have hw0 := hi.worker t
  have hne : ∀ g, g ≠ f → s'.fibers g = s.fibers g := fun g hg => by rw [hfib, Function.update_of_ne hg]
  have hself : s'.fibers f = y := by rw [hfib, Function.update_self]
  have hheld : s.Holds t f := .inl hf
  apply hi.local hw
  · intro v hv g hg
    have hgf : g ≠ f := by
      rintro rfl
      exact hv (hi.one v t _ hg hheld)
    exact ⟨hne g hgf, htok g hgf⟩
  · rintro g (hg | hg)
    · exact .inl (.inl (by rw [hf, ← hpc, hg]))
    · exact .inl (.inr hg)
  · refine ⟨?_, ?_, ?_, ?_⟩
    · intro g hg
      obtain rfl : g = f := by simpa [hpc] using hg.symm
      show (s.workers t).cbFiber = some g ↔ _
      rw [hvia]
      exact hw0.via g hf
    · intro g hg
      obtain rfl : g = f := by simpa [hpc] using hg.symm
      rw [hself]
      exact hst
    · intro g hg hgne
      have hgf : g ≠ f := by
        rintro rfl
        exact hgne hpc
      rw [hne g hgf]
      apply hw0.spare g hg
      rw [hf]
      simpa using Ne.symm hgf
    · intro g hg ht
      by_cases hgf : g = f
      · subst hgf
        exact ⟨hpc, hwait ht⟩
      · rw [htok g hgf] at ht
        have hg' : (s.workers t).Holds g := by
          rcases hg with hg | hg
          · exact absurd (by simpa [hpc] using hg.symm) hgf
          · exact .inr hg
        have := (hw0.quiet g hg' ht).1
        rw [hf] at this
        exact absurd (Option.some.inj this).symm hgf
  · intro g
    by_cases hgf : g = f
    · rw [hgf]
      exact htokf
    · rw [htok g hgf]
      exact hi.token g
  · intro g hg
    rw [hcr]
    rcases hg with hg | (hg | hg) | hg
    · exact hg
    · obtain rfl : g = f := by simpa [hpc] using hg.symm
      exact hi.created g (.inl ⟨t, hheld⟩)
    · exact hi.created g (.inl ⟨t, .inr hg⟩)
    · by_cases hgf : g = f
      · rw [hgf]
        exact hi.created f (.inl ⟨t, hheld⟩)
      · rw [htok g hgf] at hg
        exact hi.created g (.inr hg)
  · rw [hq]
    exact hi.entries
  · intro g hg
    by_cases hgf : g = f
    · subst hgf
      rw [hself] at hg
      exact .inl ⟨hpc, hsv hg⟩
    · rw [hne g hgf] at hg
      exact .inr ⟨hg, by rw [hf]; simpa using Ne.symm hgf⟩

/-- The worker lets go of the fiber it works on. -/
theorem Inv.release {s s' : Schedular τ κ} {t : τ} {pc : Pc κ} {cb : Option Addr} (hi : Inv s)
    (hw : s'.workers = Function.update s.workers t ⟨pc, cb⟩) (hpc : pc.fiber = none)
    (hframe : ∀ g, (s.workers t).pc.fiber ≠ some g → s'.fibers g = s.fibers g ∧ s'.tokens g = s.tokens g)
    (hcb : ∀ g, cb = some g → (s.workers t).cbFiber = some g ∧ (s'.fibers g).state = .init ∧ s'.tokens g = 0)
    (hcr : s'.created = s.created) (hentries : ∀ x ∈ s'.queue, x.ft.nonempty = true)
    (htoken : ∀ f, (s.workers t).pc.fiber = some f → s'.tokens f ≤ 1)
    (hsaved : ∀ f, (s.workers t).pc.fiber = some f → (s'.fibers f).saved = true) : Inv s' := by
  have hholds : ∀ g, (⟨pc, cb⟩ : Worker κ).Holds g → cb = some g := by
    rintro g (hg | hg)
    · rw [hpc] at hg
      cases hg
    · exact hg
  apply hi.local hw
  · intro v hv g hg
    apply hframe
    intro hf
    exact hv (hi.one v t g hg (.inl hf))
  · intro g hg
    exact .inl (.inr (hcb g (hholds g hg)).1)
  · refine ⟨?_, ?_, ?_, ?_⟩
    · intro g hg
      rw [hpc] at hg
      cases hg
    · intro g hg
      rw [hpc] at hg
      cases hg
    · exact fun g hg _ => (hcb g hg).2.1
    · intro g hg ht
      rw [(hcb g (hholds g hg)).2.2] at ht
      omega
  · intro g
    by_cases hg : (s.workers t).pc.fiber = some g
    · exact htoken g hg
    · rw [(hframe g hg).2]
      exact hi.token g
  · intro g hg
    rw [hcr]
    rcases hg with hg | hg | hg
    · exact hg
    · exact hi.created g (.inl ⟨t, .inr (hcb g (hholds g hg)).1⟩)
    · by_cases hgf : (s.workers t).pc.fiber = some g
      · exact hi.created g (.inl ⟨t, .inl hgf⟩)
      · rw [(hframe g hgf).2] at hg
        exact hi.created g (.inr hg)
  · exact hentries
  · intro g hg
    right
    by_cases hgf : (s.workers t).pc.fiber = some g
    · rw [hsaved g hgf] at hg
      cases hg
    · rw [(hframe g hgf).1] at hg
      exact ⟨hg, hgf⟩

/-! ## Tokens -/

omit [DecidableEq τ] in
theorem tokens_push (s : Schedular τ κ) (ft : FiberAndThread Addr κ) (f : Addr) :
    (s.push ft).tokens f = s.tokens f + if ft.fiber = some f then 1 else 0 := by
  unfold tokens push
  rw [List.filterMap_append, List.count_append]
  cases hft : ft.fiber with
  | none => simp [hft]
  | some g =>
    simp only [List.filterMap_cons, hft, List.filterMap_nil, List.count_singleton, Option.some.injEq, beq_iff_eq]
    omega

theorem filterMap_numbered (n : Nat) (fts : List (FiberAndThread Addr κ)) :
    (numbered n fts).filterMap (·.ft.fiber) = fts.filterMap (·.fiber) := by
  induction fts generalizing n with
  | nil => rfl
  | cons ft fts ih => simp only [numbered, List.filterMap_cons, ih]

theorem mem_numbered {n : Nat} {fts : List (FiberAndThread Addr κ)} {x : Item κ} (h : x ∈ numbered n fts) :
    x.ft ∈ fts := by
  induction fts generalizing n with
  | nil => cases h
  | cons ft fts ih =>
    rcases List.mem_cons.mp h with rfl | h
    · simp
    · exact List.mem_cons_of_mem _ (ih h)

theorem filterMap_nonempty (fts : List (FiberAndThread Addr κ)) :
    (fts.filter (·.nonempty)).filterMap (·.fiber) = fts.filterMap (·.fiber) := by
  rw [List.filterMap_filter]
  apply List.filterMap_congr
  intro ft _
  cases hft : ft.fiber <;> simp [FiberAndThread.nonempty, hft]

omit [DecidableEq τ] in
theorem tokens_schedule (s : Schedular τ κ) (fts : List (FiberAndThread Addr κ)) (f : Addr) :
    (s.schedule fts).2.tokens f = s.tokens f + (fts.filterMap (·.fiber)).count f := by
  rw [schedule_eq]
  unfold tokens
  dsimp only
  rw [List.filterMap_append, List.count_append, filterMap_numbered, filterMap_nonempty]
  omega

omit [DecidableEq τ] in
theorem tokens_trigger {s : Schedular τ κ} {f : Addr} (hf : f ∈ s.waiting) (g : Addr) :
    ({ s with waiting := s.waiting.erase f }.push { fiber := some f }).tokens g = s.tokens g := by
  rw [tokens_push]
  unfold tokens
  by_cases hg : f = g
  · subst hg
    have := List.count_pos_iff.mpr hf
    simp only [List.count_erase_self, if_true]
    omega
  · simp [hg, List.count_erase_of_ne (Ne.symm hg)]

theorem tokens_take {s : Schedular τ κ} {p r : List (Item κ)} {x : Item κ} (hq : s.queue = p ++ x :: r) (t : τ)
    (g : Addr) :
    s.tokens g = ({ s with queue := p ++ r, activeThreadCount := s.activeThreadCount + 1 }.goto t (.taken x)).tokens g +
      if x.ft.fiber = some g then 1 else 0 := by
  show _ = ((p ++ r).filterMap (·.ft.fiber)).count g + s.waiting.count g + _
  unfold tokens
  rw [hq]
  cases hx : x.ft.fiber with
  | none => simp [hx]
  | some f =>
    simp only [List.filterMap_append, List.filterMap_cons, hx, List.count_append, List.count_cons, beq_iff_eq,
      Option.some.injEq]
    omega

omit [DecidableEq τ] in
theorem tokens_pos_of_mem {s : Schedular τ κ} {x : Item κ} {f : Addr} (hx : x ∈ s.queue) (hf : x.ft.fiber = some f) :
    0 < s.tokens f := by
  have hmem : f ∈ s.queue.filterMap (·.ft.fiber) := List.mem_filterMap.mpr ⟨x, hx, hf⟩
  have := List.count_pos_iff.mpr hmem
  unfold tokens
  omega

/-! ## Moves keep the invariant -/

/-- Entries are pushed for fibers that exist, are in no hand, are not queued and do not wait to be; what is triggered
was published; a new fiber is at a new address; workers and fibers are ready for their steps. -/
def Proper (s : Schedular τ κ) : Label τ κ → Prop
  | .schedule fts => (fts.filterMap (·.fiber)).Nodup ∧
      ∀ f ∈ fts.filterMap (·.fiber), f ∈ s.created ∧ s.tokens f = 0 ∧ ∀ t, ¬ s.Holds t f
  | .newFiber a _ => a ∉ s.created
  | .trigger f => f ∈ s.waiting
  | .work t a => Ready s (.work t a)
  | .act t x => Ready s (.act t x)

/-- A scan does not take an entry of a fiber that is still in a hand. -/
def Clear (ids : Threads τ) (s : Schedular τ κ) : Label τ κ → Prop
  | .work t _ => (s.workers t).pc = .scan → ∀ p x r f, s.queue = p ++ x :: r →
      (∀ y ∈ p, Skips (ids.id t) s.fibers y) → ¬ Skips (ids.id t) s.fibers x → x.ft.fiber = some f →
        ∀ v, ¬ s.Holds v f
  | _ => True

omit [DecidableEq τ] in
theorem Inv.schedule {s : Schedular τ κ} (hi : Inv s) {fts : List (FiberAndThread Addr κ)}
    (hp : Proper s (.schedule fts)) : Inv (s.schedule fts).2 := by
  obtain ⟨hnd, hnew⟩ := hp
  have hcount : ∀ f, f ∉ fts.filterMap (·.fiber) → (s.schedule fts).2.tokens f = s.tokens f := by
    intro f hf
    rw [tokens_schedule, List.count_eq_zero.mpr hf, Nat.add_zero]
  have htok : ∀ f ∈ fts.filterMap (·.fiber), (s.schedule fts).2.tokens f = 1 := by
    intro f hf
    rw [tokens_schedule, (hnew f hf).2.1, List.count_eq_one_of_mem hnd hf]
  apply hi.env
  · rw [schedule_eq]
  · intro t f hf
    refine ⟨by rw [schedule_eq], hcount f fun hmem => (hnew f hmem).2.2 t hf⟩
  · intro f
    by_cases hf : f ∈ fts.filterMap (·.fiber)
    · rw [htok f hf]
    · rw [hcount f hf]
      exact hi.token f
  · intro f hf
    rw [schedule_eq]
    by_cases hmem : f ∈ fts.filterMap (·.fiber)
    · exact (hnew f hmem).1
    · rw [hcount f hmem] at hf
      exact hf.elim id fun h => hi.created f (.inr h)
  · rw [schedule_eq]
    intro x hx
    rcases List.mem_append.mp hx with hx | hx
    · exact hi.entries x hx
    · simpa using (List.mem_filter.mp (mem_numbered hx)).2
  · rw [schedule_eq]
    exact fun f h => h

omit [DecidableEq τ] in
theorem Inv.newFiber {s : Schedular τ κ} (hi : Inv s) {a : Addr} {cb : Option κ} (ha : a ∉ s.created) :
    Inv (s.newFiber a cb) := by
  have hne : ∀ f, f ≠ a → (s.newFiber a cb).fibers f = s.fibers f := fun f hf => Function.update_of_ne hf _ _
  apply hi.env
  · rfl
  · intro t f hf
    refine ⟨hne f ?_, rfl⟩
    rintro rfl
    exact ha (hi.created _ (.inl ⟨t, hf⟩))
  · exact hi.token
  · intro f hf
    exact List.mem_cons_of_mem _ (hf.elim id fun h => hi.created f (.inr h))
  · exact hi.entries
  · intro f hf
    by_cases hfa : f = a
    · subst hfa
      have : (s.newFiber f cb).fibers f = { cb := cb } := Function.update_self f _ _
      rw [this] at hf
      cases hf
    · rwa [hne f hfa] at hf

omit [DecidableEq τ] in
theorem Inv.trigger {s : Schedular τ κ} (hi : Inv s) {f : Addr} (hf : f ∈ s.waiting) :
    Inv ({ s with waiting := s.waiting.erase f }.push { fiber := some f }) := by
  apply hi.env
  · rfl
  · exact fun t g _ => ⟨rfl, tokens_trigger hf g⟩
  · intro g
    rw [tokens_trigger hf]
    exact hi.token g
  · intro g hg
    rw [tokens_trigger hf] at hg
    exact hg.elim id fun h => hi.created g (.inr h)
  · intro x hx
    rcases List.mem_append.mp hx with hx | hx
    · exact hi.entries x hx
    · rw [List.mem_singleton.mp hx]
      rfl
  · exact fun g h => h

theorem Inv.take {ids : Threads τ} {s : Schedular τ κ} (hi : Inv s) {t : τ} {a : Addr} {x : Item κ}
    {rest : List (Item κ)} (hpc : (s.workers t).pc = .scan) (hc : Clear ids s (.work t a))
    (hscan : Scanned (ids.id t) s.fibers s.queue (some x) rest) :
    Inv ({ s with queue := rest, activeThreadCount := s.activeThreadCount + 1 }.goto t (.taken x)) := by
  obtain ⟨p, r, hq, rfl, hskip, hx⟩ := hscan
  have hfree : ∀ f, x.ft.fiber = some f → ∀ v, ¬ s.Holds v f := fun f hf => hc hpc p x r f hq hskip hx hf
  have htokens := tokens_take hq t
  apply hi.local (w := ⟨.taken x, (s.workers t).cbFiber⟩) rfl
  · intro v hv g hg
    have hne : x.ft.fiber ≠ some g := fun h => hfree g h v hg
    have := htokens g
    rw [if_neg hne] at this
    exact ⟨rfl, this.symm⟩
  · rintro g (hg | hg)
    · exact .inr (hfree g hg)
    · exact .inl (.inr hg)
  · refine ⟨?_, ?_, ?_, ?_⟩
    · intro g hg
      refine iff_of_false (fun h => hfree g hg t (.inr h)) (by simp [Pc.via])
    · intro g hg hexec
      exact hx (.inr ⟨g, hg, hexec⟩)
    · intro g hg _
      exact (hi.worker t).spare g hg (by simp [hpc, Pc.fiber])
    · intro g hg ht
      exfalso
      have hle := hi.token g
      have htok := htokens g
      rcases hg with hg | hg
      · change x.ft.fiber = some g at hg
        rw [if_pos hg] at htok
        omega
      · have hpos : 0 < s.tokens g := by omega
        have := ((hi.worker t).quiet g (.inr hg) hpos).1
        rw [hpc] at this
        cases this
  · intro g
    have := hi.token g
    have := htokens g
    omega
  · intro g hg
    show g ∈ s.created
    have htok := htokens g
    rcases hg with hg | (hg | hg) | hg
    · exact hg
    · change x.ft.fiber = some g at hg
      rw [if_pos hg] at htok
      exact hi.created g (.inr (by omega))
    · exact hi.created g (.inl ⟨t, .inr hg⟩)
    · exact hi.created g (.inr (by omega))
  · intro y hy
    apply hi.entries y
    rw [hq]
    rcases List.mem_append.mp hy with h | h <;> simp [h]
  · intro g hg
    exact .inr ⟨hg, by simp [hpc, Pc.fiber]⟩

/-- The worker goes on with another `cb_fiber` or with its spare one, and lets go of the entry. -/
theorem Inv.callback {s s' : Schedular τ κ} (hi : Inv s) {t : τ} {x : Item κ} {f : Addr} {y : Fiber κ}
    (hpc : (s.workers t).pc = .taken x) (hy : y.state = .init) (hsv : y.saved = true)
    (hf : (s.workers t).cbFiber = some f ∨ (s.workers t).cbFiber = none ∧ f ∉ s.created)
    (hw : s'.workers = Function.update s.workers t ⟨.swapIn x f true, some f⟩)
    (hfib : s'.fibers = Function.update s.fibers f y) (htok : ∀ g, s'.tokens g = s.tokens g)
    (hcr : ∀ g, g ∈ s.created ∨ g = f → g ∈ s'.created) (hq : s'.queue = s.queue) : Inv s' := by
  have hw0 := hi.worker t
  have hfree : ∀ v, v ≠ t → ¬ s.Holds v f := by
    intro v hv hh
    rcases hf with hf | ⟨-, hf⟩
    · exact hv (hi.one v t f hh (.inr hf))
    · exact hf (hi.created f (.inl ⟨v, hh⟩))
  have hown : s.Holds t f ∨ ∀ v, ¬ s.Holds v f := by
    rcases hf with hf | ⟨-, hf⟩
    · exact .inl (.inr hf)
    · exact .inr fun v hh => hf (hi.created f (.inl ⟨v, hh⟩))
  have hquiet : s.tokens f = 0 := by
    by_contra hne
    rcases hf with hf | ⟨-, hf⟩
    · have := (hw0.quiet f (.inr hf) (by omega)).2
      rw [hpc] at this
      exact this
    · exact hf (hi.created f (.inr (by omega)))
  have hholds : ∀ g, (⟨.swapIn x f true, some f⟩ : Worker κ).Holds g → g = f := by
    rintro g (hg | hg) <;> exact (Option.some.inj hg).symm
  apply hi.local hw
  · intro v hv g hg
    refine ⟨?_, htok g⟩
    rw [hfib, Function.update_of_ne]
    rintro rfl
    exact hfree v hv hg
  · intro g hg
    rw [hholds g hg]
    exact hown
  · refine ⟨?_, ?_, ?_, ?_⟩
    · intro g hg
      obtain rfl := hholds g (.inl hg)
      simp [Pc.via]
    · intro g hg
      obtain rfl := hholds g (.inl hg)
      rw [hfib, Function.update_self]
      simp [Pc.allows, hy]
    · exact fun g hg hne => absurd hg hne
    · intro g hg ht
      obtain rfl := hholds g hg
      rw [htok, hquiet] at ht
      omega
  · intro g
    rw [htok]
    exact hi.token g
  · intro g hg
    rcases hg with hg | hg | hg
    · exact hcr g (.inl hg)
    · exact hcr g (.inr (hholds g hg))
    · rw [htok] at hg
      exact hcr g (.inl (hi.created g (.inr hg)))
  · rw [hq]
    exact hi.entries
  · intro g hg
    right
    by_cases hgf : g = f
    · rw [hgf, hfib, Function.update_self, hsv] at hg
      cases hg
    · rw [hfib, Function.update_of_ne hgf] at hg
      refine ⟨hg, fun hx => ?_⟩
      obtain ⟨v, hv, hruns⟩ := hi.saved g hg
      obtain rfl := hi.one v t g (.inl hv) (.inl hx)
      rw [hpc] at hruns
      exact hruns

omit [DecidableEq τ] in
/-- What is known of the fiber that a worker works on. -/
theorem Inv.here {s : Schedular τ κ} (hi : Inv s) {t : τ} {pc : Pc κ} {f : Addr} (hpc : (s.workers t).pc = pc)
    (hf : pc.fiber = some f) :
    pc.allows (s.fibers f).state ∧ (0 < s.tokens f → pc.mayWait) ∧ ((s.fibers f).saved = false → pc.runs) ∧
      ((s.workers t).cbFiber = some f ↔ pc.via = true) := by
  subst hpc
  refine ⟨(hi.worker t).state f hf, fun h => ((hi.worker t).quiet f (.inl hf) h).2, fun h => ?_,
    (hi.worker t).via f hf⟩
  obtain ⟨v, hv, hruns⟩ := hi.saved f h
  obtain rfl := hi.one v t f (.inl hv) (.inl hf)
  exact hruns

omit [DecidableEq τ] in
theorem Inv.spared {s : Schedular τ κ} (hi : Inv s) {t : τ} {g : Addr} (hcb : (s.workers t).cbFiber = some g)
    (hne : (s.workers t).pc.fiber ≠ some g) : (s.fibers g).state = .init ∧ s.tokens g = 0 := by
  refine ⟨(hi.worker t).spare g hcb hne, ?_⟩
  by_contra h
  exact hne ((hi.worker t).quiet g (.inr hcb) (by omega)).1

omit [DecidableEq τ] in
theorem holds_of_pc {s : Schedular τ κ} {t : τ} {pc : Pc κ} {f : Addr} (hpc : (s.workers t).pc = pc)
    (hf : pc.fiber = some f) : s.Holds t f := by
  left
  rw [hpc]
  exact hf

omit [DecidableEq τ] in
/-- The context of a fiber is saved where its worker does not run it. -/
theorem Inv.rests {s : Schedular τ κ} (hi : Inv s) {t : τ} {pc : Pc κ} (hpc : (s.workers t).pc = pc) (hr : ¬ pc.runs)
    {f : Addr} (hf : (s.workers t).pc.fiber = some f) : (s.fibers f).saved = true := by
  by_contra h
  rw [hpc] at hf
  exact hr ((hi.here hpc hf).2.2.1 (by simpa using h))

omit [DecidableEq τ] in
/-- A fiber is not queued where its worker may not wait. -/
theorem Inv.unqueued {s : Schedular τ κ} (hi : Inv s) {t : τ} {pc : Pc κ} {f : Addr} (hpc : (s.workers t).pc = pc)
    (hf : pc.fiber = some f) (hw : ¬ pc.mayWait) : s.tokens f = 0 := by
  by_contra h
  exact hw ((hi.here hpc hf).2.1 (Nat.pos_of_ne_zero h))

theorem release_tokens (s : Schedular τ κ) (t : τ) (via : Bool) (pc : Pc κ) (g : Addr) :
    ((s.release t via).goto t pc).tokens g = s.tokens g := by
  cases via <;> rfl

theorem release_fibers (s : Schedular τ κ) (t : τ) (via : Bool) (pc : Pc κ) :
    ((s.release t via).goto t pc).fibers = s.fibers := by
  cases via <;> rfl

theorem release_created (s : Schedular τ κ) (t : τ) (via : Bool) (pc : Pc κ) :
    ((s.release t via).goto t pc).created = s.created := by
  cases via <;> rfl

theorem release_queue (s : Schedular τ κ) (t : τ) (via : Bool) (pc : Pc κ) :
    ((s.release t via).goto t pc).queue = s.queue := by
  cases via <;> rfl

omit [DecidableEq τ] in
/-- What is left in `cb_fiber` once the worker lets go of `f` is a spare one. -/
theorem Inv.kept {s : Schedular τ κ} (hi : Inv s) {t : τ} {pc : Pc κ} {f g : Addr} (hpc : (s.workers t).pc = pc)
    (hf : pc.fiber = some f) (hg : (if pc.via then none else (s.workers t).cbFiber) = some g) :
    (s.workers t).cbFiber = some g ∧ g ≠ f ∧ (s.fibers g).state = .init ∧ s.tokens g = 0 := by
  obtain ⟨-, -, -, hvia⟩ := hi.here hpc hf
  cases hv : pc.via with
  | true => simp [hv] at hg
  | false =>
    simp only [hv, Bool.false_eq_true, if_false] at hg
    have hne : g ≠ f := by
      rintro rfl
      rw [hv] at hvia
      cases hvia.mp hg
    refine ⟨hg, hne, hi.spared hg ?_⟩
    rw [hpc, hf]
    simpa using Ne.symm hne

theorem Inv.drop {s : Schedular τ κ} (hi : Inv s) {t : τ} {x : Item κ} (hpc : (s.workers t).pc = .taken x) :
    Inv (s.goto t .discard) := by
  have hkeep : ∀ g, (s.workers t).cbFiber = some g → (s.workers t).pc.fiber ≠ some g := by
    intro g hg hx
    have := ((hi.here rfl hx).2.2.2).mp hg
    rw [hpc] at this
    cases this
  exact hi.release rfl rfl (fun _ _ => ⟨rfl, rfl⟩) (fun g hg => ⟨hg, hi.spared hg (hkeep g hg)⟩) rfl hi.entries
    (fun f _ => hi.token f) (fun f hf => hi.rests hpc id hf)

theorem Inv.requeue {s : Schedular τ κ} (hi : Inv s) {t : τ} {f : Addr} {via : Bool}
    (hpc : (s.workers t).pc = .requeue f via) : Inv (((s.push { fiber := some f }).release t via).goto t .scan) := by
  have hcur : ∀ g, (s.workers t).pc.fiber = some g → f = g := fun g hg => by
    rw [hpc] at hg
    exact Option.some.inj hg
  refine hi.release (release_workers (s.push { fiber := some f }) t via .scan) rfl (fun g hg => ⟨?_, ?_⟩)
    (fun g hg => ?_) (release_created ..) ?_ (fun g hg => ?_) (fun g hg => ?_)
  · rw [release_fibers]
    rfl
  · rw [release_tokens, tokens_push, if_neg]
    · rfl
    · rintro ⟨⟩
      exact hg (by rw [hpc]; rfl)
  · obtain ⟨hcb, hne, hinit, htok⟩ := hi.kept hpc rfl hg
    refine ⟨hcb, ?_, ?_⟩
    · rw [release_fibers]
      exact hinit
    · rw [release_tokens, tokens_push, htok, if_neg]
      rintro ⟨⟩
      exact hne rfl
  · rw [release_queue]
    intro x hx
    rcases List.mem_append.mp hx with hx | hx
    · exact hi.entries x hx
    · rw [List.mem_singleton.mp hx]
      rfl
  · obtain rfl := hcur g hg
    rw [release_tokens, tokens_push, hi.unqueued hpc rfl id, if_pos rfl]
  · rw [release_fibers]
    exact hi.rests hpc id hg

theorem Inv.recycle {s : Schedular τ κ} (hi : Inv s) {t : τ} {f : Addr} (hpc : (s.workers t).pc = .recycle f true) :
    Inv ((s.setFiber f { state := .init, cb := none, saved := true }).goto t .scan) := by
  have hcb : (s.workers t).cbFiber = some f := (hi.here hpc rfl).2.2.2.mpr rfl
  have hself : ((s.setFiber f { state := .init, cb := none, saved := true }).goto t .scan).fibers f =
      { state := .init, cb := none, saved := true } := Function.update_self f _ _
  refine hi.release rfl rfl (fun g hg => ⟨?_, rfl⟩) (fun g hg => ?_) rfl hi.entries (fun g _ => hi.token g)
    (fun g hg => ?_)
  · refine Function.update_of_ne ?_ _ _
    rintro rfl
    exact hg (by rw [hpc]; rfl)
  · obtain rfl : f = g := Option.some.inj (hcb.symm.trans hg)
    exact ⟨hcb, by rw [hself], hi.unqueued hpc rfl id⟩
  · rw [hpc] at hg
    obtain rfl : f = g := Option.some.inj hg
    rw [hself]

theorem Inv.forget {s : Schedular τ κ} (hi : Inv s) {t : τ} {f : Addr} (hpc : (s.workers t).pc = .recycle f false) :
    Inv (s.goto t .scan) := by
  refine hi.release rfl rfl (fun g hg => ⟨rfl, rfl⟩) (fun g hg => ?_) rfl hi.entries (fun g _ => hi.token g)
    (fun g hg => hi.rests hpc id hg)
  obtain ⟨hcb, -, hinit, htok⟩ := hi.kept hpc rfl hg
  exact ⟨hcb, hinit, htok⟩

theorem Inv.update {s : Schedular τ κ} (hi : Inv s) {t : τ} {f : Addr} {via : Bool}
    (hpc : (s.workers t).pc = .update f via) : Inv (((s.setState f .hold).release t via).goto t .scan) := by
  refine hi.release (release_workers (s.setState f .hold) t via .scan) rfl (fun g hg => ⟨?_, release_tokens ..⟩)
    (fun g hg => ?_) (release_created ..) ?_ (fun g hg => ?_) (fun g hg => ?_)
  · rw [release_fibers]
    refine Function.update_of_ne ?_ _ _
    rintro rfl
    exact hg (by rw [hpc]; rfl)
  · obtain ⟨hcb, hne, hinit, htok⟩ := hi.kept hpc rfl hg
    refine ⟨hcb, ?_, ?_⟩
    · rw [release_fibers]
      show (Function.update s.fibers f _ g).state = .init
      rw [Function.update_of_ne hne]
      exact hinit
    · rw [release_tokens]
      exact htok
  · rw [release_queue]
    exact hi.entries
  · rw [release_tokens]
    exact hi.token g
  · have hsv := hi.rests hpc id hg
    rw [hpc] at hg
    obtain rfl : f = g := Option.some.inj hg
    rw [release_fibers]
    show (Function.update s.fibers f _ f).saved = true
    rw [Function.update_self]
    exact hsv

theorem Inv.discard {s : Schedular τ κ} (hi : Inv s) {t : τ} (hpc : (s.workers t).pc = .discard) :
    Inv ({ s with activeThreadCount := s.activeThreadCount - 1 }.goto t .scan) := by
  have hnone : ∀ g, (s.workers t).pc.fiber ≠ some g := fun g => by
    rw [hpc]
    exact nofun
  exact hi.release rfl rfl (fun g hg => ⟨rfl, rfl⟩) (fun g hg => ⟨hg, hi.spared hg (hnone g)⟩) rfl hi.entries
    (fun g _ => hi.token g) (fun g hg => absurd hg (hnone g))

theorem Inv.publish {s : Schedular τ κ} (hi : Inv s) {t : τ} {f : Addr} {via : Bool}
    (hpc : (s.workers t).pc = .exec f via .running) :
    Inv ({ s with waiting := f :: s.waiting }.goto t (.exec f via .published)) := by
  have hst := (hi.here hpc rfl).1
  have hzero : s.tokens f = 0 := hi.unqueued hpc rfl id
  refine hi.advance (by rw [hpc]; rfl) rfl (Function.update_eq_self f s.fibers).symm rfl rfl (fun g hg => ?_) ?_ rfl
    (by rw [hpc]; rfl) hst (fun _ => trivial) (fun _ => trivial)
  · show _ + (f :: s.waiting).count g = _
    rw [List.count_cons_of_ne (Ne.symm hg)]
    rfl
  · show (s.queue.filterMap (·.ft.fiber)).count f + (f :: s.waiting).count f ≤ 1
    rw [List.count_cons_self]
    unfold tokens at hzero
    omega

theorem Inv.move {ids : Threads τ} {s s' : Schedular τ κ} {l : Label τ κ} {r : Reply} (hi : Inv s) (hp : Proper s l)
    (hc : Clear ids s l) (hm : Move ids s l r s') : Inv s' := by
  cases hm with
  | schedule fts => exact hi.schedule hp
  | newFiber a cb => exact hi.newFiber hp
  | trigger f => exact hi.trigger hp
  | idle hpc hscan =>
    obtain ⟨rfl, -⟩ := hscan
    exact hi
  | take hpc hscan => exact hi.take hpc hc hscan
  | @resume t a x f hpc hf _ =>
    obtain ⟨hst, hwait, hsv, -⟩ := hi.here hpc hf
    exact hi.advance (by rw [hpc]; exact hf) rfl (Function.update_eq_self f s.fibers).symm rfl rfl (fun _ _ => rfl)
      (hi.token f) rfl (by rw [hpc]; rfl) hst hwait hsv
  | @reuse t a x f hpc _ hcb =>
    refine hi.callback (y := { state := .init, cb := x.ft.cb, saved := true }) hpc rfl rfl (.inl hcb) ?_
      rfl (fun _ => rfl) (fun g hg => hg.elim id ?_) rfl
    · show Function.update s.workers t ⟨_, (s.workers t).cbFiber⟩ = _
      rw [hcb]
    · rintro rfl
      exact hi.created g (.inl ⟨t, .inr hcb⟩)
  | @create t a x hpc _ hcb ha =>
    refine hi.callback (y := { cb := x.ft.cb }) hpc rfl rfl (.inr ⟨hcb, ha⟩) (create_workers ..) rfl (fun _ => rfl)
      (fun g hg => ?_) rfl
    exact List.mem_cons.mpr hg.symm
  | drop hpc hcb hdone => exact hi.drop hpc
  | @enter t a x f via hpc =>
    obtain ⟨hst, hwait, hsv, -⟩ := hi.here hpc rfl
    exact hi.advance (by rw [hpc]; rfl) rfl rfl rfl rfl (fun _ _ => rfl) (hi.token f) rfl (by rw [hpc]; rfl) rfl hwait
      hsv
  | @load t a x f via hpc =>
    obtain ⟨hst, hwait, hsv, -⟩ := hi.here hpc rfl
    exact hi.advance (by rw [hpc]; rfl) rfl rfl rfl rfl (fun _ _ => rfl) (hi.token f) rfl (by rw [hpc]; rfl) hst hwait
      (fun _ => trivial)
  | @save t a f via o hpc =>
    obtain ⟨hst, hwait, hsv, -⟩ := hi.here hpc rfl
    exact hi.advance (by rw [hpc]; rfl) rfl rfl rfl rfl (fun _ _ => rfl) (hi.token f) rfl (by rw [hpc]; rfl) hst hwait
      (fun h => by cases h)
  | @leave t a f via o hpc =>
    obtain ⟨hst, hwait, hsv, -⟩ := hi.here hpc rfl
    exact hi.advance (by rw [hpc]; rfl) rfl (Function.update_eq_self f s.fibers).symm rfl rfl (fun _ _ => rfl)
      (hi.token f) rfl (by rw [hpc]; rfl) hst hwait hsv
  | @checkReady t a f via o hpc hready =>
    obtain ⟨hst, hwait, hsv, -⟩ := hi.here hpc rfl
    refine hi.advance (by rw [hpc]; rfl) rfl (Function.update_eq_self f s.fibers).symm rfl rfl (fun _ _ => rfl)
      (hi.token f) rfl (by rw [hpc]; rfl) hready (fun h => ?_) hsv
    have hold : o = .hold := hwait h
    rw [← hst.1, hready] at hold
    cases hold
  | @checkEnd t a f via o hpc hend =>
    obtain ⟨hst, hwait, hsv, -⟩ := hi.here hpc rfl
    refine hi.advance (by rw [hpc]; rfl) rfl (Function.update_eq_self f s.fibers).symm rfl rfl (fun _ _ => rfl)
      (hi.token f) rfl (by rw [hpc]; rfl) hend (fun h => ?_) hsv
    have hold : o = .hold := hwait h
    rw [← hst.1] at hold
    rcases hend with h | h <;> rw [hold] at h <;> cases h
  | @checkHold t a f via o hpc hready hend =>
    obtain ⟨hst, hwait, hsv, -⟩ := hi.here hpc rfl
    refine hi.advance (by rw [hpc]; rfl) rfl (Function.update_eq_self f s.fibers).symm rfl rfl (fun _ _ => rfl)
      (hi.token f) rfl (by rw [hpc]; rfl) ?_ (fun _ => trivial) hsv
    have hleft := hst.2
    rw [← hst.1] at hleft
    rcases hleft with h | h | h | h
    · exact h
    · exact absurd h hready
    · exact absurd (.inl h) hend
    · exact absurd (.inr h) hend
  | requeue hpc => exact hi.requeue hpc
  | recycle hpc => exact hi.recycle hpc
  | forget hpc => exact hi.forget hpc
  | update hpc => exact hi.update hpc
  | discard hpc => exact hi.discard hpc
  | publish hpc => exact hi.publish hpc
  | @hold t f via p hpc _ =>
    obtain ⟨hst, hwait, hsv, -⟩ := hi.here hpc rfl
    exact hi.advance (by rw [hpc]; rfl) rfl rfl rfl rfl (fun _ _ => rfl) (hi.token f) rfl (by rw [hpc]; rfl)
      ⟨rfl, .inl rfl⟩ (fun _ => rfl) (fun _ => trivial)
  | @ready t f via hpc =>
    obtain ⟨hst, hwait, hsv, -⟩ := hi.here hpc rfl
    exact hi.advance (by rw [hpc]; rfl) rfl rfl rfl rfl (fun _ _ => rfl) (hi.token f) rfl (by rw [hpc]; rfl)
      ⟨rfl, .inr (.inl rfl)⟩ (fun h => (hwait h).elim) (fun _ => trivial)
  | @throw t f via hpc =>
    obtain ⟨hst, hwait, hsv, -⟩ := hi.here hpc rfl
    exact hi.advance (by rw [hpc]; rfl) rfl rfl rfl rfl (fun _ _ => rfl) (hi.token f) rfl (by rw [hpc]; rfl)
      ⟨rfl, .inr (.inr (.inr rfl))⟩ (fun h => (hwait h).elim) (fun _ => trivial)
  | @finish t f via hpc =>
    obtain ⟨hst, hwait, hsv, -⟩ := hi.here hpc rfl
    exact hi.advance (by rw [hpc]; rfl) rfl rfl rfl rfl (fun _ _ => rfl) (hi.token f) rfl (by rw [hpc]; rfl)
      ⟨rfl, .inr (.inr (.inl rfl))⟩ (fun h => (hwait h).elim) (fun _ => trivial)

end

end QWebServer.Schedular
