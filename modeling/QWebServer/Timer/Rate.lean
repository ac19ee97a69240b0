import QWebServer.Timer.Delivery

/-!
# How often a timer fires

`listExpiredCb` sets a recurring timer again from its own reading of the clock, and `refresh` and `reset` from theirs.

* `Turn` : what an operation does to one timer, `Effect.turn`;
* `Paced` : the deadline of a timer is one period after a reading that is late enough, `Turn.paced`;
* `once_per_period` : up to a firing, the timer has fired at most once in a period;
* `Polled` : the deadline of a timer is not far behind, `Turn.polled`;
* `keeps_up` : a recurring timer fires once in a period and the longest time between two calls of `listExpiredCb`.
-/

namespace QWebServer.TimerManager

open Lib

variable {κ : Type} {m m' : TimerManager κ} {now : UInt64} {op : Op κ} {r : Reply κ} {t : Addr}

/-! ## One timer in one operation -/

/-- **What an operation does to the timer `t`.** -/
inductive Turn (m : TimerManager κ) (now : UInt64) (op : Op κ) (r : Reply κ) (m' : TimerManager κ) (t : Addr) : Prop
  | kept (hr : t ∉ r.timers) (ht : t ∈ m'.timers ↔ t ∈ m.timers) (hx : m'.heap t = m.heap t)
      (hlate : ∀ probe, op = .listExpiredCb probe → t ∈ m.timers → ¬ m.Expires now t)
  | cancelled (hop : op = .cancel t) (hr : t ∉ r.timers) (ht : t ∉ m'.timers)
  | refreshed (hop : op = .refresh t) (hr : t ∉ r.timers) (ht : t ∈ m.timers) (ht' : t ∈ m'.timers)
      (hx : m'.heap t = { m.heap t with next := now + (m.heap t).ms })
  | reset {ms : UInt64} {fromNow : Bool} (hop : op = .reset t ms fromNow) (hr : t ∉ r.timers) (ht : t ∈ m.timers)
      (ht' : t ∈ m'.timers) (hx : m'.heap t = resetTo (m.heap t) ms fromNow now)
  | fired {probe : Addr} (hop : op = .listExpiredCb probe) (hr : t ∈ r.timers) (ht : t ∈ m.timers)
      (hex : m.Expires now t) (ht' : t ∈ m'.timers ↔ (m.heap t).recurring = true)
      (hx : m'.heap t = rearmed now (m.heap t))

theorem Turn.other (hr : r.timers = []) (ht : t ∈ m'.timers ↔ t ∈ m.timers) (hx : m'.heap t = m.heap t)
    (hop : ∀ probe, op ≠ .listExpiredCb probe) : Turn m now op r m' t :=
  .kept (by rw [hr]; exact List.not_mem_nil) ht hx fun probe h => absurd h (hop probe)

theorem Effect.turn (g : m.Good) (he : Effect m now op r m') (hc : t ∈ m.created) : Turn m now op r m' t := by
  cases he with
  | @added a ms cb recurring ha =>
    have hne : t ≠ a := fun h => ha (h ▸ hc)
    refine .other rfl ?_ (Function.update_of_ne hne _ _) nofun
    exact (mem_place (m := { m with created := m.created ++ [a] }) g.sorted).trans (or_iff_right hne)
  | @cancelled u hu =>
    by_cases h : t = u
    · subst h
      exact .cancelled rfl List.not_mem_nil g.nodup.not_mem_erase
    · exact .other rfl (g.nodup.mem_erase_iff.trans (and_iff_right h)) (Function.update_of_ne h _ _) nofun
  | cancelMiss => exact .other rfl Iff.rfl rfl nofun
  | @refreshed u hu =>
    by_cases h : t = u
    · subst h
      exact .refreshed rfl List.not_mem_nil hu ((mem_place g.sorted).mpr (Or.inl rfl)) (Function.update_self ..)
    · exact .other rfl ((mem_place g.sorted).trans (or_iff_right h)) (Function.update_of_ne h _ _) nofun
  | refreshMiss => exact .other rfl Iff.rfl rfl nofun
  | resetSame => exact .other rfl Iff.rfl rfl nofun
  | @resetHit u ms fromNow hu =>
    by_cases h : t = u
    · subst h
      exact .reset rfl List.not_mem_nil hu ((mem_placeNotify g).mpr (Or.inl rfl)) (Function.update_self ..)
    · exact .other rfl ((mem_placeNotify g).trans (or_iff_right h)) (Function.update_of_ne h _ _) nofun
  | resetMiss => exact .other rfl Iff.rfl rfl nofun
  | nextTimer => exact .other rfl Iff.rfl rfl nofun
  | @listed probe ex _ hl =>
    by_cases h : t ∈ ex
    · obtain ⟨ht, hex⟩ := (hl.mem t).mp h
      refine .fired rfl (by rwa [timers_listed]) ht hex ?_ (by rw [hl.heap, if_pos h])
      rw [hl.timers]
      exact ⟨fun h' => h'.2 h, fun h' => ⟨ht, fun _ => h'⟩⟩
    · obtain ⟨hmem, hx⟩ := hl.untouched h
      exact .kept (by rwa [timers_listed]) hmem hx fun _ _ ht hex => h ((hl.mem t).mpr ⟨ht, hex⟩)

/-! ## Not too often -/

/-- While `t` is pending, its period is at least `period` and its deadline is one period after a reading of the clock
between `lo` and `hi`. -/
def Paced (m : TimerManager κ) (t : Addr) (period lo hi : Nat) : Prop :=
  t ∈ m.timers → ∃ base, (m.heap t).next.toNat = base + (m.heap t).ms.toNat ∧ lo ≤ base ∧ base ≤ hi ∧
    period ≤ (m.heap t).ms.toNat

/-- **One operation**: a firing moves the reading by one period. -/
theorem Turn.paced (h : Turn m now op r m' t) {period lo hi : Nat} (hp : m.Paced t period lo hi)
    (hrise : hi ≤ now.toNat) (hfits : m.Fits ⟨now, op⟩)
    (hpunctual : ∀ probe, op = .listExpiredCb probe → (m.heap t).next ≤ now ∨ t ∉ r.timers)
    (hreset : ∀ ms fromNow, op = .reset t ms fromNow → period ≤ ms.toNat) :
    m'.Paced t period (lo + if t ∈ r.timers then period else 0) now.toNat ∧
      (t ∈ r.timers → lo + period ≤ now.toNat) := by
  cases h with
  | kept hr ht hx =>
    rw [if_neg hr]
    refine ⟨fun ht' => ?_, fun h => absurd h hr⟩
    obtain ⟨base, hnext, hlo, hhi, hms⟩ := hp (ht.mp ht')
    rw [hx]
    exact ⟨base, hnext, hlo, hhi.trans hrise, hms⟩
  | cancelled hop hr ht => exact ⟨fun ht' => absurd ht' ht, fun h => absurd h hr⟩
  | refreshed hop hr ht ht' hx =>
    subst hop
    rw [if_neg hr]
    refine ⟨fun _ => ?_, fun h => absurd h hr⟩
    obtain ⟨base, hnext, hlo, hhi, hms⟩ := hp ht
    have hnow : (now + (m.heap t).ms).toNat = now.toNat + (m.heap t).ms.toNat := by
      rw [UInt64.toNat_add]
      exact Nat.mod_eq_of_lt (hfits ht)
    rw [hx]
    exact ⟨now.toNat, hnow, by omega, Nat.le_refl _, hms⟩
  | @reset ms fromNow hop hr ht ht' hx =>
    subst hop
    rw [if_neg hr]
    refine ⟨fun _ => ?_, fun h => absurd h hr⟩
    obtain ⟨base, hnext, hlo, hhi, hms⟩ := hp ht
    have hle := hreset ms fromNow rfl
    have hbase : ((m.heap t).next - (m.heap t).ms).toNat = base := by
      rw [UInt64.toNat_sub_of_le _ _ (by rw [UInt64.le_iff_toNat_le]; omega)]
      omega
    have hsum := hfits ht
    rw [hx]
    cases fromNow with
    | true =>
      refine ⟨now.toNat, ?_, by omega, Nat.le_refl _, hle⟩
      show (now + ms).toNat = _
      rw [UInt64.toNat_add]
      exact Nat.mod_eq_of_lt hsum
    | false =>
      refine ⟨base, ?_, hlo, by omega, hle⟩
      show ((m.heap t).next - (m.heap t).ms + ms).toNat = _
      rw [UInt64.toNat_add, hbase]
      refine Nat.mod_eq_of_lt ?_
      rw [← hbase]
      exact hsum
  | @fired probe hop hr ht hex ht' hx =>
    subst hop
    rw [if_pos hr]
    obtain ⟨base, hnext, hlo, hhi, hms⟩ := hp ht
    have hdue := (hpunctual probe rfl).resolve_right fun h => h hr
    rw [UInt64.le_iff_toNat_le] at hdue
    refine ⟨fun hin => ?_, fun _ => by omega⟩
    have hrec := ht'.mp hin
    have hsum : ((m.heap t).ms + now).toNat = now.toNat + (m.heap t).ms.toNat := by
      rw [UInt64.toNat_add, Nat.add_comm]
      refine Nat.mod_eq_of_lt ?_
      rw [Nat.add_comm]
      exact hfits t ht hrec
    rw [hx]
    simp only [rearmed, hrec, if_true]
    exact ⟨now.toNat, hsum, by omega, Nat.le_refl _, hms⟩

theorem added_timer {a : Addr} {ms : UInt64} {cb : κ} {recurring : Bool} (g : m.Good)
    (he : Effect m now (.addTimer a ms cb recurring) r m') :
    a ∈ m'.created ∧ a ∈ m'.timers ∧ m'.heap a = ⟨recurring, ms, ms + now, some cb⟩ := by
  cases he with
  | added ha =>
    refine ⟨List.mem_append_right _ (List.mem_singleton_self _), ?_, Function.update_self ..⟩
    exact (mem_place (m := { m with created := m.created ++ [a] }) g.sorted).mpr (Or.inl rfl)

theorem count_timers (he : Effect m now op r m') (t : Addr) : r.timers.count t = if t ∈ r.timers then 1 else 0 := by
  split_ifs with h
  · exact List.count_eq_one_of_mem he.reply_timers.1 h
  · exact List.count_eq_zero.mpr h

theorem returned_concat (h : History κ) (e : Entry (TimerManager κ) (Call κ) (Reply κ)) (t : Addr) :
    (returned (h ++ [e])).count t = (returned h).count t + e.out.timers.count t := by
  simp [returned]

theorem Effect.due (he : Effect m now op r m') (hp : ∀ probe, op = .listExpiredCb probe → m.Punctual now)
    (ht : t ∈ r.timers) : (m.heap t).next ≤ now := by
  cases he with
  | listed hl =>
    rw [timers_listed] at ht
    exact hl.due_iff.mpr (hp _ rfl) t ht
  | _ => cases ht

theorem ClockRises.le_last {h : History κ} {x e : Entry (TimerManager κ) (Call κ) (Reply κ)}
    (hrise : ClockRises (h ++ [e])) (hx : x ∈ h) : x.inp.now.toNat ≤ e.inp.now.toNat :=
  (List.pairwise_append.mp hrise).2.2 x hx e (List.mem_singleton_self _)

section
variable {h₁ h₂ : History κ} {e : Entry (TimerManager κ) (Call κ) (Reply κ)} {ms : UInt64} {cb : κ} {recurring : Bool}

theorem run_paced (hr : Run (machine κ) (h₁ ++ e :: h₂) m) (hrise : ClockRises (e :: h₂))
    (hfits : ∀ x ∈ e :: h₂, x.pre.Fits x.inp)
    (hpunctual : ∀ x ∈ h₂, ∀ probe, x.inp.op = .listExpiredCb probe → x.pre.Punctual x.inp.now)
    (hadd : e.inp.op = .addTimer t ms cb recurring) {period : Nat} (hms : period ≤ ms.toNat)
    (hreset : ∀ x ∈ h₂, ∀ ms' fromNow, x.inp.op = .reset t ms' fromNow → period ≤ ms'.toNat) :
    t ∈ m.created ∧ ∃ x ∈ e :: h₂,
      m.Paced t period (e.inp.now.toNat + (returned h₂).count t * period) x.inp.now.toNat := by
  obtain ⟨hr₁, ha, hs⟩ := hr.cut rfl
  have hef := step_effect (run_good hr₁) ha hs
  rw [hadd] at hef
  refine hr.after (P := fun h m => t ∈ m.created ∧ ∃ x ∈ e :: h,
    m.Paced t period (e.inp.now.toNat + (returned h).count t * period) x.inp.now.toNat) ?_ ?_
  · obtain ⟨hc, -, hx⟩ := added_timer (run_good hr₁) hef
    have hsum : ms.toNat + e.inp.now.toNat < 2 ^ 64 := by
      have := hfits e List.mem_cons_self
      rwa [Fits, hadd] at this
    refine ⟨hc, e, List.mem_singleton_self _, fun _ => ⟨e.inp.now.toNat, ?_, ?_, Nat.le_refl _, ?_⟩⟩
    · rw [hx]
      show (ms + e.inp.now).toNat = e.inp.now.toNat + ms.toNat
      rw [UInt64.toNat_add, Nat.add_comm e.inp.now.toNat]
      exact Nat.mod_eq_of_lt hsum
    · simp [returned]
    · rw [hx]
      exact hms
  · rintro h e' hpre hr' ⟨ha', hs'⟩ ⟨hc, x, hx, hpaced⟩
    have hef' := step_effect (run_good hr') ha' hs'
    have hmem : ∀ z ∈ h ++ [e'], z ∈ h₂ := fun z hz => hpre.subset hz
    have he' : e' ∈ h₂ := hmem e' (by simp)
    have hsub : (e :: h) ++ [e'] <+: e :: h₂ := List.cons_prefix_cons.mpr ⟨rfl, hpre⟩
    have hle := ClockRises.le_last (List.Pairwise.sublist hsub.sublist hrise) hx
    obtain ⟨hnext, -⟩ := (hef'.turn (run_good hr') hc).paced hpaced hle (hfits e' (List.mem_cons_of_mem _ he'))
      (fun probe hop => (Decidable.em (t ∈ e'.out.timers)).imp (hef'.due (hpunctual e' he')) id) (hreset e' he')
    refine ⟨hef'.created_mono hc, e', by simp, ?_⟩
    rw [returned_concat, count_timers hef']
    split_ifs at hnext ⊢ with hret
    · rwa [Nat.add_mul, Nat.one_mul, ← Nat.add_assoc]
    · exact hnext

/-- **A timer fires at most once in a period.** Where the clock does not go back, deadlines do not overflow and the
clock does not jump over an hour, the firings of a timer up to any of them take at least `period` each, from its
creation on, if its period is never set below that. -/
theorem once_per_period {e' : Entry (TimerManager κ) (Call κ) (Reply κ)}
    (hr : Run (machine κ) (h₁ ++ e :: (h₂ ++ [e'])) m) (hrise : ClockRises (e :: (h₂ ++ [e'])))
    (hfits : ∀ x ∈ e :: (h₂ ++ [e']), x.pre.Fits x.inp)
    (hpunctual : ∀ x ∈ h₂ ++ [e'], ∀ probe, x.inp.op = .listExpiredCb probe → x.pre.Punctual x.inp.now)
    (hadd : e.inp.op = .addTimer t ms cb recurring) {period : Nat} (hms : period ≤ ms.toNat)
    (hreset : ∀ x ∈ h₂ ++ [e'], ∀ ms' fromNow, x.inp.op = .reset t ms' fromNow → period ≤ ms'.toNat)
    (hfired : t ∈ e'.out.timers) :
    e.inp.now.toNat + (returned (h₂ ++ [e'])).count t * period ≤ e'.inp.now.toNat := by
  have he' : e' ∈ h₂ ++ [e'] := by simp
  rw [← List.cons_append] at hrise
  rw [← List.cons_append, ← List.append_assoc] at hr
  obtain ⟨hr', ⟨ha, hs⟩, -⟩ := hr.last
  have hef := step_effect (run_good hr') ha hs
  have hrise₂ : ClockRises (e :: h₂) := (List.pairwise_append.mp hrise).1
  obtain ⟨hc, x, hx, hpaced⟩ := run_paced hr' hrise₂ (fun y hy => hfits y (List.mem_append_left _ hy))
    (fun y hy => hpunctual y (List.mem_append_left _ hy)) hadd hms fun y hy => hreset y (List.mem_append_left _ hy)
  obtain ⟨-, hle⟩ := (hef.turn (run_good hr') hc).paced hpaced (hrise.le_last hx)
    (hfits e' (List.mem_cons_of_mem _ he')) (fun probe _ => .inl (hef.due (hpunctual e' he') hfired)) (hreset e' he')
  have hlast := hle hfired
  rw [returned_concat, count_timers hef, if_pos hfired, Nat.add_mul, Nat.one_mul]
  omega

end

/-- A recurring timer of 100 ms, with a call of `listExpiredCb` at its deadline and one a little after the next. -/
theorem once_per_period_twice : ∃ h₁ h₂ e e' m, Run (machine Nat) (h₁ ++ e :: (h₂ ++ [e'])) m ∧
    (returned (h₂ ++ [e'])).count 4 = 2 ∧ e.inp.now.toNat + 2 * 100 ≤ e'.inp.now.toNat := by
  have hr : Run (machine Nat) ([] ++ _ :: ([_] ++ [_])) _ :=
    (((Run.start (M := machine Nat) ⟨0, rfl⟩).step (i := ⟨2, .addTimer 4 100 0 true⟩) (by decide) rfl).step
      (i := ⟨102, .listExpiredCb 7⟩) (by decide) rfl).step (i := ⟨210, .listExpiredCb 7⟩) (by decide) rfl
  have hrate := once_per_period hr (by decide) (by decide) ?_ rfl (show 100 ≤ UInt64.toNat 100 by decide) ?_ (by decide)
  · exact ⟨[], [_], _, _, _, hr, by decide, hrate⟩
  · intro x hx _ _
    refine Or.inr (Or.inr (Or.inl ?_))
    rcases List.mem_cons.mp hx with rfl | hx
    · decide
    · cases List.mem_singleton.mp hx
      decide
  · intro x hx
    rcases List.mem_cons.mp hx with rfl | hx
    · exact nofun
    · cases List.mem_singleton.mp hx
      exact nofun

/-! ## Often enough -/

/-- `t` is pending with the period `ms`; its deadline is not before the reading `last` of the clock, and at most one
period after `hi`. -/
structure Polled (m : TimerManager κ) (t : Addr) (ms : UInt64) (last hi : Nat) : Prop where
  pending : t ∈ m.timers
  recurring : (m.heap t).recurring = true
  period : (m.heap t).ms = ms
  last_le : last ≤ (m.heap t).next.toNat
  le_hi : (m.heap t).next.toNat ≤ hi + ms.toNat

/-- **A call of `listExpiredCb`**, at most `gap` after the last one. -/
theorem Turn.polled {probe : Addr} (h : Turn m now (.listExpiredCb probe) r m' t) {ms : UInt64} {last hi gap : Nat}
    (hp : m.Polled t ms last hi) (hgap : now.toNat ≤ last + gap) (hfits : m.Fits ⟨now, .listExpiredCb probe⟩) :
    m'.Polled t ms now.toNat (hi + if t ∈ r.timers then ms.toNat + gap else 0) := by
  obtain ⟨hpending, hrec, rfl, hlast, hhi⟩ := hp
  cases h with
  | kept hr ht hx hlate =>
    have hlt : now.toNat < (m.heap t).next.toNat := by
      by_contra hge
      refine hlate probe rfl hpending (.inr ?_)
      rw [UInt64.le_iff_toNat_le]
      omega
    rw [if_neg hr]
    refine ⟨ht.mpr hpending, ?_, ?_, ?_, ?_⟩ <;> rw [hx]
    · exact hrec
    · omega
    · exact hhi
  | cancelled hop => cases hop
  | refreshed hop => cases hop
  | reset hop => cases hop
  | fired hop hr ht hex ht' hx =>
    have hsum : ((m.heap t).ms + now).toNat = now.toNat + (m.heap t).ms.toNat := by
      rw [UInt64.toNat_add, Nat.mod_eq_of_lt (hfits t ht hrec), Nat.add_comm]
    rw [rearmed, if_pos hrec] at hx
    rw [if_pos hr]
    refine ⟨ht'.mpr hrec, ?_, ?_, ?_, ?_⟩ <;> rw [hx]
    · exact hrec
    · show now.toNat ≤ ((m.heap t).ms + now).toNat
      omega
    · show ((m.heap t).ms + now).toNat ≤ _
      omega

theorem Turn.polled_other (h : Turn m now op r m' t) {ms : UInt64} {last hi : Nat} (hp : m.Polled t ms last hi)
    (hlist : ∀ probe, op ≠ .listExpiredCb probe) (hcancel : op ≠ .cancel t) (hrefresh : op ≠ .refresh t)
    (hreset : ∀ ms fromNow, op ≠ .reset t ms fromNow) : m'.Polled t ms last hi ∧ t ∉ r.timers := by
  cases h with
  | kept hr ht hx =>
    obtain ⟨hpending, hrec, hperiod, hlast, hhi⟩ := hp
    exact ⟨⟨ht.mpr hpending, by rwa [hx], by rwa [hx], by rwa [hx], by rwa [hx]⟩, hr⟩
  | cancelled hop => exact absurd hop hcancel
  | refreshed hop => exact absurd hop hrefresh
  | reset hop => exact absurd hop (hreset _ _)
  | fired hop => exact absurd hop (hlist _)

/-- The operations leave the timer `t` to the calls of `listExpiredCb`. -/
def LeftAlone (h : History κ) (t : Addr) : Prop :=
  ∀ x ∈ h, x.inp.op ≠ .cancel t ∧ x.inp.op ≠ .refresh t ∧ ∀ ms fromNow, x.inp.op ≠ .reset t ms fromNow

/-- The reading of the last call of `listExpiredCb`, `start` before the first one. -/
def lastReading (start : UInt64) (h : History κ) : UInt64 := (listReadings h).getLast?.getD start

section
variable {h₁ h₂ : History κ} {e : Entry (TimerManager κ) (Call κ) (Reply κ)} {ms : UInt64} {cb : κ}

/-- Another call of `listExpiredCb`, in a history whose calls are at most `gap` apart. -/
theorem lastReading_list {h : History κ} (he : ∃ probe, e.inp.op = .listExpiredCb probe) {start : UInt64} {gap : Nat}
    (hpoll : (start :: listReadings (h ++ [e])).IsChain fun a b => b.toNat ≤ a.toNat + gap) :
    lastReading start (h ++ [e]) = e.inp.now ∧ e.inp.now.toNat ≤ (lastReading start h).toNat + gap := by
  obtain ⟨probe, hop⟩ := he
  have hread : listReadings (h ++ [e]) = listReadings h ++ [e.inp.now] := by
    simp [listReadings, hop]
  rw [hread, ← List.cons_append, List.isChain_append] at hpoll
  refine ⟨by simp [lastReading, hread], hpoll.2.2 _ ?_ _ rfl⟩
  rw [List.getLast?_cons]
  rfl

theorem lastReading_other {h : History κ} (he : ∀ probe, e.inp.op ≠ .listExpiredCb probe) (start : UInt64) :
    lastReading start (h ++ [e]) = lastReading start h := by
  have hread : listReadings (h ++ [e]) = listReadings h := by
    cases hop : e.inp.op with
    | listExpiredCb probe => exact absurd hop (he probe)
    | _ => simp [listReadings, hop]
  rw [lastReading, hread]
  rfl

theorem run_polled (hr : Run (machine κ) (h₁ ++ e :: h₂) m) (hfits : ∀ x ∈ e :: h₂, x.pre.Fits x.inp)
    (hadd : e.inp.op = .addTimer t ms cb true) (halone : LeftAlone h₂ t) {gap : Nat}
    (hpoll : (e.inp.now :: listReadings h₂).IsChain fun a b => b.toNat ≤ a.toNat + gap) :
    t ∈ m.created ∧ m.Polled t ms (lastReading e.inp.now h₂).toNat
      (e.inp.now.toNat + (returned h₂).count t * (ms.toNat + gap)) := by
  obtain ⟨hr₁, ha, hs⟩ := hr.cut rfl
  have hef := step_effect (run_good hr₁) ha hs
  rw [hadd] at hef
  refine hr.after (P := fun h m => t ∈ m.created ∧ m.Polled t ms (lastReading e.inp.now h).toNat
    (e.inp.now.toNat + (returned h).count t * (ms.toNat + gap))) ?_ ?_
  · obtain ⟨hc, hin, hx⟩ := added_timer (run_good hr₁) hef
    have hsum : (ms + e.inp.now).toNat = e.inp.now.toNat + ms.toNat := by
      have hfit := hfits e List.mem_cons_self
      rw [Fits, hadd] at hfit
      rw [UInt64.toNat_add, Nat.mod_eq_of_lt hfit, Nat.add_comm]
    refine ⟨hc, hin, ?_, ?_, ?_, ?_⟩ <;> rw [hx]
    · show e.inp.now.toNat ≤ (ms + e.inp.now).toNat
      omega
    · show (ms + e.inp.now).toNat ≤ _
      omega
  · rintro h e' hpre hr' ⟨ha', hs'⟩ ⟨hc, hpolled⟩
    have hef' := step_effect (run_good hr') ha' hs'
    have he' : e' ∈ h₂ := hpre.subset (by simp)
    have hturn := hef'.turn (run_good hr') hc
    have hfit := hfits e' (List.mem_cons_of_mem _ he')
    refine ⟨hef'.created_mono hc, ?_⟩
    rw [returned_concat, count_timers hef']
    by_cases hlist : ∃ probe, e'.inp.op = .listExpiredCb probe
    · have hsub : e.inp.now :: listReadings (h ++ [e']) <+: e.inp.now :: listReadings h₂ :=
        List.cons_prefix_cons.mpr ⟨rfl, hpre.filterMap _⟩
      have hpoll' : (e.inp.now :: listReadings (h ++ [e'])).IsChain fun a b => b.toNat ≤ a.toNat + gap := by
        obtain ⟨rest, hrest⟩ := hsub
        rw [← hrest] at hpoll
        exact (List.isChain_append.mp hpoll).1
      obtain ⟨hlast, hgap⟩ := lastReading_list hlist hpoll'
      obtain ⟨probe, hop⟩ := hlist
      obtain ⟨pre, ⟨now, op⟩, out, post⟩ := e'
      dsimp only at hop
      subst hop
      rw [hlast]
      have hnext := hturn.polled hpolled hgap hfit
      split_ifs at hnext ⊢ with hret
      · rwa [Nat.add_mul, Nat.one_mul, ← Nat.add_assoc]
      · exact hnext
    · rw [not_exists] at hlist
      obtain ⟨hcancel, hrefresh, hreset⟩ := halone e' he'
      obtain ⟨hnext, hret⟩ := hturn.polled_other hpolled hlist hcancel hrefresh hreset
      rw [lastReading_other hlist, if_neg hret]
      exact hnext

/-- **A recurring timer keeps up.** Where deadlines do not overflow and `listExpiredCb` is called at least every `gap`
milliseconds, a timer that is left alone has fired, up to the last call, at least once in `ms + gap` milliseconds. -/
theorem keeps_up (hr : Run (machine κ) (h₁ ++ e :: h₂) m) (hfits : ∀ x ∈ e :: h₂, x.pre.Fits x.inp)
    (hadd : e.inp.op = .addTimer t ms cb true) (halone : LeftAlone h₂ t) {gap : Nat}
    (hpoll : (e.inp.now :: listReadings h₂).IsChain fun a b => b.toNat ≤ a.toNat + gap) :
    (lastReading e.inp.now h₂).toNat ≤
      e.inp.now.toNat + (returned h₂).count t * (ms.toNat + gap) + ms.toNat := by
  obtain ⟨-, hpolled⟩ := run_polled hr hfits hadd halone hpoll
  exact hpolled.last_le.trans hpolled.le_hi

end

/-- The calls are at most 108 ms apart. -/
theorem keeps_up_twice : ∃ h₁ h₂ e m, Run (machine Nat) (h₁ ++ e :: h₂) m ∧ (returned h₂).count 4 = 2 ∧
    (lastReading e.inp.now h₂).toNat ≤ e.inp.now.toNat + 2 * (100 + 108) + 100 := by
  have hr : Run (machine Nat) ([] ++ _ :: [_, _]) _ :=
    (((Run.start (M := machine Nat) ⟨0, rfl⟩).step (i := ⟨2, .addTimer 4 100 0 true⟩) (by decide) rfl).step
      (i := ⟨102, .listExpiredCb 7⟩) (by decide) rfl).step (i := ⟨210, .listExpiredCb 7⟩) (by decide) rfl
  have hpoll : List.IsChain (fun a b : UInt64 => b.toNat ≤ a.toNat + 108) [2, 102, 210] := by decide
  have hkeeps := keeps_up hr (by decide) rfl ?_ hpoll
  · exact ⟨[], [_, _], _, _, hr, by decide, hkeeps⟩
  · intro x hx
    rcases List.mem_cons.mp hx with rfl | hx
    · exact ⟨nofun, nofun, nofun⟩
    · cases List.mem_singleton.mp hx
      exact ⟨nofun, nofun, nofun⟩
end QWebServer.TimerManager
