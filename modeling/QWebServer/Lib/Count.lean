import Mathlib.Algebra.BigOperators.Group.Finset.Piecewise
import Mathlib.Data.Fintype.Card

/-!
# Counting the threads at a place

* `countAt p ws` : how many threads are at a place that `p` tells, `ws` the places of all of them;
* `countAt_update` : how the count changes when one of them moves;
* `counter_update`, `counter_toNat` : a counter of 64 bits that each of them keeps when it moves;
* `countP_eraseIdx`, `countP_unique` : how many elements of a list have a property, less one, or when only one may.
-/

namespace QWebServer.Lib

variable {τ ω : Type} [Fintype τ]

def countAt (p : ω → Prop) [DecidablePred p] (ws : τ → ω) : Nat :=
  (Finset.univ.filter fun t => p (ws t)).card

section
variable {p : ω → Prop} [DecidablePred p]

theorem countAt_le_card (ws : τ → ω) : countAt p ws ≤ Fintype.card τ := Finset.card_filter_le _ _

theorem countAt_eq_zero {ws : τ → ω} (h : ∀ t, ¬ p (ws t)) : countAt p ws = 0 := by
  unfold countAt
  rw [Finset.card_eq_zero, Finset.filter_eq_empty_iff]
  exact fun t _ => h t

/-- **How a count changes when the thread `t` moves to `w`.** -/
theorem countAt_update [DecidableEq τ] (ws : τ → ω) (t : τ) (w : ω) :
    countAt p (Function.update ws t w) + (if p (ws t) then 1 else 0) = countAt p ws + if p w then 1 else 0 := by
  have hsplit : ∀ vs : τ → ω, countAt p vs =
      (if p (vs t) then 1 else 0) + ∑ u ∈ Finset.univ.erase t, if p (vs u) then 1 else 0 := by
    intro vs
    unfold countAt
    rw [Finset.card_filter]
    exact (Finset.add_sum_erase _ _ (Finset.mem_univ t)).symm
  have hrest : ∑ u ∈ Finset.univ.erase t, (if p (Function.update ws t w u) then 1 else 0) =
      ∑ u ∈ Finset.univ.erase t, if p (ws u) then 1 else 0 := by
    apply Finset.sum_congr rfl
    intro u hu
    rw [Function.update_of_ne (Finset.ne_of_mem_erase hu)]
  rw [hsplit, hsplit ws, hrest, Function.update_self]
  omega

/-- A counter that counts goes on to do so when the thread `t` moves to `w` and the counter with it. -/
theorem counter_update [DecidableEq τ] {c c' : UInt64} {ws : τ → ω} {t : τ} {w : ω}
    (hc : c = UInt64.ofNat (countAt p ws))
    (h : c' + (if p (ws t) then 1 else 0) = c + if p w then 1 else 0) :
    c' = UInt64.ofNat (countAt p (Function.update ws t w)) := by
  have hcast : ∀ v : ω, (if p v then (1 : UInt64) else 0) = UInt64.ofNat (if p v then 1 else 0) := by
    intro v
    split <;> rfl
  have hcount := congrArg UInt64.ofNat (countAt_update (p := p) ws t w)
  rw [UInt64.ofNat_add, UInt64.ofNat_add, ← hcast, ← hcast] at hcount
  apply (UInt64.add_left_inj (if p (ws t) then 1 else 0)).mp
  rw [h, hc, hcount]

/-- With fewer than `2 ^ 64` threads such a counter is the count. -/
theorem counter_toNat {c : UInt64} {ws : τ → ω} (hc : c = UInt64.ofNat (countAt p ws))
    (hcard : Fintype.card τ < 2 ^ 64) : c.toNat = countAt p ws := by
  have hle := countAt_le_card (p := p) ws
  rw [hc, UInt64.toNat_ofNat_of_lt']
  exact lt_of_le_of_lt hle hcard

theorem countAt_ne_zero {ws : τ → ω} {t : τ} (ht : p (ws t)) : countAt p ws ≠ 0 := by
  unfold countAt
  rw [Ne, Finset.card_eq_zero, Finset.filter_eq_empty_iff]
  exact fun h => h (Finset.mem_univ t) ht

end

/-! ## Elements of lists -/

section
variable {α : Type} {p : α → Bool}

theorem countP_eraseIdx {l : List α} {k : Nat} {x : α} (h : l[k]? = some x) :
    (l.eraseIdx k).countP p + (if p x then 1 else 0) = l.countP p := by
  obtain ⟨hk, rfl⟩ := List.getElem?_eq_some_iff.mp h
  rw [← (List.getElem_cons_eraseIdx_perm hk).countP_eq, List.countP_cons]

theorem countP_flatten_eraseIdx {l : List (List α)} {k : Nat} {x : List α} (h : l[k]? = some x) :
    (l.eraseIdx k).flatten.countP p + x.countP p = l.flatten.countP p := by
  obtain ⟨hk, rfl⟩ := List.getElem?_eq_some_iff.mp h
  rw [← (List.getElem_cons_eraseIdx_perm hk).flatten.countP_eq, List.flatten_cons, List.countP_append, Nat.add_comm]

/-- Only one element of a list may have a property. -/
theorem countP_unique [DecidableEq α] {l : List α} (hn : l.Nodup) {a : α}
    (hp : ∀ b ∈ l, p b = true → b = a) : l.countP p = if a ∈ l ∧ p a = true then 1 else 0 := by
  by_cases ha : p a = true
  · have hcount : l.countP p = l.count a := by
      apply List.countP_congr
      intro b hb
      rw [beq_iff_eq]
      exact ⟨hp b hb, fun hba => hba ▸ ha⟩
    rw [hcount, hn.count]
    simp [ha]
  · rw [if_neg fun h => ha h.2, List.countP_eq_zero]
    intro b hb hpb
    exact ha (hp b hb hpb ▸ hpb)

end

end QWebServer.Lib
