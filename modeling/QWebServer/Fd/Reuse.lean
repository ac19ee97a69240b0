import Mathlib
import QWebServer.Fd.Model

/-!
# Descriptors that are handed out again

* `FdManager.place` : the context of a descriptor, `get_of_some`, `get_of_none` : what `get` does;
* `Hooked` : the descriptor does not block and its context is that of a new descriptor;
* `Caches` : the calls that leave a context, `cached_iff` : a descriptor has a context when such a call returned it;
* `hooked_iff` : a returned descriptor is hooked exactly when no such call returned it before.
-/

namespace QWebServer

open Lib
open IOManager (Memory toInt toInt_of_lt)

namespace FdManager

/-- The pointer at the place of a descriptor, if there is one. -/
def place (m : FdManager) (fd : Nat) : Option Nat := (m.datas[fd]?).join

theorem place_lt {m : FdManager} {fd p : Nat} (h : m.place fd = some p) : fd < m.datas.length := by
  unfold place at h
  by_contra hle
  rw [List.getElem?_eq_none (not_lt.mp hle)] at h
  cases h

theorem data_natCast {m : FdManager} {fd : Nat} (h : fd < m.datas.length) : m.data fd = .ok (m.place fd) := by
  unfold data place
  rw [if_neg (by omega), Int.toNat_natCast, List.getElem?_eq_getElem h]
  rfl

theorem resize_spec {mem : Memory} {m m' : FdManager} {size : Nat} (h : m.resize mem size = .ok m')
    (hle : m.datas.length ≤ size) : m'.datas.length = size ∧ size < 2 ^ 31 ∧ m'.heap = m.heap ∧ m'.next = m.next ∧
      ∀ j, m'.place j = m.place j := by
  unfold resize at h
  split_ifs at h with hc
  cases h
  refine ⟨?_, lt_of_le_of_lt hc mem.bounded, rfl, rfl, fun j => ?_⟩
  · simp
    omega
  · unfold place
    dsimp only
    rw [List.take_of_length_le hle]
    by_cases hj : j < m.datas.length
    · rw [List.getElem?_append_left hj]
    · rw [List.getElem?_append_right (not_lt.mp hj), List.getElem?_eq_none (not_lt.mp hj), List.getElem?_replicate]
      split_ifs <;> rfl

/-- **The write-locked section**: a new context at the place of the descriptor. -/
theorem create_spec {mem : Memory} {m m' : FdManager} (hm : m.datas.length < 2 ^ 31) {fd p : Nat} {k k' : Kernel}
    (h : m.create mem fd k = .ok (p, m', k')) :
    k' = (FdCtx.new fd k).2 ∧ m'.datas.length < 2 ^ 31 ∧ m'.place fd = some p ∧ m'.heap p = (FdCtx.new fd k).1 ∧
      (∀ j, j ≠ fd → m'.place j = m.place j) ∧ p = m.next ∧ m'.next = m.next + 1 ∧
      ∀ q, q ≠ p → m'.heap q = m.heap q := by
  unfold create at h
  generalize FdCtx.new fd k = r at h ⊢
  obtain ⟨ctx, k₁⟩ := r
  dsimp only at h ⊢
  obtain ⟨m₂, hr, h⟩ := bind_eq_ok h
  obtain ⟨q, hd, h⟩ := bind_eq_ok h
  cases h
  have hm₂ : m₂.datas.length < 2 ^ 31 ∧ m₂.heap = m.heap ∧ m₂.next = m.next ∧ ∀ j, m₂.place j = m.place j := by
    unfold reserve at hr
    rw [toInt_of_lt hm] at hr
    split_ifs at hr with hge
    · obtain ⟨hlen, hlt, hheap, hnext, hplace⟩ := resize_spec hr (by omega)
      exact ⟨hlen ▸ hlt, hheap, hnext, hplace⟩
    · cases hr
      exact ⟨hm, rfl, rfl, fun _ => rfl⟩
  obtain ⟨hlt, hheap, hnext, hplace⟩ := hm₂
  have hfd : fd < m₂.datas.length := by
    by_contra hle
    unfold data at hd
    rw [if_neg (by omega), Int.toNat_natCast, List.getElem?_eq_none (not_lt.mp hle)] at hd
    cases hd
  refine ⟨rfl, ?_, ?_, Function.update_self .., fun j hj => ?_, hnext, ?_, fun q hq => ?_⟩
  · rwa [List.length_set]
  · unfold place
    dsimp only
    rw [Int.toNat_natCast, List.getElem?_set_self hfd]
    rfl
  · rw [← hplace j]
    unfold place
    dsimp only
    rw [Int.toNat_natCast, List.getElem?_set_ne (Ne.symm hj)]
  · exact congrArg (· + 1) hnext
  · exact (Function.update_of_ne hq ..).trans (congrFun hheap q)

theorem get_of_some {mem : Memory} {m : FdManager} (hm : m.datas.length < 2 ^ 31) {fd p : Nat} (h : m.place fd = some p)
    (k : Kernel) : m.get mem fd true k = .ok (some p, m, k) := by
  have hlt := place_lt h
  unfold get find
  rw [if_neg (by omega), toInt_of_lt hm, if_neg (by omega), data_natCast hlt, h]
  rfl

theorem get_of_none {mem : Memory} {m : FdManager} (hm : m.datas.length < 2 ^ 31) {fd : Nat} (h : m.place fd = none)
    {k k' : Kernel} {r : Option Nat} {m' : FdManager} (hg : m.get mem fd true k = .ok (r, m', k')) :
    ∃ p, m.create mem fd k = .ok (p, m', k') := by
  have hfind : m.find fd true = .ok none := by
    unfold find
    rw [if_neg (by omega), toInt_of_lt hm]
    by_cases hle : (m.datas.length : Int) ≤ fd
    · rw [if_pos hle]
      rfl
    · rw [if_neg hle, data_natCast (by omega), h]
      rfl
  obtain ⟨o, ho, hg⟩ := bind_eq_ok hg
  cases hfind.symm.trans ho
  obtain ⟨⟨p, m₁, k₁⟩, hc, hg⟩ := bind_eq_ok hg
  cases hg
  exact ⟨p, hc⟩

theorem modify_spec {m m' : FdManager} {fd : Int} {f : FdCtx → FdCtx} (h : m.modify fd f = .ok m') :
    m'.datas = m.datas := by
  unfold modify at h
  obtain ⟨o, -, h⟩ := bind_eq_ok h
  rcases o with - | - | p <;> cases h <;> rfl

end FdManager

namespace Fds

/-- **A hooked descriptor**: it does not block, and its context is that of a new descriptor. -/
def Hooked (s : Fds) (fd : Nat) : Prop :=
  (∃ d, s.kernel fd = some d ∧ d.nonblock = true) ∧
    ∃ p, s.mgr.place fd = some p ∧ (s.mgr.heap p).userNonblock = false ∧ (s.mgr.heap p).recvTimeout = -1 ∧
      (s.mgr.heap p).sendTimeout = -1

/-- The call leaves a context for `fd`: `socket` on a thread with hooks, or `accept`. -/
def Call.Caches (fd : Nat) : Call → Prop
  | .socket enable ret => enable = true ∧ ret = some fd
  | .accept _ ret => ret = some fd
  | _ => False

/-- The call returned `fd` to a thread with hooks. -/
def Call.Returns (fd : Nat) : Call → Prop
  | .socket enable ret => enable = true ∧ ret = some fd
  | .accept enable ret => enable = true ∧ ret = some fd
  | _ => False

instance (fd : Nat) : (c : Call) → Decidable (c.Returns fd)
  | .socket .. => inferInstanceAs (Decidable (_ ∧ _))
  | .accept .. => inferInstanceAs (Decidable (_ ∧ _))
  | .close _ => isFalse id
  | .setTimeout .. => isFalse id
  | .setUserNonblock .. => isFalse id

theorem new_nonblock {k : Kernel} {fd : Int} {d : Descriptor} (h : k fd = some d) (hd : d.isSocket = true) :
    ∃ d, (FdCtx.new fd k).2 fd = some d ∧ d.nonblock = true := by
  unfold FdCtx.new FdCtx.init
  simp only [h, hd, Bool.false_eq_true, if_false, if_true]
  unfold Kernel.setNonblock
  rw [Function.update_self, h]
  exact ⟨_, rfl, rfl⟩

theorem new_ctx (fd : Int) (k : Kernel) :
    (FdCtx.new fd k).1.userNonblock = false ∧ (FdCtx.new fd k).1.recvTimeout = -1 ∧
    (FdCtx.new fd k).1.sendTimeout = -1 := by
  unfold FdCtx.new FdCtx.init
  simp only [Bool.false_eq_true, if_false]
  cases k fd <;> simp

theorem get_opened {mem : Memory} {s s' : Fds} (hm : s.mgr.datas.length < 2 ^ 31) {fd : Nat}
    (h : (s.opened fd).get mem fd = .ok s') : s'.mgr.datas.length < 2 ^ 31 ∧ (s'.Hooked fd ↔ s.mgr.place fd = none) ∧
      ∀ j, (s'.mgr.place j).isSome ↔ (s.mgr.place j).isSome ∨ j = fd := by
  obtain ⟨⟨r, mgr, kernel⟩, hg, h⟩ := bind_eq_ok h
  cases h
  dsimp only
  cases hp : s.mgr.place fd with
  | some p =>
    rw [show (s.opened fd).mgr = s.mgr from rfl, FdManager.get_of_some hm hp] at hg
    cases hg
    refine ⟨hm, ⟨?_, fun h => nomatch h⟩, fun j => ?_⟩
    · -- the kernel has handed out a blocking descriptor
      rintro ⟨⟨d, hd, hnb⟩, -⟩
      cases (Function.update_self ..).symm.trans hd
      cases hnb
    · constructor
      · exact .inl
      · rintro (h | rfl)
        · exact h
        · rw [hp]
          rfl
  | none =>
    obtain ⟨p, hc⟩ := FdManager.get_of_none hm hp hg
    obtain ⟨hk, hlen, hplace, hheap, hother, -⟩ := FdManager.create_spec hm hc
    refine ⟨hlen, ⟨fun _ => rfl, fun _ => ⟨?_, p, hplace, ?_⟩⟩, fun j => ?_⟩
    · rw [hk]
      exact new_nonblock (show (s.opened fd).kernel fd = some { isSocket := true } from Function.update_self ..) rfl
    · rw [hheap]
      exact new_ctx _ _
    · by_cases hj : j = fd
      · subst hj
        simp [hplace]
      · simp [hother j hj, hj]

/-! ## Runs -/

/-- **One call** leaves a context for the descriptor that it caches, and for no other. -/
theorem step_spec {mem : Memory} {s s' : Fds} (hm : s.mgr.datas.length < 2 ^ 31) {c : Call} {u : Unit}
    (h : s.step mem c = .ok (u, s')) : s'.mgr.datas.length < 2 ^ 31 ∧
      ∀ fd, ((s'.mgr.place fd).isSome ↔ (s.mgr.place fd).isSome ∨ c.Caches fd) := by
  have hsame : ∀ {m' : FdManager} {P : Nat → Prop}, m'.datas = s.mgr.datas → (∀ fd, ¬ P fd) → m'.datas.length < 2 ^ 31 ∧
      ∀ fd, ((m'.place fd).isSome ↔ (s.mgr.place fd).isSome ∨ P fd) := by
    intro m' P he hP
    refine ⟨he ▸ hm, fun fd => ?_⟩
    unfold FdManager.place
    rw [he]
    simp [hP fd]
  cases c with
  | socket enable ret =>
    cases ret with
    | none =>
      cases h
      exact hsame rfl (by simp [Call.Caches])
    | some fd =>
      cases enable with
      | false =>
        cases h
        exact hsame rfl (by simp [Call.Caches])
      | true =>
        obtain ⟨s₁, hg, h⟩ := bind_eq_ok h
        cases h
        obtain ⟨hlen, -, hplace⟩ := get_opened hm hg
        exact ⟨hlen, fun j => by simp [hplace, Call.Caches, eq_comm (a := j)]⟩
  | accept enable ret =>
    cases ret with
    | none =>
      cases h
      exact hsame rfl (by simp [Call.Caches])
    | some fd =>
      obtain ⟨s₁, hg, h⟩ := bind_eq_ok h
      cases h
      obtain ⟨hlen, -, hplace⟩ := get_opened hm hg
      exact ⟨hlen, fun j => by simp [hplace, Call.Caches, eq_comm (a := j)]⟩
  | close fd =>
    cases h
    exact hsame rfl (by simp [Call.Caches])
  | setTimeout fd type v =>
    obtain ⟨m', hmod, h⟩ := bind_eq_ok h
    cases h
    exact hsame (FdManager.modify_spec hmod) (by simp [Call.Caches])
  | setUserNonblock fd v =>
    obtain ⟨m', hmod, h⟩ := bind_eq_ok h
    cases h
    exact hsame (FdManager.modify_spec hmod) (by simp [Call.Caches])

/-- **A descriptor has a context** when a call that caches has returned it: no close takes the context away. -/
theorem cached_iff {mem : Memory} {h : List (Entry Fds Call Unit)} {s : Fds} (hr : Run (machine mem) h s) :
    s.mgr.datas.length < 2 ^ 31 ∧ ∀ fd, ((s.mgr.place fd).isSome ↔ ∃ e ∈ h, e.inp.Caches fd) := by
  induction hr with
  | start h0 =>
    subst h0
    refine ⟨by simp [FdManager.new], fun fd => ?_⟩
    simp only [FdManager.place, FdManager.new, List.getElem?_replicate]
    split_ifs <;> simp
  | @step h s s' c u hr ha hs ih =>
    obtain ⟨hlen, hplace⟩ := step_spec ih.1 hs
    refine ⟨hlen, fun fd => ?_⟩
    rw [hplace, ih.2]
    constructor
    · rintro (⟨e, he, hc⟩ | hc)
      · exact ⟨e, List.mem_append_left _ he, hc⟩
      · exact ⟨⟨s, c, u, s'⟩, by simp, hc⟩
    · rintro ⟨e, he, hc⟩
      rcases List.mem_append.mp he with he | he
      · exact .inl ⟨e, he, hc⟩
      · rw [List.mem_singleton.mp he] at hc
        exact .inr hc

/-- **A descriptor that `socket` or `accept` returned to a thread with hooks is hooked exactly when** no call that
caches has returned the number before. -/
theorem hooked_iff {mem : Memory} {h h₁ h₂ : List (Entry Fds Call Unit)} {s : Fds} {e : Entry Fds Call Unit}
    (hr : Run (machine mem) h s) (hh : h = h₁ ++ e :: h₂) {fd : Nat} (he : e.inp.Returns fd) :
    e.post.Hooked fd ↔ ∀ e' ∈ h₁, ¬ e'.inp.Caches fd := by
  obtain ⟨hr₁, -, hs⟩ := hr.cut hh
  obtain ⟨hlen, hcached⟩ := cached_iff hr₁
  have hget : (e.pre.opened fd).get mem fd = .ok e.post := by
    have hs' : e.pre.step mem e.inp = .ok (e.out, e.post) := hs
    generalize e.inp = c at he hs'
    cases c with
    | socket enable ret =>
      obtain ⟨rfl, rfl⟩ := he
      obtain ⟨s₁, hg, h⟩ := bind_eq_ok hs'
      cases h
      exact hg
    | accept enable ret =>
      obtain ⟨rfl, rfl⟩ := he
      obtain ⟨s₁, hg, h⟩ := bind_eq_ok hs'
      cases h
      exact hg
    | close | setTimeout | setUserNonblock => exact he.elim
  rw [(get_opened hlen hget).2.1, ← Option.not_isSome_iff_eq_none, hcached]
  simp

/-- A first socket. -/
theorem hooked_iff_first : ∃ h s, Run (machine ⟨1000, by norm_num⟩) h s ∧ s.Hooked 5 := by
  obtain ⟨h, s, hr, hp⟩ := Run.of_replay (machine ⟨1000, by norm_num⟩) rfl [.socket true (some 5)]
    (fun r => decide (r.1.length = 1) && r.1.all fun e => decide (e.inp.Returns 5)) (by decide +kernel)
  simp only [Bool.and_eq_true, decide_eq_true_eq, List.all_eq_true] at hp
  obtain ⟨e, rfl⟩ := List.length_eq_one_iff.mp hp.1
  obtain ⟨-, -, rfl⟩ := hr.last (h := [])
  have hfirst : [e] = [] ++ [e] := rfl
  exact ⟨_, _, hr, (hooked_iff hr hfirst (hp.2 e (by simp))).mpr (by simp)⟩

/-- A socket is closed and its number handed out again. -/
theorem hooked_not_reused : ¬ ∀ h s, Run (machine ⟨1000, by norm_num⟩) h s → ∀ h₁ e h₂ fd, h = h₁ ++ e :: h₂ →
    e.inp.Returns fd → e.post.Hooked fd := by
  intro hall
  obtain ⟨h, s, hr, hp⟩ := Run.of_replay (machine ⟨1000, by norm_num⟩) rfl
    [.socket true (some 5), .close 5, .socket true (some 5)]
    (fun r => r.1.any fun e => decide (e.inp.Returns 5) && (e.post.kernel 5).all fun d => !d.nonblock)
    (by decide +kernel)
  simp only [List.any_eq_true, Bool.and_eq_true, decide_eq_true_eq, Option.all_eq_true] at hp
  obtain ⟨e, he, hret, hblock⟩ := hp
  obtain ⟨h₁, h₂, hh⟩ := List.append_of_mem he
  obtain ⟨⟨d, hd, hnb⟩, -⟩ := hall h s hr h₁ e h₂ 5 hh hret
  have := hblock d hd
  rw [hnb] at this
  cases this

end Fds

end QWebServer
