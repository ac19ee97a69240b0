import QWebServer.Socket.Model

/-!
# Descriptors and their sockets

* `Fits` : a connected socket has a descriptor, and a cached local address is that of the descriptor; `Owned` : all
  sockets fit, and every open descriptor is in one of them;
* `Turn` : a call on a socket keeps what is open for others, `Neat` : and leaves nothing open but for others and itself;
* `Meets` : the calls and outcomes that leave things in order, `owned_iff` : the sockets of a run are in order all along
  exactly when its calls meet it.
-/

namespace QWebServer.Sockets

open Lib

variable {σ : Type}

/-- `m_isconnected` only with a descriptor, and `m_localAddress` is the local address of the descriptor. -/
structure Socket.Fits (k : Kernel σ) (x : Socket σ) : Prop where
  connected : x.isconnected = true → x.sock ≠ -1
  address : ∀ a, x.localAddress = some a → k x.sock = some a

/-- **The sockets are in order**: each one fits, and every descriptor that is open is in one of them. -/
structure Table.Owned (s : Table σ) : Prop where
  fits : ∀ p x, s.socket p = some x → x.Fits s.kernel
  owner : ∀ fd, (s.kernel fd).isSome = true → ∃ p x, s.socket p = some x ∧ x.sock = fd

/-! ## The condition -/

namespace Socket

/-- `connect` and `bind` get to their system call. -/
def Reaches (x : Socket σ) (ret : Returned σ) (address : Address σ) : Prop :=
  (x.sock ≠ -1 ∨ ret.isSome = true) ∧ address.family = x.family

/-- `connect` leaves the descriptor at the address that is cached, and closes no descriptor of a cached address. -/
def ConnectMeets (x : Socket σ) (address : Address σ) (o : Connecting σ) : Prop :=
  x.Reaches o.returned address →
    ∀ a, x.localAddress = some a → (o.connected = true ∨ o.closed = false) ∧ a = o.localAddress

/-- The socket that probes a Unix address is left without a descriptor. -/
def ProbeMeets (address : Address σ) (o : Binding σ) : Prop :=
  o.probe.returned = none ∨ o.released = true ∨
    address.family = UNIX ∧ o.probe.connected = false ∧ o.probe.closed = true

/-- The probe connects. -/
def Probed (address : Address σ) (o : Binding σ) : Prop :=
  address.isUnix = true ∧ o.probe.returned.isSome = true ∧ address.family = UNIX ∧ o.probe.connected = true

/-- `bind` leaves no descriptor of a probe, and the descriptor that it binds ends up at the address that is cached. -/
def BindMeets (x : Socket σ) (address : Address σ) (o : Binding σ) : Prop :=
  x.Reaches o.returned address → (address.isUnix = true → ProbeMeets address o) ∧
    (¬ Probed address o → o.bound = true → ∀ a, x.localAddress = some a → a = o.localAddress address)

/-- `close` closes no descriptor of a cached address. -/
def CloseMeets (x : Socket σ) (rt : Bool) : Prop := x.sock ≠ -1 → rt = true → x.localAddress = none

end Socket

/-- **The calls that leave sockets in order.** -/
def Table.Meets (s : Table σ) : Call σ → Prop
  | .create f ret => f.opens = true → ret.isSome = true
  | .connect p address o => ∀ x, s.socket p = some x → x.ConnectMeets address o
  | .bind p address o => ∀ x, s.socket p = some x → x.BindMeets address o
  | .accept _ ret known _ _ => ret.isSome = true → known = true
  | .close p rt => ∀ x, s.socket p = some x → x.CloseMeets rt
  | .destroy p rt => ∀ x, s.socket p = some x → x.sock ≠ -1 → rt = true
  | .reconnect _ _ | .getLocalAddress _ _ | .getRemoteAdress _ _ => True

/-! ## Turns -/

/-- The descriptor of the socket is open, and -1 is none. -/
structure Held (k : Kernel σ) (x : Socket σ) : Prop where
  invalid : k (-1) = none
  opened : x.sock ≠ -1 → (k x.sock).isSome = true

/-- A call turns `x` into `x'`: the other descriptors that are open stay as they are, and stay others. -/
structure Turn (k : Kernel σ) (x : Socket σ) (k' : Kernel σ) (x' : Socket σ) : Prop where
  held : Held k' x'
  others : ∀ fd, fd ≠ x.sock → (k fd).isSome = true → fd ≠ x'.sock ∧ k' fd = k fd

/-- After the call only `x'` and others have open descriptors. -/
def Neat (k : Kernel σ) (x : Socket σ) (k' : Kernel σ) (x' : Socket σ) : Prop :=
  ∀ fd, fd ≠ x'.sock → (k' fd).isSome = true → fd ≠ x.sock ∧ (k fd).isSome = true

structure Tidy (k : Kernel σ) (x : Socket σ) (k' : Kernel σ) (x' : Socket σ) : Prop extends Turn k x k' x' where
  neat : Neat k x k' x'

variable {k k' k₁ k₂ k₃ : Kernel σ} {x x' x₁ x₂ x₃ : Socket σ}

theorem Turn.trans (h₁ : Turn k x k₁ x₁) (h₂ : Turn k₁ x₁ k₂ x₂) : Turn k x k₂ x₂ where
  held := h₂.held
  others fd hfd ho := by
    obtain ⟨hfd₁, e₁⟩ := h₁.others fd hfd ho
    rw [← e₁] at ho ⊢
    exact h₂.others fd hfd₁ ho

/-- Between two tidy turns, a turn is neat where the whole is. -/
theorem Tidy.neat_iff (h₁ : Tidy k x k₁ x₁) (h₂ : Tidy k₂ x₂ k₃ x₃) : Neat k x k₃ x₃ ↔ Neat k₁ x₁ k₂ x₂ := by
  constructor
  · intro h fd hfd ho
    obtain ⟨hfd₃, e₃⟩ := h₂.others fd hfd ho
    obtain ⟨hx, hk⟩ := h fd hfd₃ (by rw [e₃]; exact ho)
    obtain ⟨hfd₁, e₁⟩ := h₁.others fd hx hk
    exact ⟨hfd₁, by rw [e₁]; exact hk⟩
  · intro h fd hfd ho
    obtain ⟨hfd₂, ho⟩ := h₂.neat fd hfd ho
    obtain ⟨hfd₁, ho⟩ := h fd hfd₂ ho
    exact h₁.neat fd hfd₁ ho

theorem Tidy.same (hk : Held k x) (h : x'.sock = x.sock) : Tidy k x k x' where
  held := ⟨hk.invalid, by rw [h]; exact hk.opened⟩
  others _ hfd _ := ⟨by rw [h]; exact hfd, rfl⟩
  neat _ hfd ho := ⟨by rw [← h]; exact hfd, ho⟩

theorem Tidy.trans (h₁ : Tidy k x k₁ x₁) (h₂ : Tidy k₁ x₁ k₂ x₂) : Tidy k x k₂ x₂ :=
  ⟨h₁.toTurn.trans h₂.toTurn, (h₁.neat_iff h₂).mpr (Tidy.same h₁.held rfl).neat⟩

theorem Tidy.assign (hk : Held k x) (hx : x.sock ≠ -1) (a : σ) : Tidy k x (Function.update k x.sock (some a)) x where
  held := ⟨by rw [Function.update_of_ne (Ne.symm hx)]; exact hk.invalid, fun _ => by rw [Function.update_self]; rfl⟩
  others fd hfd _ := ⟨hfd, Function.update_of_ne hfd ..⟩
  neat fd hfd ho := ⟨hfd, by rwa [Function.update_of_ne hfd] at ho⟩

/-- What a call on `x` that answers `r` does: a turn, that leaves things in order exactly where `C` holds. -/
def Outcome (k : Kernel σ) (x : Socket σ) (r : Bool × Socket σ × Kernel σ) (C : Prop) : Prop :=
  Turn k x r.2.2 r.2.1 ∧ (x.Fits k → (r.2.1.Fits r.2.2 ∧ Neat k x r.2.2 r.2.1 ↔ C))

theorem Tidy.outcome {r : Bool × Socket σ × Kernel σ} {C : Prop} (h : Tidy k x r.2.2 r.2.1)
    (hc : x.Fits k → (r.2.1.Fits r.2.2 ↔ C)) : Outcome k x r C :=
  ⟨h.toTurn, fun hx => (and_iff_left h.neat).trans (hc hx)⟩

namespace Socket

theorem newSock_tidy (hk : Held k x) (hx : x.sock = -1) {ret : Returned σ} (hf : k.Fresh ret) :
    Tidy k x (x.newSock k ret).2 (x.newSock k ret).1 := by
  cases ret with
  | none => exact .same hk hx.symm
  | some r =>
    obtain ⟨fd, a⟩ := r
    have hfd : k (fd : Int) = none := hf _ rfl
    refine ⟨⟨⟨?_, fun _ => ?_⟩, fun fd' _ ho => ?_⟩, fun fd' hne ho => ?_⟩
    · show Function.update k (fd : Int) (some a) (-1) = none
      rw [Function.update_of_ne (by omega)]
      exact hk.invalid
    · show (Function.update k (fd : Int) (some a) fd).isSome = true
      rw [Function.update_self]
      rfl
    · have hne : fd' ≠ (fd : Int) := by
        rintro rfl
        simp [hfd] at ho
      exact ⟨hne, Function.update_of_ne hne ..⟩
    · have hne : fd' ≠ (fd : Int) := hne
      replace ho : (Function.update k (fd : Int) (some a) fd').isSome = true := ho
      rw [Function.update_of_ne hne] at ho
      refine ⟨?_, ho⟩
      rintro rfl
      simp [hx, hk.invalid] at ho

/-! ## `ensure`, `getLocalAddress`, `close` -/

@[simp]
theorem ensure_family (ret : Returned σ) : (x.ensure k ret).1.family = x.family := by
  unfold ensure
  split_ifs
  · cases ret <;> rfl
  · rfl

@[simp]
theorem ensure_localAddress (ret : Returned σ) : (x.ensure k ret).1.localAddress = x.localAddress := by
  unfold ensure
  split_ifs
  · cases ret <;> rfl
  · rfl

theorem ensure_sock_ne_iff (ret : Returned σ) : (x.ensure k ret).1.sock ≠ -1 ↔ x.sock ≠ -1 ∨ ret.isSome = true := by
  unfold ensure
  split_ifs with hx
  · cases ret with
    | none => simp [newSock, hx]
    | some r =>
      have hne : (r.1 : Int) ≠ -1 := by omega
      simp [newSock, hne]
  · simp [hx]

theorem ensure_tidy (hk : Held k x) {ret : Returned σ} (hf : k.Fresh ret) :
    Tidy k x (x.ensure k ret).2 (x.ensure k ret).1 := by
  unfold ensure
  split_ifs with hx
  · exact newSock_tidy hk hx hf
  · exact .same hk rfl

theorem ensure_fresh {ret ret' : Returned σ} (hf : k.Fresh ret') (hne : ∀ r ∈ ret, ∀ r' ∈ ret', r.1 ≠ r'.1) :
    (x.ensure k ret).2.Fresh ret' := by
  intro r' hr'
  unfold ensure
  split_ifs
  · cases ret with
    | none => exact hf r' hr'
    | some r =>
      show Function.update k (r.1 : Int) _ (r'.1 : Int) = none
      rw [Function.update_of_ne (by exact_mod_cast (hne r rfl r' hr').symm)]
      exact hf r' hr'
  · exact hf r' hr'

/-- A socket without a descriptor fits when it is not connected and has no local address. -/
theorem fits_iff_of_eq (hk : k (-1) = none) (hx : x.sock = -1) :
    x.Fits k ↔ x.isconnected = false ∧ x.localAddress = none := by
  constructor
  · rintro ⟨hc, ha⟩
    refine ⟨?_, ?_⟩
    · exact Bool.eq_false_iff.mpr fun h => hc h hx
    · refine Option.eq_none_iff_forall_not_mem.mpr fun a h => ?_
      have := ha a h
      rw [hx, hk] at this
      cases this
  · rintro ⟨hc, ha⟩
    exact ⟨by simp [hc], by simp [ha]⟩

theorem fits_iff_of_ne (hx : x.sock ≠ -1) : x.Fits k ↔ ∀ a, x.localAddress = some a → k x.sock = some a :=
  ⟨fun h => h.address, fun h => ⟨fun _ => hx, h⟩⟩

theorem Fits.ensure (hk : Held k x) (h : x.Fits k) (ret : Returned σ) : (x.ensure k ret).1.Fits (x.ensure k ret).2 := by
  unfold Socket.ensure
  split_ifs with hx
  · obtain ⟨hc, ha⟩ := (fits_iff_of_eq hk.invalid hx).mp h
    cases ret <;> exact ⟨by simp [newSock, hc], by simp [newSock, ha]⟩
  · exact h

theorem fits_getLocalAddress {rt : Bool} : (x.getLocalAddress k rt).Fits k ↔ x.Fits k := by
  unfold getLocalAddress
  cases ha : x.localAddress with
  | some => rfl
  | none =>
    cases rt with
    | false => rfl
    | true => exact ⟨fun h => ⟨h.connected, by simp [ha]⟩, fun h => ⟨h.connected, fun _ => id⟩⟩

@[simp]
theorem getLocalAddress_sock (rt : Bool) : (x.getLocalAddress k rt).sock = x.sock := by
  unfold getLocalAddress
  split
  · rfl
  · split_ifs <;> rfl

@[simp]
theorem getRemoteAdress_sock (peer : Option (Address σ)) : (x.getRemoteAdress peer).sock = x.sock := by
  unfold getRemoteAdress
  split <;> rfl

@[simp]
theorem getRemoteAdress_localAddress (peer : Option (Address σ)) :
    (x.getRemoteAdress peer).localAddress = x.localAddress := by
  unfold getRemoteAdress
  split <;> rfl

theorem fits_getRemoteAdress {peer : Option (Address σ)} : (x.getRemoteAdress peer).Fits k ↔ x.Fits k := by
  unfold getRemoteAdress
  split
  · rfl
  · exact ⟨fun h => ⟨h.connected, h.address⟩, fun h => ⟨h.connected, h.address⟩⟩

theorem close_of_ne (hx : x.sock ≠ -1) (rt : Bool) : (x.close k rt).2 =
    if rt then ({ x with isconnected := false, sock := -1 }, Function.update k x.sock none)
    else ({ x with isconnected := false }, k) := by
  unfold close
  rw [if_neg (by simp [hx])]
  cases rt <;> simp [hx]

theorem close_of_eq (hx : x.sock = -1) (rt : Bool) : (x.close k rt).2 = ({ x with isconnected := false }, k) := by
  unfold close
  obtain ⟨sock, family, type, isconnected, localAddress, remoteAddress⟩ := x
  obtain rfl : sock = -1 := hx
  cases isconnected <;> rfl

theorem close_tidy (hk : Held k x) (rt : Bool) : Tidy k x (x.close k rt).2.2 (x.close k rt).2.1 := by
  by_cases hx : x.sock = -1
  · rw [close_of_eq hx]
    exact .same hk rfl
  · rw [close_of_ne hx]
    cases rt with
    | false => exact .same hk rfl
    | true =>
      refine ⟨⟨⟨?_, fun h => absurd rfl h⟩, fun fd hfd ho => ?_⟩, fun fd _ ho => ?_⟩
      · simp [Function.update_of_ne (Ne.symm hx), hk.invalid]
      · refine ⟨?_, Function.update_of_ne hfd ..⟩
        rintro rfl
        simp [hk.invalid] at ho
      · replace ho : (Function.update k x.sock none fd).isSome = true := ho
        have hfd : fd ≠ x.sock := by
          rintro rfl
          simp at ho
        exact ⟨hfd, by rwa [Function.update_of_ne hfd] at ho⟩

theorem close_sock_eq_iff (rt : Bool) : (x.close k rt).2.1.sock = -1 ↔ (x.sock ≠ -1 → rt = true) := by
  by_cases hx : x.sock = -1
  · simp [close_of_eq hx, hx]
  · cases rt <;> simp [close_of_ne hx, hx]

/-- `close` leaves a socket that fits, unless it closes the descriptor of a cached address or the address is wrong. -/
theorem fits_close_iff (hk : Held k x) (hx : x.sock ≠ -1) (rt : Bool) : (x.close k rt).2.1.Fits (x.close k rt).2.2 ↔
    ∀ a, x.localAddress = some a → rt = false ∧ k x.sock = some a := by
  rw [close_of_ne hx]
  cases rt with
  | false =>
    have : ({ x with isconnected := false } : Socket σ).Fits k ↔ _ := fits_iff_of_ne hx
    simpa using this
  | true =>
    have hk' : Function.update k x.sock none (-1) = none := by
      rw [Function.update_of_ne (Ne.symm hx)]
      exact hk.invalid
    have := fits_iff_of_eq (x := { x with isconnected := false, sock := -1 }) hk' rfl
    simpa [Option.eq_none_iff_forall_not_mem] using this

/-! ## `connect` and `bind` -/

section
variable {ret : Returned σ} {address : Address σ} {f : Socket σ → Kernel σ → Bool × Socket σ × Kernel σ}

theorem reaches_iff : x.Reaches ret address ↔
    (x.ensure k ret).1.sock ≠ -1 ∧ address.family = (x.ensure k ret).1.family := by
  rw [ensure_sock_ne_iff, ensure_family]
  rfl

theorem ready_of_reaches (h : x.Reaches ret address) :
    x.ready k ret address f = f (x.ensure k ret).1 (x.ensure k ret).2 := by
  obtain ⟨hs, hfam⟩ := (reaches_iff (k := k)).mp h
  unfold ready
  dsimp only
  rw [if_neg hs, if_neg (not_not.mpr hfam)]

theorem ready_of_not_reaches (h : ¬ x.Reaches ret address) : x.ready k ret address f = (false, x.ensure k ret) := by
  rw [reaches_iff (k := k)] at h
  unfold ready
  dsimp only
  split_ifs with hs hfam
  · rfl
  · rfl
  · exact absurd ⟨hs, not_not.mp hfam⟩ h

theorem connect_of_reaches {o : Connecting σ} (h : x.Reaches o.returned address) : x.connect k address o =
    ({ x with remoteAddress := some address }.ensure k o.returned).1.dial
      ({ x with remoteAddress := some address }.ensure k o.returned).2 o :=
  ready_of_reaches (x := { x with remoteAddress := some address }) h

theorem connect_of_not_reaches {o : Connecting σ} (h : ¬ x.Reaches o.returned address) :
    x.connect k address o = (false, { x with remoteAddress := some address }.ensure k o.returned) :=
  ready_of_not_reaches (x := { x with remoteAddress := some address }) h

end

theorem dial_spec (hk : Held k x) (hx : x.sock ≠ -1) (o : Connecting σ) :
    Tidy k x (x.dial k o).2.2 (x.dial k o).2.1 ∧ ((x.dial k o).2.1.Fits (x.dial k o).2.2 ↔
      ∀ a, x.localAddress = some a → (o.connected = true ∨ o.closed = false) ∧ a = o.localAddress) := by
  set k₁ := Function.update k x.sock (some o.localAddress) with hk₁
  have ht : Tidy k x k₁ x := .assign hk hx o.localAddress
  have hx₁ : k₁ x.sock = some o.localAddress := Function.update_self ..
  unfold dial
  rw [← hk₁]
  dsimp only
  split_ifs with hc
  · set y := { x with isconnected := true }.getRemoteAdress none
    have hsock : y.sock = x.sock := getRemoteAdress_sock ..
    have hlocal : y.localAddress = x.localAddress := getRemoteAdress_localAddress ..
    refine ⟨ht.trans (.same ht.held ?_), fits_getLocalAddress.trans ?_⟩
    · rw [getLocalAddress_sock, hsock]
    · rw [fits_iff_of_ne (by rwa [hsock]), hsock, hlocal]
      refine forall₂_congr fun a _ => ?_
      simp only [hx₁, hc, true_or, true_and, Option.some.injEq]
      exact eq_comm
  · refine ⟨ht.trans (close_tidy ht.held o.closed), (fits_close_iff ht.held hx _).trans ?_⟩
    refine forall₂_congr fun a _ => ?_
    simp only [hx₁, hc, Bool.false_eq_true, false_or, Option.some.injEq]
    exact and_congr_right fun _ => eq_comm

theorem connect_spec (hk : Held k x) (address : Address σ) {o : Connecting σ} (hf : k.Fresh o.returned) :
    Tidy k x (x.connect k address o).2.2 (x.connect k address o).2.1 ∧ (x.Fits k →
      ((x.connect k address o).2.1.Fits (x.connect k address o).2.2 ↔ x.ConnectMeets address o)) := by
  have hk' : Held k { x with remoteAddress := some address } := ⟨hk.invalid, hk.opened⟩
  have hx : Tidy k x k { x with remoteAddress := some address } := .same hk rfl
  have ht := ensure_tidy hk' hf
  by_cases hreach : x.Reaches o.returned address
  · rw [connect_of_reaches hreach]
    obtain ⟨ht', hiff⟩ := dial_spec ht.held ((ensure_sock_ne_iff _).mpr hreach.1) o
    refine ⟨(hx.trans ht).trans ht', fun _ => hiff.trans ?_⟩
    rw [ensure_localAddress]
    exact ⟨fun h _ => h, fun h => h hreach⟩
  · rw [connect_of_not_reaches hreach]
    refine ⟨hx.trans ht, fun h => iff_of_true ?_ fun h => absurd h hreach⟩
    exact Fits.ensure hk' ⟨h.connected, h.address⟩ _

theorem reconnect_spec (hk : Held k x) {o : Connecting σ} (hf : k.Fresh o.returned) :
    Tidy k x (x.reconnect k o).2.2 (x.reconnect k o).2.1 ∧ (x.Fits k →
      (x.reconnect k o).2.1.Fits (x.reconnect k o).2.2) := by
  unfold reconnect
  split
  · exact ⟨.same hk rfl, id⟩
  · rename_i address _
    have hk' : Held k { x with localAddress := none } := ⟨hk.invalid, hk.opened⟩
    have hx : Tidy k x k { x with localAddress := none } := .same hk rfl
    obtain ⟨ht, hiff⟩ := connect_spec hk' address hf
    refine ⟨hx.trans ht, fun h => (hiff ⟨h.connected, by simp⟩).mpr ?_⟩
    intro _ a ha
    cases ha

theorem dial_sock_eq_iff (hx : x.sock ≠ -1) (o : Connecting σ) :
    (x.dial k o).2.1.sock = -1 ↔ o.connected = false ∧ o.closed = true := by
  unfold dial
  dsimp only
  split_ifs with hc
  · simp [hx, hc]
  · simp [close_sock_eq_iff, hx, hc]

theorem connect_sock_eq_iff (address : Address σ) (o : Connecting σ) : (x.connect k address o).2.1.sock = -1 ↔
    x.sock = -1 ∧ o.returned = none ∨ x.Reaches o.returned address ∧ o.connected = false ∧ o.closed = true := by
  have hnone : x.sock = -1 ∧ o.returned = none ↔ ¬ (x.sock ≠ -1 ∨ o.returned.isSome = true) := by simp
  have hne := ensure_sock_ne_iff (k := k) (x := { x with remoteAddress := some address }) o.returned
  rw [hnone]
  by_cases hreach : x.Reaches o.returned address
  · rw [connect_of_reaches hreach, dial_sock_eq_iff (hne.mpr hreach.1)]
    simp [hreach, hreach.1]
  · rw [connect_of_not_reaches hreach, ← hne]
    simp [hreach]

theorem connect_eq_true_iff (address : Address σ) (o : Connecting σ) :
    (x.connect k address o).1 = true ↔ x.Reaches o.returned address ∧ o.connected = true := by
  by_cases hreach : x.Reaches o.returned address
  · rw [connect_of_reaches hreach, dial]
    cases hc : o.connected <;> simp [hreach]
  · rw [connect_of_not_reaches hreach]
    simp [hreach]

/-- The probe leaves the descriptors alone but for one of its own. -/
theorem probe_spec (hk : Held k x) (hx : x.sock ≠ -1) (address : Address σ) {o : Binding σ}
    (hf : k.Fresh o.probe.returned) : Turn k x (probe k address o).2 x ∧
      (probe k address o).2 x.sock = k x.sock ∧ (Neat k x (probe k address o).2 x ↔ ProbeMeets address o) := by
  set y : Socket σ := { family := UNIX, type := .TCP } with hy
  have hky : Held k y := ⟨hk.invalid, fun h => absurd rfl h⟩
  obtain ⟨ht, -⟩ := connect_spec hky address hf
  set z := y.connect k address o.probe with hz
  have hc := ht.trans (close_tidy ht.held o.released)
  set w := z.2.1.close z.2.2 o.released with hw
  have hsock : w.2.1.sock = -1 ↔ ProbeMeets address o := by
    rw [hw, close_sock_eq_iff, hz, ← or_iff_not_imp_left, connect_sock_eq_iff]
    simp only [hy, ProbeMeets, Reaches]
    cases o.probe.returned with
    | none => simp
    | some => simp [or_comm]
  have hopen := hc.others x.sock hx (hk.opened hx)
  show Turn k x w.2.2 x ∧ w.2.2 x.sock = _ ∧ (Neat k x w.2.2 x ↔ _)
  rw [← hsock]
  refine ⟨⟨⟨hc.held.invalid, fun h => ?_⟩, fun fd hfd ho => ⟨hfd, ?_⟩⟩, hopen.2, ?_, ?_⟩
  · rw [hopen.2]
    exact hk.opened h
  · refine (hc.others fd ?_ ho).2
    rintro rfl
    rw [hk.invalid] at ho
    cases ho
  · intro hn
    by_contra hne
    have := hn w.2.1.sock (Ne.symm hopen.1) (hc.held.opened hne)
    exact (hc.others w.2.1.sock hne this.2).1 rfl
  · intro he fd hfd ho
    refine ⟨hfd, (hc.neat fd ?_ ho).2⟩
    rintro rfl
    rw [he, hc.held.invalid] at ho
    cases ho

/-- `bind` finds the address in use when the probe connects. -/
theorem used_iff (address : Address σ) (o : Binding σ) :
    (if address.isUnix then probe k address o else (false, k)).1 = true ↔ Probed address o := by
  rw [Probed]
  split_ifs with hu
  · simp [probe, connect_eq_true_iff, Reaches, hu, and_assoc]
  · simp [hu]

theorem place_spec (hk : Held k x) (hx : x.sock ≠ -1) (address : Address σ) {o : Binding σ}
    (hf : k.Fresh o.probe.returned) : Outcome k x (x.place k address o)
      ((address.isUnix = true → ProbeMeets address o) ∧
        (¬ Probed address o → o.bound = true → ∀ a, x.localAddress = some a → a = o.localAddress address)) := by
  set p := if address.isUnix then probe k address o else (false, k) with hp
  obtain ⟨ht, hsame, hneat⟩ : Turn k x p.2 x ∧ p.2 x.sock = k x.sock ∧
      (Neat k x p.2 x ↔ (address.isUnix = true → ProbeMeets address o)) := by
    rw [hp]
    split_ifs with hu
    · simpa [hu] using probe_spec hk hx address hf
    · exact ⟨(Tidy.same hk rfl).toTurn, rfl, iff_of_true (Tidy.same hk rfl).neat fun h => absurd h hu⟩
  have hused : p.1 = true ↔ Probed address o := used_iff address o
  have hfits : x.Fits k → x.Fits p.2 := fun h => ⟨h.connected, fun a ha => by rw [hsame]; exact h.address a ha⟩
  have heq : x.place k address o = if p.1 then (false, x, p.2)
      else if o.bound then (false, x, Function.update p.2 x.sock (some (o.localAddress address)))
      else (true, x.getLocalAddress p.2 o.named, p.2) := rfl
  rw [heq]
  split_ifs with hu hb
  · refine ⟨ht, fun h => ?_⟩
    simp [hfits h, hneat, hused.mp hu]
  · have ha := Tidy.assign ht.held hx (o.localAddress address)
    refine ⟨ht.trans ha.toTurn, fun _ => ?_⟩
    dsimp only
    rw [(Tidy.same hk rfl).neat_iff ha, hneat, fits_iff_of_ne hx, Function.update_self, and_comm]
    refine and_congr_right fun _ => ?_
    simp only [hb, ← hused, hu, Bool.false_eq_true, not_false_eq_true, true_imp_iff, Option.some.injEq]
    exact forall₂_congr fun _ _ => eq_comm
  · have hg : Tidy p.2 x p.2 (x.getLocalAddress p.2 o.named) := .same ht.held (getLocalAddress_sock _)
    refine ⟨ht.trans hg.toTurn, fun h => ?_⟩
    dsimp only
    rw [(Tidy.same hk rfl).neat_iff hg, hneat, fits_getLocalAddress]
    simp [hfits h, hb]

theorem bind_spec (hk : Held k x) (address : Address σ) {o : Binding σ} (hf : k.Fresh o.returned)
    (hf' : k.Fresh o.probe.returned) (hne : ∀ r ∈ o.returned, ∀ r' ∈ o.probe.returned, r.1 ≠ r'.1) :
    Outcome k x (x.bind k address o) (x.BindMeets address o) := by
  have ht := ensure_tidy hk hf
  unfold bind BindMeets
  by_cases hreach : x.Reaches o.returned address
  · rw [ready_of_reaches hreach]
    obtain ⟨ht', hiff⟩ := place_spec ht.held (reaches_iff.mp hreach).1 address (ensure_fresh hf' hne)
    refine ⟨ht.toTurn.trans ht', fun h => ?_⟩
    rw [ht.neat_iff (Tidy.same ht'.held rfl), hiff (h.ensure hk _), ensure_localAddress]
    exact ⟨fun h _ => h, fun h => h hreach⟩
  · rw [ready_of_not_reaches hreach]
    exact ht.outcome fun h => iff_of_true (h.ensure hk _) fun h => absurd h hreach

theorem close_spec (hk : Held k x) (rt : Bool) : Outcome k x (x.close k rt) (x.CloseMeets rt) := by
  refine (close_tidy hk rt).outcome fun h => ?_
  unfold CloseMeets
  by_cases hx : x.sock = -1
  · rw [close_of_eq hx]
    exact iff_of_true ⟨nofun, h.address⟩ fun hne => absurd hx hne
  · rw [fits_close_iff hk hx]
    cases rt with
    | false => simpa using h.address
    | true => simp [hx, Option.eq_none_iff_forall_ne_some]

theorem blank_held (hk : k (-1) = none) (family : Int) (type : SocketType) : Held k { family, type } :=
  ⟨hk, fun h => absurd rfl h⟩

/-- `init` on a new socket, with a descriptor that it knows. -/
theorem init_spec (hk : k (-1) = none) {family : Int} {type : SocketType} {r : Nat × σ} (hf : k.Fresh (some r))
    {named : Bool} {peer : Option (Address σ)} {y : Socket σ}
    (hy : init { family, type } (Function.update k (r.1 : Int) (some r.2)) r.1 true named peer = some y) :
    Outcome k { family, type } (true, y, Function.update k (r.1 : Int) (some r.2)) True := by
  have ht := newSock_tidy (blank_held hk family type) rfl hf
  obtain rfl := Option.some.inj hy
  refine (ht.trans (.same ht.held ?_)).outcome fun _ => iff_of_true ?_ trivial
  · show (getRemoteAdress _ _).sock = _
    rw [getRemoteAdress_sock, getLocalAddress_sock]
    rfl
  · show (getRemoteAdress _ _).Fits _
    rw [fits_getRemoteAdress, fits_getLocalAddress, fits_iff_of_ne (by show (r.1 : Int) ≠ -1; omega)]
    exact nofun

end Socket

namespace Factory

theorem bare_spec (hk : k (-1) = none) (family : Int) (type : SocketType) :
    Outcome k { family, type } (true, bare family type k) True :=
  (Tidy.same (Socket.blank_held hk family type) rfl).outcome fun h => iff_of_true h trivial

theorem datagram_spec (hk : k (-1) = none) (family : Int) {ret : Returned σ} (hf : k.Fresh ret) :
    Outcome k { family, type := .UDP } (true, datagram family k ret) (ret.isSome = true) := by
  have ht := Socket.newSock_tidy (Socket.blank_held hk family .UDP) rfl hf
  have ht' : Tidy k { family, type := .UDP } (datagram family k ret).2 (datagram family k ret).1 :=
    ht.trans (.same ht.held rfl)
  refine ht'.outcome fun _ => ?_
  cases ret with
  | none => exact iff_of_false (fun h => h.connected rfl rfl) nofun
  | some r =>
    refine iff_of_true ((Socket.fits_iff_of_ne ?_).mpr nofun) rfl
    show (r.1 : Int) ≠ -1
    omega

/-- The functions `Create*` leave a socket that fits, unless `socket` failed for a UDP socket. -/
theorem create_spec (hk : k (-1) = none) (f : Factory σ) {ret : Returned σ} (hf : k.Fresh ret) :
    ∃ family type, Outcome k { family, type } (true, f.create k ret) (f.opens = true → ret.isSome = true) := by
  have hbare family type : ∃ family' type', Outcome k { family := family', type := type' }
      (true, bare family type k) (false = true → ret.isSome = true) :=
    ⟨family, type, by simpa using bare_spec hk family type⟩
  have hdatagram family : ∃ family' type', Outcome k { family := family', type := type' }
      (true, datagram family k ret) (true = true → ret.isSome = true) :=
    ⟨family, .UDP, by simpa using datagram_spec hk family hf⟩
  cases f with
  | CreateTCP | CreateTCPSocket | CreateTCPSocket6 | CreateUnixTCPSocket | CreateUnixUDPSocket => exact hbare ..
  | CreateUDP | CreateUDPSocket | CreateUDPSocket6 => exact hdatagram ..

end Factory

/-! ## The table -/

/-- Every descriptor of a socket is open, two sockets never have the same one, and pointers are handed out in order. -/
structure Table.Sound (s : Table σ) : Prop where
  invalid : s.kernel (-1) = none
  opened : ∀ p x, s.socket p = some x → x.sock ≠ -1 → (s.kernel x.sock).isSome = true
  apart : ∀ p x q y, s.socket p = some x → s.socket q = some y → x.sock ≠ -1 → x.sock = y.sock → p = q
  fresh : ∀ p, s.next ≤ p → s.socket p = none

namespace Table

variable {s : Table σ} {p : Nat}

def set (s : Table σ) (p : Nat) (x : Socket σ) (k : Kernel σ) : Table σ :=
  { s with socket := Function.update s.socket p (some x), kernel := k }

theorem Sound.held (hs : s.Sound) (hx : s.socket p = some x) : Held s.kernel x := ⟨hs.invalid, hs.opened p x hx⟩

theorem Sound.others (hs : s.Sound) (hx : s.socket p = some x) (ht : Turn s.kernel x k' x') {q : Nat} (hq : q ≠ p)
    {y : Socket σ} (hy : s.socket q = some y) : (y.sock ≠ -1 → y.sock ≠ x'.sock) ∧ k' y.sock = s.kernel y.sock := by
  by_cases hne : y.sock = -1
  · refine ⟨fun h => absurd hne h, ?_⟩
    rw [hne, ht.held.invalid, hs.invalid]
  · obtain ⟨h₁, h₂⟩ := ht.others y.sock (fun h => hq (hs.apart q y p x hy hx hne h)) (hs.opened q y hy hne)
    exact ⟨fun _ => h₁, h₂⟩

theorem set_cases {q : Nat} {y : Socket σ} (h : (s.set p x' k').socket q = some y) :
    q = p ∧ y = x' ∨ q ≠ p ∧ s.socket q = some y := by
  by_cases hq : q = p
  · subst hq
    replace h : Function.update s.socket q (some x') q = some y := h
    rw [Function.update_self] at h
    exact .inl ⟨rfl, (Option.some.inj h).symm⟩
  · replace h : Function.update s.socket p (some x') q = some y := h
    rw [Function.update_of_ne hq] at h
    exact .inr ⟨hq, h⟩

theorem Sound.set (hs : s.Sound) (hx : s.socket p = some x) (ht : Turn s.kernel x k' x') : (s.set p x' k').Sound where
  invalid := ht.held.invalid
  opened q y hy hne := by
    obtain ⟨rfl, rfl⟩ | ⟨hq, hy⟩ := set_cases hy
    · exact ht.held.opened hne
    · show (k' y.sock).isSome = true
      rw [(hs.others hx ht hq hy).2]
      exact hs.opened q y hy hne
  apart q y r z hy hz hne he := by
    obtain ⟨rfl, rfl⟩ | ⟨hq, hy'⟩ := set_cases hy
    · obtain ⟨rfl, rfl⟩ | ⟨hr, hz'⟩ := set_cases hz
      · rfl
      · exact absurd he.symm ((hs.others hx ht hr hz').1 (he ▸ hne))
    · obtain ⟨rfl, rfl⟩ | ⟨hr, hz'⟩ := set_cases hz
      · exact absurd he ((hs.others hx ht hq hy').1 hne)
      · exact hs.apart q y r z hy' hz' hne he
  fresh q hq := by
    show Function.update s.socket p (some x') q = none
    rw [Function.update_of_ne ?_]
    · exact hs.fresh q hq
    · rintro rfl
      rw [hs.fresh q hq] at hx
      cases hx

theorem Sound.owned_set_iff (hs : s.Sound) (ho : s.Owned) (hx : s.socket p = some x) (ht : Turn s.kernel x k' x') :
    (s.set p x' k').Owned ↔ x'.Fits k' ∧ Neat s.kernel x k' x' := by
  have hp : (s.set p x' k').socket p = some x' := Function.update_self ..
  have hne {q : Nat} (hq : q ≠ p) : (s.set p x' k').socket q = s.socket q := Function.update_of_ne hq ..
  constructor
  · intro h
    refine ⟨h.fits p x' hp, fun fd hfd hopen => ?_⟩
    obtain ⟨q, y, hy, rfl⟩ := h.owner fd hopen
    obtain ⟨rfl, rfl⟩ | ⟨hq, hy⟩ := set_cases hy
    · exact absurd rfl hfd
    · have hy' : y.sock ≠ -1 := fun he => by
        rw [he, ht.held.invalid] at hopen
        cases hopen
      exact ⟨fun he => hq (hs.apart q y p x hy hx hy' he), hs.opened q y hy hy'⟩
  · rintro ⟨hfit, hneat⟩
    constructor
    · intro q y hy
      obtain ⟨rfl, rfl⟩ | ⟨hq, hy⟩ := set_cases hy
      · exact hfit
      · refine ⟨(ho.fits q y hy).connected, fun a ha => ?_⟩
        show k' y.sock = some a
        rw [(hs.others hx ht hq hy).2]
        exact (ho.fits q y hy).address a ha
    · intro fd hopen
      by_cases hfd : fd = x'.sock
      · exact ⟨p, x', hp, hfd.symm⟩
      · obtain ⟨hne', hopen'⟩ := hneat fd hfd hopen
        obtain ⟨q, y, hy, rfl⟩ := ho.owner fd hopen'
        have hq : q ≠ p := by
          rintro rfl
          rw [hx] at hy
          cases hy
          exact hne' rfl
        exact ⟨q, y, by rw [hne hq]; exact hy, rfl⟩

/-- What a call does to a table: it stays sound, and in order exactly where `C` holds. -/
def Turns (s t : Table σ) (C : Prop) : Prop := t.Sound ∧ (s.Owned → (t.Owned ↔ C))

theorem Sound.turns_set (hs : s.Sound) (hx : s.socket p = some x) {r : Bool × Socket σ × Kernel σ} {C : Prop}
    (h : Outcome s.kernel x r C) : s.Turns (s.set p r.2.1 r.2.2) C := by
  refine ⟨hs.set hx h.1, fun ho => ?_⟩
  rw [hs.owned_set_iff ho hx h.1]
  exact h.2 (ho.fits p x hx)

theorem Sound.turns_on (hs : s.Sound) (hp : (s.socket p).isSome = true) {f : Socket σ → Bool × Socket σ × Kernel σ}
    {C : Socket σ → Prop} (h : ∀ x, s.socket p = some x → Outcome s.kernel x (f x) (C x)) :
    s.Turns (s.on p f).2 (∀ x, s.socket p = some x → C x) := by
  obtain ⟨x, hx⟩ := Option.isSome_iff_exists.mp hp
  have hon : (s.on p f).2 = s.set p (f x).2.1 (f x).2.2 := by
    unfold on
    rw [hx]
    rfl
  rw [hon]
  have hiff : (∀ y, s.socket p = some y → C y) ↔ C x := by simp [hx]
  rw [hiff]
  exact hs.turns_set hx (h x hx)

theorem Sound.blank (hs : s.Sound) (family : Int) (type : SocketType) :
    s.Turns (s.new { family, type } s.kernel) True := by
  have hnew {q : Nat} {y : Socket σ} (h : (s.new { family, type } s.kernel).socket q = some y) :
      y = { family, type } ∨ s.socket q = some y := by
    have hset : (s.set s.next { family, type } s.kernel).socket q = some y := h
    obtain ⟨-, h'⟩ | ⟨-, h'⟩ := set_cases hset
    · exact .inl h'
    · exact .inr h'
  have hold {q : Nat} {y : Socket σ} (h : s.socket q = some y) :
      (s.new { family, type } s.kernel).socket q = some y := by
    refine (Function.update_of_ne ?_ ..).trans h
    rintro rfl
    rw [hs.fresh _ (Nat.le_refl _)] at h
    cases h
  refine ⟨⟨hs.invalid, fun q y hy hne => ?_, fun q y r z hy hz hne he => ?_, fun q hq => ?_⟩, fun ho => ?_⟩
  · obtain rfl | hy' := hnew hy
    · exact absurd rfl hne
    · exact hs.opened q y hy' hne
  · obtain rfl | hy' := hnew hy
    · exact absurd rfl hne
    · obtain rfl | hz' := hnew hz
      · exact absurd he hne
      · exact hs.apart q y r z hy' hz' hne he
  · have hq : s.next + 1 ≤ q := hq
    refine (Function.update_of_ne (by omega) ..).trans (hs.fresh q (by omega))
  · refine iff_of_true ⟨fun q y hy => ?_, fun fd hopen => ?_⟩ trivial
    · obtain rfl | hy' := hnew hy
      · exact ⟨nofun, nofun⟩
      · exact ho.fits q y hy'
    · obtain ⟨q, y, hy, he⟩ := ho.owner fd hopen
      exact ⟨q, y, hold hy, he⟩

/-- A new object, and what became of the one without a descriptor. -/
theorem Sound.turns_new (hs : s.Sound) {family : Int} {type : SocketType} {r : Bool × Socket σ × Kernel σ} {C : Prop}
    (h : Outcome s.kernel { family, type } r C) : s.Turns (s.new r.2.1 r.2.2) C := by
  obtain ⟨hs', ho'⟩ := hs.blank family type
  have hset : s.new r.2.1 r.2.2 = (s.new { family, type } s.kernel).set s.next r.2.1 r.2.2 := by
    simp [new, Table.set]
  rw [hset]
  obtain ⟨ht, hiff⟩ := hs'.turns_set (Function.update_self ..) h
  exact ⟨ht, fun ho => hiff ((ho' ho).mpr trivial)⟩

theorem Sound.turns_leak (hs : s.Sound) {fd : Nat} (hf : s.kernel (fd : Int) = none) (a : σ) :
    s.Turns { s with kernel := Function.update s.kernel (fd : Int) (some a) } False := by
  have hfd : (-1 : Int) ≠ fd := by omega
  have hne {q : Nat} {y : Socket σ} (hy : s.socket q = some y) : y.sock ≠ fd := by
    intro he
    have := hs.opened q y hy (by omega)
    rw [he, hf] at this
    cases this
  refine ⟨⟨?_, fun q y hy hy' => ?_, hs.apart, hs.fresh⟩, fun _ => iff_of_false (fun h => ?_) id⟩
  · show Function.update s.kernel (fd : Int) (some a) (-1) = none
    rw [Function.update_of_ne hfd]
    exact hs.invalid
  · show (Function.update s.kernel (fd : Int) (some a) y.sock).isSome = true
    rw [Function.update_of_ne (hne hy)]
    exact hs.opened q y hy hy'
  · obtain ⟨q, y, hy, he⟩ := h.owner fd (by simp)
    exact hne hy he

theorem Sound.turns_remove (hs : s.Sound) (hx : s.socket p = some x) :
    s.Turns { s with socket := Function.update s.socket p none } (x.sock = -1) := by
  have hold {q : Nat} {y : Socket σ} (h : Function.update s.socket p none q = some y) :
      q ≠ p ∧ s.socket q = some y := by
    by_cases hq : q = p
    · subst hq
      rw [Function.update_self] at h
      cases h
    · rw [Function.update_of_ne hq] at h
      exact ⟨hq, h⟩
  refine ⟨⟨hs.invalid, fun q y hy => hs.opened q y (hold hy).2, fun q y r z hy hz => ?_, fun q hq => ?_⟩, fun ho => ?_⟩
  · exact hs.apart q y r z (hold hy).2 (hold hz).2
  · by_cases h : q = p
    · subst h
      exact Function.update_self ..
    · exact (Function.update_of_ne h ..).trans (hs.fresh q hq)
  · constructor
    · intro h
      by_contra hne
      obtain ⟨q, y, hy, he⟩ := h.owner x.sock (hs.opened p x hx hne)
      exact (hold hy).1 (hs.apart p x q y hx (hold hy).2 hne he.symm).symm
    · intro he
      refine ⟨fun q y hy => ho.fits q y (hold hy).2, fun fd hopen => ?_⟩
      obtain ⟨q, y, hy, rfl⟩ := ho.owner fd hopen
      have hq : q ≠ p := by
        rintro rfl
        rw [hx] at hy
        cases hy
        replace hopen : (s.kernel x.sock).isSome = true := hopen
        rw [he, hs.invalid] at hopen
        cases hopen
      exact ⟨q, y, (Function.update_of_ne hq ..).trans hy, rfl⟩

theorem Turns.congr {t : Table σ} {C C' : Prop} (h : s.Turns t C) (hc : C ↔ C') : s.Turns t C' :=
  ⟨h.1, fun ho => (h.2 ho).trans hc⟩

theorem Turns.trans {t u : Table σ} {C : Prop} (h₁ : s.Turns t True) (h₂ : t.Turns u C) : s.Turns u C :=
  ⟨h₂.1, fun ho => h₂.2 ((h₁.2 ho).mpr trivial)⟩

/-! ## The steps -/

theorem Sound.create (hs : s.Sound) (f : Factory σ) {ret : Returned σ} (hf : s.kernel.Fresh ret) :
    s.Turns (s.step (.create f ret)).2 (s.Meets (.create f ret)) := by
  obtain ⟨family, type, h⟩ := f.create_spec hs.invalid hf
  exact hs.turns_new h

theorem Sound.accept (hs : s.Sound) (hx : s.socket p = some x) {ret : Returned σ} (hf : s.kernel.Fresh ret)
    (known named : Bool) (peer : Option (Address σ)) :
    s.Turns (s.step (.accept p ret known named peer)).2 (s.Meets (.accept p ret known named peer)) := by
  simp only [Table.step, hx]
  cases ret with
  | none => exact ⟨hs, fun ho => iff_of_true ho nofun⟩
  | some r =>
    cases known with
    | false => exact (hs.turns_leak (hf r rfl) r.2).congr (by simp [Meets])
    | true => exact (hs.turns_new (Socket.init_spec hs.invalid hf rfl)).congr (by simp [Meets])

theorem Sound.destroy (hs : s.Sound) (hx : s.socket p = some x) (rt : Bool) :
    s.Turns (s.step (.destroy p rt)).2 (s.Meets (.destroy p rt)) := by
  set x' : Socket σ := { (x.close s.kernel rt).2.1 with isconnected := false, localAddress := none }
  have ht := Socket.close_tidy (hs.held hx) rt
  have ht' : Tidy s.kernel x (x.close s.kernel rt).2.2 x' := ht.trans (Tidy.same ht.held rfl)
  have ho : Outcome s.kernel x (true, x', (x.close s.kernel rt).2.2) True :=
    ht'.outcome fun _ => iff_of_true ⟨nofun, nofun⟩ trivial
  have hset := hs.turns_set hx ho
  have hx' : (s.set p x' (x.close s.kernel rt).2.2).socket p = some x' := Function.update_self ..
  have hstep : (s.step (.destroy p rt)).2 = { s.set p x' (x.close s.kernel rt).2.2 with
      socket := Function.update (s.set p x' (x.close s.kernel rt).2.2).socket p none } := by
    simp [Table.step, hx, Table.set]
  rw [hstep]
  refine (hset.trans (hset.1.turns_remove hx')).congr ?_
  show (x.close s.kernel rt).2.1.sock = -1 ↔ _
  rw [Socket.close_sock_eq_iff]
  simp [Meets, hx]

theorem Sound.step (hs : s.Sound) {c : Call σ} (he : s.enabled c) : s.Turns (s.step c).2 (s.Meets c) := by
  cases c with
  | create f ret => exact hs.create f he
  | connect p address o =>
    refine hs.turns_on he.1 fun x hx => ?_
    obtain ⟨ht, hiff⟩ := Socket.connect_spec (hs.held hx) address he.2
    exact ht.outcome hiff
  | reconnect p o =>
    refine (hs.turns_on (C := fun _ => True) he.1 fun x hx => ?_).congr (by simp [Meets])
    obtain ⟨ht, hfit⟩ := Socket.reconnect_spec (hs.held hx) he.2
    exact ht.outcome fun h => iff_of_true (hfit h) trivial
  | bind p address o =>
    obtain ⟨hp, hf, hf', hne⟩ := he
    exact hs.turns_on hp fun x hx => Socket.bind_spec (hs.held hx) address hf hf' hne
  | accept p ret known named peer =>
    obtain ⟨x, hx⟩ := Option.isSome_iff_exists.mp he.1
    exact hs.accept hx he.2 known named peer
  | close p rt => exact hs.turns_on he fun x hx => Socket.close_spec (hs.held hx) rt
  | getLocalAddress p rt =>
    refine (hs.turns_on (C := fun _ => True) he fun x hx => ?_).congr (by simp [Meets])
    refine (Tidy.same (hs.held hx) (Socket.getLocalAddress_sock rt)).outcome fun h => ?_
    exact iff_of_true (Socket.fits_getLocalAddress.mpr h) trivial
  | getRemoteAdress p peer =>
    refine (hs.turns_on (C := fun _ => True) he fun x hx => ?_).congr (by simp [Meets])
    refine (Tidy.same (hs.held hx) (Socket.getRemoteAdress_sock peer)).outcome fun h => ?_
    exact iff_of_true (Socket.fits_getRemoteAdress.mpr h) trivial
  | destroy p rt =>
    obtain ⟨x, hx⟩ := Option.isSome_iff_exists.mp he
    exact hs.destroy hx rt

end Table

/-! ## The runs -/

theorem Table.sound_of_run {h : List (Entry (Table σ) (Call σ) Bool)} {s : Table σ} (hr : Run (machine σ) h s) :
    s.Sound := by
  refine hr.invariant ?_ ?_
  · rintro _ rfl
    refine ⟨rfl, ?_, ?_, fun _ _ => rfl⟩
    · intro p x hx
      cases hx
    · intro p x q y hx
      cases hx
  · intro s c o t hs he hst
    obtain rfl : (s.step c).2 = t := congrArg Prod.snd (Except.ok.inj hst)
    exact (hs.step he).1

end QWebServer.Sockets
