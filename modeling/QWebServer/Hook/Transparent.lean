import QWebServer.Fd.Model

/-!
# `do_io` as seen from the kernel

A hooked call tries its system call until it gets an answer; in between its fiber waits in an `IOManager`, other fibers
make calls, and the peers of the sockets go on. A worker goes on with a fiber after it has saved its context, and on the
thread where it did: `errno` is one place for it.

* `Answer`, `System` : the system calls over an arbitrary state of the kernel;
* `Call`, `FiberState` : where a fiber is in `do_io`; `doIo` : its checks, up to the first try;
* `Label`, `step`, `machine` : steps of fibers, of their timers, of the workers and of the kernel, in any order;
* `System.follow` : what the answered system calls make of the kernel, one after the other;
* `Tidy` : a fiber's calls, each with one answer of the kernel or a failure that left no trace in it;
* `State.wakeups` : what is going to resume a fiber;
* `transparent` : every run is a sequence of answered system calls, one for each call that returns its answer.
-/

namespace QWebServer.Transparent

open Lib

/-- What a system call returns, and `errno`. -/
structure Answer where
  ret : Int
  errno : Int
  deriving DecidableEq

def EINTR : Int := 4

def EBADF : Int := 9

def EAGAIN : Int := 11

def ETIMEDOUT : Int := 110

def Answer.failure (errno : Int) : Answer := ⟨-1, errno⟩

/-- The system calls `ω` on the states `σ` of the kernel: the descriptor and the timeout of a call, and its answer with
the state after it, `none` where it would have to wait. -/
structure System (σ ω : Type) where
  fd : ω → Int
  timeoutSo : ω → FdCtx.TimeoutType
  call : ω → σ → Option (Answer × σ)

/-- Where a fiber is in the loop of `do_io`: before `fun`, before `addConditionTimer`, before `addEvent`, in
`YieldToHold`, out of it with its context saved, before `timer->cancel()`, before the reading of `cancelled`. -/
inductive Pc
  | io
  | arm
  | add
  | yield
  | suspended
  | awake
  | check
  deriving DecidableEq

/-- A call in this loop. The field `cancelled` is that of `*tinfo`; `armed` tells that a timer was added. -/
structure Call (ω : Type) where
  op : ω
  timeout : UInt64
  pc : Pc := .io
  armed : Bool := false
  cancelled : Int := 0

/-- A fiber: outside of hooked calls, before the checks of `do_io`, before a `return fun(...)`, or in the loop. -/
inductive FiberState (ω : Type)
  | outside
  | entered (op : ω)
  | direct (op : ω)
  | loop (c : Call ω)

def FiberState.pending {ω : Type} : FiberState ω → Option ω
  | outside => none
  | entered op => some op
  | direct op => some op
  | loop c => some c.op

/-- Why a call returns -1 without an answer of the kernel: the context is closed, a `fun` that is not repeated was
interrupted or would have to wait, `addEvent` failed, or the timeout was over. -/
inductive Reason
  | closed
  | interrupted
  | again
  | addEvent
  | timeout (ms : UInt64)

def Reason.Gives : Reason → Int → Prop
  | closed, e => e = EBADF
  | interrupted, e => e = EINTR
  | again, e => e = EAGAIN
  | addEvent, _ => True
  | timeout ms, e => e = ETIMEDOUT ∧ ms ≠ -1

/-- What happens in a step: a call begins, the kernel answers one and it returns this, or it returns -1 for another
reason; or the kernel changes otherwise. -/
inductive Event (τ σ ω : Type)
  | invoked (t : τ) (op : ω)
  | answered (t : τ) (op : ω) (a : Answer)
  | failed (t : τ) (why : Reason) (errno : Int)
  | changed (k : σ)

/-- The kernel, the contexts of `FdMgr`, `t_hook_enable` of the thread of each fiber, the fibers, which of them an
event context of the `IOManager` holds, and the fibers in its queue. -/
structure State (τ σ ω : Type) where
  kernel : σ
  ctxs : Int → Option FdCtx := fun _ => none
  hookEnable : τ → Bool
  fibers : τ → FiberState ω := fun _ => .outside
  registered : τ → Bool := fun _ => false
  queue : List τ := []

/-- A step of the fiber `t`: it calls a hooked function, passes the checks of `do_io`, gets an answer of the kernel, is
interrupted, would have to wait, and so on through the loop. Further, the callback of its timer sets `cancelled`,
`triggerEvent` takes it out of its context (for `idle`, `cancelEvent` or `cancelAll`), a worker resumes it, and others
change the kernel, a context or `t_hook_enable`. -/
inductive Label (τ σ ω : Type)
  | invoke (t : τ) (op : ω)
  | enter (t : τ)
  | answer (t : τ)
  | interrupt (t : τ)
  | wouldWait (t : τ)
  | arm (t : τ)
  | add (t : τ) (failure : Option Int)
  | yield (t : τ)
  | expire (t : τ)
  | report (t : τ)
  | resume (t : τ)
  | cancelTimer (t : τ)
  | check (t : τ)
  | change (k : σ)
  | setCtx (fd : Int) (c : Option FdCtx)
  | setHook (t : τ) (flag : Bool)

inductive Blocked
  | blocked

section
variable {τ σ ω : Type} (K : System σ ω)

def doIo (s : State τ σ ω) (t : τ) (op : ω) : FiberState ω ⊕ Reason :=
  if !s.hookEnable t then .inl (.direct op)
  else
    match s.ctxs (K.fd op) with
    | none => .inl (.direct op)
    | some ctx =>
      if ctx.isClosed then .inr .closed
      else if !ctx.isSocket || ctx.userNonblock then .inl (.direct op)
      else .inl (.loop { op, timeout := ctx.getTimeout (K.timeoutSo op) })

/-- The call of the fiber in the loop, at `pc`. -/
def State.loopAt (s : State τ σ ω) (t : τ) (pc : Pc) : Except Blocked (Call ω) :=
  match s.fibers t with
  | .loop c => if c.pc = pc then .ok c else .error .blocked
  | _ => .error .blocked

/-- The fiber before `fun`: whether the call is not repeated, and the system call. -/
def State.trying (s : State τ σ ω) (t : τ) : Except Blocked (Option (Call ω) × ω) :=
  match s.fibers t with
  | .direct op => .ok (none, op)
  | .loop c => if c.pc = .io then .ok (some c, c.op) else .error .blocked
  | _ => .error .blocked

variable [DecidableEq τ]

def State.set (s : State τ σ ω) (t : τ) (x : FiberState ω) : State τ σ ω :=
  { s with fibers := Function.update s.fibers t x }

def State.goto (s : State τ σ ω) (t : τ) (c : Call ω) (pc : Pc) : State τ σ ω := s.set t (.loop { c with pc })

def State.fail (s : State τ σ ω) (t : τ) (why : Reason) (errno : Int) : List (Event τ σ ω) × State τ σ ω :=
  ([.failed t why errno], s.set t .outside)

def step (s : State τ σ ω) : Label τ σ ω → Except Blocked (List (Event τ σ ω) × State τ σ ω)
  | .invoke t op =>
    match s.fibers t with
    | .outside => .ok ([.invoked t op], s.set t (.entered op))
    | _ => .error .blocked
  | .enter t =>
    match s.fibers t with
    | .entered op =>
      match doIo K s t op with
      | .inl x => .ok ([], s.set t x)
      | .inr why => .ok (s.fail t why EBADF)
    | _ => .error .blocked
  | .answer t => do
    let (_, op) ← s.trying t
    match K.call op s.kernel with
    | some (a, k) => .ok ([.answered t op a], { s.set t .outside with kernel := k })
    | none => .error .blocked
  | .interrupt t => do
    match ← s.trying t with
    | (none, _) => .ok (s.fail t .interrupted EINTR)
    | (some _, _) => .ok ([], s)
  | .wouldWait t => do
    let (c, op) ← s.trying t
    match K.call op s.kernel, c with
    | some _, _ => .error .blocked
    | none, none => .ok (s.fail t .again EAGAIN)
    | none, some c => .ok ([], s.goto t c .arm)
  | .arm t => do
    let c ← s.loopAt t .arm
    .ok ([], s.goto t { c with armed := c.armed || c.timeout != -1 } .add)
  | .add t failure => do
    let c ← s.loopAt t .add
    match failure with
    | none => .ok ([], { s.goto t c .yield with registered := Function.update s.registered t true })
    | some errno => .ok (s.fail t .addEvent errno)
  | .yield t => do
    let c ← s.loopAt t .yield
    .ok ([], s.goto t c .suspended)
  | .expire t =>
    match s.fibers t with
    | .loop c =>
      if c.armed then
        .ok ([], s.set t (.loop { c with cancelled := if c.cancelled = 0 then ETIMEDOUT else c.cancelled }))
      else .error .blocked
    | _ => .error .blocked
  | .report t =>
    if s.registered t then
      .ok ([], { s with registered := Function.update s.registered t false, queue := s.queue ++ [t] })
    else .error .blocked
  | .resume t => do
    let c ← s.loopAt t .suspended
    if t ∈ s.queue then .ok ([], { s.goto t c .awake with queue := s.queue.erase t }) else .error .blocked
  | .cancelTimer t => do
    let c ← s.loopAt t .awake
    .ok ([], s.goto t c .check)
  | .check t => do
    let c ← s.loopAt t .check
    if c.cancelled ≠ 0 then .ok (s.fail t (.timeout c.timeout) c.cancelled) else .ok ([], s.goto t c .io)
  | .change k => .ok ([.changed k], { s with kernel := k })
  | .setCtx fd c => .ok ([], { s with ctxs := Function.update s.ctxs fd c })
  | .setHook t flag => .ok ([], { s with hookEnable := Function.update s.hookEnable t flag })

def machine (k : σ) (hookEnable : τ → Bool) : Machine (State τ σ ω) (Label τ σ ω) (List (Event τ σ ω)) Blocked where
  init s := s = { kernel := k, hookEnable }
  enabled _ _ := True
  step := step K

/-! ## What happened -/

def events (h : List (Entry (State τ σ ω) (Label τ σ ω) (List (Event τ σ ω)))) : List (Event τ σ ω) :=
  h.flatMap Entry.out

def Event.isOf (t : τ) : Event τ σ ω → Bool
  | invoked u _ => u = t
  | answered u _ _ => u = t
  | failed u _ _ => u = t
  | changed _ => false

def trace (t : τ) (h : List (Entry (State τ σ ω) (Label τ σ ω) (List (Event τ σ ω)))) : List (Event τ σ ω) :=
  (events h).filter (Event.isOf t)

/-- **The kernel after the answered system calls, one after the other**, with the changes by others between them; `none`
if it does not give these answers. -/
def System.follow (k : σ) : List (Event τ σ ω) → Option σ
  | [] => some k
  | .answered _ op a :: es =>
    match K.call op k with
    | some (a', k') => if a' = a then System.follow k' es else none
    | none => none
  | .changed k' :: es => System.follow k' es
  | .invoked _ _ :: es => System.follow k es
  | .failed _ _ _ :: es => System.follow k es

/-- **The calls of a fiber**, with the one it is in: each call that has returned has been answered once, or it has
failed and was not answered. -/
inductive Tidy : List (Event τ σ ω) → Option ω → Prop
  | nil : Tidy [] none
  | invoked {l : List (Event τ σ ω)} {t : τ} {op : ω} (h : Tidy l none) : Tidy (l ++ [.invoked t op]) (some op)
  | answered {l : List (Event τ σ ω)} {t : τ} {op : ω} {a : Answer} (h : Tidy l (some op)) :
      Tidy (l ++ [.answered t op a]) none
  | failed {l : List (Event τ σ ω)} {t : τ} {op : ω} {why : Reason} {errno : Int} (h : Tidy l (some op))
      (hwhy : why.Gives errno) : Tidy (l ++ [.failed t why errno]) none

/-- The fiber has to be resumed. -/
def FiberState.waits : FiberState ω → Bool
  | loop c => c.pc = .yield || c.pc = .suspended
  | _ => false

/-- **What is going to resume the fiber**: an event context holds it, or the queue does. -/
def State.wakeups (s : State τ σ ω) (t : τ) : Nat := (s.registered t).toNat + s.queue.count t

/-! ## One step -/

/-- `cancelled` is set by a timer only, and a timer is added for a finite timeout only. -/
def FiberState.Sound : FiberState ω → Prop
  | loop c => (c.cancelled = 0 ∨ c.cancelled = ETIMEDOUT ∧ c.armed = true) ∧ (c.armed = true → c.timeout ≠ -1)
  | _ => True

/-- **Everything a step can do.** -/
inductive Move (s : State τ σ ω) : List (Event τ σ ω) → State τ σ ω → Prop
  | invokes {t : τ} {op : ω} (ht : (s.fibers t).pending = none) : Move s [.invoked t op] (s.set t (.entered op))
  | goes {t : τ} {x : FiberState ω} (hx : x.pending = (s.fibers t).pending) (hs : (s.fibers t).Sound → x.Sound)
      (hw : x.waits = (s.fibers t).waits) : Move s [] (s.set t x)
  | registers {t : τ} {c : Call ω} (hf : s.fibers t = .loop c) (hpc : c.pc = .add) :
      Move s [] { s.goto t c .yield with registered := Function.update s.registered t true }
  | reports {t : τ} (ht : s.registered t = true) :
      Move s [] { s with registered := Function.update s.registered t false, queue := s.queue ++ [t] }
  | resumes {t : τ} {c : Call ω} (hf : s.fibers t = .loop c) (hpc : c.pc = .suspended) (hq : t ∈ s.queue) :
      Move s [] { s.goto t c .awake with queue := s.queue.erase t }
  | fails {t : τ} {op : ω} {why : Reason} {errno : Int} (ht : (s.fibers t).pending = some op)
      (hw : (s.fibers t).waits = false) (hwhy : (s.fibers t).Sound → why.Gives errno) :
      Move s [.failed t why errno] (s.set t .outside)
  | answers {t : τ} {op : ω} {a : Answer} {k : σ} (ht : (s.fibers t).pending = some op)
      (hw : (s.fibers t).waits = false) (hcall : K.call op s.kernel = some (a, k)) :
      Move s [.answered t op a] { s.set t .outside with kernel := k }
  | changes {k : σ} : Move s [.changed k] { s with kernel := k }
  | rest {s' : State τ σ ω} (hk : s'.kernel = s.kernel) (hf : s'.fibers = s.fibers)
      (hr : s'.registered = s.registered) (hq : s'.queue = s.queue) : Move s [] s'

variable {K} {s s' : State τ σ ω} {t : τ}

omit [DecidableEq τ] in
theorem loopAt_eq {pc : Pc} {c : Call ω} (h : s.loopAt t pc = .ok c) : s.fibers t = .loop c ∧ c.pc = pc := by
  unfold State.loopAt at h
  split at h
  · rename_i c' hc
    split_ifs at h with hpc
    cases h
    exact ⟨hc, hpc⟩
  · cases h

omit [DecidableEq τ] in
theorem trying_eq {c : Option (Call ω)} {op : ω} (h : s.trying t = .ok (c, op)) :
    (c = none ∧ s.fibers t = .direct op) ∨ ∃ c', c = some c' ∧ s.fibers t = .loop c' ∧ c'.pc = .io ∧ op = c'.op := by
  unfold State.trying at h
  split at h
  · rename_i op' hop
    cases h
    exact .inl ⟨rfl, hop⟩
  · rename_i c' hc
    split_ifs at h with hpc
    cases h
    exact .inr ⟨c', rfl, hc, hpc, rfl⟩
  · cases h

omit [DecidableEq τ] in
theorem pending_of_trying {c : Option (Call ω)} {op : ω} (h : s.trying t = .ok (c, op)) :
    (s.fibers t).pending = some op := by
  rcases trying_eq h with ⟨-, hf⟩ | ⟨c', -, hf, -, rfl⟩ <;> rw [hf] <;> rfl

omit [DecidableEq τ] in
theorem waits_of_trying {c : Option (Call ω)} {op : ω} (h : s.trying t = .ok (c, op)) :
    (s.fibers t).waits = false := by
  rcases trying_eq h with ⟨-, hf⟩ | ⟨c', -, hf, hpc, -⟩ <;> rw [hf]
  · rfl
  · simp [FiberState.waits, hpc]

omit [DecidableEq τ] in
theorem waits_of_none (h : (s.fibers t).pending = none) : (s.fibers t).waits = false := by
  cases hf : s.fibers t with
  | outside => rfl
  | entered op => rfl
  | direct op => rfl
  | loop c =>
    rw [hf] at h
    cases h

/-- A step in the loop that keeps `cancelled` and the timer. -/
theorem Move.goto {c : Call ω} (hf : s.fibers t = .loop c) {pc : Pc}
    (hw : (FiberState.loop { c with pc }).waits = (FiberState.loop c).waits) : Move K s [] (s.goto t c pc) := by
  refine .goes ?_ ?_ ?_ <;> rw [hf]
  · rfl
  · exact id
  · exact hw

theorem enter_move {op : ω} {es : List (Event τ σ ω)} (hf : s.fibers t = .entered op)
    (h : (match doIo K s t op with
      | .inl x => (.ok ([], s.set t x) : Except Blocked _)
      | .inr why => .ok (s.fail t why EBADF)) = .ok (es, s')) : Move K s es s' := by
  have hpending : (s.fibers t).pending = some op := by
    rw [hf]
    rfl
  have hwaits : (s.fibers t).waits = false := by
    rw [hf]
    rfl
  have hdo : (∃ x, doIo K s t op = .inl x ∧ x.pending = some op ∧ x.Sound ∧ x.waits = false) ∨
      doIo K s t op = .inr .closed := by
    unfold doIo
    split_ifs with hhook
    · exact .inl ⟨_, rfl, rfl, trivial, rfl⟩
    · split
      · exact .inl ⟨_, rfl, rfl, trivial, rfl⟩
      · split_ifs with hclosed hdirect
        · exact .inr rfl
        · exact .inl ⟨_, rfl, rfl, trivial, rfl⟩
        · exact .inl ⟨_, rfl, rfl, ⟨.inl rfl, nofun⟩, rfl⟩
  rcases hdo with ⟨x, hx, hp, hs, hw⟩ | hclosed
  · rw [hx] at h
    cases h
    exact .goes (hp.trans hpending.symm) (fun _ => hs) (hw.trans hwaits.symm)
  · rw [hclosed] at h
    cases h
    exact .fails hpending hwaits fun _ => rfl

theorem step_move {l : Label τ σ ω} {es : List (Event τ σ ω)} (h : step K s l = .ok (es, s')) : Move K s es s' := by
  cases l with
  | invoke t op =>
    simp only [step] at h
    split at h
    · rename_i hf
      cases h
      refine .invokes ?_
      rw [hf]
      rfl
    · cases h
  | enter t =>
    simp only [step] at h
    split at h
    · rename_i op hf
      exact enter_move hf h
    · cases h
  | answer t =>
    obtain ⟨⟨c, op⟩, hc, h⟩ := bind_eq_ok h
    dsimp only at h
    split at h
    · rename_i a k hcall
      cases h
      exact .answers (pending_of_trying hc) (waits_of_trying hc) hcall
    · cases h
  | interrupt t =>
    obtain ⟨⟨c, op⟩, hc, h⟩ := bind_eq_ok h
    cases c with
    | none =>
      cases h
      exact .fails (pending_of_trying hc) (waits_of_trying hc) fun _ => rfl
    | some c =>
      cases h
      exact .rest rfl rfl rfl rfl
  | wouldWait t =>
    obtain ⟨⟨c, op⟩, hc, h⟩ := bind_eq_ok h
    dsimp only at h
    split at h
    · cases h
    · cases h
      exact .fails (pending_of_trying hc) (waits_of_trying hc) fun _ => rfl
    · rename_i c _
      cases h
      rcases trying_eq hc with ⟨hnone, -⟩ | ⟨c', hsome, hf, hpc, -⟩
      · cases hnone
      · cases hsome
        exact .goto hf (by simp [FiberState.waits, hpc])
  | arm t =>
    obtain ⟨c, hc, h⟩ := bind_eq_ok h
    cases h
    obtain ⟨hf, hpc⟩ := loopAt_eq hc
    refine .goes ?_ ?_ ?_ <;> rw [hf]
    · rfl
    · rintro ⟨hcancelled, harmed⟩
      refine ⟨hcancelled.imp_right fun hx => ⟨hx.1, by simp [hx.2]⟩, fun hx => ?_⟩
      rcases Bool.or_eq_true_iff.mp hx with hx | hx
      · exact harmed hx
      · simpa using hx
    · simp [FiberState.waits, hpc]
  | add t failure =>
    obtain ⟨c, hc, h⟩ := bind_eq_ok h
    obtain ⟨hf, hpc⟩ := loopAt_eq hc
    cases failure with
    | none =>
      cases h
      exact .registers hf hpc
    | some errno =>
      cases h
      have hpending : (s.fibers t).pending = some c.op := by
        rw [hf]
        rfl
      have hwaits : (s.fibers t).waits = false := by
        rw [hf]
        simp [FiberState.waits, hpc]
      exact .fails hpending hwaits fun _ => trivial
  | yield t =>
    obtain ⟨c, hc, h⟩ := bind_eq_ok h
    obtain ⟨hf, hpc⟩ := loopAt_eq hc
    cases h
    exact .goto hf (by simp [FiberState.waits, hpc])
  | expire t =>
    simp only [step] at h
    split at h
    · rename_i c hf
      by_cases harmed : c.armed = true
      · rw [if_pos harmed] at h
        cases h
        refine .goes ?_ ?_ ?_ <;> rw [hf]
        · rfl
        · rintro ⟨hcancelled, hfinite⟩
          refine ⟨.inr ⟨?_, harmed⟩, hfinite⟩
          show (if c.cancelled = 0 then ETIMEDOUT else c.cancelled) = ETIMEDOUT
          split_ifs with hz
          · rfl
          · exact (hcancelled.resolve_left hz).1
        · rfl
      · rw [if_neg harmed] at h
        cases h
    · cases h
  | report t =>
    simp only [step] at h
    split_ifs at h with ht
    cases h
    exact .reports ht
  | resume t =>
    obtain ⟨c, hc, h⟩ := bind_eq_ok h
    obtain ⟨hf, hpc⟩ := loopAt_eq hc
    split_ifs at h with hq
    cases h
    exact .resumes hf hpc hq
  | cancelTimer t =>
    obtain ⟨c, hc, h⟩ := bind_eq_ok h
    obtain ⟨hf, hpc⟩ := loopAt_eq hc
    cases h
    exact .goto hf (by simp [FiberState.waits, hpc])
  | check t =>
    obtain ⟨c, hc, h⟩ := bind_eq_ok h
    obtain ⟨hf, hpc⟩ := loopAt_eq hc
    have hwaits : (s.fibers t).waits = false := by
      rw [hf]
      simp [FiberState.waits, hpc]
    split_ifs at h with hz
    · cases h
      have hpending : (s.fibers t).pending = some c.op := by
        rw [hf]
        rfl
      refine .fails hpending hwaits ?_
      rw [hf]
      rintro ⟨hcancelled, hfinite⟩
      obtain ⟨he, harmed⟩ := hcancelled.resolve_left hz
      exact ⟨he, hfinite harmed⟩
    · cases h
      rw [hf] at hwaits
      exact .goto hf (hwaits ▸ rfl)
  | change k =>
    cases h
    exact .changes
  | setCtx fd c =>
    cases h
    exact .rest rfl rfl rfl rfl
  | setHook t flag =>
    cases h
    exact .rest rfl rfl rfl rfl

/-! ## Whole runs -/

omit [DecidableEq τ] in
theorem System.follow_append (K : System σ ω) (k : σ) (es es' : List (Event τ σ ω)) :
    K.follow k (es ++ es') = (K.follow k es).bind fun k' => K.follow k' es' := by
  induction es generalizing k with
  | nil => rfl
  | cons e es ih =>
    cases e with
    | answered t op a =>
      simp only [List.cons_append, System.follow]
      cases K.call op k with
      | none => rfl
      | some r =>
        dsimp only
        split_ifs
        · exact ih r.2
        · rfl
    | changed k' => exact ih k'
    | invoked t op => exact ih k
    | failed t why errno => exact ih k

/-- What the fiber `t` is in after a step on the fiber `u`. -/
theorem set_fibers (s : State τ σ ω) (u t : τ) (x : FiberState ω) :
    (s.set u x).fibers t = if t = u then x else s.fibers t := by
  show Function.update s.fibers u x t = _
  by_cases h : t = u
  · subst h
    rw [Function.update_self, if_pos rfl]
  · rw [Function.update_of_ne h, if_neg h]

structure Told (k : σ) (es : List (Event τ σ ω)) (s : State τ σ ω) : Prop where
  kernel : K.follow k es = some s.kernel
  fibers : ∀ t, Tidy (es.filter (Event.isOf t)) (s.fibers t).pending
  sound : ∀ t, (s.fibers t).Sound

theorem filter_self {es : List (Event τ σ ω)} {e : Event τ σ ω} (he : e.isOf t = true) :
    (es ++ [e]).filter (Event.isOf t) = es.filter (Event.isOf t) ++ [e] := by
  rw [List.filter_append, List.filter_singleton, he]
  rfl

theorem filter_other {es : List (Event τ σ ω)} {e : Event τ σ ω} (he : e.isOf t = false) :
    (es ++ [e]).filter (Event.isOf t) = es.filter (Event.isOf t) := by
  rw [List.filter_append, List.filter_singleton, he]
  exact List.append_nil _

theorem Told.fiber {k : σ} {es : List (Event τ σ ω)} {e : Event τ σ ω} {u : τ} {x : FiberState ω}
    (h : Told (K := K) k es s) (hother : ∀ t, t ≠ u → e.isOf t = false)
    (hu : Tidy ((es ++ [e]).filter (Event.isOf u)) x.pending)
    (hkernel : K.follow k (es ++ [e]) = some s'.kernel) (hfibers : s'.fibers = (s.set u x).fibers) (hx : x.Sound) :
    Told (K := K) k (es ++ [e]) s' := by
  refine ⟨hkernel, fun t => ?_, fun t => ?_⟩ <;> rw [hfibers, set_fibers]
  · by_cases ht : t = u
    · subst ht
      rw [if_pos rfl]
      exact hu
    · rw [if_neg ht, filter_other (hother t ht)]
      exact h.fibers t
  · split_ifs
    · exact hx
    · exact h.sound t

theorem Told.silent {k : σ} {es : List (Event τ σ ω)} {u : τ} {x : FiberState ω} (h : Told (K := K) k es s)
    (hkernel : s'.kernel = s.kernel) (hfibers : s'.fibers = (s.set u x).fibers)
    (hx : x.pending = (s.fibers u).pending) (hs : (s.fibers u).Sound → x.Sound) : Told (K := K) k (es ++ []) s' := by
  rw [List.append_nil]
  refine ⟨by rw [hkernel]; exact h.kernel, fun t => ?_, fun t => ?_⟩ <;> rw [hfibers, set_fibers] <;> split_ifs with ht
  · rw [hx, ← ht]
    exact h.fibers t
  · exact h.fibers t
  · exact hs (h.sound u)
  · exact h.sound t

theorem Told.move {k : σ} {es es' : List (Event τ σ ω)} (h : Told (K := K) k es s) (hm : Move K s es' s') :
    Told (K := K) k (es ++ es') s' := by
  have hsame : ∀ e : Event τ σ ω, (∀ k', K.follow k' [e] = some k') → K.follow k (es ++ [e]) = some s.kernel := by
    intro e he
    rw [System.follow_append, h.kernel]
    exact he _
  cases hm with
  | @invokes u op ht =>
    refine h.fiber (u := u) (fun t ht => by simpa [Event.isOf] using Ne.symm ht) ?_ (hsame _ fun _ => rfl) rfl trivial
    rw [filter_self (by simp [Event.isOf])]
    have hu := h.fibers u
    rw [ht] at hu
    exact .invoked hu
  | goes hx hs => exact h.silent rfl rfl hx hs
  | registers hf hpc => exact h.silent rfl rfl (by rw [hf]; rfl) (by rw [hf]; exact id)
  | reports ht =>
    rw [List.append_nil]
    exact ⟨h.kernel, h.fibers, h.sound⟩
  | resumes hf hpc hq => exact h.silent rfl rfl (by rw [hf]; rfl) (by rw [hf]; exact id)
  | @fails u op why errno ht hw hwhy =>
    refine h.fiber (u := u) (fun t ht => by simpa [Event.isOf] using Ne.symm ht) ?_ (hsame _ fun _ => rfl) rfl trivial
    rw [filter_self (by simp [Event.isOf])]
    have hu := h.fibers u
    rw [ht] at hu
    exact .failed hu (hwhy (h.sound u))
  | @answers u op a k' ht hw hcall =>
    refine h.fiber (u := u) (fun t ht => by simpa [Event.isOf] using Ne.symm ht) ?_ ?_ rfl trivial
    · rw [filter_self (by simp [Event.isOf])]
      have hu := h.fibers u
      rw [ht] at hu
      exact .answered hu
    · rw [System.follow_append, h.kernel]
      simp [System.follow, hcall]
  | @changes k' =>
    refine ⟨?_, fun t => ?_, h.sound⟩
    · rw [System.follow_append, h.kernel]
      rfl
    · rw [filter_other rfl]
      exact h.fibers t
  | rest hk hf =>
    rw [List.append_nil]
    refine ⟨by rw [hk]; exact h.kernel, fun t => ?_, fun t => ?_⟩ <;> rw [hf]
    · exact h.fibers t
    · exact h.sound t

theorem run_told {k : σ} {hookEnable : τ → Bool}
    {h : List (Entry (State τ σ ω) (Label τ σ ω) (List (Event τ σ ω)))}
    (hr : Run (machine K k hookEnable) h s) : Told (K := K) k (events h) s := by
  induction hr with
  | start hs =>
    cases hs
    exact ⟨rfl, fun _ => .nil, fun _ => trivial⟩
  | @step h s s' l es hr _ hs ih =>
    have hevents : events (h ++ [⟨s, l, es, s'⟩]) = events h ++ es := by simp [events]
    rw [hevents]
    exact ih.move (step_move hs)

/-! ## What resumes the fibers -/

/-- A fiber that waits is resumed once, another one not at all. -/
def State.Awaited (s : State τ σ ω) : Prop := ∀ t, s.wakeups t = (s.fibers t).waits.toNat

/-- The fiber `u` goes on, and nothing resumes it or another one. -/
theorem State.Awaited.silent {u : τ} {x : FiberState ω} (h : s.Awaited) (hfibers : s'.fibers = (s.set u x).fibers)
    (hr : s'.registered = s.registered) (hq : s'.queue = s.queue) (hx : x.waits = (s.fibers u).waits) : s'.Awaited := by
  intro t
  rw [State.wakeups, hr, hq, hfibers, set_fibers]
  split_ifs with ht
  · rw [hx, ← ht]
    exact h t
  · exact h t

theorem State.Awaited.move {es : List (Event τ σ ω)} (h : s.Awaited) (hm : Move K s es s') : s'.Awaited := by
  cases hm with
  | invokes ht => exact h.silent rfl rfl rfl (waits_of_none ht).symm
  | goes hx hs hw => exact h.silent rfl rfl rfl hw
  | fails ht hw => exact h.silent rfl rfl rfl hw.symm
  | answers ht hw => exact h.silent rfl rfl rfl hw.symm
  | changes => exact h
  | rest hk hf hr hq =>
    intro t
    rw [State.wakeups, hr, hq, hf]
    exact h t
  | @registers u c hf hpc =>
    have hu := h u
    rw [hf] at hu
    intro t
    show (Function.update s.registered u true t).toNat + s.queue.count t = (((s.goto u c .yield).fibers t).waits).toNat
    rw [State.goto, set_fibers]
    by_cases ht : t = u
    · subst ht
      have hzero : s.wakeups t = 0 := by simpa [FiberState.waits, hpc] using hu
      rw [Function.update_self, if_pos rfl, (Nat.add_eq_zero_iff.mp hzero).2]
      rfl
    · rw [Function.update_of_ne ht, if_neg ht]
      exact h t
  | @reports u hu =>
    intro t
    show (Function.update s.registered u false t).toNat + (s.queue ++ [u]).count t = ((s.fibers t).waits).toNat
    rw [← h t, State.wakeups, List.count_append]
    by_cases ht : t = u
    · subst ht
      simp [hu, Nat.add_comm]
    · rw [Function.update_of_ne ht, List.count_singleton, if_neg (by simpa using Ne.symm ht), Nat.add_zero]
  | @resumes u c hf hpc hq =>
    have hu := h u
    rw [hf] at hu
    intro t
    show (s.registered t).toNat + (s.queue.erase u).count t = (((s.goto u c .awake).fibers t).waits).toNat
    rw [State.goto, set_fibers]
    by_cases ht : t = u
    · subst ht
      have hcount := List.count_pos_iff.mpr hq
      have hone : s.wakeups t = 1 := by simpa [FiberState.waits, hpc] using hu
      rw [List.count_erase_self, if_pos rfl]
      show (s.registered t).toNat + (s.queue.count t - 1) = 0
      rw [State.wakeups] at hone
      omega
    · rw [List.count_erase_of_ne ht, if_neg ht]
      exact h t

theorem run_awaited {k : σ} {hookEnable : τ → Bool}
    {h : List (Entry (State τ σ ω) (Label τ σ ω) (List (Event τ σ ω)))}
    (hr : Run (machine K k hookEnable) h s) : s.Awaited := by
  refine hr.invariant (P := State.Awaited) ?_ ?_
  · rintro s rfl t
    rfl
  · exact fun s i o t hs _ hstep => hs.move (step_move hstep)

/-! ## The way out -/

def Label.fiber : Label τ σ ω → Option τ
  | invoke t _ | enter t | answer t | interrupt t | wouldWait t | arm t | add t _ | yield t | cancelTimer t | check t =>
    some t
  | expire _ | report _ | resume _ | change _ | setCtx _ _ | setHook _ _ => none

def Label.wakes (t : τ) : Label τ σ ω → Bool
  | report u | resume u => u = t
  | _ => false

/-- The fiber is in a wait, or the `addEvent` before it. -/
def FiberState.toWait : FiberState ω → Bool
  | loop c => c.pc = .arm || c.pc = .add || c.pc = .yield || c.pc = .suspended
  | _ => false

/-- The steps up to the return of a call whose system call is answered, without `report`. -/
def Pc.distance : Pc → Nat
  | io => 1
  | check => 2
  | awake => 3
  | suspended => 4
  | yield => 5
  | add => 7
  | arm => 8

def FiberState.distance : FiberState ω → Nat
  | outside => 0
  | entered _ => 2
  | direct _ => 1
  | loop c => c.pc.distance

def State.distance (s : State τ σ ω) (t : τ) : Nat := (s.fibers t).distance + (s.registered t).toNat

/-- The step `l` leads to `s'`, nearer to the return of the call `op` of the fiber `t`. -/
structure Nearer (s : State τ σ ω) (t : τ) (op : ω) (l : Label τ σ ω) (s' : State τ σ ω) : Prop where
  own : l.fiber = some t ∨ (s.fibers t).toWait = true ∧ l.wakes t = true
  distance : s'.distance t < s.distance t
  rest : s'.fibers t = .outside ∨ (s'.fibers t).pending = some op ∧ s'.kernel = s.kernel ∧
    ((s'.fibers t).toWait = true → (s.fibers t).toWait = true)

theorem set_fibers_self (s : State τ σ ω) (t : τ) (x : FiberState ω) : (s.set t x).fibers t = x :=
  Function.update_self ..

theorem nearer_set {op : ω} {l : Label τ σ ω} {x : FiberState ω} (hl : l.fiber = some t)
    (hx : x.distance < (s.fibers t).distance)
    (hp : x = .outside ∨ x.pending = some op ∧ (x.toWait = true → (s.fibers t).toWait = true)) :
    Nearer s t op l (s.set t x) := by
  refine ⟨.inl hl, ?_, ?_⟩
  · rw [State.distance, set_fibers_self]
    exact Nat.add_lt_add_right hx _
  · rw [set_fibers_self]
    exact hp.imp_right fun hp => ⟨hp.1, rfl, hp.2⟩

theorem nearer_goto {c c' : Call ω} {pc : Pc} {l : Label τ σ ω} (hf : s.fibers t = .loop c) (hl : l.fiber = some t)
    (hop : c'.op = c.op) (hpc : pc.distance < c.pc.distance)
    (hw : (FiberState.loop { c' with pc }).toWait = true → (FiberState.loop c).toWait = true) :
    Nearer s t c.op l (s.goto t c' pc) := by
  refine nearer_set hl ?_ (.inr ⟨?_, ?_⟩)
  · rw [hf]
    exact hpc
  · rw [← hop]
    rfl
  · rw [hf]
    exact hw

theorem nearer_of_trying {op : ω} {c : Option (Call ω)} (ht : s.trying t = .ok (c, op))
    (hcall : (K.call op s.kernel).isSome = true) (hx : 0 < (s.fibers t).distance) :
    ∃ l es s', step K s l = .ok (es, s') ∧ Nearer s t op l s' := by
  obtain ⟨⟨a, k⟩, hcall⟩ := Option.isSome_iff_exists.mp hcall
  have hout : ({ s.set t .outside with kernel := k } : State τ σ ω).fibers t = .outside := set_fibers_self s t _
  refine ⟨.answer t, [.answered t op a], { s.set t .outside with kernel := k }, ?_, .inl rfl, ?_, .inl hout⟩
  · simp only [step, ht]
    show (match K.call op s.kernel with
      | some (a, k) => _
      | none => _) = _
    rw [hcall]
  · rw [State.distance, hout]
    exact Nat.add_lt_add_right hx _

theorem nearer_enter {op : ω} (hf : s.fibers t = .entered op) :
    ∃ l es s', step K s l = .ok (es, s') ∧ Nearer s t op l s' := by
  have hdo : step K s (.enter t) = match doIo K s t op with
      | .inl x => .ok ([], s.set t x)
      | .inr why => .ok (s.fail t why EBADF) := by
    simp only [step, hf]
  have hpaths : (∃ x, doIo K s t op = .inl x ∧ x.pending = some op ∧ x.distance = 1 ∧ x.toWait = false) ∨
      ∃ why, doIo K s t op = .inr why := by
    unfold doIo
    split_ifs
    · exact .inl ⟨_, rfl, rfl, rfl, rfl⟩
    · split
      · exact .inl ⟨_, rfl, rfl, rfl, rfl⟩
      · split_ifs
        · exact .inr ⟨_, rfl⟩
        · exact .inl ⟨_, rfl, rfl, rfl, rfl⟩
        · exact .inl ⟨_, rfl, rfl, rfl, rfl⟩
  rcases hpaths with ⟨x, hx, hpending, hdist, hwait⟩ | ⟨why, hwhy⟩
  · rw [hx] at hdo
    refine ⟨_, _, _, hdo, nearer_set rfl ?_ (.inr ⟨hpending, fun h => ?_⟩)⟩
    · rw [hdist, hf]
      exact Nat.one_lt_two
    · rw [hwait] at h
      cases h
  · rw [hwhy] at hdo
    refine ⟨_, _, _, hdo, nearer_set rfl ?_ (.inl rfl)⟩
    rw [hf]
    exact Nat.two_pos

/-- A fiber whose context is saved: an event context holds it, or the queue. -/
theorem nearer_suspended (h : s.Awaited) {c : Call ω} (hf : s.fibers t = .loop c) (hpc : c.pc = .suspended) :
    ∃ l es s', step K s l = .ok (es, s') ∧ Nearer s t c.op l s' := by
  have hwait : (s.fibers t).toWait = true := by
    rw [hf]
    simp [FiberState.toWait, hpc]
  have ht := h t
  rw [hf] at ht
  cases hr : s.registered t with
  | true =>
    refine ⟨.report t, [], _, if_pos hr, .inr ⟨hwait, decide_eq_true rfl⟩, ?_, .inr ⟨?_, rfl, id⟩⟩
    · simp [State.distance, hr]
    · show (s.fibers t).pending = _
      rw [hf]
      rfl
  | false =>
    have hq : t ∈ s.queue := by
      have hone : s.queue.count t = 1 := by simpa [State.wakeups, FiberState.waits, hpc, hr] using ht
      exact List.count_pos_iff.mp (by rw [hone]; exact Nat.one_pos)
    have hat : s.loopAt t .suspended = .ok c := by simp [State.loopAt, hf, hpc]
    have hs : step K s (.resume t) = .ok ([], { s.goto t c .awake with queue := s.queue.erase t }) := by
      simp only [step, hat]
      exact if_pos hq
    refine ⟨_, _, _, hs, .inr ⟨hwait, decide_eq_true rfl⟩, ?_, .inr ⟨?_, rfl, fun _ => hwait⟩⟩
    · show ((s.goto t c .awake).fibers t).distance + (s.registered t).toNat < _
      rw [State.goto, set_fibers_self, State.distance, hf]
      refine Nat.add_lt_add_right (?_ : Pc.awake.distance < c.pc.distance) _
      rw [hpc]
      decide
    · show ((s.goto t c .awake).fibers t).pending = _
      rw [State.goto, set_fibers_self]
      rfl

/-- **A step towards the return of the call**, where the system call is answered. -/
theorem step_nearer (h : s.Awaited) {op : ω} (hp : (s.fibers t).pending = some op)
    (hcall : (K.call op s.kernel).isSome = true) : ∃ l es s', step K s l = .ok (es, s') ∧ Nearer s t op l s' := by
  cases hf : s.fibers t with
  | outside =>
    rw [hf] at hp
    cases hp
  | entered op' =>
    rw [hf] at hp
    cases hp
    exact nearer_enter hf
  | direct op' =>
    rw [hf] at hp
    cases hp
    refine nearer_of_trying (c := none) ?_ hcall ?_
    · rw [State.trying, hf]
    · rw [hf]
      exact Nat.one_pos
  | loop c =>
    rw [hf] at hp
    cases hp
    obtain ⟨op, timeout, pc, armed, cancelled⟩ := c
    have hat : s.loopAt t pc = .ok ⟨op, timeout, pc, armed, cancelled⟩ := by simp [State.loopAt, hf]
    cases pc with
    | io =>
      refine nearer_of_trying (c := some ⟨op, timeout, .io, armed, cancelled⟩) ?_ hcall ?_
      · simp [State.trying, hf]
      · rw [hf]
        exact Nat.one_pos
    | arm =>
      have hs : step K s (.arm t) = .ok ([], s.goto t ⟨op, timeout, .arm, armed || timeout != -1, cancelled⟩ .add) := by
        simp only [step, hat]
        rfl
      exact ⟨_, _, _, hs, nearer_goto hf rfl rfl (show Pc.add.distance < Pc.arm.distance by decide) fun _ => rfl⟩
    | add =>
      have hs : step K s (.add t none) =
          .ok ([], { s.goto t ⟨op, timeout, .add, armed, cancelled⟩ .yield with
            registered := Function.update s.registered t true }) := by
        simp only [step, hat]
        rfl
      refine ⟨_, _, _, hs, .inl rfl, ?_, .inr ⟨?_, rfl, fun _ => ?_⟩⟩
      · show ((s.goto t _ .yield).fibers t).distance + (Function.update s.registered t true t).toNat < _
        rw [State.goto, set_fibers_self, Function.update_self, State.distance, hf]
        exact Nat.lt_add_right _ (show Pc.yield.distance + 1 < Pc.add.distance by decide)
      · show ((s.goto t _ .yield).fibers t).pending = _
        rw [State.goto, set_fibers_self]
        rfl
      · rw [hf]
        rfl
    | yield =>
      have hs : step K s (.yield t) = .ok ([], s.goto t ⟨op, timeout, .yield, armed, cancelled⟩ .suspended) := by
        simp only [step, hat]
        rfl
      have hpc : Pc.suspended.distance < Pc.yield.distance := by decide
      exact ⟨_, _, _, hs, nearer_goto hf rfl rfl hpc fun _ => rfl⟩
    | suspended => exact nearer_suspended h hf rfl
    | awake =>
      have hs : step K s (.cancelTimer t) = .ok ([], s.goto t ⟨op, timeout, .awake, armed, cancelled⟩ .check) := by
        simp only [step, hat]
        rfl
      exact ⟨_, _, _, hs, nearer_goto hf rfl rfl (show Pc.check.distance < Pc.awake.distance by decide) id⟩
    | check =>
      by_cases hz : cancelled = 0
      · have hs : step K s (.check t) = .ok ([], s.goto t ⟨op, timeout, .check, armed, cancelled⟩ .io) := by
          simp only [step, hat]
          exact if_neg (not_not.mpr hz)
        exact ⟨_, _, _, hs, nearer_goto hf rfl rfl (show Pc.io.distance < Pc.check.distance by decide) id⟩
      · have hs : step K s (.check t) = .ok ([.failed t (.timeout timeout) cancelled], s.set t .outside) := by
          simp only [step, hat]
          exact if_pos hz
        refine ⟨_, _, _, hs, nearer_set rfl ?_ (.inl rfl)⟩
        rw [hf]
        exact Nat.two_pos

/-- A call whose system call is answered can return, once it is resumed if it has to wait, without a step of anybody
else. -/
theorem run_returns {k : σ} {hookEnable : τ → Bool}
    {h : List (Entry (State τ σ ω) (Label τ σ ω) (List (Event τ σ ω)))} (hr : Run (machine K k hookEnable) h s) {op : ω}
    (hp : (s.fibers t).pending = some op) (hcall : (K.call op s.kernel).isSome = true) :
    ∃ h' s', Run (machine K k hookEnable) (h ++ h') s' ∧ s'.fibers t = .outside ∧
      ∀ e ∈ h', e.inp.fiber = some t ∨ (s.fibers t).toWait = true ∧ e.inp.wakes t = true := by
  induction hn : s.distance t using Nat.strong_induction_on generalizing h s with
  | _ n ih =>
    obtain ⟨l, es, s₁, hs, hnear⟩ := step_nearer (run_awaited hr) hp hcall
    have hr₁ := hr.step (i := l) trivial hs
    rcases hnear.rest with hout | ⟨hp₁, hk, hwait⟩
    · exact ⟨_, s₁, hr₁, hout, fun e he => by rw [List.mem_singleton.mp he]; exact hnear.own⟩
    · have hlt := hnear.distance
      rw [hn] at hlt
      rw [← hk] at hcall
      obtain ⟨h', s', hr', hout, hall⟩ := ih _ hlt hr₁ hp₁ hcall rfl
      rw [List.append_assoc] at hr'
      refine ⟨_, s', hr', hout, fun e he => ?_⟩
      rcases List.mem_append.mp he with he | he
      · rw [List.mem_singleton.mp he]
        exact hnear.own
      · exact (hall e he).imp_right fun hx => ⟨hwait hx.1, hx.2⟩

/-- A pipe of bytes: reading waits for one. -/
def pipe : System (List Nat) Unit where
  fd _ := 5
  timeoutSo _ := .recv
  call _ bytes :=
    match bytes with
    | [] => none
    | b :: rest => some (⟨b, 0⟩, rest)

instance (k : List Nat) (hookEnable : Bool → Bool) (s : State Bool (List Nat) Unit) (l : Label Bool (List Nat) Unit) :
    Decidable ((machine pipe k hookEnable).enabled s l) := isTrue trivial

end

end QWebServer.Transparent
