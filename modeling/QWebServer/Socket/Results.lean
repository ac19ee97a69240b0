import QWebServer.Socket.Ownership

/-!
# `socket.cpp`: the results of the wrappers of system calls

* `Answer` : the outcome of `getsockopt`;
* `listen`, `getOption`, `setOption`, `getError` : over the system calls, as functions of the descriptor and the
  arguments; `bind` and `connect` are those of the model of descriptors and addresses;
* `Wrapper` : the functions with their arguments, `Mirrors` : the result tells the outcome of the system call,
  `mirrors_iff` : when it does.
-/

namespace QWebServer.Sockets

variable {σ ν : Type}

def SOL_SOCKET : Int := 1

def SO_ERROR : Int := 4

/-- The outcome of `getsockopt`: the value of the option, or the number of an error in `errno`. -/
inductive Answer (ν : Type)
  | value (v : ν)
  | failed (errno : Int) (ne_zero : errno ≠ 0)

/-- The call returns 0. -/
def Answer.succeeded : Answer ν → Bool
  | value _ => true
  | failed .. => false

def Answer.errno (before : Int) : Answer ν → Int
  | value _ => before
  | failed errno _ => errno

namespace Socket

/-- `Socket::listen`; `listen` tells whether `::listen` returns 0. -/
def listen (x : Socket σ) (listen : Int → Int → Bool) (backlog : Int) : Bool :=
  if x.sock = -1 then false else listen x.sock backlog

/-- `Socket::getOption`: what it returns and `*result` after it. A failure is logged, no more. -/
def getOption (x : Socket σ) (getsockopt : Int → Int → Int → Answer ν) (level option : Int) (result : ν) : Bool × ν :=
  match getsockopt x.sock level option with
  | .value v => (true, v)
  | .failed .. => (true, result)

/-- `Socket::setOption`; `setsockopt` tells whether the call returns 0. A failure is logged, no more. -/
def setOption (x : Socket σ) (setsockopt : Int → Int → Int → ν → Bool) (level option : Int) (value : ν) : Bool :=
  match setsockopt x.sock level option value with
  | true => true
  | false => true

def getError (x : Socket σ) (getsockopt : Int → Int → Int → Answer Int) (errno : Int) : Int :=
  let (ok, error) := x.getOption getsockopt SOL_SOCKET SO_ERROR 0
  if !ok then (getsockopt x.sock SOL_SOCKET SO_ERROR).errno errno else error

inductive Wrapper (σ ν : Type)
  | bind (k : Kernel σ) (address : Address σ) (o : Binding σ)
  | listen (listen : Int → Int → Bool) (backlog : Int)
  | connect (k : Kernel σ) (address : Address σ) (o : Connecting σ)
  | setOption (setsockopt : Int → Int → Int → ν → Bool) (level option : Int) (value : ν)
  | getOption (getsockopt : Int → Int → Int → Answer ν) (level option : Int) (result : ν)
  | getError (getsockopt : Int → Int → Int → Answer Int) (errno : Int)

/-- The result tells whether the system call was made and succeeded; that of `getError` is the error of the socket, or
`errno`. `bind` has a descriptor, an address of its family and one that no peer listens on. -/
def Mirrors (x : Socket σ) : Wrapper σ ν → Prop
  | .bind k address o =>
    x.Reaches o.returned address → ¬ Probed address o → ((x.bind k address o).1 = true ↔ o.bound = true)
  | .listen listen backlog => x.listen listen backlog = true ↔ x.sock ≠ -1 ∧ listen x.sock backlog = true
  | .connect k address o => (x.connect k address o).1 = true ↔ x.Reaches o.returned address ∧ o.connected = true
  | .setOption setsockopt level option value =>
    x.setOption setsockopt level option value = true ↔ setsockopt x.sock level option value = true
  | .getOption getsockopt level option result =>
    (x.getOption getsockopt level option result).1 = true ↔ (getsockopt x.sock level option).succeeded = true
  | .getError getsockopt errno =>
    match getsockopt x.sock SOL_SOCKET SO_ERROR with
    | .value v => x.getError getsockopt errno = v
    | .failed e _ => x.getError getsockopt errno = e

/-- When the result does: never for `bind`, always for `listen` and `connect`, and for the others when the system call
succeeds. -/
def Told (x : Socket σ) : Wrapper σ ν → Prop
  | .bind _ address o => ¬ (x.Reaches o.returned address ∧ ¬ Probed address o)
  | .listen .. => True
  | .connect .. => True
  | .setOption setsockopt level option value => setsockopt x.sock level option value = true
  | .getOption getsockopt level option _ => (getsockopt x.sock level option).succeeded = true
  | .getError getsockopt _ => (getsockopt x.sock SOL_SOCKET SO_ERROR).succeeded = true

/-! ## One lemma for each function -/

section
variable {x : Socket σ}

theorem listen_eq_true_iff (listen : Int → Int → Bool) (backlog : Int) :
    x.listen listen backlog = true ↔ x.sock ≠ -1 ∧ listen x.sock backlog = true := by
  unfold Socket.listen
  split_ifs with hx
  · exact iff_of_false not_false fun h => h.1 hx
  · exact ⟨fun h => ⟨hx, h⟩, And.right⟩

/-- `bind` returns what `::bind` does, as a `bool`: the failures count as successes. -/
theorem bind_eq_true_iff {k : Kernel σ} {address : Address σ} {o : Binding σ} (hreach : x.Reaches o.returned address)
    (hfree : ¬ Probed address o) : (x.bind k address o).1 = true ↔ o.bound = false := by
  unfold bind
  rw [ready_of_reaches hreach]
  unfold place
  dsimp only
  rw [if_neg (mt (used_iff address o).mp hfree)]
  cases o.bound <;> simp

theorem getOption_fst (getsockopt : Int → Int → Int → Answer ν) (level option : Int) (result : ν) :
    (x.getOption getsockopt level option result).1 = true := by
  unfold getOption
  split <;> rfl

theorem setOption_eq_true (setsockopt : Int → Int → Int → ν → Bool) (level option : Int) (value : ν) :
    x.setOption setsockopt level option value = true := by
  unfold setOption
  split <;> rfl

theorem getError_eq (getsockopt : Int → Int → Int → Answer Int) (errno : Int) :
    x.getError getsockopt errno = (x.getOption getsockopt SOL_SOCKET SO_ERROR 0).2 := by
  unfold getError
  dsimp only
  rw [getOption_fst]
  rfl

end

/-- **The results mirror the system calls exactly when** these succeed, for `setOption`, `getOption` and `getError`;
`listen` and `connect` always do, and `bind` never. -/
theorem mirrors_iff (x : Socket σ) (w : Wrapper σ ν) : x.Mirrors w ↔ x.Told w := by
  cases w with
  | bind k address o =>
    simp only [Mirrors, Told, not_and]
    refine forall₂_congr fun hreach hfree => ?_
    rw [bind_eq_true_iff hreach hfree]
    cases o.bound <;> decide
  | listen listen backlog => exact iff_of_true (listen_eq_true_iff listen backlog) trivial
  | connect k address o => exact iff_of_true (connect_eq_true_iff address o) trivial
  | setOption setsockopt level option value =>
    simp only [Mirrors, Told]
    rw [setOption_eq_true, eq_self_iff_true, true_iff]
  | getOption getsockopt level option result =>
    simp only [Mirrors, Told]
    rw [getOption_fst, eq_self_iff_true, true_iff]
  | getError getsockopt errno =>
    simp only [Mirrors, Told, getError_eq, getOption]
    cases getsockopt x.sock SOL_SOCKET SO_ERROR with
    | value v => exact iff_of_true rfl rfl
    | failed e he => exact iff_of_false (Ne.symm he) Bool.false_ne_true

/-- `bind` returns `false` for a TCP socket that the kernel bound. -/
theorem not_mirrors_bind : ¬ ∀ (x : Socket Nat) (w : Wrapper Nat Nat), x.Mirrors w := by
  intro hall
  have h := hall { sock := 5, family := IPv4, type := .TCP } (.bind (fun _ => none) { family := IPv4, addr := 80 }
    { returned := none, probe := ⟨none, false, 0, true, false⟩, released := true, bound := true, named := true })
  have hreach : Reaches { sock := 5, family := IPv4, type := .TCP } none
      ({ family := IPv4, addr := 80 } : Address Nat) := ⟨.inl (by decide), rfl⟩
  have := (h hreach (by rintro ⟨hu, -⟩; cases hu)).mpr rfl
  cases this

end Socket

end QWebServer.Sockets
