import Mathlib.Data.List.Basic

/-!
# `schedular.h`: the entries of `m_fibers`

* `Fiber.State` : the states of a fiber;
* `FiberAndThread` : an entry of `m_fibers`, over the types `φ` of fibers and `κ` of callbacks; a `Fiber::ptr` and a
  `std::function` are `Option`s;
* `ofFiberPtr`, `ofCbPtr` : the constructors that swap what their pointer argument holds into the entry.
-/

namespace QWebServer

inductive Fiber.State
  | init
  | hold
  | exec
  | term
  | ready
  | except
  deriving DecidableEq

structure FiberAndThread (φ κ : Type) where
  fiber : Option φ := none
  cb : Option κ := none
  thread : Int := -1
  deriving DecidableEq

namespace FiberAndThread

variable {φ κ : Type}

/-- `FiberAndThread(Fiber::ptr* f, int thr)`: the entry, and what `*f` holds after the swap. -/
def ofFiberPtr (f : Option φ) (thr : Int) : FiberAndThread φ κ × Option φ :=
  ({ fiber := f, thread := thr }, none)

/-- `FiberAndThread(std::function<void()>* f, int thr)`: the entry, and what `*f` holds after the swap. -/
def ofCbPtr (f : Option κ) (thr : Int) : FiberAndThread φ κ × Option κ :=
  ({ cb := f, thread := thr }, none)

/-- The test `ft.fiber || ft.cb`. -/
def nonempty (ft : FiberAndThread φ κ) : Bool := ft.fiber.isSome || ft.cb.isSome

end FiberAndThread

end QWebServer
