import Mathlib.Data.List.Nodup
import QWebServer.Lib.Run

/-!
# `config.h`: configuration variables

* `ConfigVar` : `m_val` and the listeners in `m_cbs`, over the type `α` of values and the type `ρ` of what listeners
  write to;
* `compareAndNotify`, `store` : the read-locked and the write-locked section of `setValue`, `setValue` : both in a row;
* `addListener` : the next key, and the listener at it.
-/

namespace QWebServer

/-- `ConfigVar`. A listener gets the old and the new value; the keys of `m_cbs` are in increasing order. -/
structure ConfigVar (α ρ : Type) where
  val : α
  cbs : List (Nat × (α → α → ρ → ρ))
  keys : (cbs.map Prod.fst).Nodup

namespace ConfigVar

variable {α ρ : Type}

def new (defaultValue : α) : ConfigVar α ρ := { val := defaultValue, cbs := [], keys := List.nodup_nil }

/-- `ConfigVar::addListener`, with the value of `s_fun_id` before. -/
def addListener (c : ConfigVar α ρ) (funId : Nat) (cb : α → α → ρ → ρ) (hk : ∀ k ∈ c.cbs.map Prod.fst, k ≤ funId) :
    ConfigVar α ρ where
  val := c.val
  cbs := c.cbs ++ [(funId + 1, cb)]
  keys := by
    rw [List.map_append, List.nodup_append]
    refine ⟨c.keys, List.nodup_singleton _, ?_⟩
    rintro k hk' _ hs rfl
    have := hk k hk'
    rw [List.map_singleton, List.mem_singleton] at hs
    omega

def notify (c : ConfigVar α ρ) (v : α) (w : ρ) : ρ := c.cbs.foldl (fun w cb => cb.2 c.val v w) w

/-- The read-locked section of `setValue`: nothing when `m_val == v`, else the listeners are called. -/
def compareAndNotify [BEq α] (c : ConfigVar α ρ) (v : α) (w : ρ) : Option ρ :=
  if c.val == v then none else some (c.notify v w)

/-- The write-locked section of `setValue`. -/
def store (c : ConfigVar α ρ) (v : α) : ConfigVar α ρ := { c with val := v }

def setValue [BEq α] (c : ConfigVar α ρ) (v : α) (w : ρ) : ConfigVar α ρ × ρ :=
  match c.compareAndNotify v w with
  | none => (c, w)
  | some w => (c.store v, w)

end ConfigVar

end QWebServer
