import Mathlib.Data.List.Basic
import Mathlib.Tactic.SplitIfs

/-!
# YAML nodes

* `Node` : the trees that a YAML library loads and prints, `get`, `put` : the value at a key of a map;
* `Yaml` : the library: `load`, `dump`, and what it does where a node is used as what it is not;
* `children`, `text`, `asString` : the elements of a node by their index, a node as it is streamed, and as a string.
-/

namespace QWebServer.Lib

/-- A node. The entries of a map are in the order they were made or loaded. -/
inductive Node
  | null
  | scalar (s : List Char)
  | seq (l : List Node)
  | map (l : List (Node × Node))

namespace Node

def isScalar (k : List Char) : Node → Bool
  | scalar s => s == k
  | _ => false

/-- The text of a scalar, and an empty one for other nodes. -/
def scalarText : Node → List Char
  | scalar s => s
  | _ => []

/-- `node[k]` of a map with the entries `l`, when it is defined. -/
def entry (l : List (Node × Node)) (k : List Char) : Option Node := (l.find? fun e => e.1.isScalar k).map Prod.snd

/-- `node[k]`, when it is defined; it is no question to ask a scalar. -/
def get (k : List Char) : Node → Option (Option Node)
  | map l => some (entry l k)
  | scalar _ => none
  | _ => some none

/-- `node[k] = v` of a map with the entries `l`. -/
def put (k : List Char) (v : Node) : List (Node × Node) → List (Node × Node)
  | [] => [(scalar k, v)]
  | e :: l => if e.1.isScalar k then (e.1, v) :: l else e :: put k v l

theorem put_new {k : List Char} {l : List (Node × Node)} (h : ∀ e ∈ l, e.1.isScalar k = false) (v : Node) :
    put k v l = l ++ [(scalar k, v)] := by
  induction l with
  | nil => rfl
  | cons e l ih =>
    rw [put, if_neg (by simp [h e (by simp)]), ih fun e he => h e (by simp [he])]
    rfl

end Node

/-- A YAML library. `load` fails on a text that is not YAML. Where a map is read by an index it answers `mapIndex`, and
`nullString` for a null node that is read as a string. -/
structure Yaml where
  load : List Char → Option Node
  dump : Node → List Char
  mapIndex : List (Node × Node) → Nat → Option Node := fun _ _ => none
  nullString : Option (List Char) := none

namespace Yaml

variable (y : Yaml)

def children : Node → List (Option Node)
  | .seq l => l.map some
  | .map l => (List.range l.length).map (y.mapIndex l)
  | _ => []

/-- A node as it is streamed; one that is not defined prints nothing. -/
def text : Option Node → List Char
  | some n => y.dump n
  | none => []

/-- `node.as<std::string>()`. -/
def asString : Node → Option (List Char)
  | .scalar s => some s
  | .null => y.nullString
  | _ => none

end Yaml

end QWebServer.Lib
