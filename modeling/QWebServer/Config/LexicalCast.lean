import Mathlib.Data.List.Lex
import Mathlib.Data.Char
import QWebServer.Lib.OrderedSet
import QWebServer.Lib.Yaml
import QWebServer.Log.Formatter

/-!
# `config.h`: conversions between containers and YAML texts

* `LexicalCast` : `LexicalCast<std::string, T>` and `LexicalCast<T, std::string>`; an exception is `none`;
* `StdSet`, `UnorderedSet`, `StdMap` : the containers, with their elements in iteration order;
* `vector`, `list`, `set`, `unorderedSet`, `map` : the conversions of a container, over those of its elements;
* `Nested` : the conversions of the types that are built from a base type by `n` containers;
* `Stable` : a value that is printed, loaded, printed and read comes back, `RoundTrips` : one that is printed and read;
* `container_roundTrips` : values of nested containers come back.

Every container prints its elements, loads each text, and prints the node of all of them: the elements of a container
come back if they are `Stable`, and then so is the container.
-/

namespace QWebServer

open Lib

/-- `LexicalCast<std::string, T>` and `LexicalCast<T, std::string>`. -/
structure LexicalCast (α : Type) where
  fromString : Text → Option α
  toString : α → Option Text

/-! ## Containers -/

/-- `std::set`. -/
@[ext] structure StdSet (α : Type) [LinearOrder α] where
  elems : List α
  sorted : OrderedSet.Sorted (· < ·) id elems

def StdSet.empty {α : Type} [LinearOrder α] : StdSet α := ⟨[], List.Pairwise.nil⟩

def StdSet.insert {α : Type} [LinearOrder α] (s : StdSet α) (a : α) : StdSet α :=
  ⟨(OrderedSet.insert (· < ·) id a s.elems).1, s.sorted.insert a⟩

structure StdMap (α : Type) where
  entries : List (Text × α)
  sorted : OrderedSet.Sorted (· < ·) Prod.fst entries

def StdMap.empty {α : Type} : StdMap α := ⟨[], List.Pairwise.nil⟩

/-- `insert(std::make_pair(k, a))`: a key that is there keeps its value. -/
def StdMap.insert {α : Type} (m : StdMap α) (e : Text × α) : StdMap α :=
  ⟨(OrderedSet.insert (· < ·) Prod.fst e m.entries).1, m.sorted.insert e⟩

/-- Where a hash table has a new element in its iteration order. -/
structure Buckets (α : Type) where
  place : List α → α → List α
  perm : ∀ l a, (place l a).Perm (a :: l)

structure UnorderedSet (α : Type) where
  elems : List α
  nodup : elems.Nodup

def UnorderedSet.insert {α : Type} [DecidableEq α] (b : Buckets α) (s : UnorderedSet α) (a : α) : UnorderedSet α :=
  if h : a ∈ s.elems then s
  else ⟨b.place s.elems a, (b.perm s.elems a).nodup_iff.mpr (List.nodup_cons.mpr ⟨h, s.nodup⟩)⟩

namespace LexicalCast

variable {α β γ : Type} (y : Yaml)

/-! ## Conversions -/

/-- `node.push_back(YAML::Load(LexicalCast<T, std::string>()(i)))` for every element. -/
def pushAll (c : LexicalCast α) (l : List α) : Option (List Node) :=
  l.mapM fun i => do y.load (← c.toString i)

/-- The conversion of a container with the elements `l` to a string. -/
def sequenceToString (c : LexicalCast α) (l : List α) : Option Text := do
  return y.dump (.seq (← pushAll y c l))

/-- The conversion of a string to a container, which is `init` before the loop. -/
def sequenceFromString (c : LexicalCast α) (insert : γ → α → γ) (init : γ) (v : Text) : Option γ := do
  let node ← y.load v
  (y.children node).foldlM (fun r n => do return insert r (← c.fromString (y.text n))) init

def vector (c : LexicalCast α) : LexicalCast (List α) where
  fromString := sequenceFromString y c (fun vec x => vec ++ [x]) []
  toString := sequenceToString y c

def list (c : LexicalCast α) : LexicalCast (List α) where
  fromString := sequenceFromString y c (fun l x => l ++ [x]) []
  toString := sequenceToString y c

def set [LinearOrder α] (c : LexicalCast α) : LexicalCast (StdSet α) where
  fromString := sequenceFromString y c StdSet.insert .empty
  toString s := sequenceToString y c s.elems

def unorderedSet [DecidableEq α] (b : Buckets α) (c : LexicalCast α) : LexicalCast (UnorderedSet α) where
  fromString := sequenceFromString y c (UnorderedSet.insert b) ⟨[], List.nodup_nil⟩
  toString s := sequenceToString y c s.elems

/-- The entries from `node.begin()` to `node.end()`; the first half of an element of a sequence is no node. -/
def iterate : Node → Option (List (Node × Node))
  | .map l => some l
  | .seq (_ :: _) => none
  | _ => some []

/-- `node[i.first] = YAML::Load(LexicalCast<T, std::string>()(i.second))` for every entry. -/
def putAll (c : LexicalCast α) (l : List (Text × α)) : Option (List (Node × Node)) :=
  l.foldlM (fun node i => do return Node.put i.1 (← y.load (← c.toString i.2)) node) []

/-- `std::make_pair(it->first.Scalar(), LexicalCast<std::string, T>()(ss.str()))`. -/
def makePair (c : LexicalCast α) (e : Node × Node) : Option (Text × α) := do
  return (e.1.scalarText, ← c.fromString (y.dump e.2))

def map (c : LexicalCast α) : LexicalCast (StdMap α) where
  fromString v := do
    let node ← y.load v
    (← iterate node).foldlM (fun m e => do return m.insert (← makePair y c e)) .empty
  toString m := do return y.dump (.map (← putAll y c m.entries))

/-! ## What comes back -/

def RoundTrips (c : LexicalCast α) (same : α → α → Prop) (x : α) : Prop :=
  ∃ text x', c.toString x = some text ∧ c.fromString text = some x' ∧ same x' x

/-- The value comes back when its text is loaded and the node is printed and read. -/
def Stable (c : LexicalCast α) (same : α → α → Prop) (x : α) : Prop :=
  ∃ text node x', c.toString x = some text ∧ y.load text = some node ∧ c.fromString (y.dump node) = some x' ∧
    same x' x

/-- The node that is built for the elements `l`. -/
def sequenceNode (c : LexicalCast α) (l : List α) : List Node := (pushAll y c l).toList.map .seq

def mapNode (c : LexicalCast α) (l : List (Text × α)) : List Node := (putAll y c l).toList.map .map

/-- The conversions of the types that are built from the one of `base` by `n` containers, with the equality of their
values and the nodes that are built for a value. Elements of sets have no equality but that of values. -/
inductive Nested (base : LexicalCast β) :
    Nat → {α : Type} → LexicalCast α → (α → α → Prop) → (α → List Node) → Prop
  | base : Nested base 0 base (· = ·) fun _ => []
  | vector {n : Nat} {α : Type} {c : LexicalCast α} {same : α → α → Prop} {built : α → List Node}
      (h : Nested base n c same built) :
      Nested base (n + 1) (vector y c) (List.Forall₂ same) fun v => sequenceNode y c v ++ v.flatMap built
  | list {n : Nat} {α : Type} {c : LexicalCast α} {same : α → α → Prop} {built : α → List Node}
      (h : Nested base n c same built) :
      Nested base (n + 1) (list y c) (List.Forall₂ same) fun v => sequenceNode y c v ++ v.flatMap built
  | set {n : Nat} {α : Type} [LinearOrder α] {c : LexicalCast α} {same : α → α → Prop} {built : α → List Node}
      (h : Nested base n c same built) (hsame : ∀ a b, same a b → a = b) :
      Nested base (n + 1) (set y c) (· = ·) fun s => sequenceNode y c s.elems ++ s.elems.flatMap built
  | unorderedSet {n : Nat} {α : Type} [DecidableEq α] (b : Buckets α) {c : LexicalCast α} {same : α → α → Prop}
      {built : α → List Node} (h : Nested base n c same built) (hsame : ∀ a b, same a b → a = b) :
      Nested base (n + 1) (unorderedSet y b c) (fun s t => ∀ a, a ∈ s.elems ↔ a ∈ t.elems)
        fun s => sequenceNode y c s.elems ++ s.elems.flatMap built
  | map {n : Nat} {α : Type} {c : LexicalCast α} {same : α → α → Prop} {built : α → List Node}
      (h : Nested base n c same built) :
      Nested base (n + 1) (map y c)
        (fun m m' => List.Forall₂ (fun e e' => e.1 = e'.1 ∧ same e.2 e'.2) m.entries m'.entries)
        fun m => mapNode y c m.entries ++ m.entries.flatMap fun e => built e.2

variable {y} {c : LexicalCast α} {same : α → α → Prop}

/-- A text that its own node prints is read as it is when the node is printed again. -/
theorem Stable.of_dump {x x' : α} {text : Text} {node : Node} (hto : c.toString x = some text)
    (hload : y.load text = some node) (hdump : y.dump node = text) (hfrom : c.fromString text = some x')
    (hsame : same x' x) : Stable y c same x := by
  refine ⟨text, node, x', hto, hload, ?_, hsame⟩
  rwa [hdump]

/-- A loop that reads and inserts is a loop that reads, and one that inserts. -/
theorem foldlM_insert {δ : Type} (read : δ → Option α) (insert : γ → α → γ) (l : List δ) (init : γ) :
    (l.foldlM (fun r n => do return insert r (← read n)) init) = (l.mapM read).map fun xs => xs.foldl insert init := by
  induction l generalizing init with
  | nil => rfl
  | cons n l ih =>
    rw [List.foldlM_cons, List.mapM_cons]
    cases read n with
    | none => rfl
    | some x =>
      show l.foldlM _ (insert init x) = _
      rw [ih]
      cases l.mapM read <;> rfl

/-- The nodes of elements that are stable, and what is read from them. -/
theorem pushAll_stable {l : List α} (h : ∀ x ∈ l, Stable y c same x) :
    ∃ nodes xs, pushAll y c l = some nodes ∧ nodes.mapM (fun n => c.fromString (y.dump n)) = some xs ∧
      List.Forall₂ same xs l := by
  induction l with
  | nil => exact ⟨[], [], rfl, rfl, .nil⟩
  | cons x l ih =>
    obtain ⟨nodes, xs, hpush, hread, hsame⟩ := ih fun z hz => h z (by simp [hz])
    obtain ⟨text, node, x', hto, hload, hfrom, hx⟩ := h x (by simp)
    refine ⟨node :: nodes, x' :: xs, ?_, ?_, .cons hx hsame⟩
    · unfold pushAll at hpush ⊢
      rw [List.mapM_cons, hto, hpush]
      simp [hload]
    · rw [List.mapM_cons, hfrom, hread]
      rfl

/-- **The text of a sequence of stable elements**: its own node prints it, and every container is read from it as the
elements that come back, inserted in turn. -/
theorem sequence_spec {l : List α} (h : ∀ x ∈ l, Stable y c same x)
    (hy : ∀ n ∈ sequenceNode y c l, y.load (y.dump n) = some n) :
    ∃ text node xs, sequenceToString y c l = some text ∧ y.load text = some node ∧ y.dump node = text ∧
      List.Forall₂ same xs l ∧
      ∀ {γ : Type} (insert : γ → α → γ) (init : γ),
        sequenceFromString y c insert init text = some (xs.foldl insert init) := by
  obtain ⟨nodes, xs, hpush, hread, hsame⟩ := pushAll_stable h
  have hload : y.load (y.dump (.seq nodes)) = some (.seq nodes) := hy _ (by simp [sequenceNode, hpush])
  refine ⟨y.dump (.seq nodes), .seq nodes, xs, ?_, hload, rfl, hsame, fun insert init => ?_⟩
  · unfold sequenceToString
    rw [hpush]
    rfl
  · unfold sequenceFromString
    rw [hload]
    show ((nodes.map some).foldlM (fun r n => do return insert r (← c.fromString (y.text n))) init) = _
    rw [foldlM_insert (fun n => c.fromString (y.text n)), List.mapM_map]
    show Option.map _ (nodes.mapM fun n => c.fromString (y.dump n)) = _
    rw [hread]
    rfl

/-! ## The containers -/

theorem foldl_push (xs init : List α) : xs.foldl (fun v x => v ++ [x]) init = init ++ xs := by
  induction xs generalizing init with
  | nil => simp
  | cons x xs ih => simp [ih]

theorem foldl_insert_set [LinearOrder α] (xs : List α) (s : StdSet α)
    (h : OrderedSet.Sorted (· < ·) id (s.elems ++ xs)) : (xs.foldl StdSet.insert s).elems = s.elems ++ xs := by
  induction xs generalizing s with
  | nil => simp
  | cons x xs ih =>
    have hlast : (s.insert x).elems = s.elems ++ [x] :=
      OrderedSet.insert_last fun z hz => (List.pairwise_append.mp h).2.2 z hz x (by simp)
    rw [List.foldl_cons, ih _ (by rw [hlast]; simpa using h), hlast]
    simp

theorem mem_foldl_insert_unordered [DecidableEq α] (b : Buckets α) (xs : List α) (s : UnorderedSet α) (a : α) :
    a ∈ (xs.foldl (UnorderedSet.insert b) s).elems ↔ a ∈ s.elems ∨ a ∈ xs := by
  induction xs generalizing s with
  | nil => simp
  | cons x xs ih =>
    have hins : a ∈ (s.insert b x).elems ↔ a ∈ s.elems ∨ a = x := by
      unfold UnorderedSet.insert
      split_ifs with hx
      · exact ⟨Or.inl, fun h => h.elim id fun h => h ▸ hx⟩
      · rw [(b.perm s.elems x).mem_iff, List.mem_cons]
        exact Or.comm
    rw [List.foldl_cons, ih, hins, List.mem_cons, or_assoc]

theorem foldl_insert_map (es : List (Text × α)) (m : StdMap α)
    (h : OrderedSet.Sorted (· < ·) Prod.fst (m.entries ++ es)) :
    (es.foldl StdMap.insert m).entries = m.entries ++ es := by
  induction es generalizing m with
  | nil => simp
  | cons e es ih =>
    have hlast : (m.insert e).entries = m.entries ++ [e] :=
      OrderedSet.insert_last fun z hz => (List.pairwise_append.mp h).2.2 z hz e (by simp)
    rw [List.foldl_cons, ih _ (by rw [hlast]; simpa using h), hlast]
    simp

/-- The entries of a map whose values are stable, and what is read from them. -/
theorem putAll_stable {l : List (Text × α)} (hsorted : OrderedSet.Sorted (· < ·) Prod.fst l)
    (h : ∀ e ∈ l, Stable y c same e.2) :
    ∃ node es, putAll y c l = some node ∧
      node.mapM (makePair y c) = some es ∧ List.Forall₂ (fun e e' => e.1 = e'.1 ∧ same e.2 e'.2) es l := by
  suffices hall : ∀ init : List (Node × Node), (∀ e ∈ init, ∀ i ∈ l, e.1.isScalar i.1 = false) →
      ∃ node es, l.foldlM (fun node i => do return Node.put i.1 (← y.load (← c.toString i.2)) node) init =
        some (init ++ node) ∧
        node.mapM (makePair y c) = some es ∧ List.Forall₂ (fun e e' => e.1 = e'.1 ∧ same e.2 e'.2) es l by
    exact hall [] (by simp)
  induction l with
  | nil => exact fun init _ => ⟨[], [], by simp, rfl, .nil⟩
  | cons i l ih =>
    intro init hinit
    obtain ⟨hi, hsorted⟩ := List.pairwise_cons.mp hsorted
    obtain ⟨text, node, x', hto, hload, hfrom, hx⟩ := h i (by simp)
    have hput : Node.put i.1 node init = init ++ [(.scalar i.1, node)] :=
      Node.put_new (fun e he => hinit e he i (by simp)) node
    obtain ⟨rest, es, hfold, hread, hsame⟩ := ih hsorted (fun e he => h e (by simp [he]))
      (init ++ [(.scalar i.1, node)]) (by
        intro e he j hj
        rcases List.mem_append.mp he with he | he
        · exact hinit e he j (by simp [hj])
        · rw [List.mem_singleton.mp he]
          simpa [Node.isScalar] using ne_of_lt (hi j hj))
    refine ⟨(.scalar i.1, node) :: rest, (i.1, x') :: es, ?_, ?_, .cons ⟨rfl, hx⟩ hsame⟩
    · simp only [Option.pure_def, Option.bind_eq_bind] at hfold
      simp only [List.foldlM_cons, hto, hload, hput, Option.pure_def, Option.bind_eq_bind, Option.bind_some]
      rw [hfold, List.append_assoc]
      rfl
    · rw [List.mapM_cons, hread]
      unfold makePair
      rw [hfrom]
      rfl

section
variable {built : α → List Node}

/-- A container is stable and comes back where what is inserted from its text is the container. -/
theorem sequence_back {c' : LexicalCast γ} {same' : γ → γ → Prop} {x : γ} {l : List α}
    (h : ∀ z, (∀ n ∈ built z, y.load (y.dump n) = some n) → Stable y c same z)
    (hy : ∀ n ∈ sequenceNode y c l ++ l.flatMap built, y.load (y.dump n) = some n) {insert : γ → α → γ} {init : γ}
    (hto : c'.toString x = sequenceToString y c l) (hfrom : c'.fromString = sequenceFromString y c insert init)
    (hx : ∀ xs, List.Forall₂ same xs l → same' (xs.foldl insert init) x) :
    Stable y c' same' x ∧ RoundTrips c' same' x := by
  have hl : ∀ z ∈ l, Stable y c same z := fun z hz =>
    h z fun n hn => hy n (List.mem_append_right _ (List.mem_flatMap.mpr ⟨z, hz, hn⟩))
  obtain ⟨text, node, xs, htext, hload, hdump, hsame, hread⟩ :=
    sequence_spec hl fun n hn => hy n (List.mem_append_left _ hn)
  rw [htext] at hto
  have hback : c'.fromString text = some (xs.foldl insert init) := by rw [hfrom, hread]
  exact ⟨.of_dump hto hload hdump hback (hx xs hsame), text, _, hto, hback, hx xs hsame⟩

variable (h : ∀ z, (∀ n ∈ built z, y.load (y.dump n) = some n) → Stable y c same z)
include h

theorem vector_back {v : List α} (hy : ∀ n ∈ sequenceNode y c v ++ v.flatMap built, y.load (y.dump n) = some n) :
    Stable y (vector y c) (List.Forall₂ same) v ∧ RoundTrips (vector y c) (List.Forall₂ same) v := by
  refine sequence_back h hy rfl rfl fun xs hxs => ?_
  rw [foldl_push]
  exact hxs

theorem set_back [LinearOrder α] (hsame : ∀ a b, same a b → a = b) {s : StdSet α}
    (hy : ∀ n ∈ sequenceNode y c s.elems ++ s.elems.flatMap built, y.load (y.dump n) = some n) :
    Stable y (set y c) (· = ·) s ∧ RoundTrips (set y c) (· = ·) s := by
  refine sequence_back h hy rfl rfl fun xs hxs => ?_
  obtain rfl : xs = s.elems := List.forall₂_eq_eq_eq ▸ hxs.imp hsame
  exact StdSet.ext (foldl_insert_set s.elems .empty s.sorted)

theorem unorderedSet_back [DecidableEq α] (b : Buckets α) (hsame : ∀ a b, same a b → a = b) {s : UnorderedSet α}
    (hy : ∀ n ∈ sequenceNode y c s.elems ++ s.elems.flatMap built, y.load (y.dump n) = some n) :
    Stable y (unorderedSet y b c) (fun s t => ∀ a, a ∈ s.elems ↔ a ∈ t.elems) s ∧
      RoundTrips (unorderedSet y b c) (fun s t => ∀ a, a ∈ s.elems ↔ a ∈ t.elems) s := by
  refine sequence_back h hy rfl rfl fun xs hxs a => ?_
  obtain rfl : xs = s.elems := List.forall₂_eq_eq_eq ▸ hxs.imp hsame
  simp [mem_foldl_insert_unordered]

theorem map_back {m : StdMap α}
    (hy : ∀ n ∈ mapNode y c m.entries ++ m.entries.flatMap (fun e => built e.2), y.load (y.dump n) = some n) :
    Stable y (map y c) (fun m m' => List.Forall₂ (fun e e' => e.1 = e'.1 ∧ same e.2 e'.2) m.entries m'.entries) m ∧
      RoundTrips (map y c) (fun m m' => List.Forall₂ (fun e e' => e.1 = e'.1 ∧ same e.2 e'.2) m.entries m'.entries)
        m := by
  have hl : ∀ e ∈ m.entries, Stable y c same e.2 := fun e he =>
    h e.2 fun n hn => hy n (List.mem_append_right _ (List.mem_flatMap.mpr ⟨e, he, hn⟩))
  obtain ⟨node, es, hput, hread, hsame⟩ := putAll_stable m.sorted hl
  have hload : y.load (y.dump (.map node)) = some (.map node) := hy _ (by simp [mapNode, hput])
  have hto : (map y c).toString m = some (y.dump (.map node)) := by
    show (do return y.dump (.map (← putAll y c m.entries))) = _
    rw [hput]
    rfl
  have hfrom : (map y c).fromString (y.dump (.map node)) = some (es.foldl StdMap.insert .empty) := by
    unfold map
    simp only [hload, iterate, Option.bind_eq_bind, Option.bind_some]
    have hfold := foldlM_insert (makePair y c) StdMap.insert node .empty
    rw [hread] at hfold
    exact hfold
  have hkeys : es.map Prod.fst = m.entries.map Prod.fst := by
    rw [← List.forall₂_eq_eq_eq, List.forall₂_map_left_iff, List.forall₂_map_right_iff]
    exact hsame.imp fun _ _ => And.left
  have hsorted : OrderedSet.Sorted (· < ·) Prod.fst es := by
    have hm : (m.entries.map Prod.fst).Pairwise (· < ·) := List.pairwise_map.mpr m.sorted
    rw [← hkeys] at hm
    exact List.pairwise_map.mp hm
  have hes : (es.foldl StdMap.insert .empty).entries = es := foldl_insert_map es .empty hsorted
  rw [← hes] at hsame
  exact ⟨.of_dump hto hload rfl hfrom hsame, _, _, hto, hfrom, hsame⟩

end

/-- **Nested values are stable, and those of containers come back.** -/
theorem Nested.back {base : LexicalCast β} (hbase : ∀ b, Stable y base (· = ·) b) {n : Nat} {c : LexicalCast α}
    {same : α → α → Prop} {built : α → List Node} (h : Nested y base n c same built) :
    ∀ x, (∀ node ∈ built x, y.load (y.dump node) = some node) →
      Stable y c same x ∧ (n ≠ 0 → RoundTrips c same x) := by
  induction h with
  | base => exact fun b _ => ⟨hbase b, fun h => absurd rfl h⟩
  | vector h ih | list h ih =>
    intro v hy
    have hv := vector_back (fun z hz => (ih z hz).1) hy
    exact ⟨hv.1, fun _ => hv.2⟩
  | set h hsame ih =>
    intro s hy
    have hs := set_back (fun z hz => (ih z hz).1) hsame hy
    exact ⟨hs.1, fun _ => hs.2⟩
  | unorderedSet b h hsame ih =>
    intro s hy
    have hs := unorderedSet_back (fun z hz => (ih z hz).1) b hsame hy
    exact ⟨hs.1, fun _ => hs.2⟩
  | map h ih =>
    intro m hy
    have hm := map_back (fun z hz => (ih z hz).1) hy
    exact ⟨hm.1, fun _ => hm.2⟩

/-- **Containers come back at every depth.** For a base type whose values come back when their texts are loaded, printed
and read, and a library that loads the nodes which are built for `x` from what it prints of them. -/
theorem container_roundTrips {base : LexicalCast β}
    (hbase : ∀ b, ∃ text node, base.toString b = some text ∧ y.load text = some node ∧
      base.fromString (y.dump node) = some b)
    {n : Nat} {c : LexicalCast α} {same : α → α → Prop} {built : α → List Node}
    (h : Nested y base (n + 1) c same built) (x : α)
    (hy : ∀ node ∈ built x, y.load (y.dump node) = some node) :
    ∃ text x', c.toString x = some text ∧ c.fromString text = some x' ∧ same x' x := by
  have hstable : ∀ b, Stable y base (· = ·) b := by
    intro b
    obtain ⟨text, node, hto, hload, hfrom⟩ := hbase b
    exact ⟨text, node, b, hto, hload, hfrom, rfl⟩
  exact (h.back hstable x hy).2 (Nat.succ_ne_zero n)

/-- `LexicalCast` of `bool`. -/
def boolCast : LexicalCast Bool where
  fromString v := if v = ['1'] then some true else if v = ['0'] then some false else none
  toString b := some (if b then ['1'] else ['0'])

/-- A library on scalars, sequences of one scalar, and maps from one key to such a sequence. -/
def smallYaml : Yaml where
  dump
    | .scalar s => s
    | .seq [.scalar s] => "- ".toList ++ s
    | .map [(.scalar k, .seq [.scalar s])] => k ++ ":\n  - ".toList ++ s
    | _ => []
  load v :=
    if v = "- 1".toList then some (.seq [.scalar ['1']])
    else if v = "k1:\n  - 1".toList then some (.map [(.scalar "k1".toList, .seq [.scalar ['1']])])
    else some (.scalar v)

/-- A `std::map<std::string, std::list<bool>>` with one entry. -/
def oneEntry : StdMap (List Bool) := ⟨[("k1".toList, [true])], List.pairwise_singleton _ _⟩

theorem container_roundTrips_map : ∃ x',
    (map smallYaml (list smallYaml boolCast)).toString oneEntry = some "k1:\n  - 1".toList ∧
      (map smallYaml (list smallYaml boolCast)).fromString "k1:\n  - 1".toList = some x' ∧
      x'.entries = [("k1".toList, [true])] := by
  have hbase : ∀ b, ∃ text node, boolCast.toString b = some text ∧ smallYaml.load text = some node ∧
      boolCast.fromString (smallYaml.dump node) = some b := by
    intro b
    cases b <;> exact ⟨_, _, rfl, rfl, rfl⟩
  obtain ⟨text, x', hto, hfrom, hsame⟩ := container_roundTrips hbase (.map (.list .base)) oneEntry (by
    intro node hnode
    have hbuilt : node ∈ [Node.map [(.scalar "k1".toList, .seq [.scalar ['1']])], .seq [.scalar ['1']]] := hnode
    rcases List.mem_cons.mp hbuilt with rfl | hbuilt
    · rfl
    · rw [List.mem_singleton.mp hbuilt]
      rfl)
  obtain rfl : text = "k1:\n  - 1".toList := (Option.some.inj hto).symm
  refine ⟨x', hto, hfrom, ?_⟩
  rw [← List.forall₂_eq_eq_eq]
  refine hsame.imp fun e e' he => Prod.ext he.1 ?_
  rw [← List.forall₂_eq_eq_eq]
  exact he.2

end LexicalCast

end QWebServer
