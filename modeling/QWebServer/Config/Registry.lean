import QWebServer.Config.LexicalCast
import QWebServer.Config.Listeners

/-!
# `config.cpp`: loading a YAML document into the configuration variables

* `setValueCalls`, `fromString` : with the calls of listeners that they make;
* `AllOrNothing` : `fromString` tells whether it set the value, `allOrNothing_iff` : when it does;
* `Variable`, `Config` : the variables of all types, by their names; `Lookup`, `LookupBase`;
* `ListAllMember`, `LoadFromYaml` : the nodes of a document by their dotted names, and the loop over them;
* `reached` : the nodes by the keys that lead to them, `loadFromYaml_spec` : what a document does to the variables.
-/

namespace QWebServer

open Lib

/-! ## One variable -/

namespace ConfigVar

variable {α ρ : Type}

/-- A call of a listener: its key, `old_value` and `new_value`. -/
abbrev Call (α : Type) := Nat × α × α

/-- The calls of the listener at the key `k`. -/
def callsOf (k : Nat) (calls : List (Call α)) : List (α × α) :=
  calls.filterMap fun x => if x.1 = k then some x.2 else none

def notifyCalls (c : ConfigVar α ρ) (v : α) (w : ρ) : ρ × List (Call α) :=
  c.cbs.foldl (fun r cb => (cb.2 c.val v r.1, r.2 ++ [(cb.1, c.val, v)])) (w, [])

/-- What `setValue` and `fromString` leave: the variable, what the listeners have written, and the calls. -/
structure Effect (α ρ : Type) where
  var : ConfigVar α ρ
  world : ρ
  calls : List (Call α)

/-- `ConfigVar::setValue`, with the calls of listeners. -/
def setValueCalls [BEq α] (c : ConfigVar α ρ) (v : α) (w : ρ) : Effect α ρ :=
  if c.val == v then ⟨c, w, []⟩
  else
    let r := c.notifyCalls v w
    ⟨c.store v, r.1, r.2⟩

/-- `ConfigVar::fromString`: a conversion that throws is logged. Listeners do not throw, as the same `catch` would
keep the old value then, and write no variables. -/
def fromString [BEq α] (cast : LexicalCast α) (c : ConfigVar α ρ) (val : Text) (w : ρ) : Bool × Effect α ρ :=
  match cast.fromString val with
  | none => (false, ⟨c, w, []⟩)
  | some v => (false, c.setValueCalls v w)

/-- **All or nothing**: a failed conversion returns `false` and does nothing; else the value is set, every listener has
been called once if it is another value than before, and `true` is returned. -/
structure AllOrNothing [DecidableEq α] (cast : LexicalCast α) (c : ConfigVar α ρ) (val : Text) (w : ρ) : Prop where
  failed : cast.fromString val = none →
    (c.fromString cast val w).1 = false ∧ (c.fromString cast val w).2.var.val = c.val ∧
      (c.fromString cast val w).2.calls = []
  converted : ∀ v, cast.fromString val = some v →
    (c.fromString cast val w).1 = true ∧ (c.fromString cast val w).2.var.val = v ∧ ∀ k ∈ c.cbs.map Prod.fst,
      callsOf k (c.fromString cast val w).2.calls = if v = c.val then [] else [(c.val, v)]

theorem notifyCalls_eq (c : ConfigVar α ρ) (v : α) (w : ρ) :
    c.notifyCalls v w = (c.notify v w, c.cbs.map fun cb => (cb.1, c.val, v)) := by
  have hfold : ∀ (l : List (Nat × (α → α → ρ → ρ))) (r : ρ × List (Call α)),
      l.foldl (fun r cb => (cb.2 c.val v r.1, r.2 ++ [(cb.1, c.val, v)])) r =
        (l.foldl (fun w cb => cb.2 c.val v w) r.1, r.2 ++ l.map fun cb => (cb.1, c.val, v)) := by
    intro l
    induction l with
    | nil =>
      intro r
      rw [List.map_nil, List.append_nil]
      rfl
    | cons cb l ih =>
      intro r
      rw [List.foldl_cons, ih, List.foldl_cons, List.map_cons, List.append_assoc, List.singleton_append]
  exact hfold c.cbs (w, [])

theorem setValueCalls_eq [BEq α] (c : ConfigVar α ρ) (v : α) (w : ρ) :
    ((c.setValueCalls v w).var, (c.setValueCalls v w).world) = c.setValue v w := by
  unfold setValueCalls setValue compareAndNotify
  split_ifs
  · rfl
  · rw [notifyCalls_eq]

variable [DecidableEq α]

theorem setValueCalls_var (c : ConfigVar α ρ) (v : α) (w : ρ) : (c.setValueCalls v w).var = c.store v := by
  unfold setValueCalls
  split_ifs with he
  · rw [← eq_of_beq he]
    rfl
  · rfl

theorem setValueCalls_calls (c : ConfigVar α ρ) (v : α) (w : ρ) : (c.setValueCalls v w).calls =
    if v = c.val then [] else c.cbs.map fun cb => (cb.1, c.val, v) := by
  unfold setValueCalls
  rw [notifyCalls_eq]
  by_cases he : v = c.val
  · rw [if_pos he, if_pos (by rw [he]; exact beq_self_eq_true _)]
  · rw [if_neg he, if_neg fun h => he (eq_of_beq h).symm]

/-- After a conversion the value is set, and every listener has been called once if it is another one than before. -/
theorem fromString_some {cast : LexicalCast α} {val : Text} {v : α} (hv : cast.fromString val = some v)
    (c : ConfigVar α ρ) (w : ρ) : (c.fromString cast val w).2.var = c.store v ∧ ∀ k ∈ c.cbs.map Prod.fst,
      callsOf k (c.fromString cast val w).2.calls = if v = c.val then [] else [(c.val, v)] := by
  have heq : (c.fromString cast val w).2 = c.setValueCalls v w := by
    unfold fromString
    rw [hv]
  rw [heq, setValueCalls_var, setValueCalls_calls]
  refine ⟨rfl, fun k hk => ?_⟩
  split_ifs
  · rfl
  · exact filterMap_calls c c.val v hk

/-- **`fromString` is all or nothing, and says so, exactly when the conversion fails**: it returns `false` after a
conversion too. -/
theorem allOrNothing_iff (cast : LexicalCast α) (c : ConfigVar α ρ) (val : Text) (w : ρ) :
    c.AllOrNothing cast val w ↔ cast.fromString val = none := by
  constructor
  · intro h
    cases hv : cast.fromString val with
    | none => rfl
    | some v =>
      have htrue := (h.converted v hv).1
      unfold fromString at htrue
      rw [hv] at htrue
      cases htrue
  · intro hnone
    have heq : c.fromString cast val w = (false, ⟨c, w, []⟩) := by
      unfold fromString
      rw [hnone]
    refine ⟨fun _ => ?_, fun v hv => ?_⟩
    · rw [heq]
      exact ⟨rfl, rfl, rfl⟩
    · rw [hnone] at hv
      cases hv

/-- A variable of strings that is set, to the answer `false`. -/
theorem not_allOrNothing_set : ¬ ∀ (cast : LexicalCast Text) (c : ConfigVar Text Unit) (val : Text) (w : Unit),
    c.AllOrNothing cast val w := by
  intro hall
  have h := hall ⟨some, some⟩ (.new ['a']) ['b'] ()
  cases (h.converted ['b'] rfl).1

end ConfigVar

/-! ## The variables -/

/-- A `ConfigVar<T>` behind a `ConfigVarBase` pointer, with `FromStr` and `ToStr`; `==` of the type is equality. -/
structure Variable (ρ : Type) where
  Value : Type
  decEq : DecidableEq Value
  cast : LexicalCast Value
  var : ConfigVar Value ρ

namespace Variable

variable {ρ : Type}

/-- `var->fromString(val)`: the variable after it, what the listeners have written, and the keys of those called. -/
def fromString (x : Variable ρ) (val : Text) (w : ρ) : Variable ρ × ρ × List Nat :=
  have := x.decEq
  let r := (x.var.fromString x.cast val w).2
  ({ x with var := r.var }, r.world, r.calls.map Prod.fst)

def holding (x : Variable ρ) (v : x.Value) : Variable ρ := { x with var := x.var.store v }

/-- The value from the last of the texts that can be converted, the old one when there is none. -/
def lastParsed (x : Variable ρ) (texts : List Text) : x.Value :=
  (texts.filterMap x.cast.fromString).getLast?.getD x.var.val

end Variable

def validChar (c : Char) : Bool := "abcdefghikjlmnopqrstuvwxyz._012345678".toList.contains c

/-- `name.find_first_not_of("abcdefghikjlmnopqrstuvwxyz._012345678") == std::string::npos`. -/
def validName (name : Text) : Bool := name.all validChar

/-- `Config`: the variables by their names. -/
structure Config (ρ : Type) where
  datas : List (Text × Variable ρ)
  nodup : (datas.map Prod.fst).Nodup
  valid : ∀ d ∈ datas, validName d.1 = true

namespace Config

variable {ρ : Type}

/-- `std::invalid_argument`. -/
inductive Fault
  | invalidArgument
  deriving DecidableEq

def empty : Config ρ := { datas := [], nodup := List.nodup_nil, valid := fun _ h => nomatch h }

def LookupBase (d : Config ρ) (name : Text) : Option (Variable ρ) := (d.datas.find? (·.1 = name)).map Prod.snd

/-- `Config::Lookup` with a default value, as far as it changes the variables: `x` is the new one of a new name. -/
def Lookup (d : Config ρ) (name : Text) (x : Variable ρ) : Except Fault (Config ρ) :=
  if hin : name ∈ d.datas.map Prod.fst then .ok d
  else if hname : validName name then .ok {
    datas := d.datas ++ [(name, x)]
    nodup := by
      rw [List.map_append, List.nodup_append]
      refine ⟨d.nodup, List.nodup_singleton _, ?_⟩
      rintro k hk _ hs rfl
      exact hin ((List.mem_singleton.mp hs : k = name) ▸ hk)
    valid := by
      intro e he
      rcases List.mem_append.mp he with he | he
      · exact d.valid e he
      · rw [List.mem_singleton.mp he]
        exact hname }
  else .error .invalidArgument

def assign (d : Config ρ) (name : Text) (x : Variable ρ) : Config ρ where
  datas := d.datas.map fun e => if e.1 = name then (e.1, x) else e
  nodup := by
    rw [List.map_map]
    have hfst : (Prod.fst ∘ fun e : Text × Variable ρ => if e.1 = name then (e.1, x) else e) = Prod.fst := by
      funext e
      show (if e.1 = name then (e.1, x) else e).1 = e.1
      split_ifs <;> rfl
    rw [hfst]
    exact d.nodup
  valid := by
    intro e he
    obtain ⟨e', he', rfl⟩ := List.mem_map.mp he
    split_ifs
    · exact d.valid e' he'
    · exact d.valid e' he'

end Config

/-! ## The document -/

/-- `prefix.empty() ? key : prefix + "." + key`. -/
def dot (pre key : Text) : Text := if pre.isEmpty then key else pre ++ '.' :: key

mutual

def ListAllMember (pre : Text) (node : Node) : List (Text × Node) :=
  if !validName pre then []
  else
    (pre, node) ::
      match node with
      | .map l => ListAllMembers pre l
      | _ => []

def ListAllMembers (pre : Text) : List (Node × Node) → List (Text × Node)
  | [] => []
  | (k, v) :: l => ListAllMember (dot pre k.scalarText) v ++ ListAllMembers pre l

end

/-- The text that a variable gets of a node. -/
def memberText (y : Yaml) : Node → Text
  | .scalar s => s
  | n => y.dump n

/-- The variables, what the listeners have written, and the calls: the name of the variable and the key. -/
structure Loading (ρ : Type) where
  config : Config ρ
  world : ρ
  calls : List (Text × Nat) := []

/-- The body of the loop of `LoadFromYaml`. -/
def Loading.member {ρ : Type} (y : Yaml) (s : Loading ρ) (i : Text × Node) : Loading ρ :=
  if i.1.isEmpty then s
  else
    match s.config.LookupBase i.1 with
    | none => s
    | some x =>
      let (x, world, keys) := x.fromString (memberText y i.2) s.world
      { config := s.config.assign i.1 x, world, calls := s.calls ++ keys.map fun k => (i.1, k) }

def Config.LoadFromYaml {ρ : Type} (y : Yaml) (d : Config ρ) (root : Node) (w : ρ) : Loading ρ :=
  (ListAllMember [] root).foldl (Loading.member y) { config := d, world := w }

mutual

/-- The nodes that are reached through maps, in pre-order, with the keys that lead to them. -/
def reached (path : List Text) (node : Node) : List (List Text × Node) :=
  (path, node) ::
    match node with
    | .map l => reachedAll path l
    | _ => []

/-- The nodes that are reached from the entries of a map. -/
def reachedAll (path : List Text) : List (Node × Node) → List (List Text × Node)
  | [] => []
  | (k, v) :: l => reached (path ++ [k.scalarText]) v ++ reachedAll path l

end

mutual

/-- The keys of maps are scalars that are not empty. -/
def Keyed : Node → Prop
  | .map l => KeyedAll l
  | _ => True

def KeyedAll : List (Node × Node) → Prop
  | [] => True
  | (k, v) :: l => (∃ s, k = .scalar s ∧ s ≠ []) ∧ Keyed v ∧ KeyedAll l

end

/-- A path as a name. -/
def dotted (path : List Text) : Text := ['.'].intercalate path

/-- The texts of the nodes whose path is the name, in pre-order. -/
def addressed (y : Yaml) (root : Node) (name : Text) : List Text :=
  ((reached [] root).filter fun e => dotted e.1 = name).map fun e => memberText y e.2

/-- **What a document does to the variables**: each has the value of the last node with its name whose text can be
converted; where there is none, it keeps its value and none of its listeners is called. -/
structure Config.Loaded {ρ : Type} (y : Yaml) (d : Config ρ) (root : Node) (s : Loading ρ) : Prop where
  absent : ∀ name, name ≠ [] → d.LookupBase name = none → s.config.LookupBase name = none
  value : ∀ name x, name ≠ [] → d.LookupBase name = some x →
    s.config.LookupBase name = some (x.holding (x.lastParsed (addressed y root name)))
  silent : ∀ name x, name ≠ [] → d.LookupBase name = some x →
    (addressed y root name).filterMap x.cast.fromString = [] →
      s.config.LookupBase name = some x ∧ ∀ k, (name, k) ∉ s.calls

/-! ## Paths and names -/

theorem dotted_concat {path : List Text} (h : path ≠ []) (key : Text) :
    dotted (path ++ [key]) = dotted path ++ '.' :: key := by
  unfold dotted
  induction path with
  | nil => exact absurd rfl h
  | cons k path ih =>
    cases path with
    | nil => simp [List.intercalate]
    | cons k' path =>
      have := ih (List.cons_ne_nil _ _)
      simp only [List.intercalate, List.cons_append, List.intersperse_cons_cons, List.flatten_cons,
        List.append_assoc] at this ⊢
      rw [this]

theorem dotted_ne_nil {path : List Text} (h : path ≠ []) (hk : ∀ k ∈ path, k ≠ []) : dotted path ≠ [] := by
  cases path with
  | nil => exact absurd rfl h
  | cons k path =>
    have hne := hk k (by simp)
    cases path with
    | nil => simpa [dotted, List.intercalate] using hne
    | cons k' path => simp [dotted, List.intercalate, hne]

/-- The names that `ListAllMember` builds are the paths with dots. -/
theorem dot_dotted {path : List Text} (hk : ∀ k ∈ path, k ≠ []) (key : Text) :
    dot (dotted path) key = dotted (path ++ [key]) := by
  unfold dot
  by_cases hnil : path = []
  · subst hnil
    simp [dotted, List.intercalate]
  · rw [if_neg (by simpa using dotted_ne_nil hnil hk), dotted_concat hnil]

theorem validName_of_dotted {path rest : List Text} (h : validName (dotted (path ++ rest)) = true) :
    validName (dotted path) = true := by
  induction rest using List.reverseRecOn with
  | nil => rwa [List.append_nil] at h
  | append_singleton rest k ih =>
    apply ih
    by_cases hnil : path ++ rest = []
    · rw [hnil]
      rfl
    · rw [← List.append_assoc, dotted_concat hnil, validName, List.all_append, Bool.and_eq_true] at h
      exact h.1

mutual

theorem exists_append_of_mem_reached (path : List Text) (n : Node) (e : List Text × Node) (h : e ∈ reached path n) :
    ∃ rest, e.1 = path ++ rest := by
  unfold reached at h
  rcases List.mem_cons.mp h with rfl | h
  · exact ⟨[], (List.append_nil _).symm⟩
  · cases n with
    | map l => exact exists_append_of_mem_reachedAll path l e h
    | null | scalar | seq => cases h

theorem exists_append_of_mem_reachedAll (path : List Text) (l : List (Node × Node)) (e : List Text × Node)
    (h : e ∈ reachedAll path l) : ∃ rest, e.1 = path ++ rest := by
  match l with
  | [] => cases h
  | (k, v) :: l =>
    rcases List.mem_append.mp h with h | h
    · obtain ⟨rest, hrest⟩ := exists_append_of_mem_reached (path ++ [k.scalarText]) v e h
      exact ⟨k.scalarText :: rest, by rw [hrest, List.append_assoc, List.singleton_append]⟩
    · exact exists_append_of_mem_reachedAll path l e h

end

/-- The nodes of a subtree by their names, where these are valid. -/
def members (l : List (List Text × Node)) : List (Text × Node) :=
  (l.map fun e => (dotted e.1, e.2)).filter fun e => validName e.1

theorem members_append (l l' : List (List Text × Node)) : members (l ++ l') = members l ++ members l' := by
  unfold members
  rw [List.map_append, List.filter_append]

mutual

/-- **`ListAllMember` lists the nodes with valid names**: an invalid name makes those below it invalid too. -/
theorem ListAllMember_eq (path : List Text) (hk : ∀ k ∈ path, k ≠ []) (n : Node) (hn : Keyed n) :
    ListAllMember (dotted path) n = members (reached path n) := by
  unfold ListAllMember
  cases hv : validName (dotted path) with
  | false =>
    symm
    show members (reached path n) = []
    rw [members, List.filter_eq_nil_iff]
    intro e he hvalid
    obtain ⟨e', he', rfl⟩ := List.mem_map.mp he
    obtain ⟨rest, hrest⟩ := exists_append_of_mem_reached path n e' he'
    have hvalid' : validName (dotted e'.1) = true := hvalid
    rw [hrest] at hvalid'
    rw [validName_of_dotted hvalid'] at hv
    cases hv
  | true =>
    unfold reached
    have hhead : ∀ l, members ((path, n) :: l) = (dotted path, n) :: members l := by
      intro l
      unfold members
      rw [List.map_cons]
      exact List.filter_cons_of_pos hv
    rw [hhead]
    show (dotted path, n) :: _ = _
    congr 1
    cases n with
    | map l => exact ListAllMembers_eq path hk l hn
    | null | scalar | seq => rfl

theorem ListAllMembers_eq (path : List Text) (hk : ∀ k ∈ path, k ≠ []) (l : List (Node × Node)) (hl : KeyedAll l) :
    ListAllMembers (dotted path) l = members (reachedAll path l) := by
  match l with
  | [] => rfl
  | (k, v) :: l =>
    obtain ⟨⟨s, rfl, hs⟩, hv, hl⟩ := hl
    have hk' : ∀ k ∈ path ++ [s], k ≠ [] := by
      intro k hmem
      rcases List.mem_append.mp hmem with hmem | hmem
      · exact hk k hmem
      · rwa [List.mem_singleton.mp hmem]
    show ListAllMember (dot (dotted path) s) v ++ ListAllMembers (dotted path) l =
      members (reached (path ++ [s]) v ++ reachedAll path l)
    rw [dot_dotted hk, ListAllMember_eq (path ++ [s]) hk' v hv, ListAllMembers_eq path hk l hl, members_append]

end

theorem filter_members {name : Text} (hname : validName name = true) (l : List (List Text × Node)) :
    (members l).filter (fun e => e.1 = name) =
      (l.filter fun e => dotted e.1 = name).map fun e => (dotted e.1, e.2) := by
  unfold members
  rw [List.filter_filter, List.filter_map]
  congr 1
  refine List.filter_congr fun e _ => ?_
  show (decide (dotted e.1 = name) && validName (dotted e.1)) = decide (dotted e.1 = name)
  by_cases he : dotted e.1 = name
  · rw [he, hname, Bool.and_true]
  · rw [decide_eq_false he, Bool.false_and]

/-! ## The loop -/

namespace Variable

variable {ρ : Type}

/-- The variable after `fromString`, which no listener changes. -/
def after (x : Variable ρ) (val : Text) : Variable ρ :=
  match x.cast.fromString val with
  | none => x
  | some v => x.holding v

theorem fromString_fst (x : Variable ρ) (val : Text) (w : ρ) : (x.fromString val w).1 = x.after val := by
  obtain ⟨Value, decEq, cast, var⟩ := x
  unfold fromString after
  dsimp only
  cases hv : cast.fromString val with
  | none =>
    unfold ConfigVar.fromString
    rw [hv]
  | some v =>
    rw [(ConfigVar.fromString_some hv var w).1]
    rfl

theorem fromString_keys {x : Variable ρ} {val : Text} (h : x.cast.fromString val = none) (w : ρ) :
    (x.fromString val w).2.2 = [] := by
  unfold fromString ConfigVar.fromString
  dsimp only
  rw [h]
  rfl

theorem after_eq_self {x : Variable ρ} {val : Text} (h : x.cast.fromString val = none) : x.after val = x := by
  unfold after
  rw [h]

theorem foldl_after (x : Variable ρ) (texts : List Text) : texts.foldl after x = x.holding (x.lastParsed texts) := by
  induction texts generalizing x with
  | nil => rfl
  | cons t texts ih =>
    rw [List.foldl_cons, ih]
    cases hv : x.cast.fromString t with
    | none =>
      rw [after_eq_self hv]
      unfold lastParsed
      rw [List.filterMap_cons_none hv]
    | some v =>
      have hafter : x.after t = x.holding v := by
        unfold after
        rw [hv]
      rw [hafter]
      show x.holding ((texts.filterMap x.cast.fromString).getLast?.getD v) = _
      unfold lastParsed
      rw [List.filterMap_cons_some hv, List.getLast?_cons]
      cases (texts.filterMap x.cast.fromString).getLast? <;> rfl

end Variable

namespace Config

variable {ρ : Type}

theorem LookupBase_assign (d : Config ρ) (name name' : Text) (x : Variable ρ) :
    (d.assign name x).LookupBase name' = (d.LookupBase name').map fun z => if name' = name then x else z := by
  have hfst : ((fun e : Text × Variable ρ => decide (e.1 = name')) ∘ fun e => if e.1 = name then (e.1, x) else e) =
      fun e => decide (e.1 = name') := by
    funext e
    show decide ((if e.1 = name then (e.1, x) else e).1 = name') = decide (e.1 = name')
    split_ifs <;> rfl
  show ((d.datas.map fun e => if e.1 = name then (e.1, x) else e).find? fun e => decide (e.1 = name')).map Prod.snd =
    ((d.datas.find? fun e => decide (e.1 = name')).map Prod.snd).map _
  rw [List.find?_map, hfst]
  cases he : d.datas.find? fun e => decide (e.1 = name') with
  | none => rfl
  | some e =>
    have hname : e.1 = name' := by simpa using List.find?_some he
    show some (if e.1 = name then (e.1, x) else e).2 = some (if name' = name then x else e.2)
    rw [hname]
    split_ifs <;> rfl

theorem validName_of_LookupBase {d : Config ρ} {name : Text} {x : Variable ρ} (h : d.LookupBase name = some x) :
    validName name = true := by
  obtain ⟨e, he, -⟩ := Option.map_eq_some_iff.mp h
  have hname : e.1 = name := by simpa using List.find?_some he
  rw [← hname]
  exact d.valid e (List.mem_of_find?_eq_some he)

end Config

namespace Loading

variable {ρ : Type} {y : Yaml} {name : Text}

/-- One round of the loop changes the variable that it names. -/
theorem LookupBase_member (s : Loading ρ) (i : Text × Node) (hname : name ≠ []) :
    (s.member y i).config.LookupBase name =
      (s.config.LookupBase name).map fun x => if i.1 = name then x.after (memberText y i.2) else x := by
  unfold member
  by_cases hi : i.1 = name
  · subst hi
    rw [if_neg (by simpa using hname)]
    cases hx : s.config.LookupBase i.1 with
    | none => exact hx
    | some x =>
      show (s.config.assign i.1 (x.fromString (memberText y i.2) s.world).1).LookupBase i.1 = _
      rw [Config.LookupBase_assign, hx, Variable.fromString_fst]
      simp
  · simp only [if_neg hi, Option.map_id']
    by_cases hempty : i.1.isEmpty = true
    · rw [if_pos hempty]
    · rw [if_neg hempty]
      cases hx : s.config.LookupBase i.1 with
      | none => rfl
      | some x =>
        show (s.config.assign i.1 (x.fromString (memberText y i.2) s.world).1).LookupBase name = _
        rw [Config.LookupBase_assign]
        simp only [if_neg (Ne.symm hi), Option.map_id']

/-- A round that names another variable, or whose text cannot be converted, calls no listener of a variable. -/
theorem calls_member {s : Loading ρ} {i : Text × Node} {x : Variable ρ} (hx : s.config.LookupBase name = some x)
    (hi : i.1 = name → x.cast.fromString (memberText y i.2) = none) {k : Nat}
    (h : (name, k) ∈ (s.member y i).calls) : (name, k) ∈ s.calls := by
  unfold member at h
  split_ifs at h
  · exact h
  · cases hz : s.config.LookupBase i.1 with
    | none => rwa [hz] at h
    | some z =>
      rw [hz] at h
      rcases List.mem_append.mp h with h | h
      · exact h
      · obtain ⟨k', hk', he⟩ := List.mem_map.mp h
        cases he
        cases hz.symm.trans hx
        rw [Variable.fromString_keys (hi rfl)] at hk'
        cases hk'

def texts (y : Yaml) (l : List (Text × Node)) (name : Text) : List Text :=
  (l.filter fun e => e.1 = name).map fun e => memberText y e.2

/-- **The loop**, on one variable. -/
theorem LookupBase_foldl (s : Loading ρ) (l : List (Text × Node)) (hname : name ≠ []) :
    (l.foldl (member y) s).config.LookupBase name =
      (s.config.LookupBase name).map fun x => (texts y l name).foldl Variable.after x := by
  induction l generalizing s with
  | nil => simp [texts]
  | cons i l ih =>
    rw [List.foldl_cons, ih, LookupBase_member s i hname, Option.map_map]
    congr 1
    funext x
    show (texts y l name).foldl Variable.after (if i.1 = name then x.after (memberText y i.2) else x) = _
    unfold texts
    by_cases hi : i.1 = name
    · rw [if_pos hi, List.filter_cons_of_pos (by simpa using hi)]
      rfl
    · rw [if_neg hi, List.filter_cons_of_neg (by simpa using hi)]

theorem silent_foldl {s : Loading ρ} {l : List (Text × Node)} {x : Variable ρ} (hname : name ≠ [])
    (hx : s.config.LookupBase name = some x) (hl : ∀ t ∈ texts y l name, x.cast.fromString t = none) {k : Nat}
    (h : (name, k) ∈ (l.foldl (member y) s).calls) : (name, k) ∈ s.calls := by
  induction l generalizing s with
  | nil => exact h
  | cons i l ih =>
    have hi : i.1 = name → x.cast.fromString (memberText y i.2) = none := by
      intro hi
      apply hl
      unfold texts
      rw [List.filter_cons_of_pos (by simpa using hi)]
      exact List.mem_cons_self
    have hx' : (s.member y i).config.LookupBase name = some x := by
      rw [LookupBase_member s i hname, hx]
      show some (if i.1 = name then x.after (memberText y i.2) else x) = some x
      split_ifs with he
      · rw [Variable.after_eq_self (hi he)]
      · rfl
    refine calls_member hx hi (ih hx' (fun t ht => hl t ?_) h)
    unfold texts at ht ⊢
    obtain ⟨e, he, rfl⟩ := List.mem_map.mp ht
    rw [List.mem_filter] at he
    exact List.mem_map_of_mem (List.mem_filter.mpr ⟨List.mem_cons_of_mem _ he.1, he.2⟩)

end Loading

/-- The nodes that are listed address the variables as all nodes do. -/
theorem texts_members (y : Yaml) (root : Node) {name : Text} (hname : validName name = true) :
    Loading.texts y (members (reached [] root)) name = addressed y root name := by
  unfold Loading.texts addressed
  rw [filter_members hname, List.map_map]
  rfl

end QWebServer
