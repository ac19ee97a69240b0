import QWebServer.Lib.Yaml
import QWebServer.Log.Logger

/-!
# Log definitions as YAML texts

* `LogAppenderDefine.node`, `LogDefine.node` : the nodes that `LexicalCast<LogDefine, std::string>` builds;
* `readAppender`, `readAppenders` : one round and the whole loop of `LexicalCast<std::string, LogDefine>` over the
  appenders, with what they print; `fromString` : the conversion, `CastFault` : its exceptions;
* `LogAppenderDefine.read`, `fromString_toString` : the levels of the appenders are lost;
* `roundTrips_iff` : a definition comes back exactly when its appenders have no level.
-/

namespace QWebServer

open Lib

/-! ## To a string -/

/-- `n[k] = v` when `b`. -/
def assignIf (b : Bool) (k : String) (v : Text) (l : List (Node × Node)) : List (Node × Node) :=
  if b then Node.put k.toList (.scalar v) l else l

def LogAppenderDefine.fields (a : LogAppenderDefine) : List (Node × Node) :=
  let na :=
    if a.type = 1 then
      assignIf true "file" a.file (assignIf true "type" "fileAppender".toList [])
    else if a.type = 2 then assignIf true "type" "stdoutAppender".toList []
    else []
  let na := assignIf (a.level ≠ .UNKNOW) "level" a.level.ToString na
  assignIf (!a.formatter.isEmpty) "formatter" a.formatter na

/-- The node `na` of an appender: a node that nothing is assigned to is null. -/
def LogAppenderDefine.node (a : LogAppenderDefine) : Node :=
  match a.fields with
  | [] => .null
  | l => .map l

/-- What is read of the node of an appender: its level is not looked at. -/
def LogAppenderDefine.read (a : LogAppenderDefine) : LogAppenderDefine := { a with level := .UNKNOW }

theorem LogAppenderDefine.read_eq_self {a : LogAppenderDefine} : a.read = a ↔ a.level = .UNKNOW := by
  constructor
  · intro h
    rw [← h]
    rfl
  · intro h
    unfold read
    rw [← h]

namespace LogDefine

def fields (i : LogDefine) : List (Node × Node) :=
  let n := assignIf true "name" i.name []
  let n := assignIf (i.level ≠ .UNKNOW) "level" i.level.ToString n
  let n := assignIf (!i.formatter.isEmpty) "formatter" i.formatter n
  if i.appenders.isEmpty then n else Node.put "appenders".toList (.seq (i.appenders.map (·.node))) n

def node (i : LogDefine) : Node := .map i.fields

variable (y : Yaml)

def toString (i : LogDefine) : Text := y.dump i.node

/-! ## From a string -/

/-- The exceptions of the library; a text without a name is reported first. -/
inductive CastFault
  | parser
  | badSubscript
  | badConversion
  | nameless (printed : Text)

/-- `YAML::Load`. -/
def load (v : Text) : Except CastFault Node :=
  match y.load v with
  | some n => .ok n
  | none => .error .parser

/-- `n[k]`, when it is defined. -/
def get (n : Option Node) (k : String) : Except CastFault (Option Node) :=
  match n with
  | none => .ok none
  | some n =>
    match n.get k.toList with
    | some v => .ok v
    | none => .error .badSubscript

/-- `n.as<std::string>()`. -/
def asString (n : Node) : Except CastFault Text :=
  match y.asString n with
  | some s => .ok s
  | none => .error .badConversion

/-- `n[k].as<std::string>()` when `n[k]` is defined, else an empty text. -/
def optional (n : Option Node) (k : String) : Except CastFault Text := do
  match ← get n k with
  | some v => asString y v
  | none => return []

/-- One round of the loop over the appenders: the definition unless the round ends with `continue`, and what it
prints. -/
def readAppender (a : Option Node) : Except CastFault (Option LogAppenderDefine × Text) := do
  match ← get a "type" with
  | none => return (none, "输出类型错误 ".toList ++ y.text a ++ ['\n'])
  | some t =>
    let type ← asString y t
    if type = "fileAppender".toList then
      match ← get a "file" with
      | none => return (none, "文件路径没有定义".toList ++ y.text a ++ ['\n'])
      | some f =>
        let file ← asString y f
        let formatter ← optional y a "formatter"
        return (some { type := 1, file, formatter }, [])
    else if type = "stdoutAppender".toList then
      let formatter ← optional y a "formatter"
      return (some { type := 2, formatter }, [])
    else return (none, "你定义的输出地方暂时不正确".toList ++ y.text a ++ ['\n'])

def readAppenders : List (Option Node) → Except CastFault (List LogAppenderDefine × Text)
  | [] => .ok ([], [])
  | a :: as => do
    let (lad, printed) ← readAppender y a
    let (lads, rest) ← readAppenders as
    return (lad.toList ++ lads, printed ++ rest)

/-- `LexicalCast<std::string, LogDefine>`, with what it prints. -/
def fromString (v : Text) : Except CastFault (LogDefine × Text) := do
  let n ← load y v
  match ← get (some n) "name" with
  | none => .error (.nameless ("名字没有定义 ".toList ++ y.dump n ++ ['\n']))
  | some name =>
    let name ← asString y name
    let level := LogLevel.FromString (← optional y (some n) "level")
    let formatter ← optional y (some n) "formatter"
    let as := match ← get (some n) "appenders" with
      | some a => y.children a
      | none => []
    let (appenders, printed) ← readAppenders y as
    return ({ name, level, formatter, appenders }, printed)

/-! ## The round trip -/

variable {y}

theorem readAppender_node {a : LogAppenderDefine} (h : a.type = 1 ∨ a.type = 2 ∧ a.file = []) :
    readAppender y (some a.node) = .ok (some a.read, []) := by
  obtain ⟨type, level, formatter, file⟩ := a
  rcases h with rfl | ⟨rfl, rfl⟩
  · cases formatter with
    | nil => cases level <;> rfl
    | cons c s => cases level <;> rfl
  · cases formatter with
    | nil => cases level <;> rfl
    | cons c s => cases level <;> rfl

theorem readAppenders_map_node {l : List LogAppenderDefine} (h : ∀ a ∈ l, a.type = 1 ∨ a.type = 2 ∧ a.file = []) :
    readAppenders y ((l.map (·.node)).map some) = .ok (l.map (·.read), []) := by
  induction l with
  | nil => rfl
  | cons a l ih =>
    have ha := readAppender_node (y := y) (h a (by simp))
    have hl := ih fun a ha => h a (by simp [ha])
    simp only [List.map_cons, readAppenders]
    rw [ha, hl]
    rfl

theorem fromString_of_load {v : Text} {d : LogDefine} (hv : y.load v = some d.node) (hlevel : d.level ≠ .level100) :
    fromString y v = do
      let (appenders, printed) ← readAppenders y ((d.appenders.map (·.node)).map some)
      return ({ d with appenders }, printed) := by
  unfold fromString load
  rw [hv]
  obtain ⟨name, level, formatter, appenders⟩ := d
  cases level with
  | level100 => exact absurd rfl hlevel
  | _ => cases formatter <;> cases appenders <;> rfl

theorem fromString_toString {d : LogDefine} (hy : y.load (y.dump d.node) = some d.node) (hlevel : d.level ≠ .level100)
    (happenders : ∀ a ∈ d.appenders, a.type = 1 ∨ a.type = 2 ∧ a.file = []) :
    fromString y (toString y d) =
      .ok ({ d with appenders := d.appenders.map (·.read) }, []) := by
  unfold toString
  rw [fromString_of_load hy hlevel, readAppenders_map_node happenders]
  rfl

def RoundTrips (y : Yaml) (d : LogDefine) : Prop := (fromString y (toString y d)).map Prod.fst = .ok d

/-- **A definition comes back exactly when its appenders have no level.** For a library that loads the node of the
definition from what it prints of it. -/
theorem roundTrips_iff {d : LogDefine} (hy : y.load (y.dump d.node) = some d.node) (hlevel : d.level ≠ .level100)
    (happenders : ∀ a ∈ d.appenders, a.type = 1 ∨ a.type = 2 ∧ a.file = []) :
    RoundTrips y d ↔ ∀ a ∈ d.appenders, a.level = .UNKNOW := by
  unfold RoundTrips
  rw [fromString_toString hy hlevel happenders]
  have hread : (Except.ok (ε := CastFault)
      ({ d with appenders := d.appenders.map (·.read) }, ([] : Text))).map Prod.fst = .ok d ↔
        d.appenders.map (·.read) = d.appenders.map id := by
    rw [List.map_id]
    constructor
    · intro h
      exact congrArg LogDefine.appenders (Except.ok.inj h)
    · intro h
      exact congrArg (fun as => Except.ok { d with appenders := as }) h
  rw [hread, List.map_inj_left]
  exact forall₂_congr fun a _ => LogAppenderDefine.read_eq_self

/-- A definition with one standard output appender of the level `level`. -/
def console (level : LogLevel) : LogDefine :=
  { name := "system".toList, appenders := [{ type := 2, level := level }] }

/-- A library on the nodes of `console .UNKNOW` and `console .INFO`. -/
def consoleYaml : Yaml where
  dump
    | .map [(.scalar k, .scalar name), (.scalar k', .seq [.map [(.scalar t, .scalar type)]])] =>
      k ++ ": ".toList ++ name ++ ['\n'] ++ k' ++ ":\n  - ".toList ++ t ++ ": ".toList ++ type
    | .map [(.scalar k, .scalar name),
        (.scalar k', .seq [.map [(.scalar t, .scalar type), (.scalar l, .scalar level)]])] =>
      k ++ ": ".toList ++ name ++ ['\n'] ++ k' ++ ":\n  - ".toList ++ t ++ ": ".toList ++ type ++
        "\n    ".toList ++ l ++ ": ".toList ++ level
    | _ => []
  load v :=
    if v = "name: system\nappenders:\n  - type: stdoutAppender".toList then some (console .UNKNOW).node
    else if v = "name: system\nappenders:\n  - type: stdoutAppender\n    level: INFO".toList then
      some (console .INFO).node
    else none

theorem roundTrips_iff_console : RoundTrips consoleYaml (console .UNKNOW) := by
  refine (roundTrips_iff rfl (by decide) ?_).mpr ?_
  · intro a ha
    obtain rfl := List.mem_singleton.mp ha
    exact .inr ⟨rfl, rfl⟩
  · intro a ha
    obtain rfl := List.mem_singleton.mp ha
    rfl

/-- The level of an appender is printed and not read. -/
theorem not_roundTrips_console_INFO :
    consoleYaml.load (consoleYaml.dump (console .INFO).node) = some (console .INFO).node ∧
      (fromString consoleYaml (toString consoleYaml (console .INFO))).map Prod.fst = .ok (console .UNKNOW) ∧
      ¬ RoundTrips consoleYaml (console .INFO) := by
  have hread : (fromString consoleYaml (toString consoleYaml (console .INFO))).map Prod.fst = .ok (console .UNKNOW) :=
    rfl
  refine ⟨rfl, hread, ?_⟩
  unfold RoundTrips
  rw [hread]
  intro h
  have hlevel : ∀ a ∈ (console .UNKNOW).appenders, a.level = .INFO := by
    rw [Except.ok.inj h]
    simp [console]
  exact absurd (hlevel _ List.mem_cons_self) (by decide)

end LogDefine

end QWebServer
