import QWebServer.Config.Registry
import QWebServer.Log.Codec
import QWebServer.Log.Root

/-!
# `toYamlString`: the loggers as a YAML text

* `Appender.exported`, `LoggerManager.loggerNode` : the nodes that the members `toYamlString` build, `toYamlString` :
  their texts;
* `LogSet.cast` : the conversion of the variable `logs`;
* `LogDefine.ofLogger` : the definition that is read from the node of a logger, `LoggerManager.nodes` : the nodes that
  are printed and loaded on the way;
* `LogSet.cast_fromString` : the set that is read from the text of all loggers.
-/

namespace QWebServer

open Lib

/-! ## `toYamlString` -/

def LogAppender.exported (a : LogAppender) (node : List (Node × Node)) : List (Node × Node) :=
  let node := assignIf (a.level ≠ .UNKNOW) "level" a.level.ToString node
  match a.formatter with
  | some f => assignIf a.hasFormatter "formatter" f.pattern node
  | none => node

/-- The node of an appender. -/
def Appender.exported : Appender → Node
  | file a =>
    .map (a.toLogAppender.exported (assignIf true "file" a.filename (assignIf true "type" "fileAppender".toList [])))
  | stdout a => .map (a.exported (assignIf true "type" "stdoutAppender".toList []))

section
variable (y : Yaml)

def Appender.toYamlString (a : Appender) : Text := y.dump a.exported

/-- The entries of the node of a logger, without its appenders. -/
def Logger.exported (l : Logger) : List (Node × Node) :=
  let node := assignIf true "name" l.name []
  let node := assignIf (l.level ≠ .UNKNOW) "level" l.level.ToString node
  assignIf true "formatter" l.formatter.pattern node

/-- `node["appenders"].push_back(...)` for the nodes of all appenders. -/
def putAppenders (nodes : List Node) (node : List (Node × Node)) : List (Node × Node) :=
  if nodes.isEmpty then node else Node.put "appenders".toList (.seq nodes) node

/-- `Logger::toYamlString`, where `m_formater` is not null. -/
def Logger.toYamlString (heap : Nat → Appender) (l : Logger) : Option Text := do
  let nodes ← l.appenders.mapM fun i => y.load ((heap i).toYamlString y)
  return y.dump (.map (putAppenders nodes l.exported))

namespace LoggerManager

/-- The keys of `m_loggers`, in their order. -/
structure Listing (m : LoggerManager) (names : List Text) : Prop where
  sorted : names.Pairwise (· < ·)
  mem : ∀ n, n ∈ names ↔ m.Has n

/-- `LoggerManager::toYamlString`, where `m_loggers` has the keys `names`. -/
def toYamlString (m : LoggerManager) (names : List Text) : Option Text := do
  let nodes ← names.mapM fun n => do y.load (← (m.getLogger n).toYamlString y m.heap)
  return y.dump (if nodes.isEmpty then .null else .seq nodes)

end LoggerManager

/-! ## The variable `logs` -/

def LogSet.insert (S : LogSet) (d : LogDefine) : LogSet where
  defs := (OrderedSet.insert (· < ·) LogDefine.name d S.defs).1
  sorted := List.pairwise_map.mpr (OrderedSet.Sorted.insert (List.pairwise_map.mp S.sorted) d)

/-- The specialisations of `LexicalCast` for `LogDefine`; an exception is `none`. -/
def LogDefine.cast : LexicalCast LogDefine where
  fromString v := (LogDefine.fromString y v).toOption.map Prod.fst
  toString d := some (d.toString y)

theorem LogSet.sorted_nil : (List.map LogDefine.name []).Pairwise (· < ·) := List.Pairwise.nil

def LogSet.empty : LogSet := ⟨[], LogSet.sorted_nil⟩

/-- `LexicalCast` of `std::set<LogDefine>`. -/
def LogSet.cast : LexicalCast LogSet where
  fromString := LexicalCast.sequenceFromString y (LogDefine.cast y) LogSet.insert LogSet.empty
  toString S := LexicalCast.sequenceToString y (LogDefine.cast y) S.defs

end

/-! ## Reading a logger back -/

/-- The pattern of a formatter that was set on the appender. -/
def LogAppender.ownPattern (a : LogAppender) : Text :=
  if a.hasFormatter then (a.formatter.map LogFormatter.pattern).getD [] else []

/-- What is read from the node of an appender. -/
def LogAppenderDefine.ofAppender : Appender → LogAppenderDefine
  | .file a => { type := 1, file := a.filename, formatter := a.ownPattern }
  | .stdout a => { type := 2, formatter := a.ownPattern }

/-- A level that is printed and read: 100 has no text of its own. -/
def LogLevel.reread (level : LogLevel) : LogLevel := if level = .level100 then .UNKNOW else level

/-- What is read from the node of a logger. -/
def LogDefine.ofLogger (heap : Nat → Appender) (l : Logger) : LogDefine where
  name := l.name
  level := l.level.reread
  formatter := l.formatter.pattern
  appenders := (l.appenders.map heap).map .ofAppender

/-- The node of a logger. -/
def Logger.node (heap : Nat → Appender) (l : Logger) : Node :=
  .map (putAppenders ((l.appenders.map heap).map Appender.exported) l.exported)

section
variable {y : Yaml}

theorem readAppender_exported (a : Appender) :
    LogDefine.readAppender y (some a.exported) = .ok (some (.ofAppender a), []) := by
  cases a with
  | file a =>
    obtain ⟨⟨hasFormatter, level, formatter⟩, filename, lastTime⟩ := a
    cases formatter <;> cases hasFormatter <;> cases level <;> rfl
  | stdout a =>
    obtain ⟨hasFormatter, level, formatter⟩ := a
    cases formatter <;> cases hasFormatter <;> cases level <;> rfl

theorem readAppenders_exported (as : List Appender) :
    LogDefine.readAppenders y ((as.map Appender.exported).map some) = .ok (as.map .ofAppender, []) := by
  induction as with
  | nil => rfl
  | cons a as ih =>
    simp only [List.map_cons, LogDefine.readAppenders]
    rw [readAppender_exported, ih]
    rfl

/-- **The node of a logger** is read without a message. -/
theorem fromString_node {heap : Nat → Appender} {l : Logger} {v : Text} (hv : y.load v = some (l.node heap)) :
    LogDefine.fromString y v = .ok (.ofLogger heap l, []) := by
  have hread : LogDefine.fromString y v =
      (LogDefine.readAppenders y (((l.appenders.map heap).map Appender.exported).map some)).map fun r =>
        ({ LogDefine.ofLogger heap l with appenders := r.1 }, r.2) := by
    unfold LogDefine.fromString LogDefine.load
    rw [hv]
    obtain ⟨name, level, appenders, root, formatter⟩ := l
    cases appenders <;> cases level <;> rfl
  rw [hread, readAppenders_exported]
  rfl

end

/-! ## The text of all loggers -/

namespace LoggerManager

def loggerNode (m : LoggerManager) (n : Text) : Node := (m.getLogger n).node m.heap

/-- The definition that is read from the node of the logger `n`. -/
def definition (m : LoggerManager) (n : Text) : LogDefine := .ofLogger m.heap (m.getLogger n)

/-- The nodes that are printed and loaded between two processes. -/
def nodes (m : LoggerManager) (names : List Text) : List Node :=
  .seq (names.map m.loggerNode) ::
    names.flatMap fun n => m.loggerNode n :: ((m.getLogger n).appenders.map m.heap).map Appender.exported

variable {y : Yaml} {m : LoggerManager} {names : List Text}

theorem loggerNode_mem {n : Text} (hn : n ∈ names) : m.loggerNode n ∈ m.nodes names :=
  List.mem_cons_of_mem _ (List.mem_flatMap.mpr ⟨n, hn, List.mem_cons_self⟩)

theorem appender_mem {n : Text} (hn : n ∈ names) {a : Nat} (ha : a ∈ (m.getLogger n).appenders) :
    (m.heap a).exported ∈ m.nodes names := by
  refine List.mem_cons_of_mem _ (List.mem_flatMap.mpr ⟨n, hn, List.mem_cons_of_mem _ ?_⟩)
  exact List.mem_map_of_mem (List.mem_map_of_mem ha)

theorem logger_toYamlString (hy : ∀ n ∈ m.nodes names, y.load (y.dump n) = some n) {n : Text} (hn : n ∈ names) :
    (m.getLogger n).toYamlString y m.heap = some (y.dump (m.loggerNode n)) := by
  have hload : ∀ a ∈ (m.getLogger n).appenders,
      y.load ((m.heap a).toYamlString y) = some (m.heap a).exported := fun a ha => hy _ (appender_mem hn ha)
  unfold Logger.toYamlString
  rw [mapM_some hload]
  simp only [loggerNode, Logger.node, List.map_map]
  rfl

theorem toYamlString_eq (hy : ∀ n ∈ m.nodes names, y.load (y.dump n) = some n) (hne : names ≠ []) :
    m.toYamlString y names = some (y.dump (.seq (names.map m.loggerNode))) := by
  unfold toYamlString
  rw [mapM_some (g := m.loggerNode) fun n hn => ?_]
  · simp [hne]
  · rw [logger_toYamlString hy hn]
    exact hy _ (loggerNode_mem hn)

end LoggerManager

/-- Definitions with increasing names are inserted one after the other. -/
theorem LogSet.foldl_insert (S : LogSet) {ds : List LogDefine}
    (h : ((S.defs ++ ds).map LogDefine.name).Pairwise (· < ·)) : (ds.foldl LogSet.insert S).defs = S.defs ++ ds := by
  induction ds generalizing S with
  | nil => exact (List.append_nil _).symm
  | cons d ds ih =>
    have hinsert : (S.insert d).defs = S.defs ++ [d] := by
      refine OrderedSet.insert_last fun x hx => ?_
      rw [List.map_append, List.pairwise_append] at h
      exact h.2.2 _ (List.mem_map_of_mem hx) _ (by simp)
    rw [List.foldl_cons, ih, hinsert, List.append_assoc, List.singleton_append]
    rwa [hinsert, List.append_assoc, List.singleton_append]

/-- The set that is read from the text of all loggers. -/
theorem LogSet.cast_fromString {y : Yaml} {m : LoggerManager} {names : List Text} (hs : names.Pairwise (· < ·))
    (hname : ∀ n, (m.getLogger n).name = n) (hy : ∀ n ∈ m.nodes names, y.load (y.dump n) = some n) :
    ∃ S, (LogSet.cast y).fromString (y.dump (.seq (names.map m.loggerNode))) = some S ∧
      S.defs = names.map m.definition := by
  have hread : ∀ n ∈ names, (LogDefine.cast y).fromString (y.dump (m.loggerNode n)) = some (m.definition n) := by
    intro n hn
    have hok : LogDefine.fromString y (y.dump (m.loggerNode n)) = .ok (m.definition n, []) :=
      fromString_node (hy _ (LoggerManager.loggerNode_mem hn))
    show ((LogDefine.fromString y (y.dump (m.loggerNode n))).toOption.map Prod.fst) = _
    rw [hok]
    rfl
  refine ⟨(names.map m.definition).foldl LogSet.insert LogSet.empty, ?_, ?_⟩
  · unfold LogSet.cast LexicalCast.sequenceFromString
    simp only [hy _ List.mem_cons_self]
    show (((names.map m.loggerNode).map some).foldlM _ _) = _
    rw [LexicalCast.foldlM_insert (fun n => (LogDefine.cast y).fromString (y.text n)), List.mapM_map, List.mapM_map]
    show Option.map _ (names.mapM fun n => (LogDefine.cast y).fromString (y.dump (m.loggerNode n))) = _
    rw [mapM_some hread]
    rfl
  · refine LogSet.foldl_insert _ ?_
    have hnames : (names.map m.definition).map LogDefine.name = names := by
      rw [List.map_map]
      exact (List.map_congr_left fun n _ => hname n).trans (List.map_id _)
    show (([] ++ names.map m.definition).map LogDefine.name).Pairwise (· < ·)
    rw [List.nil_append, hnames]
    exact hs

end QWebServer
