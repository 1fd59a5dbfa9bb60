import SvrFrame.Library.OrdSet
import SvrFrame.Log.Formatter
import SvrFrame.Yaml.Flow
import Mathlib.Data.String.Basic

namespace SvrFrame
open Library
set_option autoImplicit true

/-- The type is 1 for a file, 2 for the standard output. -/
structure LogAppenderDefine where
  type : Int
  level : LogLevel
  formatter : String
  file : String
  deriving DecidableEq, Repr

structure LogDefine where
  name : String
  level : LogLevel
  formatter : String
  appenders : List LogAppenderDefine
  deriving DecidableEq, Repr

/-- `std::set<LogDefine>`, ordered by the names. -/
abbrev LogDefines := OrdSet LogDefine.name

section
variable (y : YamlCpp)

/-- One turn of the loop over `n["appenders"]`; `none` where it goes on without an entry. -/
def LogAppenderDefine.decode (apd : Option Node) : Except Exn (Option LogAppenderDefine) := do
  match ← y.field apd "type" with
  | none => return none
  | some "FileAppender" =>
    match ← y.field apd "file" with
    | none => return none
    | some file =>
      let formatter := if (← YamlCpp.get apd "formatter").isSome then file else ""
      return some ⟨1, .unknow, formatter, file⟩
  | some "StdOutAppender" =>
    let formatter := (← y.field apd "formatter").getD ""
    return some ⟨2, .unknow, formatter, ""⟩
  | some _ => return none

def decodeAppenders : List (Option Node) → Except Exn (List LogAppenderDefine)
  | [] => return []
  | apd :: apds => do
    let a ← LogAppenderDefine.decode y apd
    let as ← decodeAppenders apds
    return a.toList ++ as

def LogDefine.decodeNode (n : Node) : Except Exn LogDefine := do
  match ← y.field (some n) "name" with
  | none => throw (.logicError "log config name is null")
  | some name =>
    let level ← y.field (some n) "level"
    let formatter ← y.field (some n) "formatter"
    let appenders ← match ← n.get "appenders" with
      | some apds => decodeAppenders y (y.children apds)
      | none => pure []
    return ⟨name, LogLevel.fromString (level.getD ""), formatter.getD "", appenders⟩

/-- `LexicalCast<std::string, LogDefine>`. -/
def LogDefine.decode (str : String) : Except Exn LogDefine := do
  LogDefine.decodeNode y (← y.load str)

end

def LogLevel.dump (l : LogLevel) : Option String := if l ≠ .unknow then some l.toString else none

def dumpString (s : String) : Option String := if s ≠ "" then some s else none

@[simp] theorem LogLevel.fromString_dump (l : LogLevel) : fromString (l.dump.getD "") = l := by
  cases l <;> decide

@[simp] theorem dumpString_getD (s : String) : (dumpString s).getD "" = s := by
  by_cases h : s = "" <;> simp [dumpString, h]

def LogAppenderDefine.encodeNode (a : LogAppenderDefine) : Node :=
  let na : Node :=
    if a.type = 1 then (Node.null.set "type" (.scalar "FileAppender")).set "file" (.scalar a.file)
    else if a.type = 2 then Node.null.set "type" (.scalar "StdOutAppender")
    else .null
  (na.setOpt "level" a.level.dump).setOpt "formatter" (dumpString a.formatter)

def LogDefine.encodeNode (i : LogDefine) : Node :=
  let n := Node.null.set "name" (.scalar i.name)
  let n := (n.setOpt "level" i.level.dump).setOpt "formatter" (dumpString i.formatter)
  i.appenders.foldl
    (fun n a => n.set "appenders" (.pushBack (n.find "appenders") a.encodeNode)) n

/-- `LexicalCast<LogDefine, std::string>`. -/
def LogDefine.encode (y : YamlCpp) (i : LogDefine) : String := y.emit i.encodeNode

namespace LogAppenderDefine
variable (y : YamlCpp)

/-- What the decoder makes of an encoded definition. -/
def received (a : LogAppenderDefine) : Option LogAppenderDefine :=
  if a.type = 1 then some ⟨1, .unknow, if a.formatter = "" then "" else a.file, a.file⟩
  else if a.type = 2 then some ⟨2, .unknow, a.formatter, ""⟩
  else none

theorem open_encodeNode (a : LogAppenderDefine) : a.encodeNode.Open := by
  refine Node.open_setOpt (Node.open_setOpt ?_ _ _) _ _
  split
  · exact Node.open_set _ _ _
  · split
    · exact Node.open_set _ _ _
    · exact Node.open_null

theorem get_formatter_encodeNode (a : LogAppenderDefine) :
    YamlCpp.get (some a.encodeNode) "formatter" = .ok ((dumpString a.formatter).map .scalar) := by
  rw [YamlCpp.get, open_encodeNode]
  simp only [encodeNode]
  split
  · simp
  · split <;> simp

theorem decode_encodeNode (a : LogAppenderDefine) :
    decode y (some a.encodeNode) = .ok a.received := by
  have hopen := a.open_encodeNode
  by_cases h1 : a.type = 1
  · have htype := y.field_eq hopen "type" (some "FileAppender")
      (by simp [encodeNode, h1])
    have hfile := y.field_eq hopen "file" (some a.file) (by simp [encodeNode, h1])
    simp only [decode, htype, hfile, a.get_formatter_encodeNode, received, if_pos h1]
    by_cases hf : a.formatter = "" <;> simp [hf, dumpString, bind, Except.bind, pure, Except.pure]
  · by_cases h2 : a.type = 2
    · have htype := y.field_eq hopen "type" (some "StdOutAppender")
        (by simp [encodeNode, h2])
      have hfmt := y.field_eq hopen "formatter" (dumpString a.formatter)
        (by simp [encodeNode, h2])
      simp only [decode, htype, hfmt, received, if_neg h1, if_pos h2]
      simp [bind, Except.bind, pure, Except.pure]
    · have htype := y.field_eq hopen "type" none (by simp [encodeNode, h1, h2])
      simp only [decode, htype, received, if_neg h1, if_neg h2]
      rfl

theorem received_eq_iff (a : LogAppenderDefine) : a.received = some a ↔ a.level = .unknow ∧
    (a.type = 1 ∧ (a.formatter = "" ∨ a.formatter = a.file) ∨ a.type = 2 ∧ a.file = "") := by
  obtain ⟨type, level, formatter, file⟩ := a
  simp only [received]
  split
  · rename_i h
    subst h
    by_cases hf : formatter = "" <;> simp [hf, eq_comm]
  · split
    · rename_i h
      subst h
      simp [eq_comm]
    · simp [*]

end LogAppenderDefine

theorem decodeAppenders_map (y : YamlCpp) {f : α → Node} {r : α → Option LogAppenderDefine}
    (h : ∀ a, LogAppenderDefine.decode y (some (f a)) = .ok (r a)) (as : List α) :
    decodeAppenders y (as.map fun a => some (f a)) = .ok (as.filterMap r) := by
  induction as with
  | nil => rfl
  | cons a as ih =>
    simp only [List.map_cons, decodeAppenders, h, ih]
    cases ha : r a <;> simp [ha, bind, Except.bind, pure, Except.pure]

namespace LogDefine
variable (y : YamlCpp)

theorem decodeNode_eq {n : Node} (hopen : n.Open) (name : String) (level formatter : Option String)
    (as : List α) {f : α → Node} {r : α → Option LogAppenderDefine}
    (hname : n.find "name" = some (.scalar name)) (hlevel : n.find "level" = level.map .scalar)
    (hfmt : n.find "formatter" = formatter.map .scalar)
    (happ : n.find "appenders" = if as.isEmpty then none else some (.seq (as.map f)))
    (h : ∀ a, LogAppenderDefine.decode y (some (f a)) = .ok (r a)) :
    decodeNode y n = .ok
      ⟨name, LogLevel.fromString (level.getD ""), formatter.getD "", as.filterMap r⟩ := by
  have hname' := y.field_eq hopen "name" (some name) hname
  simp only [decodeNode, hname', y.field_eq hopen _ _ hlevel, y.field_eq hopen _ _ hfmt,
    hopen "appenders", happ]
  cases as with
  | nil => simp [bind, Except.bind, pure, Except.pure]
  | cons a as =>
    have hchildren : y.children (.seq ((a :: as).map f)) = (a :: as).map fun a => some (f a) := by
      rw [YamlCpp.children_seq, List.map_map]
      rfl
    simp only [List.isEmpty_cons, Bool.false_eq_true, if_false, bind, Except.bind, pure,
      Except.pure, hchildren, decodeAppenders_map y h]

theorem open_encodeNode (i : LogDefine) : i.encodeNode.Open :=
  Node.open_foldl_pushBack _ _ _ _
    (Node.open_setOpt (Node.open_setOpt (Node.open_set _ _ _) _ _) _ _)

/-- The decoder reads the name, the level and the formatter back, and drops appender levels. -/
theorem decodeNode_encodeNode (i : LogDefine) : decodeNode y i.encodeNode =
    .ok { i with appenders := i.appenders.filterMap LogAppenderDefine.received } := by
  obtain ⟨happ, hother⟩ := Node.foldl_pushBack "appenders" LogAppenderDefine.encodeNode
    (((Node.null.set "name" (.scalar i.name)).setOpt "level" i.level.dump).setOpt "formatter"
      (dumpString i.formatter)) i.appenders (by simp)
  rw [decodeNode_eq y i.open_encodeNode i.name i.level.dump (dumpString i.formatter) i.appenders
    ?_ ?_ ?_ happ fun a => a.decode_encodeNode y,
    LogLevel.fromString_dump, dumpString_getD]
  · rw [encodeNode, hother _ (by decide)]; simp
  · rw [encodeNode, hother _ (by decide)]; simp
  · rw [encodeNode, hother _ (by decide)]; simp

theorem decode_encode (hy : y.Faithful) (i : LogDefine) : decode y (i.encode y) =
    .ok { i with appenders := i.appenders.filterMap LogAppenderDefine.received } := by
  rw [decode, encode, hy i.encodeNode]
  exact decodeNode_encodeNode y i

/-- A definition survives being written and read if and only if no appender has a level, each
file appender has no formatter but its file name, and no other appender has a file. -/
theorem decode_encode_iff (hy : y.Faithful) (i : LogDefine) :
    decode y (i.encode y) = .ok i ↔ ∀ a ∈ i.appenders, a.level = .unknow ∧
      (a.type = 1 ∧ (a.formatter = "" ∨ a.formatter = a.file) ∨ a.type = 2 ∧ a.file = "") := by
  have happ : i.appenders.filterMap LogAppenderDefine.received = i.appenders ↔
      ∀ a ∈ i.appenders, a.received = some a := by
    simpa using List.filterMap_eq_map_iff_forall_eq_some (f := LogAppenderDefine.received) (g := id)
      (l := i.appenders)
  simp only [decode_encode y hy, Except.ok.injEq, LogAppenderDefine.received_eq_iff] at happ ⊢
  rw [← happ]
  obtain ⟨name, level, formatter, appenders⟩ := i
  simp

theorem decode_encode_stdOut :
    decode Flow.yaml (encode Flow.yaml ⟨"root", .info, "%m%n", [⟨2, .unknow, "%d%T%m%n", ""⟩]⟩) =
      .ok ⟨"root", .info, "%m%n", [⟨2, .unknow, "%d%T%m%n", ""⟩]⟩ :=
  (decode_encode_iff Flow.yaml Flow.yaml_faithful _).2 (by decide)

/-- The decoder drops the level of an appender and takes the file name of a file appender for its
formatter. -/
theorem decode_loses_appender_fields :
    decode Flow.yaml (encode Flow.yaml
        ⟨"root", .info, "", [⟨2, .error, "", ""⟩, ⟨1, .unknow, "%m%n", "log.txt"⟩]⟩) =
      .ok ⟨"root", .info, "", [⟨2, .unknow, "", ""⟩, ⟨1, .unknow, "log.txt", "log.txt"⟩]⟩ :=
  decode_encode Flow.yaml Flow.yaml_faithful _

end LogDefine
end SvrFrame
