import SvrFrame.Config.Codec
import SvrFrame.Log.Define
import SvrFrame.Log.Logger

namespace SvrFrame
open Library
set_option autoImplicit true

namespace LogAppender

def dumpNode (a : LogAppender) : Node :=
  let type := match a.sink with
    | .stdOut => "StdOutAppender"
    | .file _ => "FileAppender"
  ((Node.null.set "type" (.scalar type)).setOpt "level" a.mLevel.dump).setOpt "formatter"
    a.ownPattern

/-- `StdOutAppender::ToYamlString` and `FileAppender::ToYamlString`. -/
def toYamlString (y : YamlCpp) (a : LogAppender) : String := y.emit a.dumpNode

/-- The definition an appender corresponds to. -/
def describe (a : LogAppender) : LogAppenderDefine :=
  match a.sink with
  | .stdOut => ⟨2, a.mLevel, a.ownPattern.getD "", ""⟩
  | .file f => ⟨1, a.mLevel, a.ownPattern.getD "", f.mFileName⟩

def received (a : LogAppender) : Option LogAppenderDefine :=
  match a.sink with
  | .stdOut => some ⟨2, .unknow, a.ownPattern.getD "", ""⟩
  | .file _ => none

theorem open_dumpNode (a : LogAppender) : a.dumpNode.Open :=
  Node.open_setOpt (Node.open_setOpt (Node.open_set _ _ _) _ _) _ _

theorem decode_dumpNode (y : YamlCpp) (a : LogAppender) :
    LogAppenderDefine.decode y (some a.dumpNode) = .ok a.received := by
  have hopen := a.open_dumpNode
  have hfmt := y.field_eq hopen "formatter" a.ownPattern (by simp [dumpNode])
  cases hs : a.sink with
  | stdOut =>
    have htype := y.field_eq hopen "type" (some "StdOutAppender")
      (by simp [dumpNode, hs])
    simp only [LogAppenderDefine.decode, htype, hfmt, received, hs]
    rfl
  | file f =>
    have htype := y.field_eq hopen "type" (some "FileAppender")
      (by simp [dumpNode, hs])
    have hfile := y.field_eq hopen "file" none (by simp [dumpNode])
    simp only [LogAppenderDefine.decode, htype, hfile, received, hs]
    rfl

theorem received_eq_iff (a : LogAppender) :
    a.received = some a.describe ↔ a.sink = .stdOut ∧ a.mLevel = .unknow := by
  simp only [received, describe]
  cases a.sink <;> simp [eq_comm]

end LogAppender

namespace LoggerMgr

section
variable (y : YamlCpp) (s : LoggerMgr)

/-- `Logger::ToYamlString`; `YAML::Load` may throw. -/
def loggerToYamlString (l : LoggerId) : Except Exn String := do
  let k := s.loggers l
  let node := ((Node.null.set "name" (.scalar k.mName)).setOpt "Level" k.mLevel.dump).setOpt
    "formatter" (s.pattern l)
  let node ← k.mAppenderList.foldlM (fun node a => do
    let i ← y.load ((s.appenders a).toYamlString y)
    return node.set "appenders" (.pushBack (node.find "appenders") i)) node
  return y.emit node

def toYamlString : Except Exn String := do
  let node ← s.mLoggers.elems.foldlM (fun node e => do
    let i ← y.load (← s.loggerToYamlString y e.2)
    return .pushBack (some node) i) Node.null
  return y.emit node

/-- `LexicalCast<std::string, std::set<LogDefine>>`. -/
def decodeDefines (text : String) : Except Exn LogDefines :=
  Config.decodeSet y LogDefine.name (LogDefine.decode y) text

end

def describe (s : LoggerMgr) (l : LoggerId) : LogDefine :=
  ⟨(s.loggers l).mName, (s.loggers l).mLevel, (s.pattern l).getD "",
    (s.loggers l).mAppenderList.map fun a => (s.appenders a).describe⟩

def received (s : LoggerMgr) (l : LoggerId) : LogDefine :=
  ⟨(s.loggers l).mName, .unknow, (s.pattern l).getD "",
    (s.loggers l).mAppenderList.filterMap fun a => (s.appenders a).received⟩

def dumpNode (s : LoggerMgr) (l : LoggerId) : Node :=
  (s.loggers l).mAppenderList.foldl
    (fun node a =>
      node.set "appenders" (.pushBack (node.find "appenders") (s.appenders a).dumpNode))
    (((Node.null.set "name" (.scalar (s.loggers l).mName)).setOpt "Level"
      (s.loggers l).mLevel.dump).setOpt "formatter" (s.pattern l))

theorem loggerToYamlString_eq (hy : y.Faithful) (s : LoggerMgr) (l : LoggerId) :
    s.loggerToYamlString y l = .ok (y.emit (s.dumpNode l)) := by
  simp only [loggerToYamlString, LogAppender.toYamlString, hy _]
  exact congrArg (· >>= fun node => pure (y.emit node)) List.foldlM_pure

theorem foldl_pushBack_null (nodes : List Node) (hne : nodes ≠ []) :
    nodes.foldl (fun node i => Node.pushBack (some node) i) .null = .seq nodes := by
  induction nodes using List.reverseRecOn with
  | nil => exact absurd rfl hne
  | append_singleton nodes n ih =>
    rw [List.foldl_append]
    cases nodes with
    | nil => rfl
    | cons m nodes =>
      rw [ih (by simp)]
      rfl

theorem toYamlString_eq (hy : y.Faithful) (s : LoggerMgr) (hne : s.mLoggers.elems ≠ []) :
    s.toYamlString y = .ok (y.emit (.seq (s.mLoggers.elems.map fun e => s.dumpNode e.2))) := by
  have hturn (node : Node) (e : String × LoggerId) : (do
      let i ← y.load (← s.loggerToYamlString y e.2)
      return Node.pushBack (some node) i) =
        (pure (Node.pushBack (some node) (s.dumpNode e.2)) : Except Exn Node) := by
    rw [loggerToYamlString_eq hy]
    change (y.load _ >>= _) = _
    rw [hy]
    rfl
  have hnodes := foldl_pushBack_null (s.mLoggers.elems.map fun e => s.dumpNode e.2) (by simpa)
  rw [List.foldl_map] at hnodes
  simp only [toYamlString, hturn, List.foldlM_pure, hnodes]
  rfl

theorem decodeNode_dumpNode (y : YamlCpp) (s : LoggerMgr) (l : LoggerId) :
    LogDefine.decodeNode y (s.dumpNode l) = .ok (s.received l) := by
  obtain ⟨happ, hother⟩ := Node.foldl_pushBack "appenders" (fun a => (s.appenders a).dumpNode)
    (((Node.null.set "name" (.scalar (s.loggers l).mName)).setOpt "Level"
      (s.loggers l).mLevel.dump).setOpt "formatter" (s.pattern l))
    (s.loggers l).mAppenderList (by simp)
  have hopen : (s.dumpNode l).Open := Node.open_foldl_pushBack _ _ _ _
    (Node.open_setOpt (Node.open_setOpt (Node.open_set _ _ _) _ _) _ _)
  refine LogDefine.decodeNode_eq y hopen _ none _ _ ?_ ?_ ?_ happ
    fun a => (s.appenders a).decode_dumpNode y
  · rw [dumpNode, hother _ (by decide)]; simp
  · rw [dumpNode, hother _ (by decide)]; simp
  · rw [dumpNode, hother _ (by decide)]; simp

variable {s s' : LoggerMgr}

theorem Registered.step (hs : Registered s) (h : s.step act = some s') : Registered s' := by
  cases act with
  | getLogger name => cases h; exact hs.getLogger name
  | setLevel | delAppender | clearAppenders =>
    cases h
    exact hs.congr rfl rfl fun _ => setLogger_keeps Logger.mName _ _ _ _ rfl
  | addAppender l a =>
    cases h
    exact hs.congr rfl rfl fun _ => setLogger_keeps Logger.mName (s.setAppender a _) _ _ _ rfl
  | setFormatter =>
    cases h
    exact hs.congr rfl rfl fun _ => setLogger_keeps Logger.mName s _ _ _ rfl
  | setPattern l val =>
    cases h
    simp only [LoggerMgr.setPattern]
    split
    · exact hs
    · exact hs.congr rfl rfl fun _ => setLogger_keeps Logger.mName s _ _ _ rfl
  | newStdOut | newFile | newClosedFile | setAppenderLevel | setAppenderFormatter =>
    cases h
    exact hs.congr rfl rfl fun _ => rfl

theorem reach_registered (h : Reach step (fun s act => act.valid s) (fresh out₀) s) :
    Registered s :=
  h.invariant (fresh_registered out₀) fun hs _ ht => hs.step ht

theorem received_eq_iff (s : LoggerMgr) (l : LoggerId) : s.received l = s.describe l ↔
    (s.loggers l).mLevel = .unknow ∧ ∀ a ∈ (s.loggers l).mAppenderList,
      (s.appenders a).sink = .stdOut ∧ (s.appenders a).mLevel = .unknow := by
  simp only [received, describe, LogDefine.mk.injEq, true_and,
    List.filterMap_eq_map_iff_forall_eq_some, LogAppender.received_eq_iff]
  rw [eq_comm]

theorem decode_toYamlString (hy : y.Faithful) (hs : Registered s) :
    ∃ v, (s.toYamlString y >>= decodeDefines y) = .ok v ∧
      v.elems = s.mLoggers.elems.map fun e => s.received e.2 := by
  have hdecode : (s.toYamlString y >>= decodeDefines y) =
      .ok ((s.mLoggers.elems.map fun e => s.received e.2).foldl OrdSet.insert OrdSet.empty) := by
    rw [toYamlString_eq hy s hs.nonempty]
    exact Config.decodeSet_emit y hy _ _ _ _ fun e _ => by
      rw [LogDefine.decode, hy]
      exact decodeNode_dumpNode y s e.2
  have hsorted : (s.mLoggers.elems.map fun e => s.received e.2).Pairwise
      fun a b => a.name < b.name := by
    rw [List.pairwise_map]
    refine s.mLoggers.sorted.imp_of_mem fun {a b} ha hb hab => ?_
    simp only [received, hs.named a ha, hs.named b hb]
    exact hab
  exact ⟨_, hdecode, OrdSet.elems_foldl_insert OrdSet.empty _ hsorted⟩

/-- The decoder gives back one definition for each logger, with all of its fields, if and only if
no logger and no appender has a level and no appender writes to a file. -/
theorem dump_decodes_iff (hy : y.Faithful)
    (h : Reach step (fun s act => act.valid s) (fresh out₀) s) :
    (∃ v, (s.toYamlString y >>= decodeDefines y) = .ok v ∧
        v.elems = s.mLoggers.elems.map fun e => s.describe e.2) ↔
      ∀ e ∈ s.mLoggers.elems, (s.loggers e.2).mLevel = .unknow ∧
        ∀ a ∈ (s.loggers e.2).mAppenderList,
          (s.appenders a).sink = .stdOut ∧ (s.appenders a).mLevel = .unknow := by
  obtain ⟨v, hdecode, helems⟩ := decode_toYamlString hy (reach_registered h)
  rw [hdecode]
  simp only [Except.ok.injEq, exists_eq_left']
  rw [helems]
  simp only [List.map_inj_left, received_eq_iff]

theorem dump_decodes_root :
    ∃ s v, Reach step (fun s act => act.valid s) (fresh ⟨fun _ => "", ""⟩) s ∧
      (s.toYamlString Flow.yaml >>= decodeDefines Flow.yaml) = .ok v ∧
      v.elems = [⟨"root", .unknow, Logger.defaultFormatter.mPattern, [⟨2, .unknow, "", ""⟩]⟩] := by
  have h : Reach step (fun s act => act.valid s) (fresh ⟨fun _ => "", ""⟩) _ :=
    .tail (.tail .refl (a := .setLevel 0 .unknow) (by decide) rfl)
      (a := .setAppenderLevel 0 .unknow) (by decide) rfl
  obtain ⟨v, hdecode, helems⟩ := (dump_decodes_iff Flow.yaml_faithful h).2 (by decide)
  exact ⟨_, v, h, hdecode, helems⟩

/-- The dump of a fresh manager with a file appender comes back without the level of the root
logger and without the file appender. -/
theorem dump_loses_level_and_file :
    ∃ s v, Reach step (fun s act => act.valid s) (fresh ⟨fun _ => "", ""⟩) s ∧
      s.describe 0 = ⟨"root", .info, Logger.defaultFormatter.mPattern,
        [⟨2, .debug, "", ""⟩, ⟨1, .debug, "", "log.txt"⟩]⟩ ∧
      (s.toYamlString Flow.yaml >>= decodeDefines Flow.yaml) = .ok v ∧
      v.elems = [⟨"root", .unknow, Logger.defaultFormatter.mPattern, [⟨2, .unknow, "", ""⟩]⟩] := by
  have h : Reach step (fun s act => act.valid s) (fresh ⟨fun _ => "", ""⟩) _ :=
    .tail (.tail .refl (a := .newFile "log.txt" 0 true) trivial rfl)
      (a := .addAppender 0 1) (by decide) rfl
  obtain ⟨v, hdecode, helems⟩ := decode_toYamlString Flow.yaml_faithful (reach_registered h)
  exact ⟨_, v, h, by decide, hdecode, helems⟩

end LoggerMgr
end SvrFrame
