import SvrFrame.Log.Threshold

namespace SvrFrame
open Library
set_option autoImplicit true

namespace LoggerMgr
variable {s s' s'' : LoggerMgr}

/-- Every formatter has been built from its pattern. -/
structure Genuine (s : LoggerMgr) : Prop where
  loggers : ∀ l, ∀ f ∈ (s.loggers l).mFormatter, f = .new f.mPattern
  appenders : ∀ a, ∀ f ∈ (s.appenders a).mFormatter, f = .new f.mPattern

/-- The appender has this formatter while some logger has the appender. -/
structure Holds (s : LoggerMgr) (a : AppenderId) (f : LogFormatter) : Prop where
  known : a < s.nextAppender
  held : ∀ l, a ∈ (s.loggers l).mAppenderList → (s.appenders a).mFormatter = some f

/-- No formatter is made up, and no appender in use gets another one. -/
structure Steady (s s' : LoggerMgr) : Prop where
  separate : Separate s'
  genuine : Genuine s → Genuine s'
  holds : ∀ a f, s.Holds a f → s'.Holds a f

theorem Steady.refl (hs : Separate s) : Steady s s := ⟨hs, id, fun _ _ => id⟩

theorem Steady.trans (h : Steady s s') (h' : Steady s' s'') : Steady s s'' :=
  ⟨h'.separate, fun hg => h'.genuine (h.genuine hg), fun a f hh => h'.holds a f (h.holds a f hh)⟩

end LoggerMgr

namespace LogAppenderDefine

end LogAppenderDefine

namespace LogIniter
open LoggerMgr
variable {s s' : LoggerMgr} (birth : AppenderId → FileBirth)

end LogIniter

namespace LogConfig
open LoggerMgr
variable {c c' : LogConfig}

/-- The text that `Log` hands to the stream. -/
def text (c : LogConfig) (ap : AppenderId) (env : FormatEnv) (level : LogLevel)
    (event : LogEvent) : Option String :=
  (c.mgr.appenders ap).mFormatter.map fun fmt => fmt.format env level event

/-- The patterns render the events of the level and above alike. -/
def SameText (level : LogLevel) (p q : String) : Prop :=
  ∀ env level' event, level ≤ level' → (LogFormatter.new p).format env level' event =
    (LogFormatter.new q).format env level' event

/-- The formatter of an appender node; a node without one, or with one that is no text, has an
empty one. -/
def ownFormatter (y : YamlCpp) (apd : Option Node) : String :=
  match y.field apd "formatter" with
  | .ok (some text) => text
  | _ => ""

/-- A formatter, or the one of the logger where it is empty or has errors. -/
def effective (inherited text : String) : String := if validPattern text then text else inherited

/-- The node is for the standard output, or has no formatter, or its file name and its formatter
render the events that its logger lets through alike. -/
def Undisturbed (y : YamlCpp) (level : LogLevel) (inherited : String) (apd : Option Node) : Prop :=
  y.field apd "type" = .ok (some "StdOutAppender") ∨ YamlCpp.get apd "formatter" = .ok none ∨
    ∃ file, y.field apd "file" = .ok (some file) ∧
      SameText level (effective inherited file) (effective inherited (ownFormatter y apd))

end LogConfig
end SvrFrame
