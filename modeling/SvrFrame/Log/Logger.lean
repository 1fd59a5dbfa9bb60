import SvrFrame.Library.OrdSet
import SvrFrame.Log.Appender
import Mathlib.Data.String.Basic
import Mathlib.Tactic.Simps.Basic

namespace SvrFrame
open Library
set_option autoImplicit true

abbrev AppenderId := Nat

/-- A `Logger`; the appenders are shared, the formatters never change. -/
structure Logger where
  mName : String
  mLevel : LogLevel
  mAppenderList : List AppenderId
  mFormatter : Option LogFormatter
  mRoot : Option LoggerId
  deriving DecidableEq, Repr

def Logger.defaultFormatter : LogFormatter :=
  .new "%d{%Y-%m-%d %H:%M:%S}%T%t%T%N%T%F%T[%p]%T[%c]%T%f:%l%T%m%n"

def Logger.new (name : String) (root : Option LoggerId) : Logger :=
  ⟨name, .info, [], some defaultFormatter, root⟩

def LogAppender.ownPattern (a : LogAppender) : Option String :=
  if a.bHasFormatter then a.mFormatter.map LogFormatter.getPattern else none

/-- A text that an appender has handed to its stream. -/
structure Record where
  appender : AppenderId
  level : LogLevel
  event : LogEvent
  deriving DecidableEq, Repr

/-- `std::map<std::string, Logger::ptr>`. -/
abbrev LoggerMap := OrdSet fun e : String × LoggerId => e.1

/-- `LoggerMgr`, with the loggers and appenders that pointers lead to. -/
structure LoggerMgr where
  loggers : LoggerId → Logger
  nextLogger : LoggerId
  appenders : AppenderId → LogAppender
  nextAppender : AppenderId
  mLoggers : LoggerMap
  mRoot : LoggerId
  out : Output
  /-- Ghost: everything the appenders have written, in order. -/
  written : List Record

structure LogIo where
  strftime : String → UInt64 → String
  file : AppenderId → FileIo

namespace LoggerMgr

@[simps] def setLogger (s : LoggerMgr) (l : LoggerId) (k : Logger) : LoggerMgr :=
  { s with loggers := Function.update s.loggers l k }

@[simps] def setAppender (s : LoggerMgr) (a : AppenderId) (x : LogAppender) : LoggerMgr :=
  { s with appenders := Function.update s.appenders a x }

def pattern (s : LoggerMgr) (l : LoggerId) : Option String :=
  (s.loggers l).mFormatter.map LogFormatter.getPattern

def findLogger (s : LoggerMgr) (name : String) : Option LoggerId :=
  (s.mLoggers.find? name).map Prod.snd

/-- `new Logger(name)`, registered under its name. -/
@[simps] def newLogger (s : LoggerMgr) (name : String) : LoggerMgr :=
  { s with
    loggers := Function.update s.loggers s.nextLogger (Logger.new name (some s.mRoot))
    nextLogger := s.nextLogger + 1
    mLoggers := s.mLoggers.insert (name, s.nextLogger) }

def getLogger (s : LoggerMgr) (name : String) : LoggerMgr × LoggerId :=
  match s.findLogger name with
  | some l => (s, l)
  | none => (s.newLogger name, s.nextLogger)

@[simps] def newAppender (s : LoggerMgr) (x : LogAppender) : LoggerMgr :=
  { s with
    appenders := Function.update s.appenders s.nextAppender x
    nextAppender := s.nextAppender + 1 }

def newFileAppender (s : LoggerMgr) (name : String) (lastTime : UInt64) (opens : Bool) :
    LoggerMgr :=
  let (f, out') := FileSink.new name lastTime s.out opens
  { s with out := out' }.newAppender (.new (.file f))

def setLevel (s : LoggerMgr) (l : LoggerId) (level : LogLevel) : LoggerMgr :=
  s.setLogger l { s.loggers l with mLevel := level }

/-- The formatter an appender has once it has been added to a logger. -/
def inherit (x : LogAppender) (fmt : Option LogFormatter) : LogAppender :=
  if x.mFormatter = none then { x with mFormatter := fmt } else x

def addAppender (s : LoggerMgr) (l : LoggerId) (a : AppenderId) : LoggerMgr :=
  let k := s.loggers l
  (s.setAppender a (inherit (s.appenders a) k.mFormatter)).setLogger l
    { k with mAppenderList := k.mAppenderList ++ [a] }

def delAppender (s : LoggerMgr) (l : LoggerId) (a : AppenderId) : LoggerMgr :=
  s.setLogger l { s.loggers l with mAppenderList := (s.loggers l).mAppenderList.erase a }

def clearAppenders (s : LoggerMgr) (l : LoggerId) : LoggerMgr :=
  s.setLogger l { s.loggers l with mAppenderList := [] }

/-- `Logger::SetFormatter`; the loop gives the formatter to every appender without its own. -/
def setFormatter (s : LoggerMgr) (l : LoggerId) (val : Option LogFormatter) : LoggerMgr :=
  { s.setLogger l { s.loggers l with mFormatter := val } with
    appenders := fun a =>
      if a ∈ (s.loggers l).mAppenderList ∧ (s.appenders a).bHasFormatter = false then
        { s.appenders a with mFormatter := val }
      else s.appenders a }

def setPattern (s : LoggerMgr) (l : LoggerId) (val : String) : LoggerMgr :=
  if (LogFormatter.new val).isError then s else s.setFormatter l (some (.new val))

/-- One turn of the loop of `Logger::Log`. -/
def logTo (io : LogIo) (level : LogLevel) (event : LogEvent) (s : LoggerMgr) (a : AppenderId) :
    Option LoggerMgr :=
  let x := s.appenders a
  (x.log ⟨io.strftime, fun l => (s.loggers l).mName⟩ (io.file a) s.out level event).map fun p =>
    { s.setAppender a p.1 with
      out := p.2
      written := if x.mLevel ≤ level then s.written ++ [⟨a, level, event⟩] else s.written }

/-- `Logger::Log`. A chain of `mRoot` pointers is not longer than there are loggers. -/
def logAt (io : LogIo) (level : LogLevel) (event : LogEvent) :
    Nat → LoggerMgr → LoggerId → Option LoggerMgr
  | 0, _, _ => none
  | fuel + 1, s, l =>
    if (s.loggers l).mLevel ≤ level then
      match (s.loggers l).mAppenderList, (s.loggers l).mRoot with
      | [], some root => logAt io level event fuel s root
      | as, _ => as.foldlM (logTo io level event) s
    else some s

def log (io : LogIo) (level : LogLevel) (event : LogEvent) (s : LoggerMgr) (l : LoggerId) :
    Option LoggerMgr :=
  logAt io level event s.nextLogger s l

/-- The constructor: the root logger with an appender for the standard output. -/
def fresh (out : Output) : LoggerMgr :=
  addAppender
    { loggers := fun _ => .new "root" none
      nextLogger := 1
      appenders := fun _ => .new .stdOut
      nextAppender := 1
      mLoggers := OrdSet.empty.insert ("root", 0)
      mRoot := 0
      out := out
      written := [] } 0 0

/-- What a program may do with the loggers and appenders it has pointers to. -/
inductive Act where
  | getLogger (name : String)
  | setLevel (l : LoggerId) (level : LogLevel)
  | setFormatter (l : LoggerId) (val : Option String)
  | setPattern (l : LoggerId) (val : String)
  | newStdOut
  | newFile (name : String) (lastTime : UInt64) (opens : Bool)
  | newClosedFile (lastTime : UInt64)
  | addAppender (l : LoggerId) (a : AppenderId)
  | delAppender (l : LoggerId) (a : AppenderId)
  | clearAppenders (l : LoggerId)
  | setAppenderLevel (a : AppenderId) (level : LogLevel)
  | setAppenderFormatter (a : AppenderId) (val : Option String)
  deriving DecidableEq, Repr

/-- A pointer leads to an object that has been made. -/
def Act.valid (s : LoggerMgr) : Act → Prop
  | .getLogger _ | .newStdOut | .newFile _ _ _ | .newClosedFile _ => True
  | .setLevel l _ | .setFormatter l _ | .setPattern l _ | .clearAppenders l => l < s.nextLogger
  | .addAppender l a | .delAppender l a => l < s.nextLogger ∧ a < s.nextAppender
  | .setAppenderLevel a _ | .setAppenderFormatter a _ => a < s.nextAppender

instance : ∀ (s : LoggerMgr) (act : Act), Decidable (act.valid s)
  | _, .getLogger _ | _, .newStdOut | _, .newFile _ _ _ | _, .newClosedFile _ =>
    inferInstanceAs (Decidable True)
  | s, .setLevel l _ | s, .setFormatter l _ | s, .setPattern l _ | s, .clearAppenders l =>
    inferInstanceAs (Decidable (l < s.nextLogger))
  | s, .addAppender l a | s, .delAppender l a =>
    inferInstanceAs (Decidable (l < s.nextLogger ∧ a < s.nextAppender))
  | s, .setAppenderLevel a _ | s, .setAppenderFormatter a _ =>
    inferInstanceAs (Decidable (a < s.nextAppender))

def step (s : LoggerMgr) : Act → Option LoggerMgr
  | .getLogger name => some (s.getLogger name).1
  | .setLevel l level => some (s.setLevel l level)
  | .setFormatter l val => some (s.setFormatter l (val.map .new))
  | .setPattern l val => some (s.setPattern l val)
  | .newStdOut => some (s.newAppender (.new .stdOut))
  | .newFile name lastTime opens => some (s.newFileAppender name lastTime opens)
  | .newClosedFile lastTime => some (s.newAppender (.new (.file (.closed lastTime))))
  | .addAppender l a => some (s.addAppender l a)
  | .delAppender l a => some (s.delAppender l a)
  | .clearAppenders l => some (s.clearAppenders l)
  | .setAppenderLevel a level => some (s.setAppender a ((s.appenders a).setLevel level))
  | .setAppenderFormatter a val =>
    some (s.setAppender a ((s.appenders a).setFormatter (val.map .new)))

variable {s s' : LoggerMgr}

/-- Every logger is registered under its name, and the registered loggers have been made. -/
structure Registered (s : LoggerMgr) : Prop where
  nonempty : s.mLoggers.elems ≠ []
  known : ∀ e ∈ s.mLoggers.elems, e.2 < s.nextLogger
  named : ∀ e ∈ s.mLoggers.elems, (s.loggers e.2).mName = e.1

theorem fresh_registered (out₀ : Output) : Registered (fresh out₀) where
  nonempty := by simp [fresh, addAppender, OrdSet.insert, OrdSet.insertList, OrdSet.empty]
  known e he := by
    have := List.mem_singleton.1 he
    subst this
    exact Nat.zero_lt_one
  named e he := by
    have := List.mem_singleton.1 he
    subst this
    rfl

theorem Registered.congr (hs : Registered s) (hmap : s'.mLoggers = s.mLoggers)
    (hnext : s'.nextLogger = s.nextLogger)
    (hname : ∀ l, (s'.loggers l).mName = (s.loggers l).mName) : Registered s' := by
  constructor
  · rw [hmap]; exact hs.nonempty
  · rw [hmap, hnext]; exact hs.known
  · intro e he
    rw [hmap] at he
    rw [hname]
    exact hs.named e he

/-- A field that the new record of logger `l` keeps is the same for all loggers. -/
theorem setLogger_keeps (field : Logger → α) (s : LoggerMgr) (l l' : LoggerId) (k : Logger)
    (hk : field k = field (s.loggers l)) :
    field ((s.setLogger l k).loggers l') = field (s.loggers l') := by
  rw [setLogger_loggers, Function.update_apply]
  split
  · rename_i h; rw [h, hk]
  · rfl

theorem Registered.newLogger (hs : Registered s) (hname : s.mLoggers.find? name = none) :
    Registered (s.newLogger name) := by
  have hmem (e : String × LoggerId) (he : e ∈ (s.newLogger name).mLoggers.elems) :
      e ∈ s.mLoggers.elems ∨ e = (name, s.nextLogger) :=
    (OrdSet.mem_insert.1 he).imp_right And.left
  refine ⟨?_, ?_, ?_⟩
  · exact List.ne_nil_of_mem (OrdSet.mem_insert.2 (.inr ⟨rfl, hname⟩))
  · intro e he
    rcases hmem e he with he | rfl
    · exact Nat.lt_succ_of_lt (hs.known e he)
    · exact Nat.lt_succ_self _
  · intro e he
    rw [newLogger_loggers, Function.update_apply]
    rcases hmem e he with he | rfl
    · rw [if_neg (Nat.ne_of_lt (hs.known e he))]
      exact hs.named e he
    · rw [if_pos rfl]
      rfl

theorem Registered.getLogger (hs : Registered s) (name : String) :
    Registered (s.getLogger name).1 := by
  simp only [LoggerMgr.getLogger]
  split
  · exact hs
  · rename_i h
    exact hs.newLogger (Option.map_eq_none_iff.1 h)

end LoggerMgr
end SvrFrame
