import SvrFrame.Config.Containers
import SvrFrame.Library.LockProg
import SvrFrame.Log.Dump
import SvrFrame.Log.View

namespace SvrFrame
namespace Locking
open Library LockProg
set_option autoImplicit true

/-- The types of configuration variables: `std::set<LogDefine>`, and any other. -/
inductive VarType (Ty : Type) where
  | logDefines
  | other (ty : Ty)
  deriving DecidableEq, Repr

abbrev VarType.Val (V : Ty → Type) : VarType Ty → Type
  | .logDefines => LogDefines
  | .other ty => V ty

/-- A pointer to a `CfgVar<T>`. -/
structure VarId (Ty : Type) where
  ty : VarType Ty
  id : Nat
  deriving DecidableEq, Repr

/-- The only listener there is is for `g_log_defines`. -/
inductive Listener : VarType Ty → Type where
  | logIniter : Listener .logDefines

structure CfgVar (V : Ty → Type) (ty : VarType Ty) where
  mName : String
  mVal : ty.Val V
  mCbs : List (Listener ty)

/-- What the threads share. -/
structure Shared (V : Ty → Type) where
  mgr : LoggerMgr
  datas : String → Option (VarId Ty)
  vars : (v : VarId Ty) → Option (CfgVar V v.ty)
  nextVar : Nat
  /-- The static `g_logger` of the configuration. -/
  gLogger : LoggerId
  /-- How often something has been asked that lies outside the program. -/
  asked : Nat

/-- The mutexes; those of the registry and the variables are read-write locks, the others are spin
locks. -/
inductive Mutex (Ty : Type) where
  | datas
  | var (v : VarId Ty)
  | mgr
  | logger (l : LoggerId)
  | appender (a : AppenderId)
  deriving DecidableEq, Repr

/-- What a thread finds outside the program at one moment: the place of a macro, its own ids, the
time, what becomes of a file, and the value of a field that nothing initialises. -/
structure Outside where
  file : String
  line : Int32
  threadId : UInt32
  fiberId : UInt32
  time : UInt64
  io : FileIo
  lastTime : UInt64
  strftime : String → UInt64 → String

/-- yaml-cpp, the answers from outside, and what comes with the types of the variables. -/
structure Env (V : Ty → Type) where
  y : YamlCpp
  outside : Nat → Outside
  cast : (ty : Ty) → Config.LexicalCast (V ty)
  eq : (ty : Ty) → V ty → V ty → Bool
  typeName : VarType Ty → String
  what : Exn → String

abbrev Prog (V : Ty → Type) (α : Type) := LockProg (Mutex Ty) (Shared V) α

variable {Ty : Type} {V : Ty → Type}

def onMgr (f : LoggerMgr → LoggerMgr) : Prog V Unit := change fun s => { s with mgr := f s.mgr }

def ofMgr (g : LoggerMgr → α) : Prog V α := observe fun s => g s.mgr

variable (e : Env V)

def ask : Prog V Outside :=
  exchange fun s => (e.outside s.asked, { s with asked := s.asked + 1 })

def print (text : String) : Prog V Unit :=
  onMgr fun s => { s with out := { s.out with cout := s.out.cout ++ text } }

/-! ### Appenders -/

def newAppender (sink : Sink) : Prog V AppenderId :=
  exchange fun s => (s.mgr.nextAppender, { s with mgr := s.mgr.newAppender (.new sink) })

/-- A change of a file appender and its file. -/
def onFile (a : AppenderId) (f : FileSink → Output → FileSink × Output) : Prog V Unit :=
  onMgr fun s =>
    match (s.appenders a).sink with
    | .stdOut => s
    | .file x =>
      { s.setAppender a { s.appenders a with sink := .file (f x s.out).1 } with
        out := (f x s.out).2 }

/-- `mFormatter->format`, where `mFormatter` may be null. -/
def format (a : AppenderId) (level : LogLevel) (event : LogEvent) : Prog V String := do
  let now ← ask e
  match ← ofMgr fun s => (s.appenders a).mFormatter with
  | none => halt
  | some fmt => ofMgr fun s => fmt.format ⟨now.strftime, fun l => (s.loggers l).mName⟩ level event

namespace LogAppender

def setLevel (a : AppenderId) (level : LogLevel) : Prog V Unit :=
  onMgr fun s => s.setAppender a ((s.appenders a).setLevel level)

def setFormatter (a : AppenderId) (val : Option LogFormatter) : Prog V Unit :=
  withLock (.appender a) .exclusive
    (onMgr fun s => s.setAppender a ((s.appenders a).setFormatter val))

def getFormatter (a : AppenderId) : Prog V (Option LogFormatter) :=
  withLock (.appender a) .exclusive (ofMgr fun s => (s.appenders a).mFormatter)

end LogAppender

/-- The record that is written is noted, as in the sequential model. -/
def noteRecord (a : AppenderId) (level : LogLevel) (event : LogEvent) : Prog V Unit :=
  onMgr fun s => { s with written := s.written ++ [⟨a, level, event⟩] }

def StdOutAppender.log (a : AppenderId) (level : LogLevel) (event : LogEvent) : Prog V Unit := do
  let mLevel ← ofMgr fun s => (s.appenders a).mLevel
  when (mLevel ≤ level) do
    withLock (.appender a) .exclusive do
      let text ← format e a level event
      noteRecord a level event
      print (text ++ "\n")

namespace FileAppender

def reOpen (a : AppenderId) : Prog V Unit := do
  let now ← ask e
  withLock (.appender a) .exclusive (onFile a fun f out => f.reOpen out now.io.opens)

def new (name : String) : Prog V AppenderId := do
  let now ← ask e
  let a ← newAppender (.file ⟨name, ⟨false, false⟩, now.lastTime⟩)
  reOpen e a
  return a

/-- The constructor without a name, which opens no file. -/
def newClosed : Prog V AppenderId := do
  let now ← ask e
  newAppender (.file (.closed now.lastTime))

def mLastTime (a : AppenderId) (s : LoggerMgr) : UInt64 :=
  match (s.appenders a).sink with
  | .stdOut => 0
  | .file f => f.mLastTime

def failed (a : AppenderId) (s : LoggerMgr) : Bool :=
  match (s.appenders a).sink with
  | .stdOut => false
  | .file f => f.mFileStream.fail

def log (a : AppenderId) (level : LogLevel) (event : LogEvent) : Prog V Unit := do
  let mLevel ← ofMgr fun s => (s.appenders a).mLevel
  when (mLevel ≤ level) do
    let lastTime ← ofMgr (mLastTime a)
    when (FileSink.due lastTime event.mTime) do
      reOpen e a
      onFile a fun f out => ({ f with mLastTime := event.mTime }, out)
    withLock (.appender a) .exclusive do
      let text ← format e a level event
      noteRecord a level event
      let now ← ask e
      onFile a fun f out => f.write out text now.io.writes
      let failed ← ofMgr (failed a)
      when failed (print "error\n")

end FileAppender

namespace LogAppender

def isFile (a : AppenderId) (s : LoggerMgr) : Bool :=
  match (s.appenders a).sink with
  | .stdOut => false
  | .file _ => true

/-- The virtual `Log`. -/
def log (a : AppenderId) (level : LogLevel) (event : LogEvent) : Prog V Unit := do
  if ← ofMgr (isFile a) then FileAppender.log e a level event
  else StdOutAppender.log e a level event

/-- The virtual `ToYamlString`; only the one of a file appender takes the lock. -/
def toYamlString (a : AppenderId) : Prog V String := do
  let text := ofMgr fun s => (s.appenders a).toYamlString e.y
  if ← ofMgr (isFile a) then withLock (.appender a) .exclusive text else text

end LogAppender

/-! ### Loggers -/

namespace Logger

def setLevel (l : LoggerId) (level : LogLevel) : Prog V Unit := onMgr fun s => s.setLevel l level

def addAppender (l : LoggerId) (a : AppenderId) : Prog V Unit :=
  withLock (.logger l) .exclusive do
    let fmt ← LogAppender.getFormatter a
    when (fmt = none) do
      onMgr fun s => s.setAppender a { s.appenders a with mFormatter := (s.loggers l).mFormatter }
    onMgr fun s =>
      s.setLogger l { s.loggers l with mAppenderList := (s.loggers l).mAppenderList ++ [a] }

def delAppender (l : LoggerId) (a : AppenderId) : Prog V Unit :=
  withLock (.logger l) .exclusive (onMgr fun s => s.delAppender l a)

def clearAppenders (l : LoggerId) : Prog V Unit :=
  withLock (.logger l) .exclusive (onMgr fun s => s.clearAppenders l)

def setFormatter (l : LoggerId) (val : Option LogFormatter) : Prog V Unit :=
  withLock (.logger l) .exclusive do
    onMgr fun s => s.setLogger l { s.loggers l with mFormatter := val }
    let appenders ← ofMgr fun s => (s.loggers l).mAppenderList
    appenders.forM fun i => withLock (.appender i) .exclusive do
      let own ← ofMgr fun s => (s.appenders i).bHasFormatter
      when (own = false) do
        onMgr fun s =>
          s.setAppender i { s.appenders i with mFormatter := (s.loggers l).mFormatter }

/-- `SetFormatter` with a pattern. -/
def setPattern (l : LoggerId) (val : String) : Prog V Unit := do
  let newVal := LogFormatter.new val
  if newVal.isError then
    let mName ← ofMgr fun s => (s.loggers l).mName
    print ("Logger SetFormatter name = " ++ mName ++ " value = " ++ val ++ " invalid formatter\n")
  else setFormatter l (some newVal)

def toYamlString (l : LoggerId) : Prog V (Except Exn String) :=
  withLock (.logger l) .exclusive <| ExceptT.run do
    let k ← ExceptT.lift (ofMgr fun s => s.loggers l)
    let node := ((Node.null.set "name" (.scalar k.mName)).setOpt "Level" k.mLevel.dump).setOpt
      "formatter" (k.mFormatter.map LogFormatter.getPattern)
    let node ← k.mAppenderList.foldlM (fun node i => do
      let text ← ExceptT.lift (LogAppender.toYamlString e i)
      let i ← ExceptT.mk (pure (e.y.load text))
      return node.set "appenders" (.pushBack (node.find "appenders") i)) node
    return e.y.emit node

/-- `Log`. A chain of `mRoot` pointers that comes to an end is not longer than there are loggers. -/
def logAt (level : LogLevel) (event : LogEvent) : Nat → LoggerId → Prog V Unit
  | 0, _ => halt
  | fuel + 1, l => do
    let mLevel ← ofMgr fun s => (s.loggers l).mLevel
    when (mLevel ≤ level) do
      withLock (.logger l) .exclusive do
        let k ← ofMgr fun s => s.loggers l
        match k.mAppenderList, k.mRoot with
        | [], some root => logAt level event fuel root
        | appenders, _ => appenders.forM fun itr => LogAppender.log e itr level event

def log (l : LoggerId) (level : LogLevel) (event : LogEvent) : Prog V Unit := do
  let loggers ← ofMgr fun s => s.nextLogger
  logAt e level event (loggers + 1) l

end Logger

/-- `P_LOG_LEVEL(logger, level) << text`. -/
def logText (l : LoggerId) (level : LogLevel) (text : Prog V String) : Prog V Unit := do
  let mLevel ← ofMgr fun s => (s.loggers l).mLevel
  when (mLevel ≤ level) do
    let now ← ask e
    let content ← text
    Logger.log e l level
      ⟨now.file, now.line, 0, now.threadId, now.fiberId, now.time, "Test Thread", content, l, level⟩

/-- The same for `P_LOG_ROOT()`. -/
def logRoot (level : LogLevel) (text : Prog V String) : Prog V Unit := do
  let root ← ofMgr fun s => s.mRoot
  logText e root level text

namespace LoggerMgr

def getLogger (name : String) : Prog V LoggerId :=
  withLock .mgr .exclusive
    (exchange fun s => ((s.mgr.getLogger name).2, { s with mgr := (s.mgr.getLogger name).1 }))

def toYamlString : Prog V (Except Exn String) :=
  withLock .mgr .exclusive <| ExceptT.run do
    let loggers ← ExceptT.lift (ofMgr fun s => s.mLoggers.elems)
    let node ← loggers.foldlM (fun node i => do
      let text ← ExceptT.mk (Logger.toYamlString e i.2)
      let i ← ExceptT.mk (pure (e.y.load text))
      return .pushBack (some node) i) Node.null
    return e.y.emit node

end LoggerMgr

/-! ### The listener -/

namespace LogIniter

/-- For any other type `ap` stays null and is dereferenced. -/
def newAppenderOf (a : LogAppenderDefine) : Prog V AppenderId :=
  if a.type = 1 then FileAppender.new e a.file
  else if a.type = 2 then newAppender .stdOut
  else halt

/-- One turn of the loop over the appenders of a definition. -/
def makeAppender (i : LogDefine) (logger : LoggerId) (a : LogAppenderDefine) : Prog V Unit := do
  let ap ← newAppenderOf e a
  LogAppender.setLevel ap a.level
  when (a.formatter ≠ "") do
    let fmt := LogFormatter.new a.formatter
    if fmt.isError then
      print ("log.name=" ++ i.name ++ " appender type=" ++ toString a.type ++ " formatter=" ++
        a.formatter ++ " is invalid\n")
    else LogAppender.setFormatter ap (some fmt)
  Logger.addAppender logger ap

def applyDefine (i : LogDefine) : Prog V Unit := do
  let logger ← LoggerMgr.getLogger i.name
  Logger.setLevel logger i.level
  when (i.formatter ≠ "") (Logger.setPattern logger i.formatter)
  Logger.clearAppenders logger
  i.appenders.forM (makeAppender e i logger)

def deleteDefine (i : LogDefine) : Prog V Unit := do
  let logger ← LoggerMgr.getLogger i.name
  Logger.setLevel logger .unknow
  Logger.clearAppenders logger

def onChange (old new : LogDefines) : Prog V Unit := do
  logRoot e .info (pure "on_logger_conf_changed")
  new.elems.forM fun i => when (old.find? i.name ≠ some i) (applyDefine e i)
  old.elems.forM fun i => when (new.find? i.name = none) (deleteDefine i)

end LogIniter

/-! ### The order of the locks -/

/-- The loggers are as the manager makes them, the root logger first. -/
structure RootFirst (s : LoggerMgr) : Prop where
  rooted : s.Rooted
  first : s.mRoot = 0

theorem RootFirst.setLogger (hs : RootFirst s) {k : SvrFrame.Logger}
    (hk : k.mRoot = (s.loggers l).mRoot) : RootFirst (s.setLogger l k) :=
  ⟨hs.rooted.setLogger hk, hs.first⟩

theorem RootFirst.getLogger (hs : RootFirst s) (name : String) :
    RootFirst (s.getLogger name).1 := by
  refine ⟨hs.rooted.getLogger name, ?_⟩
  simp only [SvrFrame.LoggerMgr.getLogger]
  split <;> exact hs.first

/-- Only other loggers lead to the root logger. -/
theorem RootFirst.chain (hs : RootFirst s) (h : (s.loggers l).mRoot = some root) :
    l ≠ 0 ∧ root = 0 := by
  constructor
  · rintro rfl
    have hroot := hs.rooted.root
    rw [hs.first, h] at hroot
    cases hroot
  · rcases hs.rooted.leads l with hl | hl
    · rw [h] at hl; cases hl
    · rw [h, hs.first] at hl; exact Option.some.inj hl

/-- The registry before the variables before the manager before the loggers before the root logger
before the appenders. -/
def rank : Mutex Ty → Nat
  | .datas => 0
  | .var _ => 1
  | .mgr => 2
  | .logger l => if l = 0 then 4 else 3
  | .appender _ => 5

theorem rank_logger_lt (l : LoggerId) : rank (.logger l : Mutex Ty) < 5 := by
  rw [rank]
  split <;> decide

theorem le_rank_logger (l : LoggerId) : 3 ≤ rank (.logger l : Mutex Ty) := by
  rw [rank]
  split <;> decide

variable [DecidableEq Ty]

/-- The program takes locks of the ranks from `b` on, in their order. -/
abbrev InOrder (b : Nat) (p : Prog V α) : Prop := p.Above (fun s => RootFirst s.mgr) rank b

theorem InOrder.onMgr {f : LoggerMgr → LoggerMgr} (h : ∀ s, RootFirst s → RootFirst (f s)) :
    InOrder b (onMgr f : Prog V Unit) := Above.change fun s hs => h s.mgr hs

/-- A change of the manager that does not touch the loggers. -/
theorem InOrder.onRest {f : LoggerMgr → LoggerMgr} (hroot : ∀ s, (f s).mRoot = s.mRoot)
    (hnext : ∀ s, (f s).nextLogger = s.nextLogger) (hloggers : ∀ s, (f s).loggers = s.loggers) :
    InOrder b (Locking.onMgr f : Prog V Unit) :=
  InOrder.onMgr fun s hs =>
    ⟨hs.rooted.congr (hroot s) (hnext s) fun l => by rw [hloggers], (hroot s).trans hs.first⟩

theorem InOrder.onAppender (a : AppenderId) (x : LoggerMgr → SvrFrame.LogAppender) :
    InOrder b (Locking.onMgr fun s => s.setAppender a (x s) : Prog V Unit) :=
  .onRest (fun _ => rfl) (fun _ => rfl) fun _ => rfl

theorem InOrder.onLogger {l : LoggerId} {k : LoggerMgr → SvrFrame.Logger}
    (hk : ∀ s, (k s).mRoot = (s.loggers l).mRoot) :
    InOrder b (Locking.onMgr fun s => s.setLogger l (k s) : Prog V Unit) :=
  .onMgr fun s hs => hs.setLogger (hk s)

theorem InOrder.ofMgr (g : LoggerMgr → α) : InOrder b (ofMgr g : Prog V α) := Above.observe _

theorem InOrder.ofMgr_bind {g : LoggerMgr → α} {f : α → Prog V β}
    (hf : ∀ s, RootFirst s → InOrder b (f (g s))) : InOrder b (Locking.ofMgr g >>= f) :=
  Above.observe_bind fun s hs => hf s.mgr hs

theorem ask_inOrder : InOrder b (ask e) := Above.exchange fun _ hs => hs

theorem print_inOrder (text : String) : InOrder b (print text : Prog V Unit) :=
  InOrder.onRest (fun _ => rfl) (fun _ => rfl) fun _ => rfl

theorem newAppender_inOrder (sink : Sink) : InOrder b (newAppender sink : Prog V AppenderId) :=
  Above.exchange fun _ hs => ⟨hs.rooted.congr rfl rfl fun _ => rfl, hs.first⟩

theorem onFile_inOrder (a : AppenderId) (f : FileSink → Output → FileSink × Output) :
    InOrder b (onFile a f : Prog V Unit) := by
  apply InOrder.onMgr
  intro s hs
  split
  · exact hs
  · exact ⟨hs.rooted.congr rfl rfl fun _ => rfl, hs.first⟩

theorem format_inOrder (a : AppenderId) (level : LogLevel) (event : LogEvent) :
    InOrder b (format e a level event) := by
  apply Above.bind (ask_inOrder e)
  intro now
  apply InOrder.ofMgr_bind
  intro s _
  split
  · exact Above.halt
  · exact InOrder.ofMgr _

/-! ### Appenders take their own lock -/

theorem withAppender_inOrder (a : AppenderId) {p : Prog V α} (hp : InOrder 6 p) :
    InOrder 5 (withLock (.appender a) .exclusive p) :=
  Above.withLock (Nat.le_refl 5) (Nat.lt_succ_self 5) hp

namespace LogAppender

theorem setLevel_inOrder (a : AppenderId) (level : LogLevel) :
    InOrder b (setLevel a level : Prog V Unit) := InOrder.onAppender a _

theorem setFormatter_inOrder (a : AppenderId) (val : Option LogFormatter) :
    InOrder 5 (setFormatter a val : Prog V Unit) :=
  withAppender_inOrder a (InOrder.onAppender a _)

theorem getFormatter_inOrder (a : AppenderId) :
    InOrder 5 (getFormatter a : Prog V (Option LogFormatter)) :=
  withAppender_inOrder a (InOrder.ofMgr _)

end LogAppender

theorem noteRecord_inOrder (a : AppenderId) (level : LogLevel) (event : LogEvent) :
    InOrder b (noteRecord a level event : Prog V Unit) :=
  InOrder.onRest (fun _ => rfl) (fun _ => rfl) fun _ => rfl

theorem StdOutAppender.log_inOrder (a : AppenderId) (level : LogLevel) (event : LogEvent) :
    InOrder 5 (StdOutAppender.log e a level event) := by
  apply InOrder.ofMgr_bind
  intro s _
  apply Above.when
  apply withAppender_inOrder
  apply Above.bind (format_inOrder e a level event)
  intro text
  exact (noteRecord_inOrder a level event).bind fun _ => print_inOrder _

namespace FileAppender

theorem reOpen_inOrder (a : AppenderId) : InOrder 5 (reOpen e a) :=
  (ask_inOrder e).bind fun _ => withAppender_inOrder a (onFile_inOrder a _)

theorem new_inOrder (name : String) : InOrder 5 (new e name) := by
  apply Above.bind (ask_inOrder e)
  intro now
  apply Above.bind (newAppender_inOrder _)
  intro a
  exact (reOpen_inOrder e a).bind fun _ => .pure a

theorem newClosed_inOrder : InOrder b (newClosed e) :=
  (ask_inOrder e).bind fun _ => newAppender_inOrder _

theorem log_inOrder (a : AppenderId) (level : LogLevel) (event : LogEvent) :
    InOrder 5 (log e a level event) := by
  apply InOrder.ofMgr_bind
  intro s _
  apply Above.when
  apply InOrder.ofMgr_bind
  intro s _
  apply Above.bind
  · exact .when ((reOpen_inOrder e a).bind fun _ => onFile_inOrder a _)
  · intro _
    apply withAppender_inOrder
    apply Above.bind (format_inOrder e a level event)
    intro text
    apply Above.bind (noteRecord_inOrder a level event)
    intro _
    apply Above.bind (ask_inOrder e)
    intro now
    apply Above.bind (onFile_inOrder a _)
    intro _
    exact InOrder.ofMgr_bind fun s _ => .when (print_inOrder _)

end FileAppender

namespace LogAppender

theorem log_inOrder (a : AppenderId) (level : LogLevel) (event : LogEvent) :
    InOrder 5 (log e a level event) := by
  apply InOrder.ofMgr_bind
  intro s _
  split
  · exact FileAppender.log_inOrder e a level event
  · exact StdOutAppender.log_inOrder e a level event

theorem toYamlString_inOrder (a : AppenderId) : InOrder 5 (toYamlString e a) := by
  apply InOrder.ofMgr_bind
  intro s _
  split
  · exact withAppender_inOrder a (InOrder.ofMgr _)
  · exact InOrder.ofMgr _

end LogAppender

/-! ### Loggers take their own lock, and then that of the root logger or those of appenders -/

namespace Logger

theorem withLogger_inOrder (l : LoggerId) {p : Prog V α} (hp : InOrder 5 p) :
    InOrder 3 (withLock (.logger l) .exclusive p) :=
  Above.withLock (le_rank_logger l) (rank_logger_lt l) hp

theorem setLevel_inOrder (l : LoggerId) (level : LogLevel) :
    InOrder b (setLevel l level : Prog V Unit) := InOrder.onLogger fun _ => rfl

theorem addAppender_inOrder (l : LoggerId) (a : AppenderId) :
    InOrder 3 (addAppender l a : Prog V Unit) := by
  apply withLogger_inOrder
  apply Above.bind (LogAppender.getFormatter_inOrder a)
  intro fmt
  exact Above.bind (.when (InOrder.onAppender a _)) fun _ => InOrder.onLogger fun _ => rfl

theorem delAppender_inOrder (l : LoggerId) (a : AppenderId) :
    InOrder 3 (delAppender l a : Prog V Unit) :=
  withLogger_inOrder l (InOrder.onLogger fun _ => rfl)

theorem clearAppenders_inOrder (l : LoggerId) : InOrder 3 (clearAppenders l : Prog V Unit) :=
  withLogger_inOrder l (InOrder.onLogger fun _ => rfl)

theorem setFormatter_inOrder (l : LoggerId) (val : Option LogFormatter) :
    InOrder 3 (setFormatter l val : Prog V Unit) := by
  apply withLogger_inOrder
  refine Above.bind (InOrder.onLogger fun _ => rfl) fun _ => ?_
  apply InOrder.ofMgr_bind
  intro s _
  apply Above.forM
  intro i
  apply withAppender_inOrder
  exact InOrder.ofMgr_bind fun s _ => .when (InOrder.onAppender i _)

theorem setPattern_inOrder (l : LoggerId) (val : String) :
    InOrder 3 (setPattern l val : Prog V Unit) := by
  simp only [setPattern]
  split
  · exact InOrder.ofMgr_bind fun s _ => print_inOrder _
  · exact setFormatter_inOrder l _

theorem toYamlString_inOrder (l : LoggerId) : InOrder 3 (toYamlString e l) := by
  apply withLogger_inOrder
  apply Above.lift_bind (InOrder.ofMgr _)
  intro k
  refine Above.except_bind (Above.except_foldlM (fun node i => ?_) _) fun node => .pure _
  apply Above.lift_bind (LogAppender.toYamlString_inOrder e i)
  intro text
  exact Above.except_bind (.pure _) fun i => .pure _

/-- With the lock of a logger, only that of the root logger is taken, which has none above it. -/
theorem logAt_inOrder (level : LogLevel) (event : LogEvent) (fuel : Nat) (l : LoggerId) :
    InOrder (rank (.logger l : Mutex Ty)) (logAt e level event fuel l) := by
  induction fuel generalizing l with
  | zero => exact Above.halt
  | succ fuel ih =>
    have happenders (b : Nat) (hb : b ≤ 5) (list : List AppenderId) :
        InOrder b (list.forM fun itr => LogAppender.log e itr level event) :=
      .forM fun itr => (LogAppender.log_inOrder e itr level event).mono hb
    apply InOrder.ofMgr_bind
    intro s _
    apply Above.when
    by_cases hl : l = 0
    · apply Above.withLock (Nat.le_refl _) (rank_logger_lt l)
      apply InOrder.ofMgr_bind
      intro s hs
      split
      · rename_i root _ hroot
        exact absurd hl (hs.chain hroot).1
      · exact happenders 5 (Nat.le_refl 5) _
    · have hrank : rank (.logger l : Mutex Ty) < 4 := by simp [rank, hl]
      apply Above.withLock (Nat.le_refl _) hrank
      apply InOrder.ofMgr_bind
      intro s hs
      split
      · rename_i root _ hroot
        have hzero := ih 0
        rw [(hs.chain hroot).2]
        exact hzero
      · exact happenders 4 (by decide) _

theorem log_inOrder (l : LoggerId) (level : LogLevel) (event : LogEvent) :
    InOrder 3 (log e l level event) :=
  InOrder.ofMgr_bind fun _ _ => (logAt_inOrder e level event _ l).mono (le_rank_logger l)

end Logger

theorem logText_inOrder (l : LoggerId) (level : LogLevel) {text : Prog V String} (hb : b ≤ 3)
    (htext : InOrder b text) : InOrder b (logText e l level text) := by
  apply InOrder.ofMgr_bind
  intro s _
  apply Above.when
  apply Above.bind (ask_inOrder e)
  intro now
  exact htext.bind fun content => (Logger.log_inOrder e l level _).mono hb

theorem logRoot_inOrder (level : LogLevel) {text : Prog V String} (hb : b ≤ 3)
    (htext : InOrder b text) : InOrder b (logRoot e level text) :=
  InOrder.ofMgr_bind fun _ _ => logText_inOrder e _ level hb htext

namespace LoggerMgr

theorem withMgr_inOrder {p : Prog V α} (hp : InOrder 3 p) :
    InOrder 2 (withLock .mgr .exclusive p) :=
  Above.withLock (Nat.le_refl 2) (Nat.lt_succ_self 2) hp

theorem getLogger_inOrder (name : String) : InOrder 2 (getLogger name : Prog V LoggerId) :=
  withMgr_inOrder (Above.exchange fun _ hs => hs.getLogger name)

theorem toYamlString_inOrder : InOrder 2 (toYamlString e) := by
  apply withMgr_inOrder
  apply Above.lift_bind (InOrder.ofMgr _)
  intro k
  refine Above.except_bind (Above.except_foldlM (fun node i => ?_) _) fun node => .pure _
  apply Above.except_bind (Logger.toYamlString_inOrder e i.2)
  intro text
  exact Above.except_bind (.pure _) fun i => .pure _

end LoggerMgr

/-! ### The listener takes the lock of the manager and those of loggers and appenders -/

namespace LogIniter

theorem newAppenderOf_inOrder (a : LogAppenderDefine) : InOrder 5 (newAppenderOf e a) := by
  rw [newAppenderOf]
  split
  · exact FileAppender.new_inOrder e a.file
  · split
    · exact newAppender_inOrder _
    · exact Above.halt

theorem makeAppender_inOrder (i : LogDefine) (logger : LoggerId) (a : LogAppenderDefine) :
    InOrder 3 (makeAppender e i logger a) := by
  apply Above.bind ((newAppenderOf_inOrder e a).mono (Nat.le_add_left 3 2))
  intro ap
  apply Above.bind (LogAppender.setLevel_inOrder ap _)
  intro _
  refine Above.bind ?_ fun _ => Logger.addAppender_inOrder logger ap
  apply Above.when
  dsimp only
  split
  · exact print_inOrder _
  · exact (LogAppender.setFormatter_inOrder ap _).mono (Nat.le_add_left 3 2)

theorem applyDefine_inOrder (i : LogDefine) : InOrder 2 (applyDefine e i) := by
  apply Above.bind (LoggerMgr.getLogger_inOrder i.name)
  intro logger
  apply Above.bind (Logger.setLevel_inOrder logger _)
  intro _
  apply Above.bind ((Above.when (Logger.setPattern_inOrder logger _)).mono (Nat.le_succ 2))
  intro _
  apply Above.bind ((Logger.clearAppenders_inOrder logger).mono (Nat.le_succ 2))
  intro _
  exact .forM fun a => (makeAppender_inOrder e i logger a).mono (Nat.le_succ 2)

theorem deleteDefine_inOrder (i : LogDefine) : InOrder 2 (deleteDefine i : Prog V Unit) := by
  apply Above.bind (LoggerMgr.getLogger_inOrder i.name)
  intro logger
  apply Above.bind (Logger.setLevel_inOrder logger _)
  intro _
  exact (Logger.clearAppenders_inOrder logger).mono (Nat.le_succ 2)

theorem onChange_inOrder (old new : LogDefines) : InOrder 2 (onChange e old new) := by
  apply Above.bind (logRoot_inOrder e .info (by decide) (.pure _))
  intro _
  apply Above.bind (.forM fun i => .when (applyDefine_inOrder e i))
  intro _
  exact .forM fun i => .when (deleteDefine_inOrder i)

end LogIniter

end Locking
end SvrFrame
