import SvrFrame.Library.Machine
import SvrFrame.Log.Formatter
import Mathlib.Logic.Function.Basic

namespace SvrFrame
open Library
set_option autoImplicit true

/-- `std::ofstream`: whether its file is open, and its failure bit. -/
structure OFStream where
  isOpen : Bool
  fail : Bool
  deriving DecidableEq, Repr

/-- What the appenders have written: the contents of the files by name, and `std::cout`. -/
structure Output where
  files : String → String
  cout : String

/-- What the operating system answers while a file appender opens or writes its file. -/
structure FileIo where
  opens : Bool
  writes : Bool
  deriving DecidableEq, Repr

namespace OFStream

def close (s : OFStream) : OFStream :=
  if s.isOpen then { s with isOpen := false } else { s with fail := true }

/-- `open` with the default mode truncates the file and clears the failure bit. -/
def openFile (s : OFStream) (out : Output) (name : String) (opens : Bool) : OFStream × Output :=
  if !s.isOpen && opens then
    (⟨true, false⟩, { out with files := Function.update out.files name "" })
  else ({ s with fail := true }, out)

/-- `operator<<`; the buffer of the stream is left out. -/
def write (s : OFStream) (out : Output) (name text : String) (writes : Bool) : OFStream × Output :=
  if s.fail then (s, out)
  else if s.isOpen && writes then
    (s, { out with files := Function.update out.files name (out.files name ++ text) })
  else ({ s with fail := true }, out)

end OFStream

/-- The fields that `FileAppender` adds to `LogAppender`. -/
structure FileSink where
  mFileName : String
  mFileStream : OFStream
  mLastTime : UInt64
  deriving DecidableEq, Repr

namespace FileSink

def reOpen (f : FileSink) (out : Output) (opens : Bool) : FileSink × Output :=
  let s := if f.mFileStream.fail then f.mFileStream else f.mFileStream.close
  let (s', out') := s.openFile out f.mFileName opens
  ({ f with mFileStream := s' }, out')

/-- `FileAppender()`; nothing initialises `mLastTime`. -/
def closed (lastTime : UInt64) : FileSink := ⟨"", ⟨false, false⟩, lastTime⟩

def new (name : String) (lastTime : UInt64) (out : Output) (opens : Bool) : FileSink × Output :=
  reOpen ⟨name, ⟨false, false⟩, lastTime⟩ out opens

/-- The test for a periodic reopen; the sum is taken modulo `2 ^ 64`. -/
def due (lastTime now : UInt64) : Bool := now ≥ lastTime + 3

/-- The reopen at the start of `FileAppender::Log`. -/
def refresh (f : FileSink) (out : Output) (now : UInt64) (opens : Bool) : FileSink × Output :=
  if due f.mLastTime now then
    let (f', out') := f.reOpen out opens
    ({ f' with mLastTime := now }, out')
  else (f, out)

/-- The write of `FileAppender::Log`, which reports a failure to `std::cout`. -/
def write (f : FileSink) (out : Output) (text : String) (writes : Bool) : FileSink × Output :=
  let (s, out') := f.mFileStream.write out f.mFileName text writes
  ({ f with mFileStream := s },
    if s.fail then { out' with cout := out'.cout ++ "error\n" } else out')

end FileSink

inductive Sink where
  | stdOut
  | file (f : FileSink)
  deriving DecidableEq, Repr

/-- A `StdOutAppender` or a `FileAppender`, by its sink. -/
structure LogAppender where
  mLevel : LogLevel
  bHasFormatter : Bool
  mFormatter : Option LogFormatter
  sink : Sink
  deriving DecidableEq, Repr

namespace LogAppender

def new (sink : Sink) : LogAppender := ⟨.debug, false, none, sink⟩

def setLevel (a : LogAppender) (level : LogLevel) : LogAppender := { a with mLevel := level }

def setFormatter (a : LogAppender) (val : Option LogFormatter) : LogAppender :=
  { a with mFormatter := val, bHasFormatter := val.isSome }

/-- `StdOutAppender::Log` and `FileAppender::Log`; `none` where `mFormatter` is null. -/
def log (env : FormatEnv) (io : FileIo) (a : LogAppender) (out : Output) (level : LogLevel)
    (event : LogEvent) : Option (LogAppender × Output) :=
  if a.mLevel ≤ level then
    match a.sink with
    | .stdOut => a.mFormatter.map fun fmt =>
      (a, { out with cout := out.cout ++ fmt.format env level event ++ "\n" })
    | .file f =>
      let (f', out') := f.refresh out event.mTime io.opens
      a.mFormatter.map fun fmt =>
        let (f'', out'') := f'.write out' (fmt.format env level event) io.writes
        ({ a with sink := .file f'' }, out'')
  else some (a, out)

end LogAppender

/-! ### The records of one file appender -/

structure LogCall where
  level : LogLevel
  event : LogEvent
  deriving DecidableEq, Repr

namespace FileAppender

section
variable (env : FormatEnv) (mLevel : LogLevel) (fmt : LogFormatter)

/-- The text of a call; empty where the level of the appender turns it down. -/
def record (c : LogCall) : String :=
  if mLevel ≤ c.level then fmt.format env c.level c.event else ""

def records : List LogCall → String
  | [] => ""
  | c :: cs => record env mLevel fmt c ++ records cs

/-- A call that reopens the file comes only while nothing but empty texts has been written. -/
def NoLateReopen : UInt64 → String → List LogCall → Prop
  | _, _, [] => True
  | lastTime, written, c :: cs =>
    if mLevel ≤ c.level then
      if FileSink.due lastTime c.event.mTime then
        written = "" ∧ NoLateReopen c.event.mTime (fmt.format env c.level c.event) cs
      else NoLateReopen lastTime (written ++ fmt.format env c.level c.event) cs
    else NoLateReopen lastTime written cs

def kept : UInt64 → String → List LogCall → String
  | _, written, [] => written
  | lastTime, written, c :: cs =>
    if mLevel ≤ c.level then
      if FileSink.due lastTime c.event.mTime then
        kept c.event.mTime (fmt.format env c.level c.event) cs
      else kept lastTime (written ++ fmt.format env c.level c.event) cs
    else kept lastTime written cs

theorem kept_length_le (lastTime : UInt64) (written : String) (cs : List LogCall) :
    (kept env mLevel fmt lastTime written cs).length ≤
      written.length + (records env mLevel fmt cs).length := by
  induction cs generalizing lastTime written with
  | nil => exact Nat.le_add_right _ _
  | cons c cs ih =>
    simp only [kept, records, record, String.length_append]
    split
    · split
      · exact Nat.le_trans (ih _ _) (Nat.le_add_left _ _)
      · apply Nat.le_trans (ih _ _)
        rw [String.length_append]
        omega
    · apply Nat.le_trans (ih _ _)
      omega

theorem kept_eq_iff (lastTime : UInt64) (written : String) (cs : List LogCall) :
    kept env mLevel fmt lastTime written cs = written ++ records env mLevel fmt cs ↔
      NoLateReopen env mLevel fmt lastTime written cs := by
  induction cs generalizing lastTime written with
  | nil => simp [kept, records, NoLateReopen]
  | cons c cs ih =>
    simp only [kept, records, record, NoLateReopen]
    split
    · rw [← String.append_assoc]
      split
      · constructor
        · intro h
          have hlen := kept_length_le env mLevel fmt c.event.mTime
            (fmt.format env c.level c.event) cs
          rw [h, String.length_append, String.length_append] at hlen
          have hempty : written = "" := String.length_eq_zero_iff.1 (by omega)
          subst hempty
          rw [String.empty_append] at h
          exact ⟨rfl, (ih _ _).1 h⟩
        · rintro ⟨rfl, h⟩
          rw [String.empty_append]
          exact (ih _ _).2 h
      · exact ih _ _
    · rw [String.empty_append]
      exact ih _ _

end

def allSucceeds : FileIo := ⟨true, true⟩

/-- The calls of `Log`, one after another, on an appender and what it has written. -/
def logAll (env : FormatEnv) :
    LogAppender × Output → List LogCall → Option (LogAppender × Output) :=
  runAll fun s c => s.1.log env allSucceeds s.2 c.level c.event

def built (name : String) (lastTime : UInt64) (level : LogLevel) (fmt : LogFormatter)
    (out : Output) : LogAppender × Output :=
  let (f, out') := FileSink.new name lastTime out true
  (((LogAppender.new (.file f)).setLevel level).setFormatter (some fmt), out')

/-- The appender between two calls: its stream is open and in order. -/
def ready (name : String) (lastTime : UInt64) (level : LogLevel) (fmt : LogFormatter) :
    LogAppender := ⟨level, true, some fmt, .file ⟨name, ⟨true, false⟩, lastTime⟩⟩

theorem built_eq (name : String) (lastTime : UInt64) (level : LogLevel) (fmt : LogFormatter)
    (out : Output) : built name lastTime level fmt out =
      (ready name lastTime level fmt, { out with files := Function.update out.files name "" }) :=
  rfl

theorem refresh_ready (out : Output) (now : UInt64) :
    (⟨name, ⟨true, false⟩, lastTime⟩ : FileSink).refresh out now true =
      if FileSink.due lastTime now then
        (⟨name, ⟨true, false⟩, now⟩, { out with files := Function.update out.files name "" })
      else (⟨name, ⟨true, false⟩, lastTime⟩, out) := by
  simp only [FileSink.refresh]
  split <;> rfl

theorem log_ready (out : Output) (c : LogCall) :
    (ready name lastTime level fmt).log env allSucceeds out c.level c.event =
      if level ≤ c.level then
        if FileSink.due lastTime c.event.mTime then
          some (ready name c.event.mTime level fmt, { out with
            files := Function.update out.files name (fmt.format env c.level c.event) })
        else some (ready name lastTime level fmt, { out with
          files := Function.update out.files name
            (out.files name ++ fmt.format env c.level c.event) })
      else some (ready name lastTime level fmt, out) := by
  simp only [LogAppender.log, ready, allSucceeds, refresh_ready]
  by_cases hdue : FileSink.due lastTime c.event.mTime = true
  · simp [hdue, FileSink.write, OFStream.write]
  · simp [hdue, FileSink.write, OFStream.write]

theorem logAll_ready (env : FormatEnv) (level : LogLevel) (fmt : LogFormatter) (name : String)
    (lastTime : UInt64) (out : Output) (cs : List LogCall) :
    ∃ t files, logAll env (ready name lastTime level fmt, out) cs =
        some (ready name t level fmt, { out with files := files }) ∧
      files name = kept env level fmt lastTime (out.files name) cs := by
  induction cs generalizing lastTime out with
  | nil => exact ⟨lastTime, out.files, rfl, rfl⟩
  | cons c cs ih =>
    simp only [logAll, runAll, log_ready, kept]
    split
    · split
      · simpa [logAll] using ih c.event.mTime
          { out with files := Function.update out.files name (fmt.format env c.level c.event) }
      · simpa [logAll] using ih lastTime { out with
          files := Function.update out.files name
            (out.files name ++ fmt.format env c.level c.event) }
    · exact ih lastTime out

/-- The file holds what the constructor left there and then every accepted record, in order of
the calls, if and only if no call reopens the file after a record. -/
theorem file_keeps_every_record (env : FormatEnv) (name : String) (lastTime : UInt64)
    (level : LogLevel) (fmt : LogFormatter) (out : Output) (cs : List LogCall) :
    ∃ a out', logAll env (built name lastTime level fmt out) cs = some (a, out') ∧
      (out'.files name =
          (built name lastTime level fmt out).2.files name ++ records env level fmt cs ↔
        NoLateReopen env level fmt lastTime "" cs) := by
  rw [built_eq]
  obtain ⟨t, files, hrun, hfile⟩ := logAll_ready env level fmt name lastTime
    { out with files := Function.update out.files name "" } cs
  refine ⟨_, _, hrun, ?_⟩
  simp only [Function.update_self] at hfile ⊢
  rw [hfile]
  exact kept_eq_iff env level fmt lastTime "" cs

def messageAt (time : UInt64) (content : String) : LogEvent :=
  ⟨"main.cpp", 1, 0, 1, 0, time, "Test Thread", content, 0, .info⟩

/-- The second record comes three seconds after the first and truncates the file. -/
theorem reopen_loses_a_record :
    (logAll ⟨fun _ _ => "", fun _ => "root"⟩
        (built "log.txt" 0 .debug (.new "%m%n") ⟨fun _ => "", ""⟩)
        [⟨.info, messageAt 10 "first"⟩, ⟨.info, messageAt 13 "second"⟩]).map
      (fun s => s.2.files "log.txt") = some "second\n" ∧
    records ⟨fun _ _ => "", fun _ => "root"⟩ .debug (.new "%m%n")
      [⟨.info, messageAt 10 "first"⟩, ⟨.info, messageAt 13 "second"⟩] = "first\nsecond\n" := by
  decide

end FileAppender
end SvrFrame
