import SvrFrame.Log.Appender

namespace SvrFrame
open Library
set_option autoImplicit true

/-- A stream that no `ReOpen` opens again: `open` fails on it because it is open, and it is not
closed because its failure bit is set. -/
def OFStream.jammed (s : OFStream) : Bool := s.isOpen && s.fail

theorem FileSink.reOpen_sink (f : FileSink) (out : Output) (opens : Bool) :
    (f.reOpen out opens).1 = { f with
      mFileStream := if f.mFileStream.jammed then ⟨true, true⟩ else ⟨opens, !opens⟩ } := by
  obtain ⟨name, ⟨isOpen, fail⟩, lastTime⟩ := f
  cases isOpen <;> cases fail <;> cases opens <;> rfl

namespace FileAppender

/-- A call of `Log` with what the operating system answers during it, or a call of `ReOpen`. -/
inductive Act where
  | log (io : FileIo) (c : LogCall)
  | reOpen (opens : Bool)
  deriving DecidableEq, Repr

def step (env : FormatEnv) (s : LogAppender × Output) : Act → Option (LogAppender × Output)
  | .log io c => s.1.log env io s.2 c.level c.event
  | .reOpen opens =>
    match s.1.sink with
    | .stdOut => none
    | .file f =>
      let (f', out') := f.reOpen s.2 opens
      some ({ s.1 with sink := .file f' }, out')

/-- An appender from `FileAppender(name)`, whose first `open` may fail, or from `FileAppender()` and
`SetName`. -/
def fresh (name : String) (lastTime : UInt64) (level : LogLevel) (fmt : LogFormatter)
    (first : Option Bool) (out : Output) : LogAppender × Output :=
  let (f, out') := match first with
    | some opens => FileSink.new name lastTime out opens
    | none => ({ FileSink.closed lastTime with mFileName := name }, out)
  (((LogAppender.new (.file f)).setLevel level).setFormatter (some fmt), out')

def Jammed (s : LogAppender × Output) : Prop :=
  ∃ f, s.1.sink = .file f ∧ f.mFileStream.jammed = true

/-- The call of `Log` gets as far as its write, which fails while the file is open. -/
def WriteFails (s : LogAppender × Output) : Act → Prop
  | .log io c => s.1.mLevel ≤ c.level ∧ io.writes = false ∧ ∃ f, s.1.sink = .file f ∧
      if FileSink.due f.mLastTime c.event.mTime then io.opens = true
      else f.mFileStream.isOpen = true
  | .reOpen _ => False

/-- A `ReOpen` that can open the file leaves an open stream in order, and every record that is
accepted from then on gets to the file. -/
def Recovers (env : FormatEnv) (s : LogAppender × Output) : Prop :=
  ∃ s' f fmt, step env s (.reOpen true) = some s' ∧ s'.1.sink = .file f ∧
    f.mFileStream = ⟨true, false⟩ ∧ s'.1.mFormatter = some fmt ∧
    ∀ cs c, s'.1.mLevel ≤ c.level → ∃ s'' before, logAll env s' (cs ++ [c]) = some s'' ∧
      s''.2.files f.mFileName = before ++ fmt.format env c.level c.event

section
variable {env : FormatEnv} {level : LogLevel} {fmt : LogFormatter}

def appender (level : LogLevel) (fmt : LogFormatter) (f : FileSink) : LogAppender :=
  ⟨level, true, some fmt, .file f⟩

theorem step_reOpen (f : FileSink) (out : Output) (opens : Bool) :
    step env (appender level fmt f, out) (.reOpen opens) =
      some (appender level fmt (f.reOpen out opens).1, (f.reOpen out opens).2) := rfl

theorem jammed_iff (f : FileSink) (out : Output) :
    Jammed (appender level fmt f, out) ↔ f.mFileStream.jammed = true := by
  constructor
  · rintro ⟨f', hf', h⟩
    cases hf'
    exact h
  · intro h
    exact ⟨f, rfl, h⟩

theorem refresh_stream (f : FileSink) (out : Output) (now : UInt64) (opens : Bool) :
    (f.refresh out now opens).1.mFileStream =
      if FileSink.due f.mLastTime now then
        if f.mFileStream.jammed then ⟨true, true⟩ else ⟨opens, !opens⟩
      else f.mFileStream := by
  rw [FileSink.refresh]
  split
  · exact congrArg FileSink.mFileStream (f.reOpen_sink out opens)
  · rfl

theorem write_jammed (f : FileSink) (out : Output) (text : String) (writes : Bool) :
    (f.write out text writes).1.mFileStream.jammed = true ↔
      f.mFileStream.jammed = true ∨ (f.mFileStream.isOpen = true ∧ writes = false) := by
  obtain ⟨name, ⟨isOpen, fail⟩, lastTime⟩ := f
  cases isOpen <;> cases fail <;> cases writes <;>
    simp [FileSink.write, OFStream.write, OFStream.jammed]

/-- What `Log` does with a record that the level lets pass. -/
def accept (env : FormatEnv) (fmt : LogFormatter) (io : FileIo) (f : FileSink) (out : Output)
    (c : LogCall) : FileSink × Output :=
  let r := f.refresh out c.event.mTime io.opens
  r.1.write r.2 (fmt.format env c.level c.event) io.writes

theorem log_accept (io : FileIo) (f : FileSink) (out : Output) {c : LogCall}
    (hlevel : level ≤ c.level) :
    (appender level fmt f).log env io out c.level c.event =
      some (appender level fmt (accept env fmt io f out c).1, (accept env fmt io f out c).2) := by
  simp only [LogAppender.log, appender, hlevel, if_true, Option.map_some, accept]

theorem log_turned_down (io : FileIo) (f : FileSink) (out : Output) {c : LogCall}
    (hlevel : ¬ level ≤ c.level) :
    (appender level fmt f).log env io out c.level c.event = some (appender level fmt f, out) := by
  simp only [LogAppender.log, appender, hlevel, if_false]

theorem accept_jammed (io : FileIo) (f : FileSink) (out : Output) (c : LogCall) :
    (accept env fmt io f out c).1.mFileStream.jammed = true ↔
      f.mFileStream.jammed = true ∨ (io.writes = false ∧
        if FileSink.due f.mLastTime c.event.mTime then io.opens = true
        else f.mFileStream.isOpen = true) := by
  rw [accept, write_jammed, refresh_stream]
  obtain ⟨name, ⟨isOpen, fail⟩, lastTime⟩ := f
  cases FileSink.due lastTime c.event.mTime <;> cases isOpen <;> cases fail <;>
    cases io.opens <;> cases io.writes <;> simp [OFStream.jammed]

theorem writeFails_iff (io : FileIo) (f : FileSink) (out : Output) (c : LogCall) :
    WriteFails (appender level fmt f, out) (.log io c) ↔ level ≤ c.level ∧ io.writes = false ∧
      if FileSink.due f.mLastTime c.event.mTime then io.opens = true
      else f.mFileStream.isOpen = true := by
  simp [WriteFails, appender]

/-- A failed write on the open file jams the stream, and nothing else does; nothing clears it. -/
theorem step_jammed (env : FormatEnv) (f : FileSink) (out : Output) (act : Act) :
    ∃ f' out', step env (appender level fmt f, out) act = some (appender level fmt f', out') ∧
      (f'.mFileStream.jammed = true ↔
        f.mFileStream.jammed = true ∨ WriteFails (appender level fmt f, out) act) := by
  cases act with
  | reOpen opens =>
    apply Exists.intro (f.reOpen out opens).1
    apply Exists.intro (f.reOpen out opens).2
    constructor
    · exact step_reOpen f out opens
    · rw [FileSink.reOpen_sink]
      cases f.mFileStream.jammed <;> cases opens <;> simp [WriteFails, OFStream.jammed]
  | log io c =>
    rw [writeFails_iff]
    by_cases hlevel : level ≤ c.level
    · apply Exists.intro (accept env fmt io f out c).1
      apply Exists.intro (accept env fmt io f out c).2
      constructor
      · rw [step, log_accept io f out hlevel]
      · rw [accept_jammed, and_iff_right hlevel]
    · apply Exists.intro f
      apply Exists.intro out
      constructor
      · rw [step, log_turned_down io f out hlevel]
      · simp only [hlevel, false_and, or_false]

/-- In order, the appender adds each record that it accepts to the file. -/
theorem log_ready_last (env : FormatEnv) (name : String) (lastTime : UInt64)
    (fmt : LogFormatter) (out : Output) (c : LogCall) (hlevel : level ≤ c.level) :
    ∃ s before, (ready name lastTime level fmt).log env allSucceeds out c.level c.event = some s ∧
      s.2.files name = before ++ fmt.format env c.level c.event := by
  rw [log_ready, if_pos hlevel]
  split
  · apply Exists.intro (_, _)
    apply Exists.intro ""
    constructor
    · rfl
    · rw [String.empty_append]
      exact Function.update_self ..
  · apply Exists.intro (_, _)
    apply Exists.intro (out.files name)
    constructor
    · rfl
    · exact Function.update_self ..

theorem logAll_ready_last (out : Output) (cs : List LogCall) (c : LogCall)
    (hlevel : level ≤ c.level) :
    ∃ s before, logAll env (ready name lastTime level fmt, out) (cs ++ [c]) = some s ∧
      s.2.files name = before ++ fmt.format env c.level c.event := by
  obtain ⟨t, files, hrun, -⟩ := logAll_ready env level fmt name lastTime out cs
  obtain ⟨s, before, hlog, hfile⟩ :=
    log_ready_last env name t fmt { out with files := files } c hlevel
  apply Exists.intro s
  apply Exists.intro before
  constructor
  · have hone : logAll env (ready name t level fmt, { out with files := files }) [c] = some s := by
      rw [logAll, runAll, hlog]
      rfl
    rw [logAll, runAll_append]
    rw [logAll] at hrun hone
    rw [hrun, Option.bind_some, hone]
  · exact hfile

theorem recovers_iff (f : FileSink) (out : Output) :
    Recovers env (appender level fmt f, out) ↔ ¬ f.mFileStream.jammed = true := by
  constructor
  · rintro ⟨s', f', fmt', hstep, hsink, hready, -⟩ hjammed
    rw [step_reOpen, FileSink.reOpen_sink, if_pos hjammed] at hstep
    cases hstep
    cases hsink
    cases hready
  · intro hjammed
    have hreopened : step env (appender level fmt f, out) (.reOpen true) =
        some (ready f.mFileName f.mLastTime level fmt, (f.reOpen out true).2) := by
      rw [step_reOpen, FileSink.reOpen_sink, if_neg hjammed]
      rfl
    refine ⟨_, _, fmt, hreopened, rfl, rfl, rfl, ?_⟩
    intro cs c hlevel
    exact logAll_ready_last _ cs c hlevel

theorem fresh_not_jammed (level : LogLevel) (fmt : LogFormatter) (name : String) (lastTime : UInt64) (first : Option Bool)
    (out : Output) : ∃ f out', fresh name lastTime level fmt first out =
      (appender level fmt f, out') ∧ ¬ f.mFileStream.jammed = true := by
  cases first with
  | none => exact ⟨_, out, rfl, Bool.false_ne_true⟩
  | some opens =>
    apply Exists.intro (FileSink.new name lastTime out opens).1
    apply Exists.intro (FileSink.new name lastTime out opens).2
    constructor
    · rfl
    · rw [FileSink.new, FileSink.reOpen_sink]
      cases opens <;> exact Bool.false_ne_true

end

/-- The appender recovers after a history of calls, the first open included, if and only if no
write of it has failed while the file was open. -/
theorem reopen_recovers_iff (env : FormatEnv) (name : String) (lastTime : UInt64)
    (level : LogLevel) (fmt : LogFormatter) (first : Option Bool) (out : Output)
    (acts : List Act) :
    ∃ s, runAll (step env) (fresh name lastTime level fmt first out) acts = some s ∧
      (Recovers env s ↔
        ¬ Occurs (step env) WriteFails (fresh name lastTime level fmt first out) acts) := by
  obtain ⟨f, out', hfresh, hjammed⟩ := fresh_not_jammed level fmt name lastTime first out
  rw [hfresh]
  obtain ⟨s, hrun⟩ : ∃ s, runAll (step env) (appender level fmt f, out') acts = some s := by
    apply runAll_total (I := fun s => ∃ f out, s = (appender level fmt f, out)) ⟨f, out', rfl⟩
    rintro _ act ⟨f, out, rfl⟩
    obtain ⟨f', out', hstep, -⟩ := step_jammed env f out act
    exact ⟨_, hstep, f', out', rfl⟩
  obtain ⟨⟨f', out'', rfl⟩, hlatch⟩ : (∃ f' out'', s = (appender level fmt f', out'')) ∧
      (Jammed s ↔ Jammed (appender level fmt f, out') ∨
        Occurs (step env) WriteFails (appender level fmt f, out') acts) := by
    apply runAll_latch (I := fun s => ∃ f out, s = (appender level fmt f, out)) hrun ⟨f, out', rfl⟩
    rintro _ act u ⟨f, out, rfl⟩ hu
    obtain ⟨f', out', hstep, hiff⟩ := step_jammed env f out act
    cases hstep.symm.trans hu
    rw [jammed_iff, jammed_iff]
    exact ⟨⟨f', out', rfl⟩, hiff⟩
  rw [jammed_iff, jammed_iff, or_iff_right hjammed] at hlatch
  apply Exists.intro (appender level fmt f', out'')
  constructor
  · exact hrun
  · rw [recovers_iff, hlatch]

/-- The write of the first record fails, and the next one is lost although the file can be opened
and written again. -/
theorem failed_write_is_final :
    (runAll (step ⟨fun _ _ => "", fun _ => "root"⟩)
        (fresh "log.txt" 0 .debug (.new "%m%n") (some true) ⟨fun _ => "", ""⟩)
        [.log ⟨true, false⟩ ⟨.info, messageAt 1 "first"⟩, .reOpen true,
          .log allSucceeds ⟨.info, messageAt 9 "second"⟩]).map
      (fun s => (s.1.sink, s.2.files "log.txt")) =
    some (.file ⟨"log.txt", ⟨true, true⟩, 9⟩, "") := by
  decide

end FileAppender
end SvrFrame
