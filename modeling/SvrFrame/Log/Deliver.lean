import SvrFrame.Log.View

namespace SvrFrame
open Library
set_option autoImplicit true

/-- An appender changes nothing but its stream when it logs. -/
theorem LogAppender.log_ok (env : FormatEnv) (io : FileIo) (out : Output) (level : LogLevel)
    (event : LogEvent) {a : LogAppender} (h : a.mFormatter ≠ none) :
    ∃ a' out', a.log env io out level event = some (a', out') ∧ a'.view = a.view ∧
      a'.mFormatter = a.mFormatter := by
  obtain ⟨fmt, hfmt⟩ := Option.ne_none_iff_exists'.1 h
  by_cases hlevel : a.mLevel ≤ level
  · simp only [log, if_pos hlevel, hfmt, Option.map_some]
    cases hs : a.sink with
    | stdOut => exact ⟨_, _, rfl, rfl, hfmt⟩
    | file f =>
      refine ⟨_, _, rfl, ?_, rfl⟩
      have hname : (f.refresh out event.mTime io.opens).1.mFileName = f.mFileName := by
        simp only [FileSink.refresh]
        split <;> rfl
      simp [view, ownPattern, hs, hfmt, FileSink.write, hname]
  · exact ⟨a, out, if_neg hlevel, rfl, rfl⟩

namespace LoggerMgr
variable {s s' s'' : LoggerMgr}

/-- The appenders an event reaches: those of the logger, or of the root logger for a logger that
has none. -/
def receivers (s : LoggerMgr) (level : LogLevel) (l : LoggerId) : List AppenderId :=
  if (s.loggers l).mLevel ≤ level then
    match (s.loggers l).mAppenderList, (s.loggers l).mRoot with
    | [], some root =>
      if (s.loggers root).mLevel ≤ level then (s.loggers root).mAppenderList else []
    | as, _ => as
  else []

/-- What those of the appenders write that accept the event. -/
def accepted (s : LoggerMgr) (level : LogLevel) (event : LogEvent) (as : List AppenderId) :
    List Record :=
  (as.filter fun a => (s.appenders a).mLevel ≤ level).map fun a => ⟨a, level, event⟩

/-- Nothing but streams and outputs has changed. -/
structure Logged (s s' : LoggerMgr) : Prop where
  loggers : s'.loggers = s.loggers
  nextLogger : s'.nextLogger = s.nextLogger
  nextAppender : s'.nextAppender = s.nextAppender
  map : s'.mLoggers = s.mLoggers
  root : s'.mRoot = s.mRoot
  view : ∀ a, (s'.appenders a).view = (s.appenders a).view
  formatter : ∀ a, (s'.appenders a).mFormatter = (s.appenders a).mFormatter

theorem Logged.refl (s : LoggerMgr) : Logged s s :=
  ⟨rfl, rfl, rfl, rfl, rfl, fun _ => rfl, fun _ => rfl⟩

theorem Logged.trans (h : Logged s s') (h' : Logged s' s'') : Logged s s'' where
  loggers := h'.loggers.trans h.loggers
  nextLogger := h'.nextLogger.trans h.nextLogger
  nextAppender := h'.nextAppender.trans h.nextAppender
  map := h'.map.trans h.map
  root := h'.root.trans h.root
  view a := (h'.view a).trans (h.view a)
  formatter a := (h'.formatter a).trans (h.formatter a)

theorem Logged.level (h : Logged s s') (a : AppenderId) :
    (s'.appenders a).mLevel = (s.appenders a).mLevel := congrArg AppenderView.level (h.view a)

theorem Logged.viewAt (h : Logged s s') (l : LoggerId) : s'.viewAt l = s.viewAt l := by
  simp only [LoggerMgr.viewAt, pattern, h.loggers, h.view]

theorem Logged.findLogger (h : Logged s s') (name : String) :
    s'.findLogger name = s.findLogger name := by
  rw [LoggerMgr.findLogger, h.map]
  rfl

theorem Logged.view_name (h : Logged s s') (name : String) : s'.view name = s.view name := by
  rw [LoggerMgr.view, LoggerMgr.view, h.findLogger]
  split
  · exact h.viewAt _
  · rfl

theorem Logged.separate (h : Logged s s') (hs : Separate s) : Separate s' where
  registered := hs.registered.congr h.map h.nextLogger fun l => by rw [h.loggers]
  rooted := hs.rooted.congr h.root h.nextLogger fun l => by rw [h.loggers]
  known l a ha := by rw [h.nextAppender]; rw [h.loggers] at ha; exact hs.known l a ha
  apart l l' a ha ha' := by rw [h.loggers] at ha ha'; exact hs.apart l l' a ha ha'
  formatter l := by rw [h.loggers]; exact hs.formatter l
  appenderFormatter l a ha := by
    rw [h.formatter]
    rw [h.loggers] at ha
    exact hs.appenderFormatter l a ha

theorem Logged.guarded {level : LogLevel} (h : Logged s s') (hg : s.Guarded a level) :
    s'.Guarded a level := by
  refine ⟨h.nextAppender ▸ hg.known, ?_⟩
  rw [h.loggers]
  exact hg.level

section
variable (io : LogIo) (level : LogLevel) (event : LogEvent)

theorem logTo_spec (h : (s.appenders a).mFormatter ≠ none) :
    ∃ s', s.logTo io level event a = some s' ∧ Logged s s' ∧
      s'.written = s.written ++ s.accepted level event [a] := by
  obtain ⟨x, out, hlog, hview, hfmt⟩ := LogAppender.log_ok
    ⟨io.strftime, fun l => (s.loggers l).mName⟩ (io.file a) s.out level event h
  have hrun : s.logTo io level event a = some { s.setAppender a x with
      out := out
      written := if (s.appenders a).mLevel ≤ level then s.written ++ [⟨a, level, event⟩]
        else s.written } := by
    simp only [logTo, hlog, Option.map_some]
  refine ⟨_, hrun, ⟨rfl, rfl, rfl, rfl, rfl, fun b => ?_, fun b => ?_⟩, ?_⟩
  · simp only [setAppender_appenders, Function.update_apply]
    split
    · rename_i hb; rw [hb]; exact hview
    · rfl
  · simp only [setAppender_appenders, Function.update_apply]
    split
    · rename_i hb; rw [hb]; exact hfmt
    · rfl
  · by_cases hlevel : (s.appenders a).mLevel ≤ level <;> simp [accepted, hlevel]

theorem logTo_all_spec (as : List AppenderId) (h : ∀ a ∈ as, (s.appenders a).mFormatter ≠ none) :
    ∃ s', as.foldlM (logTo io level event) s = some s' ∧ Logged s s' ∧
      s'.written = s.written ++ s.accepted level event as := by
  induction as generalizing s with
  | nil => exact ⟨s, rfl, .refl s, (List.append_nil _).symm⟩
  | cons a as ih =>
    obtain ⟨s₁, hone, hlogged₁, hwritten₁⟩ := logTo_spec io level event (h a List.mem_cons_self)
    obtain ⟨s₂, hall, hlogged₂, hwritten₂⟩ := ih (s := s₁) fun b hb => by
      rw [hlogged₁.formatter]
      exact h b (List.mem_cons_of_mem a hb)
    refine ⟨s₂, by rw [List.foldlM_cons, hone]; exact hall, hlogged₁.trans hlogged₂, ?_⟩
    have hsame : s₁.accepted level event as = s.accepted level event as := by
      simp only [accepted, hlogged₁.level]
    rw [hwritten₂, hwritten₁, hsame, List.append_assoc]
    simp only [accepted, ← List.map_append, ← List.filter_append, List.singleton_append]

/-- `Logger::Log` always succeeds: at most one pointer leads to the root logger. -/
theorem log_delivers (hr : Rooted s)
    (hfmt : ∀ l, ∀ a ∈ (s.loggers l).mAppenderList, (s.appenders a).mFormatter ≠ none)
    (hl : l < s.nextLogger) :
    ∃ s', s.log io level event l = some s' ∧ Logged s s' ∧
      s'.written = s.written ++ s.accepted level event (s.receivers level l) := by
  have hself (l : LoggerId) := logTo_all_spec io level event (s.loggers l).mAppenderList (hfmt l)
  have hnone : Logged s s ∧ s.written = s.written ++ s.accepted level event [] :=
    ⟨.refl s, (List.append_nil _).symm⟩
  obtain ⟨fuel, hfuel⟩ := Nat.exists_eq_add_one_of_ne_zero (Nat.ne_zero_of_lt hl)
  rw [log, hfuel, logAt, receivers]
  split
  · cases hlist : (s.loggers l).mAppenderList with
    | cons a as => simpa only [hlist] using hself l
    | nil =>
      rcases hr.leads l with hroot | hroot
      · rw [hroot]
        exact ⟨s, rfl, hnone⟩
      · -- The root logger is another one, so that there are at least two.
        have hne : l ≠ s.mRoot := fun h => by rw [h, hr.root] at hroot; cases hroot
        have hfuel' : fuel ≠ 0 := by
          rintro rfl
          have hroot := hr.known
          rw [hfuel] at hl hroot
          exact hne ((Nat.lt_one_iff.1 hl).trans (Nat.lt_one_iff.1 hroot).symm)
        obtain ⟨fuel, rfl⟩ := Nat.exists_eq_add_one_of_ne_zero hfuel'
        simp only [hroot, logAt]
        split
        · cases hlist : (s.loggers s.mRoot).mAppenderList with
          | cons a as => simpa only [hlist] using hself s.mRoot
          | nil => simpa only [hr.root] using ⟨s, rfl, hnone⟩
        · exact ⟨s, rfl, hnone⟩
  · exact ⟨s, rfl, hnone⟩

theorem log_spec (hs : Separate s) (hl : l < s.nextLogger) :
    ∃ s', s.log io level event l = some s' ∧ Logged s s' ∧
      s'.written = s.written ++ s.accepted level event (s.receivers level l) :=
  log_delivers io level event hs.rooted hs.appenderFormatter hl

end

theorem receivers_accept (h : a ∈ s.receivers level l) :
    ∃ l', a ∈ (s.loggers l').mAppenderList ∧ (s.loggers l').mLevel ≤ level := by
  simp only [receivers] at h
  split at h
  · rename_i hlevel
    split at h
    · rename_i root _ _
      split at h
      · exact ⟨root, h, ‹_›⟩
      · cases h
    · exact ⟨l, h, hlevel⟩
  · cases h

theorem mem_receivers (ha : a ∈ (s.loggers l).mAppenderList)
    (hlevel : (s.loggers l).mLevel ≤ level) : a ∈ s.receivers level l := by
  rw [receivers, if_pos hlevel]
  split
  · rename_i hlist _
    rw [hlist] at ha
    cases ha
  · exact ha

/-- A guarded appender writes nothing below the level. -/
theorem Guarded.accepted {bound level : LogLevel} (hg : s.Guarded a bound)
    (hr : r ∈ s.accepted level event (s.receivers level l)) (ha : r.appender = a) :
    bound ≤ r.level := by
  obtain ⟨b, hb, rfl⟩ := List.mem_map.1 hr
  cases ha
  obtain ⟨l', hl', hlevel⟩ := receivers_accept (List.mem_filter.1 hb).1
  exact LogLevel.le_trans (hg.level l' hl') hlevel

theorem findLogger_lt (hs : Registered s) (h : s.findLogger name = some l) : l < s.nextLogger := by
  obtain ⟨e, he, rfl⟩ := Option.map_eq_some_iff.1 h
  exact hs.known e (OrdSet.find?_eq_some.1 he).1

theorem getLogger_guarded {bound : LogLevel} (hg : s.Guarded a bound) (name : String) :
    (s.getLogger name).1.Guarded a bound := by
  simp only [getLogger]
  split
  · exact hg
  · refine ⟨hg.known, ?_⟩
    intro l ha
    rw [newLogger_loggers, Function.update_apply] at ha ⊢
    split at ha
    · cases ha
    · rename_i hl
      rw [if_neg hl]
      exact hg.level l ha

theorem getLogger_written (s : LoggerMgr) (name : String) :
    (s.getLogger name).1.written = s.written := by
  simp only [getLogger]
  split <;> rfl

end LoggerMgr
end SvrFrame
