import SvrFrame.Log.Define
import SvrFrame.Log.Deliver

namespace SvrFrame
open Library
set_option autoImplicit true

/-- What a new file appender finds: the value of `mLastTime`, which nothing sets, and whether its
file can be opened. -/
structure FileBirth where
  lastTime : UInt64
  opens : Bool
  deriving DecidableEq, Repr

/-- `g_log_defines` and the loggers its only listener sets up. -/
structure LogConfig where
  mVal : LogDefines
  mgr : LoggerMgr

/-- A formatter that is neither left out nor invalid. -/
def validPattern (formatter : String) : Bool :=
  formatter ≠ "" && !(LogFormatter.new formatter).isError

namespace LogIniter
variable (birth : AppenderId → FileBirth)

/-- One turn of the loop over the appenders of a definition. For any other type `ap` stays null
and is dereferenced. -/
def makeAppender (l : LoggerId) (s : LoggerMgr) (a : LogAppenderDefine) : Option LoggerMgr :=
  let ap := s.nextAppender
  let made :=
    if a.type = 1 then some (s.newFileAppender a.file (birth ap).lastTime (birth ap).opens)
    else if a.type = 2 then some (s.newAppender (.new .stdOut))
    else none
  made.map fun s =>
    let s := s.setAppender ap ((s.appenders ap).setLevel a.level)
    let s := if validPattern a.formatter then
        s.setAppender ap ((s.appenders ap).setFormatter (some (.new a.formatter)))
      else s
    s.addAppender l ap

/-- A definition that is new or has changed. -/
def applyDefine (s : LoggerMgr) (i : LogDefine) : Option LoggerMgr :=
  let (s, l) := s.getLogger i.name
  let s := s.setLevel l i.level
  let s := if i.formatter ≠ "" then s.setPattern l i.formatter else s
  i.appenders.foldlM (makeAppender birth l) (s.clearAppenders l)

def deleteDefine (s : LoggerMgr) (i : LogDefine) : LoggerMgr :=
  let (s, l) := s.getLogger i.name
  (s.setLevel l .unknow).clearAppenders l

def applyChanged (old : LogDefines) (s : LoggerMgr) (i : LogDefine) : Option LoggerMgr :=
  match old.find? i.name with
  | none => applyDefine birth s i
  | some it => if i ≠ it then applyDefine birth s i else some s

def deleteMissing (new : LogDefines) (s : LoggerMgr) (i : LogDefine) : LoggerMgr :=
  match new.find? i.name with
  | none => deleteDefine s i
  | some _ => s

/-- The listener. -/
def onChange (old new : LogDefines) (s : LoggerMgr) : Option LoggerMgr := do
  let s ← new.elems.foldlM (applyChanged birth old) s
  return old.elems.foldl (deleteMissing new) s

end LogIniter

namespace LogConfig

def fresh (out : Output) : LogConfig := ⟨OrdSet.empty, .fresh out⟩

/-- `CfgVar::SetValue` in one thread, with the built-in listener. -/
def setValue (birth : AppenderId → FileBirth) (c : LogConfig) (val : LogDefines) :
    Option LogConfig :=
  if c.mVal = val then some c
  else (LogIniter.onChange birth c.mVal val c.mgr).map fun mgr => ⟨val, mgr⟩

/-- `P_LOG_NAME(name)->Log(level, event)`. -/
def log (c : LogConfig) (io : LogIo) (level : LogLevel) (event : LogEvent) (name : String) :
    Option LogConfig :=
  let got := c.mgr.getLogger name
  (got.1.log io level event got.2).map fun mgr => { c with mgr := mgr }

inductive Act where
  | setValue (val : LogDefines) (birth : AppenderId → FileBirth)
  | getLogger (name : String)
  | log (io : LogIo) (level : LogLevel) (event : LogEvent) (name : String)

def step (c : LogConfig) : Act → Option LogConfig
  | .setValue val birth => c.setValue birth val
  | .getLogger name => some { c with mgr := (c.mgr.getLogger name).1 }
  | .log io level event name => c.log io level event name

end LogConfig

/-! ### What a definition asks for -/

def LogAppenderDefine.Typed (a : LogAppenderDefine) : Prop := a.type = 1 ∨ a.type = 2

instance (a : LogAppenderDefine) : Decidable a.Typed := inferInstanceAs (Decidable (_ ∨ _))

def LogDefine.Typed (i : LogDefine) : Prop := ∀ a ∈ i.appenders, a.Typed

instance (i : LogDefine) : Decidable i.Typed := inferInstanceAs (Decidable (∀ a ∈ _, _))

namespace LogAppenderDefine

/-- The appender with a sink, in a logger with the formatter `fmt`. -/
def appender (a : LogAppenderDefine) (sink : Sink) (fmt : Option LogFormatter) : LogAppender :=
  let x := (LogAppender.new sink).setLevel a.level
  LoggerMgr.inherit
    (if validPattern a.formatter then x.setFormatter (some (.new a.formatter)) else x) fmt

def view (inherited : Option String) (a : LogAppenderDefine) : AppenderView where
  file := if a.type = 1 then some a.file else none
  level := a.level
  own := if validPattern a.formatter then some a.formatter else none
  pattern := if validPattern a.formatter then some a.formatter else inherited

theorem appender_formatter (a : LogAppenderDefine) (sink : Sink) (hfmt : fmt ≠ none) :
    (a.appender sink fmt).mFormatter ≠ none := by
  simp only [appender]
  split
  · exact fun h => by cases h
  · exact hfmt

theorem appender_view (a : LogAppenderDefine) (sink : Sink) (fmt : Option LogFormatter)
    (hsink : (LogAppender.new sink).view.file = if a.type = 1 then some a.file else none) :
    (a.appender sink fmt).view = a.view (fmt.map LogFormatter.getPattern) := by
  rw [view, ← hsink]
  simp only [appender]
  split <;> rfl

end LogAppenderDefine

/-- The pattern of a logger with the pattern `old` once the definition has been applied to it. -/
def LogDefine.pattern (i : LogDefine) (old : Option String) : Option String :=
  if validPattern i.formatter then some i.formatter else old

/-- The logger once the definition has been applied to it. -/
def LogDefine.applyTo (i : LogDefine) (v : LoggerView) : LoggerView :=
  ⟨i.level, i.pattern v.pattern, i.appenders.map (LogAppenderDefine.view (i.pattern v.pattern))⟩

def LoggerView.deleted (v : LoggerView) : LoggerView := { v with level := .unknow, appenders := [] }

/-- The listener, seen from one logger whose definition changes from `old` to `new`. -/
def LoggerView.update (v : LoggerView) (old new : Option LogDefine) : LoggerView :=
  match new with
  | some d => if old = some d then v else d.applyTo v
  | none => if old = none then v else v.deleted

@[simp] theorem LoggerView.update_self (o : Option LogDefine) (v : LoggerView) :
    v.update o o = v := by
  cases o <;> simp [update]

theorem LoggerView.update_some {d : LogDefine} (h : old ≠ some d) (v : LoggerView) :
    v.update old (some d) = d.applyTo v :=
  if_neg h

namespace LogIniter
open LoggerMgr
variable {s s' s'' : LoggerMgr} (birth : AppenderId → FileBirth)

theorem makeAppender_eq (l : LoggerId) (s : LoggerMgr) {a : LogAppenderDefine} (ha : a.Typed) :
    ∃ sink out, makeAppender birth l s a =
        some (s.attach l (a.appender sink (s.loggers l).mFormatter) out) ∧
      (LogAppender.new sink).view.file = if a.type = 1 then some a.file else none := by
  rcases ha with h1 | h2
  · let f := FileSink.new a.file (birth s.nextAppender).lastTime s.out (birth s.nextAppender).opens
    refine ⟨.file f.1, f.2, ?_, ?_⟩
    · simp only [makeAppender, if_pos h1, Option.map_some, newFileAppender]
      split <;> simp [*, attach, addAppender, setLogger, setAppender, newAppender, f,
        LogAppenderDefine.appender]
    · rw [if_pos h1]
      rfl
  · have h1 : a.type ≠ 1 := by rw [h2]; decide
    refine ⟨.stdOut, s.out, ?_, ?_⟩
    · simp only [makeAppender, if_neg h1, if_pos h2, Option.map_some]
      split <;> simp [*, attach, addAppender, setLogger, setAppender, newAppender,
        LogAppenderDefine.appender]
    · rw [if_neg h1]
      rfl

/-- The appenders of a definition come after those of the logger, in their order. -/
theorem makeAppenders_edits (hs : Separate s) (hv : s.viewAt l = v)
    {as : List LogAppenderDefine} (has : ∀ a ∈ as, a.Typed) :
    ∃ s', as.foldlM (makeAppender birth l) s = some s' ∧
      Edits l ⟨v.level, v.pattern, v.appenders ++ as.map (LogAppenderDefine.view v.pattern)⟩
        s s' := by
  induction as generalizing s v with
  | nil =>
    refine ⟨s, rfl, ?_⟩
    rw [List.map_nil, List.append_nil, ← hv]
    exact hs.refl l
  | cons a as ih =>
    obtain ⟨sink, out, hmake, hsink⟩ := makeAppender_eq birth l s (has a List.mem_cons_self)
    have hedit := hs.attach hv out (a.appender_formatter sink (hs.formatter l))
    have hpattern : (s.loggers l).mFormatter.map LogFormatter.getPattern = v.pattern :=
      congrArg LoggerView.pattern hv
    rw [a.appender_view sink _ hsink, hpattern] at hedit
    obtain ⟨s', hs', hedits⟩ := ih hedit.separate hedit.view fun b hb =>
      has b (List.mem_cons_of_mem a hb)
    rw [List.append_assoc] at hedits
    exact ⟨s', by rw [List.foldlM_cons, hmake]; exact hs', hedit.trans hedits⟩

theorem setPattern_edits (hs : Separate s) (hv : s.viewAt l = v) (i : LogDefine) : ∃ as,
    Edits l ⟨v.level, i.pattern v.pattern, as⟩ s
      (if i.formatter ≠ "" then s.setPattern l i.formatter else s) := by
  by_cases hempty : i.formatter = ""
  · refine ⟨v.appenders, ?_⟩
    simp only [LogDefine.pattern, validPattern, hempty, ne_eq, not_true_eq_false, decide_false,
      Bool.false_and, Bool.false_eq_true, if_false]
    exact hv ▸ hs.refl l
  · simp only [LogDefine.pattern, validPattern, LoggerMgr.setPattern, hempty, ne_eq,
      not_false_eq_true, if_true, decide_true, Bool.true_and]
    cases (LogFormatter.new i.formatter).isError with
    | true => exact ⟨v.appenders, hv ▸ hs.refl l⟩
    | false => exact hs.setFormatter hv (.new i.formatter)

/-- Guarded appenders stay guarded, and nothing is written. -/
structure Quiet (s s' : LoggerMgr) : Prop where
  separate : Separate s'
  guarded : ∀ a bound, s.Guarded a bound → s'.Guarded a bound
  written : s'.written = s.written

theorem Quiet.refl (hs : Separate s) : Quiet s s := ⟨hs, fun _ _ h => h, rfl⟩

theorem Quiet.trans (h : Quiet s s') (h' : Quiet s' s'') : Quiet s s'' :=
  ⟨h'.separate, fun a bound hg => h'.guarded a bound (h.guarded a bound hg),
    h'.written.trans h.written⟩

/-- A turn that edits the logger of one name. -/
def Turn (name : String) (f : LoggerView → LoggerView) (s s' : LoggerMgr) : Prop :=
  Quiet s s' ∧ ∀ name', s'.view name' = if name' = name then f (s.view name') else s.view name'

theorem Turn.of_getLogger (hs : Separate s) (f : LoggerView → LoggerView)
    (h : Edits (s.getLogger name).2 (f ((s.getLogger name).1.viewAt (s.getLogger name).2))
      (s.getLogger name).1 s')
    (hnew : ∀ a ∈ (s'.loggers (s.getLogger name).2).mAppenderList,
      (s.getLogger name).1.nextAppender ≤ a) : Turn name f s s' := by
  obtain ⟨hs', hfind, hview⟩ := getLogger_spec hs name
  refine ⟨⟨h.separate, fun a bound hg => h.guarded hnew (getLogger_guarded hg name),
    h.written.trans (getLogger_written s name)⟩, fun name' => ?_⟩
  rw [h.view_name hs'.registered hfind, ← view_eq hfind, hview, hview]
  split
  · rename_i hname; rw [hname]
  · rfl

theorem applyDefine_turn (hs : Separate s) {i : LogDefine} (hi : i.Typed) :
    ∃ s', applyDefine birth s i = some s' ∧ Turn i.name i.applyTo s s' := by
  have hlevel := (getLogger_spec hs i.name).1.setLevel (l := (s.getLogger i.name).2) rfl i.level
  obtain ⟨as, hpattern⟩ := setPattern_edits hlevel.separate hlevel.view i
  have hclear := hpattern.separate.clearAppenders hpattern.view
  obtain ⟨s', hmake, happ⟩ := makeAppenders_edits birth hclear.separate hclear.view hi
  have hcleared := (hlevel.trans hpattern).trans hclear
  refine ⟨s', hmake, .of_getLogger hs i.applyTo (hcleared.trans happ) ?_⟩
  intro a ha
  have hnone := hclear.cleared
  exact Nat.le_trans hcleared.grows ((happ.list a ha).resolve_left (by rw [hnone]; simp))

theorem deleteDefine_turn (hs : Separate s) (i : LogDefine) :
    Turn i.name LoggerView.deleted s (deleteDefine s i) := by
  have hlevel := (getLogger_spec hs i.name).1.setLevel (l := (s.getLogger i.name).2) rfl .unknow
  have hclear := hlevel.separate.clearAppenders hlevel.view
  refine .of_getLogger hs LoggerView.deleted (hlevel.trans hclear) ?_
  intro a ha
  have hnone := hclear.cleared
  rw [deleteDefine, hnone] at ha
  cases ha

theorem Turn.skip (hs : Separate s) (name : String) : Turn name id s s :=
  ⟨.refl hs, fun _ => (ite_self _).symm⟩

theorem applyChanged_turn (hs : Separate s) (old : LogDefines) {i : LogDefine} (hi : i.Typed) :
    ∃ s', applyChanged birth old s i = some s' ∧
      Turn i.name (fun v => v.update (old.find? i.name) (some i)) s s' := by
  by_cases h : old.find? i.name = some i
  · refine ⟨s, by simp [applyChanged, h], ?_⟩
    simp only [h, LoggerView.update_self]
    exact .skip hs i.name
  · have happly : applyChanged birth old s i = applyDefine birth s i := by
      simp only [applyChanged]
      split
      · rfl
      · rename_i it hit
        exact if_pos fun hi => h (by rw [hit, hi])
    simp only [LoggerView.update_some h, happly]
    exact applyDefine_turn birth hs hi

theorem deleteMissing_turn (hs : Separate s) (new : LogDefines) (i : LogDefine) :
    Turn i.name (fun v => if new.find? i.name = none then v.deleted else v) s
      (deleteMissing new s i) := by
  cases h : new.find? i.name with
  | none =>
    simp only [deleteMissing, h, if_true]
    exact deleteDefine_turn hs i
  | some it =>
    simp only [deleteMissing, h, reduceCtorEq, if_false]
    exact .skip hs i.name

theorem onChange_spec (hs : Separate s) (old : LogDefines) {new : LogDefines}
    (hnew : ∀ i ∈ new.elems, i.Typed) : ∃ s', onChange birth old new s = some s' ∧ Quiet s s' ∧
      ∀ name, s'.view name = (s.view name).update (old.find? name) (new.find? name) := by
  obtain ⟨s₁, hrun₁, hs₁, hview₁⟩ := OrdSet.foldlM_edits (applyChanged birth old) (Quiet s)
    LogDefine.Typed view (fun i v => v.update (old.find? i.name) (some i))
    (fun hs hi => by
      obtain ⟨t, ht, hturn, hview⟩ := applyChanged_turn birth hs.separate old hi
      exact ⟨t, ht, hs.trans hturn, hview⟩) new.sorted hnew (.refl hs)
  obtain ⟨s₂, hrun₂, hs₂, hview₂⟩ := OrdSet.foldlM_edits
    (fun s i => some (deleteMissing new s i)) (Quiet s) (fun _ => True) view
    (fun i v => if new.find? i.name = none then v.deleted else v)
    (fun hs _ => by
      obtain ⟨hturn, hview⟩ := deleteMissing_turn hs.separate new _
      exact ⟨_, rfl, hs.trans hturn, hview⟩) old.sorted (fun _ _ => trivial) hs₁
  have hdelete : old.elems.foldl (deleteMissing new) s₁ = s₂ :=
    Option.some.inj (List.foldlM_pure.symm.trans hrun₂)
  refine ⟨s₂, by rw [onChange, hrun₁, ← hdelete]; rfl, hs₂, ?_⟩
  intro name
  rw [hview₂, hview₁]
  change ((old.find? name).elim id _) (((new.find? name).elim id _) _) = _
  cases hnew : new.find? name with
  | none =>
    cases hold : old.find? name with
    | none => rfl
    | some i =>
      have hi : i.name = name := (OrdSet.find?_eq_some.1 hold).2
      simp only [Option.elim, hi, hnew, if_true, id, LoggerView.update, reduceCtorEq, if_false]
  | some d =>
    have hd : d.name = name := (OrdSet.find?_eq_some.1 hnew).2
    cases hold : old.find? name with
    | none => simp only [Option.elim, hd, hold, id]
    | some i =>
      have hi : i.name = name := (OrdSet.find?_eq_some.1 hold).2
      simp only [Option.elim, hd, hi, hold, hnew, reduceCtorEq, if_false]

end LogIniter

namespace LogConfig
variable {c : LogConfig}

/-- An update, seen from each logger; nothing happens where the value stays. -/
theorem setValue_spec (hc : c.mgr.Separate) (birth : AppenderId → FileBirth) {val : LogDefines}
    (hval : ∀ i ∈ val.elems, i.Typed) :
    ∃ c', c.setValue birth val = some c' ∧ c'.mVal = val ∧ LogIniter.Quiet c.mgr c'.mgr ∧
      ∀ name, c'.mgr.view name =
        (c.mgr.view name).update (c.mVal.find? name) (val.find? name) := by
  by_cases h : c.mVal = val
  · refine ⟨c, if_pos h, h, .refl hc, ?_⟩
    intro name
    rw [h, LoggerView.update_self]
  · obtain ⟨mgr, hrun, hs, hview⟩ := LogIniter.onChange_spec birth hc c.mVal hval
    exact ⟨⟨val, mgr⟩, by rw [setValue, if_neg h, hrun]; rfl, rfl, hs, hview⟩

theorem log_spec (hc : c.mgr.Separate) (io : LogIo) (level : LogLevel) (event : LogEvent)
    (name : String) : ∃ c', c.log io level event name = some c' ∧ c'.mVal = c.mVal ∧
      LoggerMgr.Logged (c.mgr.getLogger name).1 c'.mgr ∧
      c'.mgr.written = c.mgr.written ++ (c.mgr.getLogger name).1.accepted level event
        ((c.mgr.getLogger name).1.receivers level (c.mgr.getLogger name).2) := by
  obtain ⟨hs, hfind, -⟩ := LoggerMgr.getLogger_spec hc name
  obtain ⟨mgr, hrun, hlogged, hwritten⟩ := LoggerMgr.log_spec io level event hs
    (LoggerMgr.findLogger_lt hs.registered hfind)
  refine ⟨{ c with mgr := mgr }, by simp only [log, hrun, Option.map_some], rfl, hlogged, ?_⟩
  rw [hwritten, LoggerMgr.getLogger_written]

end LogConfig
end SvrFrame
