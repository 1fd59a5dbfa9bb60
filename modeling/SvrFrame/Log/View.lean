import SvrFrame.Log.Logger

namespace SvrFrame
open Library
set_option autoImplicit true

/-- Kind and file, level, own pattern and effective pattern of an appender. -/
structure AppenderView where
  file : Option String
  level : LogLevel
  own : Option String
  pattern : Option String
  deriving DecidableEq, Repr

structure LoggerView where
  level : LogLevel
  pattern : Option String
  appenders : List AppenderView
  deriving DecidableEq, Repr

def LogAppender.view (x : LogAppender) : AppenderView where
  file := match x.sink with
    | .stdOut => none
    | .file f => some f.mFileName
  level := x.mLevel
  own := x.ownPattern
  pattern := x.mFormatter.map LogFormatter.getPattern

def LoggerView.new : LoggerView := ⟨.info, some Logger.defaultFormatter.mPattern, []⟩

namespace LoggerMgr

def viewAt (s : LoggerMgr) (l : LoggerId) : LoggerView :=
  ⟨(s.loggers l).mLevel, s.pattern l,
    (s.loggers l).mAppenderList.map fun a => (s.appenders a).view⟩

/-- What the logger looks like that `P_LOG_NAME(name)` leads to. -/
def view (s : LoggerMgr) (name : String) : LoggerView :=
  match s.findLogger name with
  | some l => s.viewAt l
  | none => .new

/-- Every logger but the root logger leads to it. -/
structure Rooted (s : LoggerMgr) : Prop where
  known : s.mRoot < s.nextLogger
  root : (s.loggers s.mRoot).mRoot = none
  leads : ∀ l, (s.loggers l).mRoot = none ∨ (s.loggers l).mRoot = some s.mRoot

/-- No two loggers share an appender, and nothing in use lacks a formatter. -/
structure Separate (s : LoggerMgr) : Prop where
  registered : Registered s
  rooted : Rooted s
  known : ∀ l, ∀ a ∈ (s.loggers l).mAppenderList, a < s.nextAppender
  apart : ∀ l l' a, a ∈ (s.loggers l).mAppenderList → a ∈ (s.loggers l').mAppenderList → l = l'
  formatter : ∀ l, (s.loggers l).mFormatter ≠ none
  appenderFormatter : ∀ l, ∀ a ∈ (s.loggers l).mAppenderList, (s.appenders a).mFormatter ≠ none

/-- `s'` is `s` with another view of logger `l`, which has got no appender that was known. -/
structure Edits (l : LoggerId) (v : LoggerView) (s s' : LoggerMgr) : Prop where
  separate : Separate s'
  map : s'.mLoggers = s.mLoggers
  written : s'.written = s.written
  grows : s.nextAppender ≤ s'.nextAppender
  loggers : ∀ l' ≠ l, s'.loggers l' = s.loggers l'
  list : ∀ a ∈ (s'.loggers l).mAppenderList,
    a ∈ (s.loggers l).mAppenderList ∨ s.nextAppender ≤ a
  others : ∀ l' ≠ l, s'.viewAt l' = s.viewAt l'
  view : s'.viewAt l = v

/-- Only loggers with at least this level have the appender. -/
structure Guarded (s : LoggerMgr) (a : AppenderId) (level : LogLevel) : Prop where
  known : a < s.nextAppender
  level : ∀ l, a ∈ (s.loggers l).mAppenderList → level ≤ (s.loggers l).mLevel

variable {s s' s'' : LoggerMgr}

theorem Rooted.congr (hs : Rooted s) (hroot : s'.mRoot = s.mRoot)
    (hnext : s'.nextLogger = s.nextLogger)
    (h : ∀ l, (s'.loggers l).mRoot = (s.loggers l).mRoot) : Rooted s' := by
  refine ⟨?_, ?_, fun l => ?_⟩
  · rw [hroot, hnext]; exact hs.known
  · rw [hroot, h]; exact hs.root
  · rw [hroot, h]; exact hs.leads l

theorem Rooted.setLogger (hs : Rooted s) {k : Logger} (hk : k.mRoot = (s.loggers l).mRoot) :
    Rooted (s.setLogger l k) :=
  hs.congr rfl rfl fun l' => setLogger_keeps Logger.mRoot s l l' k hk

theorem Rooted.newLogger (hs : Rooted s) (name : String) : Rooted (s.newLogger name) := by
  refine ⟨Nat.lt_succ_of_lt hs.known, ?_, fun l => ?_⟩
  · rw [newLogger_loggers, newLogger_mRoot, Function.update_of_ne (Nat.ne_of_lt hs.known)]
    exact hs.root
  · rw [newLogger_loggers, newLogger_mRoot, Function.update_apply]
    split
    · exact .inr rfl
    · exact hs.leads l

theorem Rooted.getLogger (hs : Rooted s) (name : String) : Rooted (s.getLogger name).1 := by
  simp only [LoggerMgr.getLogger]
  split
  · exact hs
  · exact hs.newLogger name

theorem fresh_rooted (out : Output) : Rooted (fresh out) :=
  ⟨Nat.zero_lt_one, rfl, fun l => .inl (setLogger_keeps Logger.mRoot _ 0 l _ rfl)⟩

theorem fresh_separate (out : Output) : Separate (fresh out) where
  registered := fresh_registered out
  rooted := fresh_rooted out
  known l a ha := by
    simp only [fresh, addAppender, setLogger_loggers, Function.update_apply] at ha
    split at ha
    · rw [List.mem_singleton.1 ha]; exact Nat.zero_lt_one
    · cases ha
  apart l l' a ha ha' := by
    simp only [fresh, addAppender, setLogger_loggers, Function.update_apply] at ha ha'
    split at ha
    · rename_i hl
      split at ha'
      · rename_i hl'; rw [hl, hl']
      · cases ha'
    · cases ha
  formatter l := by
    simp only [fresh, addAppender, setLogger_loggers, Function.update_apply]
    split <;> exact fun h => by cases h
  appenderFormatter l a ha := by
    simp only [fresh, addAppender, setLogger_loggers, Function.update_apply] at ha
    split at ha
    · rw [List.mem_singleton.1 ha]; exact fun h => by cases h
    · cases ha

theorem Separate.refl (hs : Separate s) (l : LoggerId) : Edits l (s.viewAt l) s s :=
  ⟨hs, rfl, rfl, Nat.le_refl _, fun _ _ => rfl, fun _ => .inl, fun _ _ => rfl, rfl⟩

theorem Edits.trans (h : Edits l v s s') (h' : Edits l v' s' s'') : Edits l v' s s'' where
  separate := h'.separate
  map := h'.map.trans h.map
  written := h'.written.trans h.written
  grows := Nat.le_trans h.grows h'.grows
  loggers l' hl := (h'.loggers l' hl).trans (h.loggers l' hl)
  list a ha := by
    rcases h'.list a ha with ha | ha
    · exact h.list a ha
    · exact .inr (Nat.le_trans h.grows ha)
  others l' hl := (h'.others l' hl).trans (h.others l' hl)
  view := h'.view

theorem Edits.cleared {level : LogLevel} {p : Option String} (h : Edits l ⟨level, p, []⟩ s s') :
    (s'.loggers l).mAppenderList = [] :=
  List.map_eq_nil_iff.1 (congrArg LoggerView.appenders h.view)

/-- An edit that leaves logger `l` with new appenders only. -/
theorem Edits.guarded (h : Edits l v s s')
    (hnew : ∀ a ∈ (s'.loggers l).mAppenderList, s.nextAppender ≤ a) (hg : s.Guarded a level) :
    s'.Guarded a level := by
  refine ⟨Nat.lt_of_lt_of_le hg.known h.grows, ?_⟩
  intro l' ha
  by_cases hl : l' = l
  · rw [hl] at ha
    exact absurd hg.known (Nat.not_lt.2 (hnew a ha))
  · rw [h.loggers l' hl] at ha ⊢
    exact hg.level l' ha

theorem findLogger_named (hs : Registered s) (h : s.findLogger name = some l) :
    (s.loggers l).mName = name := by
  obtain ⟨e, he, rfl⟩ := Option.map_eq_some_iff.1 h
  obtain ⟨hmem, rfl⟩ := OrdSet.find?_eq_some.1 he
  exact hs.named e hmem

theorem findLogger_inj (hs : Registered s) (h : s.findLogger name = some l)
    (h' : s.findLogger name' = some l) : name = name' :=
  (findLogger_named hs h).symm.trans (findLogger_named hs h')

theorem view_eq (h : s.findLogger name = some l) : s.view name = s.viewAt l := by
  rw [view, h]

theorem Edits.view_name (h : Edits l v s s') (hs : Registered s) (hl : s.findLogger name = some l)
    (name' : String) : s'.view name' = if name' = name then v else s.view name' := by
  have hfind (name : String) : s'.findLogger name = s.findLogger name := by
    rw [findLogger, h.map]
    rfl
  split
  · rename_i hname
    rw [hname, view_eq ((hfind name).trans hl), h.view]
  · rename_i hname
    rw [LoggerMgr.view, LoggerMgr.view, hfind]
    cases hl' : s.findLogger name' with
    | none => rfl
    | some l' => exact h.others l' fun he => hname (findLogger_inj hs hl' (he ▸ hl))

/-! ### The operations -/

theorem findLogger_newLogger (h : s.findLogger name = none) :
    (s.newLogger name).findLogger name' =
      if name' = name then some s.nextLogger else s.findLogger name' := by
  have hnone : s.mLoggers.find? name = none := Option.map_eq_none_iff.1 h
  simp only [findLogger, newLogger_mLoggers]
  split
  · rename_i hname
    rw [hname, OrdSet.find?_insert_same (a := (name, s.nextLogger)) hnone]
    rfl
  · rename_i hname
    rw [OrdSet.find?_insert_other (a := (name, s.nextLogger)) fun h => hname h.symm]

theorem mem_newLogger (ha : a ∈ ((s.newLogger name).loggers l).mAppenderList) :
    l ≠ s.nextLogger ∧ a ∈ (s.loggers l).mAppenderList := by
  rw [newLogger_loggers, Function.update_apply] at ha
  split at ha
  · cases ha
  · exact ⟨‹_›, ha⟩

theorem Separate.newLogger (hs : Separate s) (h : s.findLogger name = none) :
    Separate (s.newLogger name) := by
  refine ⟨hs.registered.newLogger (Option.map_eq_none_iff.1 h), ?_, ?_, ?_, ?_, ?_⟩
  · exact hs.rooted.newLogger name
  · exact fun l a ha => hs.known l a (mem_newLogger ha).2
  · exact fun l l' a ha ha' => hs.apart l l' a (mem_newLogger ha).2 (mem_newLogger ha').2
  · intro l
    rw [newLogger_loggers, Function.update_apply]
    split
    · exact fun h => by cases h
    · exact hs.formatter l
  · exact fun l a ha => hs.appenderFormatter l a (mem_newLogger ha).2

/-- `GetLogger` registers the name and changes no view. -/
theorem getLogger_spec (hs : Separate s) (name : String) :
    Separate (s.getLogger name).1 ∧
      (s.getLogger name).1.findLogger name = some (s.getLogger name).2 ∧
      ∀ name', (s.getLogger name).1.view name' = s.view name' := by
  simp only [getLogger]
  split
  · rename_i l hl
    exact ⟨hs, hl, fun _ => rfl⟩
  · rename_i hl
    refine ⟨hs.newLogger hl, by rw [findLogger_newLogger hl, if_pos rfl], ?_⟩
    intro name'
    rw [view, view, findLogger_newLogger hl]
    by_cases hname : name' = name
    · rw [if_pos hname, hname, hl]
      simp [viewAt, pattern, Logger.new, LoggerView.new, LogFormatter.getPattern]
    · rw [if_neg hname]
      cases hl' : s.findLogger name' with
      | none => rfl
      | some l' =>
        obtain ⟨e, he, rfl⟩ := Option.map_eq_some_iff.1 hl'
        have hlt := hs.registered.known e (OrdSet.find?_eq_some.1 he).1
        simp only [viewAt, pattern, newLogger_loggers, newLogger_appenders,
          Function.update_of_ne (Nat.ne_of_lt hlt)]

/-- Another record for logger `l`, under the same name and without new appenders. -/
theorem Separate.setLogger (hs : Separate s) (hname : k.mName = (s.loggers l).mName)
    (hroot : k.mRoot = (s.loggers l).mRoot)
    (hlist : ∀ a ∈ k.mAppenderList, a ∈ (s.loggers l).mAppenderList) (hfmt : k.mFormatter ≠ none) :
    Edits l ⟨k.mLevel, k.mFormatter.map LogFormatter.getPattern,
      k.mAppenderList.map fun a => (s.appenders a).view⟩ s (s.setLogger l k) := by
  have hmem {l' : LoggerId} {a : AppenderId}
      (ha : a ∈ ((s.setLogger l k).loggers l').mAppenderList) :
      a ∈ (s.loggers l').mAppenderList := by
    rw [setLogger_loggers, Function.update_apply] at ha
    split at ha
    · rename_i hl; rw [hl]; exact hlist a ha
    · exact ha
  refine ⟨⟨?_, ?_, ?_, ?_, ?_, ?_⟩, rfl, rfl, Nat.le_refl _,
    fun l' hl => Function.update_of_ne hl _ _, fun a ha => .inl (hmem ha), ?_, ?_⟩
  · exact hs.registered.congr rfl rfl fun l' => setLogger_keeps Logger.mName s l l' k hname
  · exact hs.rooted.setLogger hroot
  · exact fun l' a ha => hs.known l' a (hmem ha)
  · exact fun l₁ l₂ a ha ha' => hs.apart l₁ l₂ a (hmem ha) (hmem ha')
  · intro l'
    rw [setLogger_loggers, Function.update_apply]
    split
    · exact hfmt
    · exact hs.formatter l'
  · exact fun l' a ha => hs.appenderFormatter l' a (hmem ha)
  · intro l' hl
    simp only [viewAt, pattern, setLogger_loggers, Function.update_of_ne hl, setLogger_appenders]
  · simp only [viewAt, pattern, setLogger_loggers, Function.update_self, setLogger_appenders]

theorem Separate.setLevel (hs : Separate s) (hv : s.viewAt l = v) (level : LogLevel) :
    Edits l ⟨level, v.pattern, v.appenders⟩ s (s.setLevel l level) :=
  hv ▸ hs.setLogger (k := { s.loggers l with mLevel := level }) rfl rfl (fun _ h => h)
    (hs.formatter l)

theorem Separate.clearAppenders (hs : Separate s) (hv : s.viewAt l = v) :
    Edits l ⟨v.level, v.pattern, []⟩ s (s.clearAppenders l) :=
  hv ▸ hs.setLogger (k := { s.loggers l with mAppenderList := [] }) rfl rfl
    (fun _ h => by cases h)
    (hs.formatter l)

/-- A new formatter reaches the appenders of logger `l` only. -/
theorem Separate.setFormatter (hs : Separate s) (hv : s.viewAt l = v) (fmt : LogFormatter) :
    ∃ as, Edits l ⟨v.level, some fmt.mPattern, as⟩ s (s.setFormatter l (some fmt)) := by
  subst hv
  have hlist (l' : LoggerId) : ((s.setFormatter l (some fmt)).loggers l').mAppenderList =
      (s.loggers l').mAppenderList := by
    simp only [LoggerMgr.setFormatter, setLogger_loggers, Function.update_apply]
    split
    · rename_i h; rw [h]
    · rfl
  refine ⟨((s.setFormatter l (some fmt)).viewAt l).appenders,
    ⟨?_, ?_, ?_, ?_, ?_, ?_⟩, rfl, rfl, Nat.le_refl _, fun l' hl => Function.update_of_ne hl _ _,
    fun a ha => .inl (hlist l ▸ ha), ?_, ?_⟩
  · exact hs.registered.congr rfl rfl fun l' => setLogger_keeps Logger.mName s l l' _ rfl
  · exact hs.rooted.congr rfl rfl fun l' => setLogger_keeps Logger.mRoot s l l' _ rfl
  · exact fun l' a ha => hs.known l' a (hlist l' ▸ ha)
  · exact fun l₁ l₂ a ha ha' => hs.apart l₁ l₂ a (hlist l₁ ▸ ha) (hlist l₂ ▸ ha')
  · intro l'
    simp only [LoggerMgr.setFormatter, setLogger_loggers, Function.update_apply]
    split
    · exact fun h => by cases h
    · exact hs.formatter l'
  · intro l' a ha
    rw [hlist] at ha
    simp only [LoggerMgr.setFormatter]
    split
    · exact fun h => by cases h
    · exact hs.appenderFormatter l' a ha
  · intro l' hl
    have hother (a : AppenderId) (ha : a ∈ (s.loggers l').mAppenderList) :
        ((s.setFormatter l (some fmt)).appenders a).view = (s.appenders a).view := by
      have hnot : a ∉ (s.loggers l).mAppenderList := fun h => hl (hs.apart l' l a ha h)
      simp only [LoggerMgr.setFormatter, hnot, false_and, if_false]
    have hlogger : (s.setFormatter l (some fmt)).loggers l' = s.loggers l' :=
      Function.update_of_ne hl _ _
    simp only [viewAt, pattern, hlogger]
    rw [List.map_congr_left hother]
  · simp only [viewAt, pattern, LoggerMgr.setFormatter, setLogger_loggers, Function.update_self,
      Option.map_some, LogFormatter.getPattern]

/-- A new appender, with its formatter, at the end of the list of logger `l`. -/
def attach (s : LoggerMgr) (l : LoggerId) (x : LogAppender) (out : Output) : LoggerMgr :=
  { s with
    loggers := Function.update s.loggers l { s.loggers l with
      mAppenderList := (s.loggers l).mAppenderList ++ [s.nextAppender] }
    appenders := Function.update s.appenders s.nextAppender x
    nextAppender := s.nextAppender + 1
    out := out }

theorem Separate.attach (hs : Separate s) (hv : s.viewAt l = v) (out : Output)
    (hx : x.mFormatter ≠ none) :
    Edits l ⟨v.level, v.pattern, v.appenders ++ [x.view]⟩ s (s.attach l x out) := by
  subst hv
  have hfresh {l' : LoggerId} {a : AppenderId} (ha : a ∈ (s.loggers l').mAppenderList) :
      a ≠ s.nextAppender := Nat.ne_of_lt (hs.known l' a ha)
  have hmem {l' : LoggerId} {a : AppenderId}
      (ha : a ∈ ((s.attach l x out).loggers l').mAppenderList) :
      a ∈ (s.loggers l').mAppenderList ∨ (l' = l ∧ a = s.nextAppender) := by
    simp only [LoggerMgr.attach, Function.update_apply] at ha
    split at ha
    · rename_i hl
      rcases List.mem_append.1 ha with ha | ha
      · exact .inl (hl ▸ ha)
      · exact .inr ⟨hl, List.mem_singleton.1 ha⟩
    · exact .inl ha
  have hview {l' : LoggerId} {a : AppenderId} (ha : a ∈ (s.loggers l').mAppenderList) :
      (s.attach l x out).appenders a = s.appenders a :=
    Function.update_of_ne (hfresh ha) _ _
  refine ⟨⟨?_, ?_, ?_, ?_, ?_, ?_⟩, rfl, rfl, Nat.le_succ _,
    fun l' hl => Function.update_of_ne hl _ _,
    fun a ha => (hmem ha).imp_right fun h => Nat.le_of_eq h.2.symm, ?_, ?_⟩
  · exact hs.registered.congr rfl rfl fun l' => setLogger_keeps Logger.mName s l l' _ rfl
  · exact hs.rooted.congr rfl rfl fun l' => setLogger_keeps Logger.mRoot s l l' _ rfl
  · intro l' a ha
    rcases hmem ha with ha | ⟨-, rfl⟩
    · exact Nat.lt_succ_of_lt (hs.known l' a ha)
    · exact Nat.lt_succ_self _
  · intro l₁ l₂ a ha ha'
    rcases hmem ha with ha₁ | ⟨hl₁, hn₁⟩ <;> rcases hmem ha' with ha₂ | ⟨hl₂, hn₂⟩
    · exact hs.apart l₁ l₂ a ha₁ ha₂
    · exact absurd hn₂ (hfresh ha₁)
    · exact absurd hn₁ (hfresh ha₂)
    · rw [hl₁, hl₂]
  · intro l'
    simp only [LoggerMgr.attach, Function.update_apply]
    split
    · exact hs.formatter l
    · exact hs.formatter l'
  · intro l' a ha
    rcases hmem ha with ha | ⟨-, rfl⟩
    · rw [hview ha]; exact hs.appenderFormatter l' a ha
    · simpa only [LoggerMgr.attach, Function.update_self] using hx
  · intro l' hl
    have hlogger : (s.attach l x out).loggers l' = s.loggers l' := Function.update_of_ne hl _ _
    simp only [viewAt, pattern, hlogger]
    rw [List.map_congr_left fun a ha => congrArg LogAppender.view (hview ha)]
  · have hold : (s.loggers l).mAppenderList.map (fun a => ((s.attach l x out).appenders a).view) =
        (s.loggers l).mAppenderList.map fun a => (s.appenders a).view :=
      List.map_congr_left fun a ha => congrArg LogAppender.view (hview ha)
    have hnew : (s.attach l x out).appenders s.nextAppender = x := Function.update_self _ _ _
    have hlogger : (s.attach l x out).loggers l = { s.loggers l with
        mAppenderList := (s.loggers l).mAppenderList ++ [s.nextAppender] } :=
      Function.update_self _ _ _
    simp only [viewAt, pattern, hlogger, List.map_append, hold, List.map_cons, List.map_nil, hnew]

end LoggerMgr
end SvrFrame
