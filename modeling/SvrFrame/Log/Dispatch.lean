import SvrFrame.Log.Deliver

namespace SvrFrame
open Library
set_option autoImplicit true

namespace LoggerMgr
variable {s s' : LoggerMgr}

/-- Every logger but the root logger points to the root logger, and whatever appenders the loggers
share, those in use have a formatter. -/
structure Ready (s : LoggerMgr) : Prop where
  registered : Registered s
  rooted : Rooted s
  points : ∀ l < s.nextLogger, l ≠ s.mRoot → (s.loggers l).mRoot = some s.mRoot
  rootName : s.findLogger "root" = some s.mRoot
  known : ∀ l, ∀ a ∈ (s.loggers l).mAppenderList, a < s.nextAppender
  formatter : ∀ l, (s.loggers l).mFormatter ≠ none
  appenderFormatter : ∀ l, ∀ a ∈ (s.loggers l).mAppenderList, (s.appenders a).mFormatter ≠ none

theorem fresh_ready (out : Output) : Ready (fresh out) where
  registered := fresh_registered out
  rooted := fresh_rooted out
  points _ hl hne := absurd (Nat.lt_one_iff.1 hl) hne
  rootName := rfl
  known := (fresh_separate out).known
  formatter := (fresh_separate out).formatter
  appenderFormatter := (fresh_separate out).appenderFormatter

/-- What the calls have in common that make no logger. -/
theorem Ready.congr (hs : Ready s) (hmap : s'.mLoggers = s.mLoggers)
    (hnext : s'.nextLogger = s.nextLogger) (hroot : s'.mRoot = s.mRoot)
    (hloggers : ∀ l, (s'.loggers l).mName = (s.loggers l).mName ∧
      (s'.loggers l).mRoot = (s.loggers l).mRoot)
    (hfmt : ∀ l, (s'.loggers l).mFormatter ≠ none)
    (hlist : ∀ l, ∀ a ∈ (s'.loggers l).mAppenderList,
      a < s'.nextAppender ∧ (s'.appenders a).mFormatter ≠ none) : Ready s' where
  registered := hs.registered.congr hmap hnext fun l => (hloggers l).1
  rooted := hs.rooted.congr hroot hnext fun l => (hloggers l).2
  points l hl hne := by
    rw [hroot] at hne ⊢
    rw [hnext] at hl
    rw [(hloggers l).2]
    exact hs.points l hl hne
  rootName := by
    rw [findLogger, hmap, hroot]
    exact hs.rootName
  known l a ha := (hlist l a ha).1
  formatter := hfmt
  appenderFormatter l a ha := (hlist l a ha).2

theorem Ready.newLogger (hs : Ready s) (h : s.findLogger name = none) :
    Ready (s.newLogger name) := by
  have hne : name ≠ "root" := by
    rintro rfl
    rw [hs.rootName] at h
    cases h
  refine ⟨hs.registered.newLogger (Option.map_eq_none_iff.1 h), hs.rooted.newLogger name, ?_, ?_,
    fun l a ha => hs.known l a (mem_newLogger ha).2, ?_,
    fun l a ha => hs.appenderFormatter l a (mem_newLogger ha).2⟩
  · intro l hl hroot
    rw [newLogger_loggers, newLogger_mRoot, Function.update_apply]
    split
    · rfl
    · rename_i hnew
      exact hs.points l (Nat.lt_of_le_of_ne (Nat.le_of_lt_succ hl) hnew) hroot
  · rw [findLogger_newLogger h, if_neg hne.symm]
    exact hs.rootName
  · intro l
    rw [newLogger_loggers, Function.update_apply]
    split
    · exact fun h => by cases h
    · exact hs.formatter l

theorem Ready.getLogger (hs : Ready s) (name : String) : Ready (s.getLogger name).1 := by
  simp only [LoggerMgr.getLogger]
  split
  · exact hs
  · rename_i h
    exact hs.newLogger h

/-- A logger with another list, level or formatter. -/
theorem Ready.setLogger (hs : Ready s) (hname : k.mName = (s.loggers l).mName)
    (hroot : k.mRoot = (s.loggers l).mRoot) (hfmt : k.mFormatter ≠ none)
    (hlist : ∀ a ∈ k.mAppenderList, a < s.nextAppender ∧ (s.appenders a).mFormatter ≠ none) :
    Ready (s.setLogger l k) := by
  refine hs.congr rfl rfl rfl (fun l' => ⟨setLogger_keeps Logger.mName s l l' k hname,
    setLogger_keeps Logger.mRoot s l l' k hroot⟩) ?_ ?_
  · intro l'
    rw [setLogger_loggers, Function.update_apply]
    split
    · exact hfmt
    · exact hs.formatter l'
  · intro l' a ha
    rw [setLogger_loggers, Function.update_apply] at ha
    split at ha
    · exact hlist a ha
    · exact ⟨hs.known l' a ha, hs.appenderFormatter l' a ha⟩

/-- An appender that is not without a formatter if it is in use. -/
theorem Ready.setAppender (hs : Ready s) (hx : (s.appenders a).mFormatter ≠ none →
    x.mFormatter ≠ none) : Ready (s.setAppender a x) := by
  refine hs.congr rfl rfl rfl (fun _ => ⟨rfl, rfl⟩) hs.formatter ?_
  intro l b hb
  refine ⟨hs.known l b hb, ?_⟩
  have hfmt := hs.appenderFormatter l b hb
  rw [setAppender_appenders, Function.update_apply]
  split
  · rename_i hba
    exact hx (hba ▸ hfmt)
  · exact hfmt

theorem Ready.newAppender (hs : Ready s) (x : LogAppender) : Ready (s.newAppender x) := by
  refine hs.congr rfl rfl rfl (fun _ => ⟨rfl, rfl⟩) hs.formatter ?_
  intro l a ha
  have hlt := hs.known l a ha
  refine ⟨Nat.lt_succ_of_lt hlt, ?_⟩
  rw [newAppender_appenders, Function.update_of_ne (Nat.ne_of_lt hlt)]
  exact hs.appenderFormatter l a ha

theorem Ready.addAppender (hs : Ready s) (ha : a < s.nextAppender) :
    Ready (s.addAppender l a) := by
  have hinherit : (inherit (s.appenders a) (s.loggers l).mFormatter).mFormatter ≠ none := by
    rw [inherit]
    split
    · exact hs.formatter l
    · assumption
  have hs' := hs.setAppender (a := a) fun _ => hinherit
  refine hs'.setLogger rfl rfl (hs.formatter l) ?_
  intro b hb
  rcases List.mem_append.1 hb with hb | hb
  · exact ⟨hs.known l b hb, hs'.appenderFormatter l b hb⟩
  · rw [List.mem_singleton.1 hb, setAppender_appenders, Function.update_self]
    exact ⟨ha, hinherit⟩

theorem Ready.setFormatter (hs : Ready s) (l : LoggerId) (fmt : LogFormatter) :
    Ready (s.setFormatter l (some fmt)) := by
  refine hs.congr rfl rfl rfl (fun l' => ⟨setLogger_keeps Logger.mName s l l' _ rfl,
    setLogger_keeps Logger.mRoot s l l' _ rfl⟩) ?_ ?_
  · intro l'
    simp only [LoggerMgr.setFormatter, setLogger_loggers, Function.update_apply]
    split
    · exact fun h => by cases h
    · exact hs.formatter l'
  · intro l' a ha
    have ha' : a ∈ (s.loggers l').mAppenderList := by
      rwa [← setLogger_keeps Logger.mAppenderList s l l'
        { s.loggers l with mFormatter := some fmt } rfl]
    refine ⟨hs.known l' a ha', ?_⟩
    simp only [LoggerMgr.setFormatter]
    split
    · exact fun h => by cases h
    · exact hs.appenderFormatter l' a ha'

/-- The call hands no null pointer over for a formatter. -/
def Act.formats : Act → Prop
  | .setFormatter _ val | .setAppenderFormatter _ val => val ≠ none
  | _ => True

instance : ∀ act : Act, Decidable act.formats
  | .setFormatter _ val | .setAppenderFormatter _ val => inferInstanceAs (Decidable (val ≠ none))
  | .getLogger _ | .setLevel _ _ | .setPattern _ _ | .newStdOut | .newFile _ _ _
  | .newClosedFile _ | .addAppender _ _ | .delAppender _ _ | .clearAppenders _
  | .setAppenderLevel _ _ => inferInstanceAs (Decidable True)

theorem Ready.step {act : Act} (hs : Ready s) (hv : act.valid s) (hf : act.formats)
    (h : s.step act = some s') : Ready s' := by
  have hold {l : LoggerId} {a : AppenderId} (ha : a ∈ (s.loggers l).mAppenderList) :
      a < s.nextAppender ∧ (s.appenders a).mFormatter ≠ none :=
    ⟨hs.known l a ha, hs.appenderFormatter l a ha⟩
  cases act with
  | getLogger name => cases h; exact hs.getLogger name
  | setLevel l level => cases h; exact hs.setLogger rfl rfl (hs.formatter l) fun a ha => hold ha
  | setFormatter l val =>
    obtain ⟨text, rfl⟩ := Option.ne_none_iff_exists'.1 hf
    cases h
    exact hs.setFormatter l _
  | setPattern l val =>
    cases h
    rw [setPattern]
    split
    · exact hs
    · exact hs.setFormatter l _
  | newStdOut | newClosedFile => cases h; exact hs.newAppender _
  | newFile name lastTime opens =>
    cases h
    have hs' : Ready { s with out := (FileSink.new name lastTime s.out opens).2 } :=
      hs.congr rfl rfl rfl (fun _ => ⟨rfl, rfl⟩) hs.formatter fun l a ha => hold ha
    exact hs'.newAppender _
  | addAppender l a => cases h; exact hs.addAppender hv.2
  | delAppender l a =>
    cases h
    exact hs.setLogger rfl rfl (hs.formatter l) fun b hb => hold (List.mem_of_mem_erase hb)
  | clearAppenders l =>
    cases h
    exact hs.setLogger rfl rfl (hs.formatter l) fun b hb => by cases hb
  | setAppenderLevel a level => cases h; exact hs.setAppender fun hx => hx
  | setAppenderFormatter a val =>
    obtain ⟨text, rfl⟩ := Option.ne_none_iff_exists'.1 hf
    cases h
    exact hs.setAppender fun _ h => by cases h

theorem Logged.ready (h : Logged s s') (hs : Ready s) : Ready s' := by
  apply hs.congr h.map h.nextLogger h.root
  · intro l
    rw [h.loggers]
    exact ⟨rfl, rfl⟩
  · intro l
    rw [h.loggers]
    exact hs.formatter l
  · intro l a ha
    rw [h.loggers] at ha
    rw [h.nextAppender, h.formatter]
    exact ⟨hs.known l a ha, hs.appenderFormatter l a ha⟩

/-! ### Where an event goes -/

section
variable (io : LogIo) (level : LogLevel) (event : LogEvent)

theorem Ready.log (hs : Ready s) (hl : l < s.nextLogger) :
    ∃ s', s.log io level event l = some s' ∧ Logged s s' ∧
      s'.written = s.written ++ s.accepted level event (s.receivers level l) :=
  log_delivers io level event hs.rooted hs.appenderFormatter hl

end

theorem findLogger_step {act : Act} (hfind : s.findLogger name = some l)
    (h : s.step act = some s') : s'.findLogger name = some l := by
  cases act with
  | getLogger name' =>
    cases h
    simp only [getLogger]
    split
    · exact hfind
    · rename_i hnone
      have hne : name ≠ name' := by
        rintro rfl
        rw [hfind] at hnone
        cases hnone
      rw [findLogger_newLogger hnone, if_neg hne]
      exact hfind
  | setPattern l val =>
    cases h
    rw [setPattern]
    split <;> exact hfind
  | _ =>
    cases h
    exact hfind

end LoggerMgr

/-- A `LoggerMgr` and what has been done to the lists of its loggers since they were last
cleared. -/
structure LogHistory where
  mgr : LoggerMgr
  /-- The calls of `AddAppender`. -/
  added : LoggerId → AppenderId → Nat
  /-- The calls of `DelAppender` that have found an entry. -/
  deleted : LoggerId → AppenderId → Nat

namespace LogHistory
open LoggerMgr

inductive Call where
  | act (a : Act)
  | log (io : LogIo) (level : LogLevel) (event : LogEvent) (l : LoggerId)

/-- The constructor of `LoggerMgr` adds an appender to the root logger. -/
def fresh (out : Output) : LogHistory where
  mgr := .fresh out
  added l a := if l = 0 ∧ a = 0 then 1 else 0
  deleted _ _ := 0

def addedAfter (h : LogHistory) : Act → LoggerId → AppenderId → Nat
  | .addAppender l a => fun l' a' => h.added l' a' + if l' = l ∧ a' = a then 1 else 0
  | .clearAppenders l => fun l' a' => if l' = l then 0 else h.added l' a'
  | _ => h.added

def deletedAfter (h : LogHistory) : Act → LoggerId → AppenderId → Nat
  | .delAppender l a => fun l' a' => h.deleted l' a' +
      if l' = l ∧ a' = a ∧ a ∈ (h.mgr.loggers l).mAppenderList then 1 else 0
  | .clearAppenders l => fun l' a' => if l' = l then 0 else h.deleted l' a'
  | _ => h.deleted

def step (h : LogHistory) : Call → Option LogHistory
  | .act a => (h.mgr.step a).map fun s => ⟨s, h.addedAfter a, h.deletedAfter a⟩
  | .log io level event l => (h.mgr.log io level event l).map fun s => { h with mgr := s }

/-- Pointers lead to objects, and no null pointer is handed over for a formatter. -/
def Allowed (h : LogHistory) : Call → Prop
  | .act a => a.valid h.mgr ∧ a.formats
  | .log _ _ _ l => l < h.mgr.nextLogger

instance : ∀ (h : LogHistory) (c : Call), Decidable (h.Allowed c)
  | h, .act a => inferInstanceAs (Decidable (a.valid h.mgr ∧ a.formats))
  | h, .log _ _ _ l => inferInstanceAs (Decidable (l < h.mgr.nextLogger))

/-- The multiplicities in the lists. -/
structure Counted (h : LogHistory) : Prop where
  ready : Ready h.mgr
  unmade : ∀ l, h.mgr.nextLogger ≤ l → (h.mgr.loggers l).mAppenderList = []
  count : ∀ l a, (h.mgr.loggers l).mAppenderList.count a + h.deleted l a = h.added l a

variable {h h' : LogHistory}

theorem fresh_counted (out : Output) : Counted (fresh out) where
  ready := fresh_ready out
  unmade l hl := by
    have hne : l ≠ 0 := Nat.ne_of_gt hl
    simp [fresh, LoggerMgr.fresh, addAppender, hne, Logger.new]
  count l a := by
    by_cases hl : l = 0
    · by_cases ha : a = 0
      · subst hl ha
        rfl
      · simp [fresh, LoggerMgr.fresh, addAppender, hl, ha, Ne.symm ha, Logger.new]
    · simp [fresh, LoggerMgr.fresh, addAppender, hl, Logger.new]

/-- A call that changes no list. -/
theorem Counted.congr (hs : Counted h) (hready : Ready h'.mgr)
    (hlist : ∀ l, (h'.mgr.loggers l).mAppenderList = (h.mgr.loggers l).mAppenderList)
    (hnext : h.mgr.nextLogger ≤ h'.mgr.nextLogger) (hadded : h'.added = h.added)
    (hdeleted : h'.deleted = h.deleted) : Counted h' where
  ready := hready
  unmade l hl := by
    rw [hlist]
    exact hs.unmade l (Nat.le_trans hnext hl)
  count l a := by
    rw [hlist, hadded, hdeleted]
    exact hs.count l a

theorem getLogger_list (hs : Counted h) (name : String) (l : LoggerId) :
    ((h.mgr.getLogger name).1.loggers l).mAppenderList = (h.mgr.loggers l).mAppenderList := by
  simp only [getLogger]
  split
  · rfl
  · rw [newLogger_loggers, Function.update_apply]
    split
    · rename_i hl
      rw [hs.unmade l (Nat.le_of_eq hl.symm)]
      rfl
    · rfl

theorem getLogger_nextLogger (s : LoggerMgr) (name : String) :
    s.nextLogger ≤ (s.getLogger name).1.nextLogger := by
  simp only [getLogger]
  split
  · exact Nat.le_refl _
  · exact Nat.le_succ _

/-- The list of logger `l` is now `as`. -/
theorem Counted.setList (hs : Counted h) (as : List AppenderId) (hl : l < h.mgr.nextLogger)
    (hready : Ready h'.mgr) (hnext : h'.mgr.nextLogger = h.mgr.nextLogger)
    (hlist : ∀ l', (h'.mgr.loggers l').mAppenderList =
      if l' = l then as else (h.mgr.loggers l').mAppenderList)
    (hcount : ∀ a, as.count a + h'.deleted l a = h'.added l a)
    (hothers : ∀ l' ≠ l, h'.added l' = h.added l' ∧ h'.deleted l' = h.deleted l') :
    Counted h' where
  ready := hready
  unmade l' hl' := by
    rw [hnext] at hl'
    rw [hlist, if_neg (Nat.ne_of_gt (Nat.lt_of_lt_of_le hl hl'))]
    exact hs.unmade l' hl'
  count l' a := by
    rw [hlist]
    split
    · rename_i hll
      rw [hll]
      exact hcount a
    · rename_i hne
      rw [(hothers l' hne).1, (hothers l' hne).2]
      exact hs.count l' a

theorem Counted.act {a : Act} (hs : Counted h) (hv : a.valid h.mgr) (hf : a.formats)
    (ht : h.mgr.step a = some s') : Counted ⟨s', h.addedAfter a, h.deletedAfter a⟩ := by
  have hready := hs.ready.step hv hf ht
  cases a with
  | getLogger name =>
    cases ht
    exact hs.congr hready (getLogger_list hs name) (getLogger_nextLogger h.mgr name) rfl rfl
  | setLevel l level =>
    cases ht
    exact hs.congr hready (fun l' => setLogger_keeps Logger.mAppenderList h.mgr l l' _ rfl)
      (Nat.le_refl _) rfl rfl
  | setFormatter l val =>
    cases ht
    exact hs.congr hready (fun l' => setLogger_keeps Logger.mAppenderList h.mgr l l' _ rfl)
      (Nat.le_refl _) rfl rfl
  | setPattern l val =>
    cases ht
    refine hs.congr hready (fun l' => ?_) ?_ rfl rfl
    all_goals simp only [setPattern]
    all_goals split
    · rfl
    · exact setLogger_keeps Logger.mAppenderList h.mgr l l' _ rfl
    · exact Nat.le_refl _
    · exact Nat.le_refl _
  | newStdOut | newFile | newClosedFile | setAppenderLevel | setAppenderFormatter =>
    cases ht
    exact hs.congr hready (fun _ => rfl) (Nat.le_refl _) rfl rfl
  | addAppender l a =>
    cases ht
    refine hs.setList ((h.mgr.loggers l).mAppenderList ++ [a]) hv.1 hready rfl ?_ ?_ ?_
    · intro l'
      simp only [addAppender, setLogger_loggers, Function.update_apply]
      split <;> rfl
    · intro b
      have hcount := hs.count l b
      rw [List.count_append]
      by_cases hb : b = a
      · subst hb
        simp only [addedAfter, deletedAfter, List.count_singleton_self, and_self, if_true]
        omega
      · simp only [addedAfter, deletedAfter, List.count_singleton, hb, beq_iff_eq, Ne.symm hb,
          and_false, if_false]
        omega
    · intro l' hne
      simp [addedAfter, deletedAfter, hne]
  | delAppender l a =>
    cases ht
    refine hs.setList ((h.mgr.loggers l).mAppenderList.erase a) hv.1 hready rfl ?_ ?_ ?_
    · intro l'
      simp only [delAppender, setLogger_loggers, Function.update_apply]
      split <;> rfl
    · intro b
      have hcount := hs.count l b
      by_cases hb : b = a
      · subst hb
        rw [List.count_erase_self]
        by_cases hmem : b ∈ (h.mgr.loggers l).mAppenderList
        · have hpos := List.count_pos_iff.2 hmem
          simp only [addedAfter, deletedAfter, hmem, and_self, if_true]
          omega
        · have hzero := List.count_eq_zero.2 hmem
          simp only [addedAfter, deletedAfter, hmem, and_false, if_false]
          omega
      · rw [List.count_erase_of_ne hb]
        simp only [addedAfter, deletedAfter, hb, false_and, and_false, if_false]
        omega
    · intro l' hne
      simp [addedAfter, deletedAfter, hne]
  | clearAppenders l =>
    cases ht
    refine hs.setList [] hv hready rfl ?_ ?_ ?_
    · intro l'
      simp only [clearAppenders, setLogger_loggers, Function.update_apply]
      split <;> rfl
    · intro b
      simp [addedAfter, deletedAfter]
    · intro l' hne
      simp [addedAfter, deletedAfter, hne]

theorem Counted.log {io : LogIo} (hs : Counted h) (hl : l < h.mgr.nextLogger)
    (ht : h.mgr.log io level event l = some s') : Counted { h with mgr := s' } := by
  obtain ⟨s'', hlog, hlogged, -⟩ := hs.ready.log io level event hl
  cases Option.some.inj (hlog.symm.trans ht)
  exact hs.congr (hlogged.ready hs.ready) (fun l => by rw [hlogged.loggers])
    (Nat.le_of_eq hlogged.nextLogger.symm) rfl rfl

theorem Counted.step {c : Call} (hs : Counted h) (hg : h.Allowed c) (ht : h.step c = some h') :
    Counted h' := by
  cases c with
  | act a =>
    obtain ⟨s', hs', rfl⟩ := Option.map_eq_some_iff.1 ht
    exact hs.act hg.1 hg.2 hs'
  | log io level event l =>
    obtain ⟨s', hs', rfl⟩ := Option.map_eq_some_iff.1 ht
    exact hs.log hg hs'

/-- A name that has been asked for keeps its logger. -/
theorem Counted.findLogger {c : Call} (hs : Counted h) (hg : h.Allowed c)
    (ht : h.step c = some h') (hfind : h.mgr.findLogger name = some l) :
    h'.mgr.findLogger name = some l := by
  cases c with
  | act a =>
    obtain ⟨s', hs', rfl⟩ := Option.map_eq_some_iff.1 ht
    exact findLogger_step hfind hs'
  | log io level event l' =>
    obtain ⟨s', hs', rfl⟩ := Option.map_eq_some_iff.1 ht
    obtain ⟨s'', hlog, hlogged, -⟩ := hs.ready.log io level event hg
    cases Option.some.inj (hlog.symm.trans hs')
    rw [hlogged.findLogger]
    exact hfind

end LogHistory
end SvrFrame
