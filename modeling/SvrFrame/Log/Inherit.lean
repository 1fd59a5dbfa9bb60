import SvrFrame.Log.Dispatch

namespace SvrFrame
open Library
set_option autoImplicit true

theorem LogAppender.log_bHasFormatter {a a' : LogAppender}
    (h : a.log env io out level event = some (a', out')) : a'.bHasFormatter = a.bHasFormatter := by
  simp only [log] at h
  split at h
  · split at h
    all_goals
      obtain ⟨fmt, -, heq⟩ := Option.map_eq_some_iff.1 h
      cases heq
      rfl
  · cases h
    rfl

namespace LoggerMgr
open LogHistory (Call)
variable {s s' : LoggerMgr}

/-- What a program does with a `LoggerMgr`: it calls a setup function or `Logger::Log`. -/
def call (s : LoggerMgr) : Call → Option LoggerMgr
  | .act a => s.step a
  | .log io level event l => s.log io level event l

theorem logTo_bHasFormatter (h : s.logTo io level event a = some s') (b : AppenderId) :
    (s'.appenders b).bHasFormatter = (s.appenders b).bHasFormatter := by
  obtain ⟨⟨x, out⟩, hlog, rfl⟩ := Option.map_eq_some_iff.1 h
  simp only [setAppender_appenders, Function.update_apply]
  split
  · rename_i hb
    rw [hb]
    exact LogAppender.log_bHasFormatter hlog
  · rfl

theorem logAt_bHasFormatter {fuel : Nat} (h : logAt io level event fuel s l = some s')
    (b : AppenderId) : (s'.appenders b).bHasFormatter = (s.appenders b).bHasFormatter := by
  induction fuel generalizing l with
  | zero => cases h
  | succ fuel ih =>
    simp only [logAt] at h
    split at h
    · split at h
      · exact ih h
      · exact foldlM_invariant (I := fun t =>
          (t.appenders b).bHasFormatter = (s.appenders b).bHasFormatter) h rfl
          fun _ ht hlog => (logTo_bHasFormatter hlog b).trans ht
    · cases h
      rfl

/-! ### The lists -/

theorem addAppender_list (s : LoggerMgr) (l l' : LoggerId) (a : AppenderId) :
    ((s.addAppender l a).loggers l').mAppenderList =
      if l' = l then (s.loggers l).mAppenderList ++ [a] else (s.loggers l').mAppenderList := by
  simp only [addAppender, setLogger_loggers, Function.update_apply]
  split <;> rfl

theorem addAppender_formatter (s : LoggerMgr) (l l' : LoggerId) (a : AppenderId) :
    ((s.addAppender l a).loggers l').mFormatter = (s.loggers l').mFormatter :=
  setLogger_keeps Logger.mFormatter _ l l' _ rfl

theorem addAppender_appenders (s : LoggerMgr) (l : LoggerId) (a : AppenderId) :
    (s.addAppender l a).appenders =
      Function.update s.appenders a (inherit (s.appenders a) (s.loggers l).mFormatter) := rfl

theorem mem_addAppender {l l' : LoggerId} {a b : AppenderId}
    (hb : b ∈ ((s.addAppender l a).loggers l').mAppenderList) :
    b ∈ (s.loggers l').mAppenderList ∨ (l = l' ∧ a = b) := by
  rw [addAppender_list] at hb
  split at hb
  · rename_i hl
    rcases List.mem_append.1 hb with hb | hb
    · exact .inl (hl ▸ hb)
    · exact .inr ⟨hl.symm, (List.mem_singleton.1 hb).symm⟩
  · exact .inl hb

/-- Another record of logger `l` whose list has nothing new. -/
theorem mem_setLogger {k : Logger} (hk : ∀ a ∈ k.mAppenderList, a ∈ (s.loggers l).mAppenderList)
    (ha : a ∈ ((s.setLogger l k).loggers l').mAppenderList) :
    a ∈ (s.loggers l').mAppenderList := by
  rw [setLogger_loggers, Function.update_apply] at ha
  split at ha
  · rename_i hl
    rw [hl]
    exact hk a ha
  · exact ha

theorem setFormatter_list (s : LoggerMgr) (l l' : LoggerId) (val : Option LogFormatter) :
    ((s.setFormatter l val).loggers l').mAppenderList = (s.loggers l').mAppenderList :=
  setLogger_keeps Logger.mAppenderList s l l' _ rfl

/-- Only `AddAppender` puts something into a list. -/
theorem step_list {act : Act} (h : s.step act = some s')
    (ha : a ∈ (s'.loggers l).mAppenderList) :
    a ∈ (s.loggers l).mAppenderList ∨ act = .addAppender l a := by
  cases act with
  | getLogger name =>
    cases h
    simp only [getLogger] at ha
    split at ha
    · exact .inl ha
    · exact .inl (mem_newLogger ha).2
  | setPattern l' val =>
    cases h
    rw [setPattern] at ha
    split at ha
    · exact .inl ha
    · rw [setFormatter_list] at ha
      exact .inl ha
  | addAppender l' a' =>
    cases h
    rcases mem_addAppender ha with ha | ⟨rfl, rfl⟩
    · exact .inl ha
    · exact .inr rfl
  | delAppender l' a' =>
    cases h
    exact .inl (mem_setLogger (fun _ hb => List.mem_of_mem_erase hb) ha)
  | clearAppenders l' =>
    cases h
    exact .inl (mem_setLogger (fun _ hb => by cases hb) ha)
  | setLevel l' level =>
    cases h
    exact .inl (mem_setLogger (k := { s.loggers l' with mLevel := level }) (fun _ hb => hb) ha)
  | setFormatter l' val =>
    cases h
    rw [setFormatter_list] at ha
    exact .inl ha
  | newStdOut | newFile | newClosedFile | setAppenderLevel | setAppenderFormatter =>
    cases h
    exact .inl ha

theorem step_nextLogger {act : Act} (h : s.step act = some s') : s.nextLogger ≤ s'.nextLogger := by
  cases act with
  | getLogger name =>
    cases h
    exact LogHistory.getLogger_nextLogger s name
  | setPattern l val =>
    cases h
    rw [setPattern]
    split <;> exact Nat.le_refl _
  | _ =>
    cases h
    exact Nat.le_refl _

/-- `Logger::SetFormatter` gets no null pointer. -/
def Act.loggerFormats : Act → Prop
  | .setFormatter _ val => val ≠ none
  | _ => True

/-- No appender in a list is told to have no formatter of its own. -/
def Act.keepsFormatter (s : LoggerMgr) : Act → Prop
  | .setAppenderFormatter a none => ∀ l < s.nextLogger, a ∉ (s.loggers l).mAppenderList
  | _ => True

instance : ∀ act : Act, Decidable act.loggerFormats
  | .setFormatter _ val => inferInstanceAs (Decidable (val ≠ none))
  | .getLogger _ | .setLevel _ _ | .setPattern _ _ | .newStdOut | .newFile _ _ _
  | .newClosedFile _ | .addAppender _ _ | .delAppender _ _ | .clearAppenders _
  | .setAppenderLevel _ _ | .setAppenderFormatter _ _ => inferInstanceAs (Decidable True)

instance (s : LoggerMgr) : ∀ act : Act, Decidable (act.keepsFormatter s)
  | .setAppenderFormatter a none =>
    inferInstanceAs (Decidable (∀ l < s.nextLogger, a ∉ (s.loggers l).mAppenderList))
  | .getLogger _ | .setLevel _ _ | .setFormatter _ _ | .setPattern _ _ | .newStdOut
  | .newFile _ _ _ | .newClosedFile _ | .addAppender _ _ | .delAppender _ _ | .clearAppenders _
  | .setAppenderLevel _ _ | .setAppenderFormatter _ (some _) => inferInstanceAs (Decidable True)

/-- What holds as long as every appender in a list has a formatter. -/
structure Usable (s : LoggerMgr) : Prop where
  ready : Ready s
  unmade : ∀ l, s.nextLogger ≤ l → (s.loggers l).mAppenderList = []

theorem fresh_usable (out : Output) : Usable (fresh out) :=
  ⟨fresh_ready out, (LogHistory.fresh_counted out).unmade⟩

theorem Usable.made (hs : Usable s) (ha : a ∈ (s.loggers l).mAppenderList) : l < s.nextLogger := by
  by_contra hl
  rw [hs.unmade l (Nat.le_of_not_lt hl)] at ha
  cases ha

/-- An appender in no list may be without a formatter. -/
theorem Usable.setAppender (hs : Usable s)
    (hfree : ∀ l < s.nextLogger, a ∉ (s.loggers l).mAppenderList) (x : LogAppender) :
    Ready (s.setAppender a x) := by
  refine hs.ready.congr rfl rfl rfl (fun _ => ⟨rfl, rfl⟩) hs.ready.formatter fun l b hb => ?_
  have hne : b ≠ a := by
    rintro rfl
    exact hfree l (hs.made hb) hb
  constructor
  · exact hs.ready.known l b hb
  · rw [setAppender_appenders, Function.update_of_ne hne]
    exact hs.ready.appenderFormatter l b hb

theorem Usable.act {act : Act} (hs : Usable s) (hv : act.valid s) (hf : act.loggerFormats)
    (hk : act.keepsFormatter s) (h : s.step act = some s') : Usable s' := by
  constructor
  · by_cases hformats : act.formats
    · exact hs.ready.step hv hformats h
    · cases act with
      | setFormatter l val => exact absurd hf hformats
      | setAppenderFormatter a val =>
        cases Decidable.not_not.1 hformats
        cases h
        exact hs.setAppender hk _
      | _ => exact absurd trivial hformats
  · intro l hl
    have hold := Nat.le_trans (step_nextLogger h) hl
    apply List.eq_nil_iff_forall_not_mem.2
    intro a ha
    rcases step_list h ha with ha | rfl
    · rw [hs.unmade l hold] at ha
      cases ha
    · exact absurd hv.1 (Nat.not_lt.2 hold)

theorem Usable.log (hs : Usable s) (hl : l < s.nextLogger)
    (h : s.log io level event l = some s') : Usable s' ∧ Logged s s' := by
  obtain ⟨s'', hlog, hlogged, -⟩ := hs.ready.log io level event hl
  cases Option.some.inj (hlog.symm.trans h)
  constructor
  · constructor
    · exact hlogged.ready hs.ready
    · rw [hlogged.nextLogger, hlogged.loggers]
      exact hs.unmade
  · exact hlogged

/-! ### Appenders that use the formatter of their logger -/

/-- An appender without a formatter of its own has the one its logger has now. -/
def InStep (s : LoggerMgr) : Prop :=
  ∀ l, ∀ a ∈ (s.loggers l).mAppenderList, (s.appenders a).bHasFormatter = false →
    (s.appenders a).mFormatter = (s.loggers l).mFormatter

/-- No appender is added to a logger while another one has it. -/
def Act.single (s : LoggerMgr) : Act → Prop
  | .addAppender l a => ∀ l' < s.nextLogger, l' ≠ l → a ∉ (s.loggers l').mAppenderList
  | _ => True

/-- An appender that is added either has a formatter of its own, or has none at all and takes the
one of the logger, or brings the one of the logger along. -/
def Act.inherits (s : LoggerMgr) : Act → Prop
  | .addAppender l a => (s.appenders a).bHasFormatter = true ∨ (s.appenders a).mFormatter = none ∨
      (s.appenders a).mFormatter = (s.loggers l).mFormatter
  | _ => True

instance (s : LoggerMgr) : ∀ act : Act, Decidable (act.single s)
  | .addAppender l a =>
    inferInstanceAs (Decidable (∀ l' < s.nextLogger, l' ≠ l → a ∉ (s.loggers l').mAppenderList))
  | .getLogger _ | .setLevel _ _ | .setFormatter _ _ | .setPattern _ _ | .newStdOut
  | .newFile _ _ _ | .newClosedFile _ | .delAppender _ _ | .clearAppenders _
  | .setAppenderLevel _ _ | .setAppenderFormatter _ _ => inferInstanceAs (Decidable True)

instance (s : LoggerMgr) : ∀ act : Act, Decidable (act.inherits s)
  | .addAppender l a => inferInstanceAs (Decidable ((s.appenders a).bHasFormatter = true ∨
      (s.appenders a).mFormatter = none ∨
      (s.appenders a).mFormatter = (s.loggers l).mFormatter))
  | .getLogger _ | .setLevel _ _ | .setFormatter _ _ | .setPattern _ _ | .newStdOut
  | .newFile _ _ _ | .newClosedFile _ | .delAppender _ _ | .clearAppenders _
  | .setAppenderLevel _ _ | .setAppenderFormatter _ _ => inferInstanceAs (Decidable True)

/-- Pointers lead to objects, no null pointer is handed over for a formatter, and no two loggers
share an appender. -/
def Single (s : LoggerMgr) : Call → Prop
  | .act a => a.valid s ∧ a.formats ∧ a.single s
  | .log _ _ _ l => l < s.nextLogger

def Inherits (s : LoggerMgr) : Call → Prop
  | .act a => a.inherits s
  | .log _ _ _ _ => True

instance (s : LoggerMgr) : ∀ c : Call, Decidable (s.Single c)
  | .act a => inferInstanceAs (Decidable (a.valid s ∧ a.formats ∧ a.single s))
  | .log _ _ _ l => inferInstanceAs (Decidable (l < s.nextLogger))

instance (s : LoggerMgr) : ∀ c : Call, Decidable (s.Inherits c)
  | .act a => inferInstanceAs (Decidable (a.inherits s))
  | .log _ _ _ _ => inferInstanceAs (Decidable True)

/-- The invariant of the runs in which no two loggers share an appender. -/
structure Inheriting (s : LoggerMgr) : Prop extends Usable s where
  apart : ∀ l l' a, a ∈ (s.loggers l).mAppenderList → a ∈ (s.loggers l').mAppenderList → l = l'
  inStep : InStep s

theorem fresh_inheriting (out : Output) : Inheriting (fresh out) where
  toUsable := fresh_usable out
  apart := (fresh_separate out).apart
  inStep l a ha _ := by
    simp only [fresh, addAppender, setLogger_loggers, Function.update_apply] at ha ⊢
    split at ha
    · rename_i hl
      rw [List.mem_singleton.1 ha, if_pos hl]
      rfl
    · cases ha

theorem InStep.congr (hs : InStep s)
    (hlist : ∀ l, ∀ a ∈ (s'.loggers l).mAppenderList, a ∈ (s.loggers l).mAppenderList ∧
      (s'.appenders a).bHasFormatter = (s.appenders a).bHasFormatter ∧
      (s'.appenders a).mFormatter = (s.appenders a).mFormatter ∧
      (s'.loggers l).mFormatter = (s.loggers l).mFormatter) : InStep s' := by
  intro l a ha hown
  obtain ⟨hmem, hhas, happender, hlogger⟩ := hlist l a ha
  rw [happender, hlogger]
  exact hs l a hmem (hhas ▸ hown)

theorem InStep.setLogger (hs : InStep s)
    (hlist : ∀ a ∈ k.mAppenderList, a ∈ (s.loggers l).mAppenderList)
    (hfmt : k.mFormatter = (s.loggers l).mFormatter) : InStep (s.setLogger l k) := by
  apply hs.congr
  intro l' a ha
  exact ⟨mem_setLogger hlist ha, rfl, rfl, setLogger_keeps Logger.mFormatter s l l' k hfmt⟩

/-- An appender whose inherited formatter stays, or that gets its own. -/
theorem InStep.setAppender (hs : InStep s)
    (hx : x.bHasFormatter = false → (s.appenders a).bHasFormatter = false ∧
      x.mFormatter = (s.appenders a).mFormatter) : InStep (s.setAppender a x) := by
  intro l b hb hown
  rw [setAppender_appenders, Function.update_apply] at hown ⊢
  split at hown
  · rename_i hba
    obtain ⟨hown', hkeep⟩ := hx hown
    rw [if_pos hba, hkeep]
    exact hs l a (hba ▸ hb) hown'
  · rename_i hba
    rw [if_neg hba]
    exact hs l b hb hown

theorem InStep.getLogger (hs : InStep s) (name : String) : InStep (s.getLogger name).1 := by
  simp only [LoggerMgr.getLogger]
  split
  · exact hs
  · apply hs.congr
    intro l a ha
    obtain ⟨hne, hmem⟩ := mem_newLogger ha
    rw [newLogger_loggers, Function.update_of_ne hne]
    exact ⟨hmem, rfl, rfl, rfl⟩

theorem InStep.newAppender (hs : InStep s) (hr : Ready s) (x : LogAppender) :
    InStep (s.newAppender x) := by
  apply hs.congr
  intro l a ha
  rw [newAppender_appenders, Function.update_of_ne (Nat.ne_of_lt (hr.known l a ha))]
  exact ⟨ha, rfl, rfl, rfl⟩

/-- The loop of `Logger::SetFormatter` reaches every appender that inherits from the logger, and no
appender of another one. -/
theorem Inheriting.setFormatter (hs : Inheriting s) (l : LoggerId) (fmt : LogFormatter) :
    InStep (s.setFormatter l (some fmt)) := by
  intro l' a ha hown
  have hmem : a ∈ (s.loggers l').mAppenderList := setFormatter_list s l l' _ ▸ ha
  by_cases hl : l' = l
  · subst hl
    simp only [LoggerMgr.setFormatter, hmem, true_and, setLogger_loggers,
      Function.update_self] at hown ⊢
    split at hown
    · rename_i hold
      rw [if_pos hold]
    · rename_i hold
      exact absurd hown hold
  · have hnot : a ∉ (s.loggers l).mAppenderList := fun h => hl (hs.apart l' l a hmem h)
    simp only [LoggerMgr.setFormatter, hnot, false_and, if_false, setLogger_loggers,
      Function.update_of_ne hl] at hown ⊢
    exact hs.inStep l' a hmem hown

theorem inherit_bHasFormatter (x : LogAppender) (fmt : Option LogFormatter) :
    (inherit x fmt).bHasFormatter = x.bHasFormatter := by
  rw [inherit]
  split <;> rfl

theorem Inheriting.other (hs : Inheriting s) {act : Act} (hsingle : act.single s)
    (hact : act = .addAppender l a) (ha : a ∈ (s.loggers l').mAppenderList) : l' = l := by
  subst hact
  by_contra hne
  exact hsingle l' (hs.made ha) hne ha

theorem Inheriting.addAppender (hs : Inheriting s)
    (hsingle : (Act.addAppender l a).single s) (hinherits : (Act.addAppender l a).inherits s) :
    InStep (s.addAppender l a) := by
  intro l' b hb hown
  rw [addAppender_formatter]
  rw [addAppender_appenders, Function.update_apply] at hown ⊢
  split at hown
  · rename_i hba
    have hl : l' = l := by
      rcases mem_addAppender hb with hb | ⟨hl, -⟩
      · exact hs.other hsingle rfl (hba ▸ hb)
      · exact hl.symm
    rw [if_pos hba, hl]
    rw [inherit_bHasFormatter] at hown
    simp only [inherit]
    split
    · rfl
    · rename_i hsome
      exact (hinherits.resolve_left (by simp [hown])).resolve_left hsome
  · rename_i hba
    rw [if_neg hba]
    exact hs.inStep l' b ((mem_addAppender hb).resolve_right fun h => hba h.2.symm) hown

theorem Inheriting.step {act : Act} (hs : Inheriting s) (hf : act.formats)
    (hsingle : act.single s) (hi : act.inherits s) (h : s.step act = some s') : InStep s' := by
  cases act with
  | getLogger name => cases h; exact hs.inStep.getLogger name
  | setLevel l level => cases h; exact hs.inStep.setLogger (fun _ ha => ha) rfl
  | setFormatter l val =>
    obtain ⟨text, rfl⟩ := Option.ne_none_iff_exists'.1 hf
    cases h
    exact hs.setFormatter l _
  | setPattern l val =>
    cases h
    rw [setPattern]
    split
    · exact hs.inStep
    · exact hs.setFormatter l _
  | newStdOut | newFile | newClosedFile => cases h; exact hs.inStep.newAppender hs.ready _
  | addAppender l a => cases h; exact hs.addAppender hsingle hi
  | delAppender l a =>
    cases h
    exact hs.inStep.setLogger (fun _ ha => List.mem_of_mem_erase ha) rfl
  | clearAppenders l => cases h; exact hs.inStep.setLogger (fun _ ha => by cases ha) rfl
  | setAppenderLevel a level => cases h; exact hs.inStep.setAppender fun hown => ⟨hown, rfl⟩
  | setAppenderFormatter a val =>
    obtain ⟨text, rfl⟩ := Option.ne_none_iff_exists'.1 hf
    cases h
    exact hs.inStep.setAppender fun hown => by cases hown

theorem Act.formats.loggerFormats {act : Act} (hf : act.formats) : act.loggerFormats := by
  cases act with
  | setFormatter l val => exact hf
  | _ => trivial

theorem Act.formats.keepsFormatter {act : Act} (hf : act.formats) (s : LoggerMgr) :
    act.keepsFormatter s := by
  cases act with
  | setAppenderFormatter a val =>
    obtain ⟨text, rfl⟩ := Option.ne_none_iff_exists'.1 hf
    trivial
  | _ => trivial

theorem Inheriting.act {act : Act} (hs : Inheriting s) (hg : s.Single (.act act))
    (hi : act.inherits s) (h : s.step act = some s') : Inheriting s' where
  toUsable := hs.toUsable.act hg.1 hg.2.1.loggerFormats (hg.2.1.keepsFormatter s) h
  apart l l' a ha ha' := by
    rcases step_list h ha with hold | hnew <;> rcases step_list h ha' with hold' | hnew'
    · exact hs.apart l l' a hold hold'
    · exact hs.other hg.2.2 hnew' hold
    · exact (hs.other hg.2.2 hnew hold').symm
    · cases hnew.symm.trans hnew'
      rfl
  inStep := hs.step hg.2.1 hg.2.2 hi h

theorem Inheriting.call {c : Call} (hs : Inheriting s) (hg : s.Single c) (hi : s.Inherits c)
    (h : s.call c = some s') : Inheriting s' := by
  cases c with
  | act a => exact hs.act hg hi h
  | log io level event l =>
    obtain ⟨husable, hlogged⟩ := hs.toUsable.log hg h
    constructor
    · exact husable
    · rw [hlogged.loggers]
      exact hs.apart
    · apply hs.inStep.congr
      intro l a ha
      rw [hlogged.loggers] at ha ⊢
      exact ⟨ha, logAt_bHasFormatter h a, hlogged.formatter a, rfl⟩

/-- `AddAppender` looks at the pointer, not at the flag. -/
theorem addAppender_out_of_step {act : Act} (hi : ¬ act.inherits s) (h : s.step act = some s') :
    ¬ InStep s' := by
  cases act with
  | addAppender l a =>
    cases h
    simp only [Act.inherits, not_or] at hi
    obtain ⟨hown, hsome, hstale⟩ := hi
    have hkeep : (s.addAppender l a).appenders a = s.appenders a := by
      rw [addAppender_appenders, Function.update_self, inherit, if_neg hsome]
    intro hin
    have hmem : a ∈ ((s.addAppender l a).loggers l).mAppenderList := by
      rw [addAppender_list, if_pos rfl]
      exact List.mem_append_right _ (List.mem_singleton_self a)
    have heq := hin l a hmem (hkeep ▸ Bool.eq_false_of_not_eq_true hown)
    rw [hkeep, addAppender_formatter] at heq
    exact hstale heq
  | _ => exact absurd trivial hi

/-- Inherited formatters stay in step with their logger as long as every appender that is added
inherits, and the first one that does not gets out of step. -/
theorem inherited_in_step (out : Output) :
    (∀ s, Reach call (fun s c => s.Single c ∧ s.Inherits c) (fresh out) s → InStep s) ∧
    ∀ s c s', Reach call (fun s c => s.Single c ∧ s.Inherits c) (fresh out) s → s.Single c →
      s.call c = some s' → ¬ s.Inherits c → ¬ InStep s' := by
  constructor
  · intro s hr
    have hs : Inheriting s :=
      hr.invariant (fresh_inheriting out) fun hs hg ht => hs.call hg.1 hg.2 ht
    exact hs.inStep
  · intro s c s' _ _ ht hi
    cases c with
    | act a => exact addAppender_out_of_step hi ht
    | log => exact absurd trivial hi

/-- An appender with its own formatter moves from the root logger to the logger `system`, which
then gets another formatter and hands it to a second appender. -/
theorem inherited_in_step_moved : ∃ s, Reach call (fun s c => s.Single c ∧ s.Inherits c)
      (fresh ⟨fun _ => "", ""⟩) s ∧
    (s.loggers 1).mAppenderList = [0, 1] ∧
    (s.appenders 1).mFormatter = (s.loggers 1).mFormatter ∧
    s.pattern 1 = some "%m" := by
  obtain ⟨s, hr, hp⟩ := Reach.of_exec_map call (fun s c => s.Single c ∧ s.Inherits c)
    (fresh ⟨fun _ => "", ""⟩)
    [.act (.getLogger "system"), .act (.setAppenderFormatter 0 (some "%p")),
      .act (.delAppender 0 0), .act (.addAppender 1 0), .act .newStdOut, .act (.addAppender 1 1),
      .act (.setFormatter 1 (some "%m"))]
    (fun s => decide ((s.loggers 1).mAppenderList = [0, 1] ∧
      (s.appenders 1).bHasFormatter = false ∧ s.pattern 1 = some "%m")) (by decide)
  obtain ⟨hlist, hown, hpattern⟩ := of_decide_eq_true hp
  have hmem : 1 ∈ (s.loggers 1).mAppenderList := by rw [hlist]; decide
  exact ⟨s, hr, hlist, (inherited_in_step _).1 s hr 1 1 hmem hown, hpattern⟩

/-- The appender is away while its logger gets another formatter. -/
theorem inherited_gets_stale : ∃ s, Reach call Single (fresh ⟨fun _ => "", ""⟩) s ∧
    ¬ InStep s := by
  obtain ⟨s, hr, hp⟩ := Reach.of_exec_map call Single (fresh ⟨fun _ => "", ""⟩)
    [.act (.delAppender 0 0), .act (.setFormatter 0 (some "%m")), .act (.addAppender 0 0)]
    (fun s => decide (0 ∈ (s.loggers 0).mAppenderList ∧ (s.appenders 0).bHasFormatter = false ∧
      (s.appenders 0).mFormatter.map LogFormatter.getPattern ≠ s.pattern 0)) (by decide)
  obtain ⟨hmem, hown, hne⟩ := of_decide_eq_true hp
  apply Exists.intro s
  constructor
  · exact hr
  · intro hin
    apply hne
    rw [hin 0 0 hmem hown]
    rfl

/-! ### Appenders that log -/

/-- Every call of `Log` comes to an end, and the appenders it reaches have a formatter. -/
def Logs (s : LoggerMgr) : Prop :=
  ∀ io level event, ∀ l < s.nextLogger,
    (∀ a ∈ s.receivers level l, (s.appenders a).mFormatter ≠ none) ∧
    ∃ s', s.log io level event l = some s'

/-- Pointers lead to objects; an appender may be told to have no formatter of its own. -/
def SetsUp (s : LoggerMgr) : Call → Prop
  | .act a => a.valid s ∧ a.loggerFormats
  | .log _ _ _ l => l < s.nextLogger

def KeepsFormatters (s : LoggerMgr) : Call → Prop
  | .act a => a.keepsFormatter s
  | .log _ _ _ _ => True

instance (s : LoggerMgr) : ∀ c : Call, Decidable (s.SetsUp c)
  | .act a => inferInstanceAs (Decidable (a.valid s ∧ a.loggerFormats))
  | .log _ _ _ l => inferInstanceAs (Decidable (l < s.nextLogger))

instance (s : LoggerMgr) : ∀ c : Call, Decidable (s.KeepsFormatters c)
  | .act a => inferInstanceAs (Decidable (a.keepsFormatter s))
  | .log _ _ _ _ => inferInstanceAs (Decidable True)

theorem Usable.call {c : Call} (hs : Usable s) (hg : s.SetsUp c) (hk : s.KeepsFormatters c)
    (h : s.call c = some s') : Usable s' := by
  cases c with
  | act a => exact hs.act hg.1 hg.2 hk h
  | log io level event l => exact (hs.log hg h).1

theorem Usable.logs (hs : Usable s) : Logs s := by
  intro io level event l hl
  constructor
  · intro a ha
    obtain ⟨l', hmem, -⟩ := receivers_accept ha
    exact hs.ready.appenderFormatter l' a hmem
  · obtain ⟨s', hlog, -⟩ := hs.ready.log io level event hl
    exact ⟨s', hlog⟩

theorem level_le_fatal (level : LogLevel) : level ≤ .fatal := by
  cases level <;> decide

section
variable (io : LogIo) (event : LogEvent)

theorem logTo_null (h : (s.appenders a).mFormatter = none) :
    s.logTo io .fatal event a = none := by
  simp only [logTo, LogAppender.log, level_le_fatal, if_true, h, Option.map_none]
  split <;> rfl

/-- Whatever stands before it in the list, the loop of `Log` comes to the appender. -/
theorem logTo_all_null {as : List AppenderId} (ha : a ∈ as)
    (h : (s.appenders a).mFormatter = none) : as.foldlM (logTo io .fatal event) s = none := by
  induction as generalizing s with
  | nil => cases ha
  | cons b as ih =>
    rw [List.foldlM_cons]
    by_cases hb : (s.appenders b).mFormatter = none
    · rw [logTo_null io event hb]
      rfl
    · obtain ⟨s₁, hone, hlogged, -⟩ := logTo_spec io .fatal event hb
      have hne : a ≠ b := fun hab => hb (hab ▸ h)
      rw [hone]
      exact ih ((List.mem_cons.1 ha).resolve_left hne) ((hlogged.formatter a).trans h)

theorem log_null (hl : l < s.nextLogger) (ha : a ∈ (s.loggers l).mAppenderList)
    (h : (s.appenders a).mFormatter = none) : s.log io .fatal event l = none := by
  obtain ⟨fuel, hfuel⟩ := Nat.exists_eq_add_one_of_ne_zero (Nat.ne_zero_of_lt hl)
  rw [log, hfuel, logAt, if_pos (level_le_fatal _)]
  split
  · rename_i hempty _
    rw [hempty] at ha
    cases ha
  · exact logTo_all_null io event ha h

end

/-- `SetFormatter` with a null pointer leaves an appender in a list without any formatter. -/
theorem setAppenderFormatter_null {act : Act}
    (hk : ¬ act.keepsFormatter s) (h : s.step act = some s') :
    ∃ l < s'.nextLogger, ∃ a ∈ (s'.loggers l).mAppenderList, (s'.appenders a).mFormatter = none := by
  cases act with
  | setAppenderFormatter a val =>
    cases val with
    | none =>
      cases h
      simp only [Act.keepsFormatter, not_forall, Decidable.not_not] at hk
      obtain ⟨l, hl, ha⟩ := hk
      apply Exists.intro l
      constructor
      · exact hl
      · apply Exists.intro a
        constructor
        · exact ha
        · rw [setAppender_appenders, Function.update_self]
          rfl
    | some text => exact absurd trivial hk
  | _ => exact absurd trivial hk

/-- Logging finds a formatter in every appender as long as no appender in a list is told to have
none; the first call that does so leaves a logger whose next event ends in a null pointer. -/
theorem logging_never_null (out : Output) :
    (∀ s, Reach call (fun s c => s.SetsUp c ∧ s.KeepsFormatters c) (fresh out) s → Logs s) ∧
    ∀ s c s', Reach call (fun s c => s.SetsUp c ∧ s.KeepsFormatters c) (fresh out) s →
      s.SetsUp c → s.call c = some s' → ¬ s.KeepsFormatters c →
      ∃ l < s'.nextLogger, ∃ a ∈ s'.receivers .fatal l, (s'.appenders a).mFormatter = none ∧
        ∀ io event, s'.log io .fatal event l = none := by
  have husable {s : LoggerMgr}
      (hr : Reach call (fun s c => s.SetsUp c ∧ s.KeepsFormatters c) (fresh out) s) : Usable s :=
    hr.invariant (fresh_usable out) fun hs hg ht => hs.call hg.1 hg.2 ht
  constructor
  · intro s hr
    exact (husable hr).logs
  · intro s c s' _ _ ht hk
    cases c with
    | act act =>
      obtain ⟨l, hl, a, ha, hnull⟩ := setAppenderFormatter_null hk ht
      apply Exists.intro l
      constructor
      · exact hl
      · apply Exists.intro a
        constructor
        · exact mem_receivers ha (level_le_fatal _)
        · exact ⟨hnull, fun io event => log_null io event hl ha hnull⟩
    | log => exact absurd trivial hk

/-- An appender loses its formatter while no logger has it, and gets one when it comes back. -/
theorem logging_never_null_detached : ∃ s,
    Reach call (fun s c => s.SetsUp c ∧ s.KeepsFormatters c) (fresh ⟨fun _ => "", ""⟩) s ∧
    s.receivers .info 0 = [0] ∧ ∀ io event, ∃ s', s.log io .info event 0 = some s' := by
  obtain ⟨s, hr, hp⟩ := Reach.of_exec_map call (fun s c => s.SetsUp c ∧ s.KeepsFormatters c)
    (fresh ⟨fun _ => "", ""⟩)
    [.act (.delAppender 0 0), .act (.setAppenderFormatter 0 none), .act (.addAppender 0 0)]
    (fun s => decide (s.receivers .info 0 = [0] ∧ 0 < s.nextLogger)) (by decide)
  obtain ⟨hreceivers, hl⟩ := of_decide_eq_true hp
  apply Exists.intro s
  constructor
  · exact hr
  · exact ⟨hreceivers, fun io event => ((logging_never_null _).1 s hr io .info event 0 hl).2⟩

/-- The appender of the root logger is told to have no formatter of its own. -/
theorem logging_finds_null : ∃ s, Reach call SetsUp (fresh ⟨fun _ => "", ""⟩) s ∧ ¬ Logs s ∧
    ∀ io event, s.log io .fatal event 0 = none := by
  apply Exists.intro ((fresh ⟨fun _ => "", ""⟩).setAppender 0
    (((fresh ⟨fun _ => "", ""⟩).appenders 0).setFormatter none))
  constructor
  · exact .tail .refl (a := .act (.setAppenderFormatter 0 none)) (by decide) rfl
  · constructor
    · intro hlogs
      exact (hlogs ⟨fun _ _ => "", fun _ => ⟨true, true⟩⟩ .fatal
        ⟨"", 0, 0, 0, 0, 0, "", "", 0, .fatal⟩ 0 (by decide)).1 0 (by decide) rfl
    · intro io event
      exact log_null (a := 0) io event (by decide) (by decide) rfl

end LoggerMgr
end SvrFrame
