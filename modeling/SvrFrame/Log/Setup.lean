import SvrFrame.Library.Machine
import SvrFrame.Log.Listener

namespace SvrFrame
namespace LogConfig
open Library
set_option autoImplicit true

/-- Every definition of an update has appenders of the two kinds. -/
def Act.Typed : Act → Prop
  | .setValue val _ => ∀ i ∈ val.elems, i.Typed
  | .getLogger _ | .log _ _ _ _ => True

instance : ∀ a : Act, Decidable a.Typed
  | .setValue _ _ => inferInstanceAs (Decidable (∀ i ∈ _, _))
  | .getLogger _ | .log _ _ _ _ => inferInstanceAs (Decidable True)

def Act.value? : Act → Option LogDefines
  | .setValue val _ => some val
  | .getLogger _ | .log _ _ _ _ => none

def values (acts : List Act) : List LogDefines := acts.filterMap Act.value?

/-! ### The setup that a sequence of values leads to -/

def current (vals : List LogDefines) : LogDefines := vals.getLastD OrdSet.empty

/-- Some value has had a definition of the logger. -/
def Named (vals : List LogDefines) (name : String) : Prop := ∃ val ∈ vals, val.find? name ≠ none

/-- The last valid formatter that a definition has given the logger. -/
def lastPattern (vals : List LogDefines) (name : String) : Option String :=
  vals.foldl (fun old val => (val.find? name).elim old fun i => i.pattern old)
    (some Logger.defaultFormatter.mPattern)

/-- A logger before any value has named it. -/
def unnamed (name : String) : LoggerView :=
  if name = "root" then
    ⟨.info, some Logger.defaultFormatter.mPattern,
      [⟨none, .debug, none, some Logger.defaultFormatter.mPattern⟩]⟩
  else .new

instance (vals : List LogDefines) (name : String) : Decidable (Named vals name) :=
  inferInstanceAs (Decidable (∃ val ∈ vals, _))

def setup (vals : List LogDefines) (name : String) : LoggerView :=
  match (current vals).find? name with
  | some i => ⟨i.level, lastPattern vals name,
      i.appenders.map (LogAppenderDefine.view (lastPattern vals name))⟩
  | none => if Named vals name then ⟨.unknow, lastPattern vals name, []⟩ else unnamed name

@[simp] theorem current_concat (vals : List LogDefines) (val : LogDefines) :
    current (vals ++ [val]) = val := List.getLastD_concat

theorem lastPattern_concat (vals : List LogDefines) (val : LogDefines) (name : String) :
    lastPattern (vals ++ [val]) name =
      (val.find? name).elim (lastPattern vals name) fun i => i.pattern (lastPattern vals name) := by
  rw [lastPattern, List.foldl_concat]
  rfl

theorem named_concat : Named (vals ++ [val]) name ↔ Named vals name ∨ val.find? name ≠ none := by
  simp only [Named, List.mem_append, List.mem_singleton, or_and_right, exists_or, exists_eq_left]

theorem Named.of_current (h : (current vals).find? name ≠ none) : Named vals name := by
  induction vals using List.reverseRecOn with
  | nil => exact absurd rfl h
  | append_singleton vals val =>
    rw [current_concat] at h
    exact named_concat.2 (.inr h)

/-- Applying a definition once more does not change the pattern. -/
theorem lastPattern_current (h : (current vals).find? name = some i) :
    i.pattern (lastPattern vals name) = lastPattern vals name := by
  induction vals using List.reverseRecOn with
  | nil => cases h
  | append_singleton vals val =>
    rw [current_concat] at h
    rw [lastPattern_concat, h]
    simp only [Option.elim, LogDefine.pattern]
    split <;> rfl

theorem lastPattern_of_not_named (h : ¬ Named vals name) :
    lastPattern vals name = some Logger.defaultFormatter.mPattern := by
  induction vals using List.reverseRecOn with
  | nil => rfl
  | append_singleton vals val ih =>
    rw [named_concat, not_or, not_not] at h
    rw [lastPattern_concat, h.2]
    exact ih h.1

theorem unnamed_pattern (name : String) :
    (unnamed name).pattern = some Logger.defaultFormatter.mPattern := by
  rw [unnamed]
  split <;> rfl

theorem setup_pattern (vals : List LogDefines) (name : String) :
    (setup vals name).pattern = lastPattern vals name := by
  rw [setup]
  split
  · rfl
  · split
    · rfl
    · rename_i h
      rw [unnamed_pattern, lastPattern_of_not_named h]

/-- One more value changes the setup as the listener changes the loggers. -/
theorem setup_concat (vals : List LogDefines) (val : LogDefines) (name : String) :
    setup (vals ++ [val]) name =
      (setup vals name).update ((current vals).find? name) (val.find? name) := by
  cases hnew : val.find? name with
  | some i =>
    have hpattern : lastPattern (vals ++ [val]) name = i.pattern (lastPattern vals name) := by
      rw [lastPattern_concat, hnew]
      rfl
    by_cases h : (current vals).find? name = some i
    · rw [h, LoggerView.update_self, setup, setup, current_concat, hnew, h, hpattern,
        lastPattern_current h]
    · rw [LoggerView.update_some h, LogDefine.applyTo, setup_pattern, setup, current_concat, hnew,
        hpattern]
  | none =>
    have hpattern : lastPattern (vals ++ [val]) name = lastPattern vals name := by
      rw [lastPattern_concat, hnew]
      rfl
    have hnamed : Named (vals ++ [val]) name ↔ Named vals name := by
      rw [named_concat, hnew]
      simp
    simp only [setup, current_concat, hnew, hpattern, hnamed, LoggerView.update]
    cases hold : (current vals).find? name with
    | none => rfl
    | some i =>
      rw [if_pos (Named.of_current (by rw [hold]; exact fun h => by cases h))]
      simp [LoggerView.deleted]

/-! ### The loggers follow the setup -/

/-- What holds after a sequence of updates. -/
structure Follows (acts : List Act) (c : LogConfig) : Prop where
  value : c.mVal = current (values acts)
  separate : c.mgr.Separate
  view : ∀ name, c.mgr.view name = setup (values acts) name

theorem fresh_follows (out : Output) : Follows [] (fresh out) := by
  refine ⟨rfl, LoggerMgr.fresh_separate out, ?_⟩
  intro name
  by_cases h : name = "root"
  · rw [h]
    rfl
  · have hfind : (LoggerMgr.fresh out).findLogger name = none := by
      have hnone : (OrdSet.empty.insert ("root", 0) : LoggerMap).find? name = none :=
        OrdSet.find?_insert_other fun hname => h hname.symm
      exact Option.map_eq_none_iff.2 hnone
    have hsetup : setup (values []) name = .new := if_neg h
    rw [hsetup]
    simp only [fresh, LoggerMgr.view, hfind]

theorem Follows.step {c : LogConfig} (hc : Follows acts c) (ha : a.Typed) :
    ∃ c', step c a = some c' ∧ Follows (acts ++ [a]) c' := by
  cases a with
  | setValue val birth =>
    obtain ⟨c', hrun, hval, hquiet, hview⟩ := setValue_spec hc.separate birth ha
    have hvalues : values (acts ++ [.setValue val birth]) = values acts ++ [val] :=
      List.filterMap_append
    refine ⟨c', hrun, ?_, hquiet.separate, fun name => ?_⟩
    · rw [hval, hvalues, current_concat]
    · rw [hview, hvalues, setup_concat, hc.view, hc.value]
  | getLogger name =>
    have hvalues : values (acts ++ [.getLogger name]) = values acts := by simp [values, Act.value?]
    obtain ⟨hs, -, hview⟩ := LoggerMgr.getLogger_spec hc.separate name
    refine ⟨_, rfl, ?_, hs, fun name => ?_⟩
    · rw [hvalues]; exact hc.value
    · rw [hvalues]; exact (hview name).trans (hc.view name)
  | log io level event name =>
    have hvalues : values (acts ++ [.log io level event name]) = values acts := by
      simp [values, Act.value?]
    obtain ⟨c', hrun, hval, hlogged, -⟩ := log_spec hc.separate io level event name
    obtain ⟨hs, -, hview⟩ := LoggerMgr.getLogger_spec hc.separate name
    refine ⟨c', hrun, ?_, hlogged.separate hs, fun name => ?_⟩
    · rw [hval, hvalues]; exact hc.value
    · rw [hlogged.view_name, hview, hvalues]; exact hc.view name

theorem Follows.run {c : LogConfig} (hc : Follows acts c) (more : List Act)
    (ha : ∀ a ∈ more, a.Typed) :
    ∃ c', runAll LogConfig.step c more = some c' ∧ Follows (acts ++ more) c' := by
  refine runAll_history (I := fun more c => Follows (acts ++ more) c) ?_ (fun hc ha => ?_) more ha
  · rw [List.append_nil]
    exact hc
  · rw [← List.append_assoc]
    exact hc.step ha

/-- Every sequence of updates succeeds and leads to the setup of its values. -/
theorem run_follows (out : Output) (acts : List Act) (ha : ∀ a ∈ acts, a.Typed) :
    ∃ c, runAll step (fresh out) acts = some c ∧ Follows acts c :=
  (fresh_follows out).run acts ha

/-- A definition of the current value has its logger and its appenders. -/
theorem Follows.live_view {c : LogConfig} {i : LogDefine} {a : LogAppenderDefine} {j : Nat}
    (hc : Follows acts c) (hi : c.mVal.find? i.name = some i)
    (ha : i.appenders[j]? = some a) : ∃ l ap, c.mgr.findLogger i.name = some l ∧
      (c.mgr.loggers l).mLevel = i.level ∧
      c.mgr.pattern l = lastPattern (values acts) i.name ∧
      (c.mgr.loggers l).mAppenderList[j]? = some ap ∧
      (c.mgr.appenders ap).view = a.view (lastPattern (values acts) i.name) := by
  have hview := hc.view i.name
  rw [setup, ← hc.value, hi] at hview
  cases hl : c.mgr.findLogger i.name with
  | none =>
    rw [LoggerMgr.view, hl] at hview
    have hnil : i.appenders = [] :=
      List.map_eq_nil_iff.1 (congrArg LoggerView.appenders hview).symm
    rw [hnil] at ha
    cases ha
  | some l =>
    rw [LoggerMgr.view_eq hl] at hview
    have hlist := congrArg (fun v => v.appenders[j]?) hview
    simp only [LoggerMgr.viewAt, List.getElem?_map, ha, Option.map_some] at hlist
    obtain ⟨ap, hap, happ⟩ := Option.map_eq_some_iff.1 hlist
    exact ⟨l, ap, rfl, congrArg LoggerView.level hview, congrArg LoggerView.pattern hview, hap,
      happ⟩

/-- After each update, the loggers of the current value have the level of their definition and one
appender for each of its own, in order; those that only earlier values have named are off. -/
theorem loggers_track_config (out : Output) (acts : List Act) (ha : ∀ a ∈ acts, a.Typed) :
    ∃ c, runAll step (fresh out) acts = some c ∧ c.mVal = current (values acts) ∧
      (∀ i ∈ c.mVal.elems, (c.mgr.view i.name).level = i.level ∧
        (c.mgr.view i.name).appenders.map (fun x => (x.file, x.level)) =
          i.appenders.map fun a => (if a.type = 1 then some a.file else none, a.level)) ∧
      ∀ name, Named (values acts) name → c.mVal.find? name = none →
        (c.mgr.view name).level = .unknow ∧ (c.mgr.view name).appenders = [] := by
  obtain ⟨c, hrun, hc⟩ := run_follows out acts ha
  refine ⟨c, hrun, hc.value, fun i hi => ?_, fun name hname hnone => ?_⟩
  · have hfind : (current (values acts)).find? i.name = some i :=
      hc.value ▸ OrdSet.find?_isSome hi
    rw [hc.view, setup, hfind]
    refine ⟨rfl, ?_⟩
    rw [List.map_map]
    rfl
  · rw [hc.value] at hnone
    rw [hc.view, setup, hnone]
    simp only [if_pos hname, and_self]

def fileDefine (level : LogLevel) (formatter : String) : LogDefines :=
  OrdSet.empty.insert ⟨"system", level, formatter, [⟨1, .error, "", "system.txt"⟩]⟩

def update (val : LogDefines) : Act := .setValue val fun _ => ⟨0, true⟩

theorem loggers_track_config_two_updates :
    ∃ c, runAll step (fresh ⟨fun _ => "", ""⟩)
        [update (fileDefine .warn ""), update OrdSet.empty] = some c ∧
      (c.mgr.view "system").level = .unknow ∧ (c.mgr.view "system").appenders = [] := by
  obtain ⟨c, hrun, hval, -, hoff⟩ := loggers_track_config ⟨fun _ => "", ""⟩
    [update (fileDefine .warn ""), update OrdSet.empty] (by decide)
  exact ⟨c, hrun, hoff "system" (by decide) (by rw [hval]; rfl)⟩

/-! ### What an earlier configuration leaves behind -/

/-- A logger without the patterns that it may have kept. -/
def bare (v : LoggerView) : LogLevel × List (Option String × LogLevel × Option String) :=
  (v.level, v.appenders.map fun x => (x.file, x.level, x.own))

/-- Both sequences have named the logger, or neither has, unless their value has a definition. -/
def Alike (vals vals' : List LogDefines) (name : String) : Prop :=
  (current vals).find? name ≠ none ∨ (Named vals name ↔ Named vals' name)

instance (vals vals' : List LogDefines) (name : String) : Decidable (Alike vals vals' name) :=
  inferInstanceAs (Decidable (_ ∨ _))

theorem unnamed_level (name : String) : (unnamed name).level = .info := by
  rw [unnamed]
  split <;> rfl

theorem setup_bare_iff (h : current vals = current vals') (name : String) :
    bare (setup vals name) = bare (setup vals' name) ↔ Alike vals vals' name := by
  rw [Alike, setup, setup, ← h]
  cases (current vals).find? name with
  | some i => simp [bare, LogAppenderDefine.view]
  | none =>
    have hlevel := unnamed_level name
    by_cases hn : Named vals name <;> by_cases hn' : Named vals' name <;>
      simp [hn, hn', bare, hlevel]

theorem setup_eq_iff (h : current vals = current vals') (name : String) :
    setup vals name = setup vals' name ↔
      Alike vals vals' name ∧ lastPattern vals name = lastPattern vals' name := by
  constructor
  · intro heq
    rw [← setup_bare_iff h, heq, ← setup_pattern, heq, setup_pattern]
    exact ⟨rfl, rfl⟩
  · rintro ⟨halike, hpattern⟩
    rw [setup, setup, ← h, hpattern]
    cases hfind : (current vals).find? name with
    | some i => rfl
    | none =>
      rw [Alike, hfind] at halike
      simp only [halike.resolve_left fun h => h rfl]

/-- Two sequences of updates that end in one value leave a logger with the same level, pattern
and appenders if and only if the value has a definition of it or both or neither have named it,
and the last valid formatter they have given it is the same; the first condition alone decides on
the level and on the kind, file, level and own formatter of the appenders. -/
theorem setup_agrees_iff (out out' : Output) (acts acts' : List Act) (ha : ∀ a ∈ acts, a.Typed)
    (ha' : ∀ a ∈ acts', a.Typed) (h : current (values acts) = current (values acts')) :
    ∃ c c', runAll step (fresh out) acts = some c ∧ runAll step (fresh out') acts' = some c' ∧
      ∀ name, (c.mgr.view name = c'.mgr.view name ↔ Alike (values acts) (values acts') name ∧
          lastPattern (values acts) name = lastPattern (values acts') name) ∧
        (bare (c.mgr.view name) = bare (c'.mgr.view name) ↔
          Alike (values acts) (values acts') name) := by
  obtain ⟨c, hrun, hc⟩ := run_follows out acts ha
  obtain ⟨c', hrun', hc'⟩ := run_follows out' acts' ha'
  refine ⟨c, c', hrun, hrun', ?_⟩
  intro name
  rw [hc.view, hc'.view]
  exact ⟨setup_eq_iff h name, setup_bare_iff h name⟩

theorem setup_agrees_level_change : ∃ c c',
    runAll step (fresh ⟨fun _ => "", ""⟩)
        [update (fileDefine .warn ""), update (fileDefine .info "")] = some c ∧
      runAll step (fresh ⟨fun _ => "", ""⟩) [update (fileDefine .info "")] = some c' ∧
      c.mgr.view "system" = c'.mgr.view "system" := by
  obtain ⟨c, c', hrun, hrun', hview⟩ := setup_agrees_iff ⟨fun _ => "", ""⟩ ⟨fun _ => "", ""⟩
    [update (fileDefine .warn ""), update (fileDefine .info "")] [update (fileDefine .info "")]
    (by decide) (by decide) (by decide)
  exact ⟨c, c', hrun, hrun', (hview "system").1.2 (by decide)⟩

/-- A removed logger keeps the level that turns it off, and a formatter that the definition no
longer has stays in use. -/
theorem earlier_values_leave_traces :
    (∃ c c', runAll step (fresh ⟨fun _ => "", ""⟩)
        [update (fileDefine .warn ""), update OrdSet.empty] = some c ∧
      runAll step (fresh ⟨fun _ => "", ""⟩) [update OrdSet.empty] = some c' ∧ c.mVal = c'.mVal ∧
      (c.mgr.view "system").level = .unknow ∧ (c'.mgr.view "system").level = .info) ∧
    ∃ c c', runAll step (fresh ⟨fun _ => "", ""⟩)
        [update (fileDefine .warn "%m%n"), update (fileDefine .warn "")] = some c ∧
      runAll step (fresh ⟨fun _ => "", ""⟩) [update (fileDefine .warn "")] = some c' ∧
      c.mVal = c'.mVal ∧ (c.mgr.view "system").pattern = some "%m%n" ∧
      (c'.mgr.view "system").pattern = some Logger.defaultFormatter.mPattern := by
  have hrun (acts : List Act) (ha : ∀ a ∈ acts, a.Typed) := run_follows ⟨fun _ => "", ""⟩ acts ha
  obtain ⟨empty, hempty, hcEmpty⟩ := hrun [update OrdSet.empty] (by decide)
  obtain ⟨gone, hgone, hcGone⟩ := hrun [update (fileDefine .warn ""), update OrdSet.empty]
    (by decide)
  obtain ⟨plain, hplain, hcPlain⟩ := hrun [update (fileDefine .warn "")] (by decide)
  obtain ⟨kept, hkept, hcKept⟩ := hrun
    [update (fileDefine .warn "%m%n"), update (fileDefine .warn "")] (by decide)
  refine ⟨⟨gone, empty, hgone, hempty, ?_, ?_, ?_⟩, kept, plain, hkept, hplain, ?_, ?_, ?_⟩
  · rw [hcGone.value, hcEmpty.value]; rfl
  · rw [hcGone.view]; decide
  · rw [hcEmpty.view]; decide
  · rw [hcKept.value, hcPlain.value]; rfl
  · rw [hcKept.view]; decide
  · rw [hcPlain.view]; decide

end LogConfig
end SvrFrame
