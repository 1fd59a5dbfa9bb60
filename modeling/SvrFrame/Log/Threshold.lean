import SvrFrame.Config.Codec
import SvrFrame.Config.Load
import SvrFrame.Log.Setup

namespace SvrFrame
open Library
set_option autoImplicit true

/-! ### What the decoder keeps of an appender -/

def LogAppenderDefine.accepts (y : YamlCpp) (apd : Option Node) : Bool :=
  match LogAppenderDefine.decode y apd with
  | .ok (some _) => true
  | _ => false

/-- The nodes of a logger definition that become its appenders. -/
def LogDefine.appenderNodes (y : YamlCpp) (n : Node) : List (Option Node) :=
  match n.get "appenders" with
  | .ok (some apds) => (y.children apds).filter (LogAppenderDefine.accepts y)
  | _ => []

/-- Whatever the node says, the definition has no level. -/
theorem LogAppenderDefine.decode_ok (h : LogAppenderDefine.decode y apd = .ok (some a)) :
    a.Typed ∧ a.level = .unknow := by
  obtain ⟨type, -, h⟩ := bind_eq_ok.1 h
  split at h
  · cases h
  · obtain ⟨file, -, h⟩ := bind_eq_ok.1 h
    split at h
    · cases h
    · obtain ⟨fmt, -, h⟩ := bind_eq_ok.1 h
      cases h
      exact ⟨.inl rfl, rfl⟩
  · obtain ⟨fmt, -, h⟩ := bind_eq_ok.1 h
    cases h
    exact ⟨.inr rfl, rfl⟩
  · cases h

theorem decodeAppenders_ok (h : decodeAppenders y apds = .ok as) :
    List.Forall₂ (fun apd a => LogAppenderDefine.decode y apd = .ok (some a))
      (apds.filter (LogAppenderDefine.accepts y)) as := by
  induction apds generalizing as with
  | nil =>
    cases h
    exact .nil
  | cons apd apds ih =>
    obtain ⟨a, ha, h⟩ := bind_eq_ok.1 h
    obtain ⟨as', has, h⟩ := bind_eq_ok.1 h
    cases h
    cases a with
    | none =>
      rw [List.filter_cons_of_neg (by simp [LogAppenderDefine.accepts, ha])]
      exact ih has
    | some a =>
      rw [List.filter_cons_of_pos (by simp [LogAppenderDefine.accepts, ha])]
      exact .cons ha (ih has)

theorem LogDefine.decodeNode_ok (h : LogDefine.decodeNode y n = .ok i) :
    List.Forall₂ (fun apd a => LogAppenderDefine.decode y apd = .ok (some a))
      (LogDefine.appenderNodes y n) i.appenders := by
  obtain ⟨name, -, h⟩ := bind_eq_ok.1 h
  split at h
  · cases h
  · obtain ⟨level, -, h⟩ := bind_eq_ok.1 h
    obtain ⟨formatter, -, h⟩ := bind_eq_ok.1 h
    obtain ⟨apds, hget, h⟩ := bind_eq_ok.1 h
    simp only [LogDefine.appenderNodes, hget]
    cases apds with
    | none =>
      cases h
      exact .nil
    | some apds =>
      obtain ⟨as, has, h⟩ := bind_eq_ok.1 h
      cases h
      exact decodeAppenders_ok has

theorem LogDefine.decode_typed (h : LogDefine.decode y str = .ok i) : i.Typed := by
  obtain ⟨n, -, h⟩ := bind_eq_ok.1 h
  intro a ha
  obtain ⟨apd, -, hdecode⟩ := Config.forall₂_mem_right (decodeNode_ok h) ha
  exact (LogAppenderDefine.decode_ok hdecode).1

namespace LogConfig

/-- `CfgVar::FromString` of `g_log_defines`, which catches what the decoder throws. -/
def fromString (y : YamlCpp) (birth : AppenderId → FileBirth) (val : String) (c : LogConfig) :
    Option LogConfig :=
  match Config.decodeSet y LogDefine.name (LogDefine.decode y) val with
  | .ok val => c.setValue birth val
  | .error _ => some c

/-- No other variable has to do with the loggers. -/
def lookUpBase (y : YamlCpp) (birth : AppenderId → FileBirth) (name : String) :
    Option (String → LogConfig → Option LogConfig) :=
  if name = "logs" then some (fromString y birth) else none

def loadFromYaml (y : YamlCpp) (birth : AppenderId → FileBirth) (root : Node) (c : LogConfig) :
    Option LogConfig :=
  Config.loadFromYaml y (lookUpBase y birth) root c

/-- The `logs` entries that are accepted, and their values. -/
def accepted (y : YamlCpp) (root : Node) : List (String × LogDefines) :=
  (Config.listAllMember "" root).filterMap fun i =>
    if Config.toLower i.1 = "logs" then
      match Config.decodeSet y LogDefine.name (LogDefine.decode y) (Config.memberText y i.2) with
      | .ok val => some (Config.memberText y i.2, val)
      | .error _ => none
    else none

def updates (y : YamlCpp) (birth : AppenderId → FileBirth) (root : Node) : List Act :=
  (accepted y root).map fun e => .setValue e.2 birth

/-- Loading a document is one update after another. -/
theorem loadFromYaml_eq (y : YamlCpp) (birth : AppenderId → FileBirth) (root : Node)
    (c : LogConfig) : loadFromYaml y birth root c = runAll step c (updates y birth root) := by
  rw [loadFromYaml, Config.loadFromYaml, updates, accepted]
  induction Config.listAllMember "" root generalizing c with
  | nil => rfl
  | cons i is ih =>
    rw [List.foldlM_cons, List.filterMap_cons]
    by_cases hlogs : Config.toLower i.1 = "logs"
    · have hname : i.1 ≠ "" := fun h => by rw [h] at hlogs; exact absurd hlogs (by decide)
      simp only [if_neg hname, lookUpBase, if_pos hlogs, fromString]
      cases Config.decodeSet y LogDefine.name (LogDefine.decode y)
          (Config.memberText y i.2) with
      | error e => exact ih c
      | ok val =>
        simp only [List.map_cons, runAll, step]
        exact bind_congr fun c' => ih c'
    · simp only [lookUpBase, if_neg hlogs, ite_self]
      exact ih c

theorem accepted_ok (h : e ∈ accepted y root) :
    Config.decodeSet y LogDefine.name (LogDefine.decode y) e.1 = .ok e.2 := by
  obtain ⟨i, -, hi⟩ := List.mem_filterMap.1 h
  split at hi
  · split at hi
    · rename_i hval
      cases hi
      exact hval
    · cases hi
  · cases hi

theorem updates_typed : ∀ a ∈ updates y birth root, a.Typed := by
  intro a ha
  obtain ⟨e, he, rfl⟩ := List.mem_map.1 ha
  obtain ⟨node, ds, -, hds, hset⟩ := Config.decodeSet_ok (accepted_ok he)
  intro d hd
  have hfind := OrdSet.find?_isSome hd
  rw [hset, OrdSet.find?_foldl_insert] at hfind
  obtain ⟨n, -, hn⟩ := Config.forall₂_mem_right hds (List.mem_of_find?_eq_some hfind)
  exact LogDefine.decode_typed hn

theorem values_updates (acts : List Act) (y : YamlCpp) (birth : AppenderId → FileBirth)
    (root : Node) : values (acts ++ updates y birth root) =
      values acts ++ (accepted y root).map Prod.snd := by
  rw [values, List.filterMap_append, updates, List.filterMap_map]
  exact congrArg _ (congrFun List.filterMap_eq_map' _)

theorem loadFromYaml_follows {c : LogConfig} (hc : Follows acts c) (y : YamlCpp)
    (birth : AppenderId → FileBirth) (root : Node) : ∃ c', loadFromYaml y birth root c = some c' ∧
      Follows (acts ++ updates y birth root) c' := by
  rw [loadFromYaml_eq]
  exact hc.run _ updates_typed

/-- The node is the accepted appender node `j` in the first definition of logger `i`. The definition
stands in the last `logs` entry of the document that is accepted. -/
def Entry (y : YamlCpp) (root : Node) (i : LogDefine) (j : Nat) (apd : Option Node) : Prop :=
  ∃ e entry ns n ns', (accepted y root).getLast? = some e ∧ y.load e.1 = .ok entry ∧
    y.children entry = ns ++ some n :: ns' ∧ LogDefine.decodeNode y n = .ok i ∧
    (∀ m ∈ ns, ∀ d, LogDefine.decode y (y.write m) = .ok d → d.name ≠ i.name) ∧
    (LogDefine.appenderNodes y n)[j]? = some apd

/-- The live definition has an appender for the node. -/
theorem Entry.define (hy : y.Faithful) (h : Entry y root i j apd) :
    ∃ e a, (accepted y root).getLast? = some e ∧ e.2.find? i.name = some i ∧
      i.appenders[j]? = some a ∧ LogAppenderDefine.decode y apd = .ok (some a) := by
  obtain ⟨e, entry, ns, n, ns', hlast, hload, hchildren, hi, hfirst, hapd⟩ := h
  obtain ⟨a, ha, hdecode⟩ := Config.forall₂_getElem? (LogDefine.decodeNode_ok hi) hapd
  refine ⟨e, a, hlast, ?_, ha, hdecode⟩
  have hval := accepted_ok (List.mem_of_getLast? hlast)
  obtain ⟨node, ds, hload', hds, hset⟩ := Config.decodeSet_ok hval
  cases hload.symm.trans hload'
  rw [hchildren] at hds
  rw [hset, OrdSet.find?_foldl_insert]
  refine Config.forall₂_find? hds _ (fun d hd => ?_) (by simp) fun m hm d hd => ?_
  · rw [YamlCpp.write, LogDefine.decode, hy] at hd
    exact Except.ok.inj (hd.symm.trans hi)
  · simpa using hfirst m hm d hd

/-- Once the document has been loaded, the node has its appender. -/
theorem Entry.live {c₀ : LogConfig} (hy : y.Faithful) (hc₀ : Follows acts c₀)
    (birth : AppenderId → FileBirth) (h : Entry y root i j apd) :
    ∃ c a l ap, loadFromYaml y birth root c₀ = some c ∧
      Follows (acts ++ updates y birth root) c ∧
      LogAppenderDefine.decode y apd = .ok (some a) ∧
      c.mgr.findLogger i.name = some l ∧ (c.mgr.loggers l).mLevel = i.level ∧
      c.mgr.pattern l = lastPattern (values acts ++ (accepted y root).map Prod.snd) i.name ∧
      (c.mgr.loggers l).mAppenderList[j]? = some ap ∧ (c.mgr.appenders ap).view =
        a.view (lastPattern (values acts ++ (accepted y root).map Prod.snd) i.name) := by
  obtain ⟨c, hload, hc⟩ := loadFromYaml_follows hc₀ y birth root
  obtain ⟨e, a, hlast, hi, ha, hdecode⟩ := h.define hy
  have hval : c.mVal = e.2 := by
    obtain ⟨before, hbefore⟩ := List.getLast?_eq_some_iff.1 hlast
    rw [hc.value, values_updates, hbefore, List.map_append, ← List.append_assoc]
    exact current_concat _ _
  obtain ⟨l, ap, hl, hlevel, hpattern, hap, hview⟩ := hc.live_view (hval ▸ hi) ha
  rw [values_updates] at hpattern hview
  exact ⟨c, a, l, ap, hload, hc, hdecode, hl, hlevel, hpattern, hap, hview⟩

/-- The accepted appender node `j` in the first definition of logger `i` has a level that is
recognised. The definition stands in the last `logs` entry of the document that is accepted. -/
def Configures (y : YamlCpp) (root : Node) (i : LogDefine) (j : Nat) (level : LogLevel) : Prop :=
  ∃ e entry ns n ns' apd text, (accepted y root).getLast? = some e ∧ y.load e.1 = .ok entry ∧
    y.children entry = ns ++ some n :: ns' ∧ LogDefine.decodeNode y n = .ok i ∧
    (∀ m ∈ ns, ∀ d, LogDefine.decode y (y.write m) = .ok d → d.name ≠ i.name) ∧
    (LogDefine.appenderNodes y n)[j]? = some apd ∧ y.field apd "level" = .ok (some text) ∧
    LogLevel.fromString text = level ∧ level ≠ .unknow

theorem Configures.entry (h : Configures y root i j level) : ∃ apd, Entry y root i j apd := by
  obtain ⟨e, entry, ns, n, ns', apd, -, hlast, hload, hchildren, hi, hfirst, hapd, -⟩ := h
  exact ⟨apd, e, entry, ns, n, ns', hlast, hload, hchildren, hi, hfirst, hapd⟩

/-! ### What a live appender writes -/

/-- An appender that has written nothing below a level since `old`, and that nothing will make
write below it. -/
structure Silent (bound : LogLevel) (ap : AppenderId) (old : List Record) (c : LogConfig) :
    Prop where
  separate : c.mgr.Separate
  guarded : c.mgr.Guarded ap bound
  written : ∃ new, c.mgr.written = old ++ new ∧ ∀ r ∈ new, r.appender = ap → bound ≤ r.level

theorem Silent.step {c : LogConfig} (hc : Silent bound ap old c) (ha : a.Typed) :
    ∃ c', step c a = some c' ∧ Silent bound ap old c' := by
  obtain ⟨new, hwritten, hnew⟩ := hc.written
  cases a with
  | setValue val birth =>
    obtain ⟨c', hrun, -, hquiet, -⟩ := setValue_spec hc.separate birth ha
    exact ⟨c', hrun, hquiet.separate, hquiet.guarded _ _ hc.guarded, new,
      hquiet.written.trans hwritten, hnew⟩
  | getLogger name =>
    obtain ⟨hs, -, -⟩ := LoggerMgr.getLogger_spec hc.separate name
    exact ⟨_, rfl, hs, LoggerMgr.getLogger_guarded hc.guarded name, new,
      (LoggerMgr.getLogger_written _ _).trans hwritten, hnew⟩
  | log io level event name =>
    obtain ⟨hs, -, -⟩ := LoggerMgr.getLogger_spec hc.separate name
    obtain ⟨c', hrun, -, hlogged, happend⟩ := log_spec hc.separate io level event name
    have hguarded := LoggerMgr.getLogger_guarded hc.guarded name
    rw [hwritten, List.append_assoc] at happend
    refine ⟨c', hrun, hlogged.separate hs, hlogged.guarded hguarded, _, happend, ?_⟩
    intro r hr
    rcases List.mem_append.1 hr with hr | hr
    · exact hnew r hr
    · exact hguarded.accepted hr

theorem Configures.live {c₀ : LogConfig} (hy : y.Faithful) (hc₀ : Follows acts c₀)
    (birth : AppenderId → FileBirth) (hconf : Configures y root i j level) :
    ∃ c l ap, loadFromYaml y birth root c₀ = some c ∧ c.mgr.Separate ∧
      c.mgr.findLogger i.name = some l ∧ (c.mgr.loggers l).mLevel = i.level ∧
      (c.mgr.loggers l).mAppenderList[j]? = some ap ∧ (c.mgr.appenders ap).mLevel = .unknow := by
  obtain ⟨apd, hentry⟩ := hconf.entry
  obtain ⟨c, a, l, ap, hload, hc, hdecode, hl, hlogger, -, hap, hview⟩ := hentry.live hy hc₀ birth
  have hlevel : (c.mgr.appenders ap).mLevel = a.level := congrArg AppenderView.level hview
  exact ⟨c, l, ap, hload, hc.separate, hl, hlogger, hap,
    hlevel.trans (LogAppenderDefine.decode_ok hdecode).2⟩

end LogConfig
end SvrFrame
