import SvrFrame.Library.Rely
import SvrFrame.Locking.Config
import SvrFrame.Log.Threshold
import Mathlib.Order.Filter.AtTopBot.Basic

namespace SvrFrame
open Library
set_option autoImplicit true

namespace LoggerMgr

/-- Whatever writes records has a formatter. -/
structure Formatted (s : LoggerMgr) : Prop where
  roots : Locking.RootFirst s
  loggers : ∀ l, (s.loggers l).mFormatter ≠ none
  listed : ∀ l, ∀ a ∈ (s.loggers l).mAppenderList, (s.appenders a).mFormatter ≠ none
  unborn : ∀ a, s.nextAppender ≤ a → (s.appenders a).mFormatter = none

/-- No appender is lost, nor the formatter of one. -/
structure Grows (s s' : LoggerMgr) : Prop where
  next : s.nextAppender ≤ s'.nextAppender
  formatter : ∀ a, (s.appenders a).mFormatter ≠ none → (s'.appenders a).mFormatter ≠ none

variable {s s' s'' : LoggerMgr}

theorem Grows.refl (s : LoggerMgr) : Grows s s := ⟨Nat.le_refl _, fun _ h => h⟩

theorem Grows.trans (h : Grows s s') (h' : Grows s' s'') : Grows s s'' :=
  ⟨Nat.le_trans h.next h'.next, fun a ha => h'.formatter a (h.formatter a ha)⟩

namespace Formatted

/-- An appender with a formatter has been constructed. -/
theorem born (h : Formatted s) (ha : (s.appenders a).mFormatter ≠ none) : a < s.nextAppender := by
  by_contra hlt
  exact ha (h.unborn a (Nat.le_of_not_lt hlt))

/-- Where the loggers and the appenders are left as they are. -/
theorem output (h : Formatted s) (out : Output) (written : List Record) :
    Formatted { s with out := out, written := written } ∧
      Grows s { s with out := out, written := written } :=
  ⟨⟨⟨⟨h.roots.rooted.known, h.roots.rooted.root, h.roots.rooted.leads⟩, h.roots.first⟩, h.loggers,
    h.listed, h.unborn⟩, ⟨Nat.le_refl _, fun _ ha => ha⟩⟩

/-- An appender keeps its formatter or, if it has been constructed, gets another one. -/
theorem setAppender (h : Formatted s) {x : LogAppender}
    (hx : x.mFormatter = (s.appenders a).mFormatter ∨ a < s.nextAppender ∧ x.mFormatter ≠ none) :
    Formatted (s.setAppender a x) ∧ Grows s (s.setAppender a x) := by
  have hkeep (b : AppenderId) (hb : (s.appenders b).mFormatter ≠ none) :
      ((s.setAppender a x).appenders b).mFormatter ≠ none := by
    by_cases hba : b = a
    · subst hba
      simp only [setAppender_appenders, Function.update_self]
      rcases hx with hx | ⟨-, hx⟩
      · rw [hx]
        exact hb
      · exact hx
    · simpa [hba] using hb
  refine ⟨⟨⟨h.roots.rooted.congr rfl rfl fun _ => rfl, h.roots.first⟩, h.loggers,
    fun l b hb => hkeep b (h.listed l b hb), fun b hb => ?_⟩, Nat.le_refl _, hkeep⟩
  have hnone := h.unborn b hb
  by_cases hba : b = a
  · subst hba
    rcases hx with hx | ⟨hlt, -⟩
    · simpa [hx] using hnone
    · exact absurd hlt (Nat.not_lt.2 hb)
  · simpa [hba] using hnone

theorem setLogger (h : Formatted s) {k : Logger} (hroot : k.mRoot = (s.loggers l).mRoot)
    (hfmt : k.mFormatter ≠ none)
    (hlist : ∀ a ∈ k.mAppenderList, (s.appenders a).mFormatter ≠ none) :
    Formatted (s.setLogger l k) ∧ Grows s (s.setLogger l k) := by
  refine ⟨⟨h.roots.setLogger hroot, fun l' => ?_, fun l' => ?_, h.unborn⟩, Nat.le_refl _,
    fun _ ha => ha⟩
  · by_cases hl : l' = l
    · subst hl
      simpa using hfmt
    · simpa [hl] using h.loggers l'
  · by_cases hl : l' = l
    · subst hl
      simpa using hlist
    · simpa [hl] using h.listed l'

theorem newAppender (h : Formatted s) (sink : Sink) :
    Formatted (s.newAppender (.new sink)) ∧ Grows s (s.newAppender (.new sink)) := by
  have hkeep (b : AppenderId) (hb : (s.appenders b).mFormatter ≠ none) :
      ((s.newAppender (.new sink)).appenders b).mFormatter ≠ none := by
    have hne : b ≠ s.nextAppender := Nat.ne_of_lt (h.born hb)
    simpa [hne] using hb
  refine ⟨⟨⟨h.roots.rooted.congr rfl rfl fun _ => rfl, h.roots.first⟩, h.loggers,
    fun l b hb => hkeep b (h.listed l b hb), fun b hb => ?_⟩, Nat.le_succ _, hkeep⟩
  have hne : b ≠ s.nextAppender := Nat.ne_of_gt hb
  simpa [hne] using h.unborn b (Nat.le_of_succ_le hb)

theorem getLogger (h : Formatted s) (name : String) :
    Formatted (s.getLogger name).1 ∧ Grows s (s.getLogger name).1 := by
  have hroots := h.roots.getLogger name
  revert hroots
  simp only [LoggerMgr.getLogger]
  split
  · exact fun _ => ⟨h, Grows.refl s⟩
  · intro hroots
    refine ⟨⟨hroots, fun l => ?_, fun l => ?_, h.unborn⟩, Nat.le_refl _, fun _ ha => ha⟩
    · by_cases hl : l = s.nextLogger
      · subst hl
        simp [Logger.new]
      · simpa [hl] using h.loggers l
    · by_cases hl : l = s.nextLogger
      · subst hl
        simp [Logger.new]
      · simpa [hl] using h.listed l

end Formatted
end LoggerMgr

namespace Locking
open LockProg Filter

variable {Ty : Type} {V : Ty → Type} (e : Env V)

/-- Whatever writes records has a formatter, and whatever is registered exists. -/
structure Ready (s : Shared V) : Prop where
  mgr : s.mgr.Formatted
  datas : ∀ name v, s.datas name = some v → s.vars v ≠ none

instance : Preorder (Shared V) where
  le s s' := s.mgr.Grows s'.mgr ∧ ∀ v, s.vars v ≠ none → s'.vars v ≠ none
  le_refl s := ⟨.refl s.mgr, fun _ h => h⟩
  le_trans _ _ _ h h' := ⟨h.1.trans h'.1, fun v hv => h'.2 v (h.2 v hv)⟩

variable {s : Shared V}

/-! ### Nothing that logging does comes to a null pointer -/

theorem onMgr_safe {f : LoggerMgr → LoggerMgr} {Q : Unit → Shared V → Prop}
    (h : ∀ m, s.mgr.Grows m → m.Formatted → (f m).Formatted ∧ m.Grows (f m))
    (hQ : ∀ t, s ≤ t → Ready t → Q () { t with mgr := f t.mgr }) :
    (onMgr f : Prog V Unit).Safe Ready Q s := by
  apply Safe.change
  · intro t hst ht
    obtain ⟨hf, hgrows⟩ := h t.mgr hst.1 ht.mgr
    exact ⟨⟨hf, ht.datas⟩, hgrows, fun _ hv => hv⟩
  · exact hQ

theorem onMgr_sure {f : LoggerMgr → LoggerMgr}
    (h : ∀ m, s.mgr.Grows m → m.Formatted → (f m).Formatted ∧ m.Grows (f m)) :
    (onMgr f : Prog V Unit).Sure Ready s := onMgr_safe h fun _ _ _ => trivial

theorem ofMgr_bind {g : LoggerMgr → α} {f : α → Prog V β} {Q : β → Shared V → Prop}
    (hf : ∀ t, s ≤ t → Ready t → (f (g t.mgr)).Safe Ready Q t) :
    (ofMgr g >>= f).Safe Ready Q s := Safe.observe_bind hf

theorem ofMgr_sure (g : LoggerMgr → α) : (ofMgr g : Prog V α).Sure Ready s :=
  Safe.observe fun _ _ _ => trivial

theorem ask_sure : (ask e).Sure Ready s := by
  apply Safe.exchange
  · exact fun t _ ht => ⟨⟨ht.mgr, ht.datas⟩, .refl t.mgr, fun _ hv => hv⟩
  · exact fun _ _ _ => trivial

theorem print_sure (text : String) : (print text : Prog V Unit).Sure Ready s :=
  onMgr_sure fun m _ hm => hm.output _ m.written

theorem noteRecord_sure (a : AppenderId) (level : LogLevel) (event : LogEvent) :
    (noteRecord a level event : Prog V Unit).Sure Ready s :=
  onMgr_sure fun m _ hm => hm.output m.out _

theorem newAppender_safe (sink : Sink) : (newAppender sink : Prog V AppenderId).Safe Ready
    (fun a t => a < t.mgr.nextAppender) s := by
  apply Safe.exchange
  · intro t _ ht
    obtain ⟨hf, hgrows⟩ := ht.mgr.newAppender sink
    exact ⟨⟨hf, ht.datas⟩, hgrows, fun _ hv => hv⟩
  · exact fun t _ _ => Nat.lt_succ_self _

theorem onFile_sure (a : AppenderId) (f : FileSink → Output → FileSink × Output) :
    (onFile a f : Prog V Unit).Sure Ready s := by
  apply onMgr_sure
  intro m _ hm
  split
  · exact ⟨hm, .refl m⟩
  · rename_i x _
    obtain ⟨hset, hgrows⟩ := hm.setAppender (a := a)
      (x := { m.appenders a with sink := .file (f x m.out).1 }) (.inl rfl)
    obtain ⟨hout, hgrows'⟩ := hset.output (f x m.out).2 m.written
    exact ⟨hout, hgrows.trans hgrows'⟩

/-- An appender that has got a formatter formats every record. -/
theorem format_sure (ha : (s.mgr.appenders a).mFormatter ≠ none) (level : LogLevel)
    (event : LogEvent) : (format e a level event).Sure Ready s := by
  apply Safe.bind (ask_sure e)
  intro now t hst _
  apply ofMgr_bind
  intro u htu _
  have hfmt := (hst.trans htu).1.formatter a ha
  split
  · exact absurd ‹_› hfmt
  · exact ofMgr_sure _

namespace LogAppender

theorem setLevel_sure (a : AppenderId) (level : LogLevel) :
    (setLevel a level : Prog V Unit).Sure Ready s :=
  onMgr_sure fun _ _ hm => hm.setAppender (.inl rfl)

theorem setFormatter_sure (ha : a < s.mgr.nextAppender) (hval : val ≠ none) :
    (setFormatter a val : Prog V Unit).Sure Ready s := by
  apply Safe.withLock
  apply onMgr_sure
  intro m hgrows hm
  exact hm.setAppender (.inr ⟨Nat.lt_of_lt_of_le ha hgrows.next, hval⟩)

theorem getFormatter_safe (a : AppenderId) : (getFormatter a : Prog V (Option LogFormatter)).Safe
    Ready (fun fmt t => fmt = (t.mgr.appenders a).mFormatter) s :=
  Safe.withLock (Safe.observe fun _ _ _ => rfl)

end LogAppender

theorem StdOutAppender.log_sure (ha : (s.mgr.appenders a).mFormatter ≠ none) (level : LogLevel)
    (event : LogEvent) : (StdOutAppender.log e a level event).Sure Ready s := by
  apply ofMgr_bind
  intro t hst _
  refine Safe.when (fun _ => ?_) fun _ => trivial
  apply Safe.withLock
  apply Safe.bind (format_sure e (hst.1.formatter a ha) level event)
  intro text u _ _
  exact Safe.bind (noteRecord_sure a level event) fun _ _ _ _ => print_sure _

namespace FileAppender

theorem reOpen_sure (a : AppenderId) : (reOpen e a).Sure Ready s :=
  Safe.bind (ask_sure e) fun _ _ _ _ => Safe.withLock (onFile_sure a _)

theorem new_safe (name : String) :
    (new e name).Safe Ready (fun a t => a < t.mgr.nextAppender) s := by
  apply Safe.bind (ask_sure e)
  intro now t _ _
  apply Safe.bind (newAppender_safe _)
  intro a u _ ha
  apply Safe.bind (reOpen_sure e a)
  intro _ v huv _
  exact Safe.pure (Nat.lt_of_lt_of_le ha huv.1.next)

theorem newClosed_sure : (newClosed e).Sure Ready s :=
  Safe.bind (ask_sure e) fun _ _ _ _ => (newAppender_safe _).sure

theorem log_sure (ha : (s.mgr.appenders a).mFormatter ≠ none) (level : LogLevel)
    (event : LogEvent) : (log e a level event).Sure Ready s := by
  apply ofMgr_bind
  intro t hst _
  refine Safe.when (fun _ => ?_) fun _ => trivial
  apply ofMgr_bind
  intro u htu _
  apply Safe.bind (Q := fun _ _ => True)
  · refine Safe.when (fun _ => ?_) fun _ => trivial
    exact Safe.bind (reOpen_sure e a) fun _ _ _ _ => onFile_sure a _
  · intro _ v huv _
    apply Safe.withLock
    apply Safe.bind (format_sure e (((hst.trans htu).trans huv).1.formatter a ha) level event)
    intro text _ _ _
    apply Safe.bind (noteRecord_sure a level event)
    intro _ _ _ _
    apply Safe.bind (ask_sure e)
    intro now _ _ _
    apply Safe.bind (onFile_sure a _)
    intro _ _ _ _
    apply ofMgr_bind
    intro _ _ _
    exact Safe.when (fun _ => print_sure _) fun _ => trivial

end FileAppender

namespace LogAppender

theorem log_sure (ha : (s.mgr.appenders a).mFormatter ≠ none) (level : LogLevel)
    (event : LogEvent) : (log e a level event).Sure Ready s := by
  apply ofMgr_bind
  intro t hst _
  have hfmt := hst.1.formatter a ha
  split
  · exact FileAppender.log_sure e hfmt level event
  · exact StdOutAppender.log_sure e hfmt level event

theorem toYamlString_sure (a : AppenderId) : (toYamlString e a).Sure Ready s := by
  apply ofMgr_bind
  intro t _ _
  split
  · exact Safe.withLock (ofMgr_sure _)
  · exact ofMgr_sure _

end LogAppender

namespace Logger

theorem setLevel_sure (l : LoggerId) (level : LogLevel) :
    (setLevel l level : Prog V Unit).Sure Ready s :=
  onMgr_sure fun _ _ hm => hm.setLogger rfl (hm.loggers l) (hm.listed l)

/-- An appender is listed only once it has a formatter. -/
theorem addAppender_sure (l : LoggerId) (ha : a < s.mgr.nextAppender) :
    (addAppender l a : Prog V Unit).Sure Ready s := by
  apply Safe.withLock
  apply Safe.bind (LogAppender.getFormatter_safe a)
  intro fmt t hst hfmt
  apply Safe.bind (Q := fun _ u => (u.mgr.appenders a).mFormatter ≠ none)
  · apply Safe.when
    · intro _
      apply onMgr_safe
      · intro m hgrows hm
        refine hm.setAppender (.inr ⟨?_, hm.loggers l⟩)
        exact Nat.lt_of_lt_of_le ha (hst.1.trans hgrows).next
      · intro u _ hu
        simpa using hu.mgr.loggers l
    · intro hnone
      rw [← hfmt]
      exact hnone
  · intro _ u _ hu
    apply onMgr_sure
    intro m hgrows hm
    refine hm.setLogger rfl (hm.loggers l) fun b hb => ?_
    rcases List.mem_append.1 hb with hb | hb
    · exact hm.listed l b hb
    · rw [List.mem_singleton.1 hb]
      exact hgrows.formatter a hu

theorem delAppender_sure (l : LoggerId) (a : AppenderId) :
    (delAppender l a : Prog V Unit).Sure Ready s :=
  Safe.withLock <| onMgr_sure fun _ _ hm =>
    hm.setLogger rfl (hm.loggers l) fun b hb => hm.listed l b (List.mem_of_mem_erase hb)

theorem clearAppenders_sure (l : LoggerId) : (clearAppenders l : Prog V Unit).Sure Ready s :=
  Safe.withLock <| onMgr_sure fun _ _ hm => hm.setLogger rfl (hm.loggers l) fun b hb => by cases hb

theorem setFormatter_sure (l : LoggerId) (hval : val ≠ none) :
    (setFormatter l val : Prog V Unit).Sure Ready s := by
  apply Safe.withLock
  apply Safe.bind (Q := fun _ _ => True)
  · apply onMgr_sure
    intro m _ hm
    exact hm.setLogger rfl hval (hm.listed l)
  · intro _ t _ _
    apply ofMgr_bind
    intro u _ hu
    apply Safe.forM
    intro i hi v huv
    apply Safe.withLock
    apply ofMgr_bind
    intro w hvw _
    refine Safe.when (fun _ => ?_) fun _ => trivial
    apply onMgr_sure
    intro m hgrows hm
    refine hm.setAppender (.inr ⟨?_, hm.loggers l⟩)
    have hborn := hu.mgr.born (hu.mgr.listed l i hi)
    exact Nat.lt_of_lt_of_le hborn ((huv.trans hvw).1.trans hgrows).next

theorem setPattern_sure (l : LoggerId) (val : String) :
    (setPattern l val : Prog V Unit).Sure Ready s := by
  simp only [setPattern]
  split
  · exact ofMgr_bind fun _ _ _ => print_sure _
  · exact setFormatter_sure l (Option.some_ne_none _)

theorem toYamlString_sure (l : LoggerId) : (toYamlString e l).Sure Ready s := by
  apply Safe.withLock
  apply Safe.lift_bind (ofMgr_sure _)
  intro k _ _
  apply Safe.except_bind
  · apply Safe.except_foldlM
    intro node i u _
    apply Safe.lift_bind (LogAppender.toYamlString_sure e i)
    intro text v _
    exact Safe.except_bind (Safe.pure trivial) fun _ _ _ => Safe.pure trivial
  · exact fun _ _ _ => Safe.pure trivial

/-- A logger leads to the root logger, and that one to no other. -/
theorem logAt_sure (level : LogLevel) (event : LogEvent) (fuel : Nat) (l : LoggerId)
    (hfuel : if l = 0 then 1 ≤ fuel else 2 ≤ fuel) :
    (logAt e level event fuel l).Sure Ready s := by
  induction fuel generalizing l s with
  | zero => split at hfuel <;> omega
  | succ fuel ih =>
    apply ofMgr_bind
    intro t _ _
    refine Safe.when (fun _ => ?_) fun _ => trivial
    apply Safe.withLock
    apply ofMgr_bind
    intro u _ hu
    split
    · rename_i root _ hroot
      obtain ⟨hl, rfl⟩ := hu.mgr.roots.chain hroot
      apply ih
      rw [if_neg hl] at hfuel
      simpa using hfuel
    · apply Safe.forM
      intro itr hitr v huv
      exact LogAppender.log_sure e (huv.1.formatter itr (hu.mgr.listed l itr hitr)) level event

theorem log_sure (l : LoggerId) (level : LogLevel) (event : LogEvent) :
    (log e l level event).Sure Ready s := by
  apply ofMgr_bind
  intro t _ ht
  apply logAt_sure
  have hpos := Nat.zero_lt_of_lt ht.mgr.roots.rooted.known
  split <;> omega

end Logger

theorem logText_sure (l : LoggerId) (level : LogLevel) {text : Prog V String}
    (htext : ∀ t, s ≤ t → text.Sure Ready t) : (logText e l level text).Sure Ready s := by
  apply ofMgr_bind
  intro t hst _
  refine Safe.when (fun _ => ?_) fun _ => trivial
  apply Safe.bind (ask_sure e)
  intro now u htu _
  exact Safe.bind (htext u (hst.trans htu)) fun content _ _ _ => Logger.log_sure e l level _

theorem logRoot_sure (level : LogLevel) {text : Prog V String}
    (htext : ∀ t, s ≤ t → text.Sure Ready t) : (logRoot e level text).Sure Ready s :=
  ofMgr_bind fun _ hst _ => logText_sure e _ level fun u htu => htext u (hst.trans htu)

namespace LoggerMgr

theorem getLogger_sure (name : String) : (getLogger name : Prog V LoggerId).Sure Ready s := by
  apply Safe.withLock
  apply Safe.exchange
  · intro t _ ht
    obtain ⟨hf, hgrows⟩ := ht.mgr.getLogger name
    exact ⟨⟨hf, ht.datas⟩, hgrows, fun _ hv => hv⟩
  · exact fun _ _ _ => trivial

theorem toYamlString_sure : (toYamlString e).Sure Ready s := by
  apply Safe.withLock
  apply Safe.lift_bind (ofMgr_sure _)
  intro k _ _
  apply Safe.except_bind
  · apply Safe.except_foldlM
    intro node i u _
    apply Safe.except_bind (Logger.toYamlString_sure e i.2)
    intro text v _
    exact Safe.except_bind (Safe.pure trivial) fun _ _ _ => Safe.pure trivial
  · exact fun _ _ _ => Safe.pure trivial

end LoggerMgr

/-! ### Nor does the listener -/

namespace LogIniter

theorem newAppenderOf_safe {a : LogAppenderDefine} (ha : a.Typed) :
    (newAppenderOf e a).Safe Ready (fun ap t => ap < t.mgr.nextAppender) s := by
  rw [newAppenderOf]
  split
  · exact FileAppender.new_safe e a.file
  · split
    · exact newAppender_safe _
    · rcases ha with ha | ha <;> contradiction

theorem makeAppender_sure (i : LogDefine) (logger : LoggerId) {a : LogAppenderDefine}
    (ha : a.Typed) : (makeAppender e i logger a).Sure Ready s := by
  apply Safe.bind (newAppenderOf_safe e ha)
  intro ap t _ hap
  apply Safe.bind (LogAppender.setLevel_sure ap _)
  intro _ u htu _
  have hu := Nat.lt_of_lt_of_le hap htu.1.next
  apply Safe.bind (Q := fun _ _ => True)
  · refine Safe.when (fun _ => ?_) fun _ => trivial
    dsimp only
    split
    · exact print_sure _
    · exact LogAppender.setFormatter_sure hu (Option.some_ne_none _)
  · intro _ v huv _
    exact Logger.addAppender_sure logger (Nat.lt_of_lt_of_le hu huv.1.next)

theorem applyDefine_sure {i : LogDefine} (hi : i.Typed) : (applyDefine e i).Sure Ready s := by
  apply Safe.bind (LoggerMgr.getLogger_sure i.name)
  intro logger _ _ _
  apply Safe.bind (Logger.setLevel_sure logger _)
  intro _ _ _ _
  apply Safe.bind (Q := fun _ _ => True)
  · exact Safe.when (fun _ => Logger.setPattern_sure logger _) fun _ => trivial
  · intro _ _ _ _
    apply Safe.bind (Logger.clearAppenders_sure logger)
    intro _ _ _ _
    exact Safe.forM fun a ha _ _ => makeAppender_sure e i logger (hi a ha)

theorem deleteDefine_sure (i : LogDefine) : (deleteDefine i : Prog V Unit).Sure Ready s := by
  apply Safe.bind (LoggerMgr.getLogger_sure i.name)
  intro logger _ _ _
  exact Safe.bind (Logger.setLevel_sure logger _) fun _ _ _ _ => Logger.clearAppenders_sure logger

theorem onChange_sure (old : LogDefines) {new : LogDefines} (hnew : ∀ i ∈ new.elems, i.Typed) :
    (onChange e old new).Sure Ready s := by
  apply Safe.bind (logRoot_sure e .info fun _ _ => Safe.pure trivial)
  intro _ t _ _
  apply Safe.bind (Q := fun _ _ => True)
  · apply Safe.forM
    intro i hi _ _
    exact Safe.when (fun _ => applyDefine_sure e (hnew i hi)) fun _ => trivial
  · intro _ u _ _
    apply Safe.forM
    intro i _ _ _
    exact Safe.when (fun _ => deleteDefine_sure i) fun _ => trivial

end LogIniter

/-! ### Nor does the configuration -/

/-- The appenders of the definitions are of the two kinds. -/
def VarType.Typed : (ty : VarType Ty) → ty.Val V → Prop
  | .logDefines, val => ∀ i ∈ val.elems, i.Typed
  | .other _, _ => True

theorem decodeDefines_typed (h : SvrFrame.LoggerMgr.decodeDefines y text = .ok val) :
    ∀ i ∈ val.elems, i.Typed := by
  intro i hi
  obtain ⟨node, ds, -, hds, hset⟩ := SvrFrame.Config.decodeSet_ok h
  have hfind := OrdSet.find?_isSome hi
  rw [hset, OrdSet.find?_foldl_insert] at hfind
  obtain ⟨n, -, hn⟩ := SvrFrame.Config.forall₂_mem_right hds (List.mem_of_find?_eq_some hfind)
  exact LogDefine.decode_typed hn

theorem Env.fromStr_typed (ty : VarType Ty) {val : ty.Val V} (h : e.fromStr ty text = .ok val) :
    ty.Typed val := by
  cases ty with
  | logDefines => exact decodeDefines_typed h
  | other ty => trivial

theorem Listener.notify_sure {ty : VarType Ty} (cb : Listener ty) (old : ty.Val V) {new : ty.Val V}
    (hnew : ty.Typed new) : (cb.notify e old new).Sure Ready s := by
  cases cb with
  | logIniter => exact LogIniter.onChange_sure e old hnew

/-- A variable that exists can be read. -/
theorem ofVar_sure {v : VarId Ty} (hv : s.vars v ≠ none) (g : CfgVar V v.ty → α) :
    (ofVar v g).Sure Ready s := by
  apply Safe.observe_bind
  intro t hst _
  have ht := hst.2 v hv
  split
  · trivial
  · exact absurd ‹_› ht

namespace CfgVar
variable {v : VarId Ty}

theorem toString_sure (hv : s.vars v ≠ none) : (toString e v).Sure Ready s := by
  apply Safe.bind (Q := fun _ _ => True)
  · exact Safe.withLock (Safe.bind (ofVar_sure hv _) fun _ _ _ _ => Safe.pure trivial)
  · intro text t hst _
    cases text with
    | ok text => exact Safe.pure trivial
    | error exn =>
      refine Safe.bind (logRoot_sure e .error fun u htu => ?_) fun _ _ _ _ => Safe.pure trivial
      exact Safe.bind (ofVar_sure ((hst.trans htu).2 v hv) _) fun _ _ _ _ => Safe.pure trivial

theorem getValue_sure (hv : s.vars v ≠ none) :
    (getValue v : Prog V (v.ty.Val V)).Sure Ready s := Safe.withLock (ofVar_sure hv _)

variable [DecidableEq Ty]

theorem update_ne_none {vars : (v : VarId Ty) → Option (CfgVar V v.ty)} {x : Option (CfgVar V v.ty)}
    (hx : vars v ≠ none → x ≠ none) {u : VarId Ty} (hu : vars u ≠ none) :
    Function.update vars v x u ≠ none := by
  by_cases huv : u = v
  · subst huv
    rw [Function.update_self]
    exact hx hu
  · rw [Function.update_of_ne huv]
    exact hu

theorem setVal_sure (v : VarId Ty) (val : v.ty.Val V) :
    (change fun s => s.setVal v val : Prog V Unit).Sure Ready s := by
  have hkeep (t : Shared V) (u : VarId Ty) (hu : t.vars u ≠ none) :
      (t.setVal v val).vars u ≠ none := update_ne_none (by simp) hu
  apply Safe.change
  · intro t _ ht
    exact ⟨⟨ht.mgr, fun name u hu => hkeep t u (ht.datas name u hu)⟩, .refl t.mgr, hkeep t⟩
  · exact fun _ _ _ => trivial

theorem setValue_sure (hv : s.vars v ≠ none) {val : v.ty.Val V} (hval : v.ty.Typed val) :
    (setValue e v val).Sure Ready s := by
  apply Safe.bind (Q := fun _ _ => True)
  · apply Safe.withLock
    apply Safe.bind (ofVar_sure hv _)
    intro mVal t hst _
    split
    · exact Safe.pure trivial
    · apply Safe.bind (ofVar_sure (hst.2 v hv) _)
      intro mCbs u _ _
      refine Safe.bind (Safe.forM fun cb _ _ _ => ?_) fun _ _ _ _ => Safe.pure trivial
      exact cb.notify_sure e mVal hval
  · intro changed t _ _
    refine Safe.when (fun _ => ?_) fun _ => trivial
    exact Safe.withLock (setVal_sure v val)

theorem fromString_sure (hv : s.vars v ≠ none) (val : String) :
    (fromString e v val).Sure Ready s := by
  simp only [fromString]
  split
  · rename_i x hx
    refine Safe.bind (setValue_sure e hv (e.fromStr_typed v.ty hx)) fun _ _ _ _ => Safe.pure trivial
  · refine Safe.bind (logRoot_sure e .error fun t hst => ?_) fun _ _ _ _ => Safe.pure trivial
    exact Safe.bind (ofVar_sure (hst.2 v hv) _) fun _ _ _ _ => Safe.pure trivial

end CfgVar

namespace Config

/-- What has been found exists. -/
theorem lookUpBase_safe (name : String) : (lookUpBase name : Prog V (Option (VarId Ty))).Safe Ready
    (fun var t => ∀ v ∈ var, t.vars v ≠ none) s :=
  Safe.withLock (Safe.observe fun _ _ ht v hv => ht.datas name v hv)

theorem logInvalid_sure (name : String) (node : Node) : (logInvalid e name node).Sure Ready s :=
  Safe.observe_bind fun _ _ _ => logText_sure e _ .error fun _ _ => Safe.pure trivial

mutual
theorem listAllMember_sure (s : Shared V) (name : String) (node : Node) :
    (listAllMember e name node).Sure Ready s := by
  cases node with
  | map es =>
    simp only [listAllMember]
    split
    · exact Safe.bind (listEntries_sure _ name es) fun _ _ _ _ => Safe.pure trivial
    · exact Safe.bind (logInvalid_sure e name _) fun _ _ _ _ => Safe.pure trivial
  | _ =>
    simp only [listAllMember]
    split
    · exact Safe.pure trivial
    · exact Safe.bind (logInvalid_sure e name _) fun _ _ _ _ => Safe.pure trivial

theorem listEntries_sure (s : Shared V) (name : String) (es : List (Node × Node)) :
    (listEntries e name es).Sure Ready s := by
  cases es with
  | nil => exact Safe.pure trivial
  | cons entry es =>
    obtain ⟨k, v⟩ := entry
    rw [listEntries]
    apply Safe.bind (listAllMember_sure s _ v)
    intro first _ _ _
    exact Safe.bind (listEntries_sure _ name es) fun _ _ _ _ => Safe.pure trivial
end

variable [DecidableEq Ty]

theorem newVar_sure (ty : VarType Ty) (name : String) (defaultValue : ty.Val V) :
    (newVar ty name defaultValue : Prog V (VarId Ty)).Sure Ready s := by
  apply Safe.exchange
  · intro t _ ht
    have hkeep (u : VarId Ty) (hu : t.vars u ≠ none) :=
      CfgVar.update_ne_none (v := ⟨ty, t.nextVar⟩) (x := some ⟨name, defaultValue, []⟩)
        (fun _ => Option.some_ne_none _) hu
    refine ⟨⟨ht.mgr, fun name' u hu => ?_⟩, .refl t.mgr, hkeep⟩
    simp only [Function.update_apply] at hu
    split at hu
    · cases hu
      simp
    · exact hkeep u (ht.datas name' u hu)
  · exact fun _ _ _ => trivial

theorem lookUp_sure (ty : VarType Ty) (name : String) (defaultValue : ty.Val V) :
    (lookUp e ty name defaultValue).Sure Ready s := by
  apply Safe.withLock
  apply Safe.observe_bind
  intro t _ ht
  split
  · rename_i v hv
    split
    · exact Safe.bind (logRoot_sure e .info fun _ _ => Safe.pure trivial) fun _ _ _ _ =>
        Safe.pure trivial
    · refine Safe.bind (logRoot_sure e .error fun u htu => ?_) fun _ _ _ _ => Safe.pure trivial
      exact Safe.bind (CfgVar.toString_sure e (htu.2 v (ht.datas name v hv))) fun _ _ _ _ =>
        Safe.pure trivial
  · split
    · exact Safe.bind (newVar_sure ty name defaultValue) fun _ _ _ _ => Safe.pure trivial
    · exact Safe.bind (logRoot_sure e .error fun _ _ => Safe.pure trivial) fun _ _ _ _ =>
        Safe.pure trivial

theorem find_sure (ty : VarType Ty) (name : String) :
    (find ty name : Prog V (Option (VarId Ty))).Sure Ready s :=
  Safe.withLock (Safe.observe fun _ _ _ => trivial)

theorem loadNode_sure (i : String × Node) : (loadNode e i).Sure Ready s := by
  refine Safe.when (fun _ => ?_) fun _ => trivial
  apply Safe.bind (lookUpBase_safe _)
  intro var t _ hvar
  cases var with
  | some v => exact Safe.bind (CfgVar.fromString_sure e (hvar v rfl) _) fun _ _ _ _ =>
      Safe.pure trivial
  | none => exact Safe.pure trivial

theorem loadFromYaml_sure (root : Node) : (loadFromYaml e root).Sure Ready s := by
  apply Safe.bind (listAllMember_sure e s "" root)
  intro allNodes _ _ _
  exact Safe.forM fun i _ _ _ => loadNode_sure e i

end Config

/-! ### Calls that may be made -/

variable [DecidableEq Ty]

/-- The objects that a call names exist, no formatter is null, an appender that is told to write has
one, and the appenders of definitions are of the two kinds. -/
def Op.Legal (s : Shared V) : Op V → Prop
  | .addAppender _ a => a < s.mgr.nextAppender
  | .setFormatter _ val => val ≠ none
  | .appenderLog a _ _ => (s.mgr.appenders a).mFormatter ≠ none
  | .appenderSetFormatter a val => a < s.mgr.nextAppender ∧ val ≠ none
  | .fromString v _ | .toString v | .getValue v => s.vars v ≠ none
  | .setValue v val => s.vars v ≠ none ∧ v.ty.Typed val
  | _ => True

instance : ∀ (ty : VarType Ty) (val : ty.Val V), Decidable (ty.Typed val)
  | .logDefines, _ => inferInstanceAs (Decidable (∀ i ∈ _, _))
  | .other _, _ => inferInstanceAs (Decidable True)

instance (s : Shared V) : ∀ op : Op V, Decidable (op.Legal s)
  | .addAppender _ _ => inferInstanceAs (Decidable (_ < _))
  | .setFormatter _ _ | .appenderLog _ _ _ => inferInstanceAs (Decidable (_ ≠ none))
  | .appenderSetFormatter _ _ => inferInstanceAs (Decidable (_ < _ ∧ _ ≠ none))
  | .fromString _ _ | .toString _ | .getValue _ => inferInstanceAs (Decidable (_ ≠ none))
  | .setValue _ _ => inferInstanceAs (Decidable (_ ≠ none ∧ _))
  | .log _ _ _ | .delAppender _ _ | .setPattern _ _ | .clearAppenders _ | .loggerToYamlString _
  | .setLevel _ _ | .newStdOut | .newFile _ | .newClosedFile | .appenderGetFormatter _
  | .appenderToYamlString _ | .appenderSetLevel _ _ | .getLogger _ | .mgrToYamlString
  | .lookUp _ _ _ | .find _ _ | .lookUpBase _ | .loadFromYaml _ => inferInstanceAs (Decidable True)

theorem Op.Legal.sure {op : Op V} (h : op.Legal s) : (op.prog e).Sure Ready s := by
  cases op with
  | log l level event => exact Logger.log_sure e l level event
  | addAppender l a => exact Logger.addAppender_sure l h
  | delAppender l a => exact Logger.delAppender_sure l a
  | setFormatter l val => exact Logger.setFormatter_sure l h
  | setPattern l val => exact Logger.setPattern_sure l val
  | clearAppenders l => exact Logger.clearAppenders_sure l
  | loggerToYamlString l => exact Safe.ignore (Logger.toYamlString_sure e l)
  | setLevel l level => exact Logger.setLevel_sure l level
  | newStdOut => exact Safe.ignore (newAppender_safe _).sure
  | newFile name => exact Safe.ignore (FileAppender.new_safe e name).sure
  | newClosedFile => exact Safe.ignore (FileAppender.newClosed_sure e)
  | appenderLog a level event => exact LogAppender.log_sure e h level event
  | appenderSetFormatter a val => exact LogAppender.setFormatter_sure h.1 h.2
  | appenderGetFormatter a => exact Safe.ignore (LogAppender.getFormatter_safe a).sure
  | appenderToYamlString a => exact Safe.ignore (LogAppender.toYamlString_sure e a)
  | appenderSetLevel a level => exact LogAppender.setLevel_sure a level
  | getLogger name => exact Safe.ignore (LoggerMgr.getLogger_sure name)
  | mgrToYamlString => exact Safe.ignore (LoggerMgr.toYamlString_sure e)
  | lookUp ty name defaultValue => exact Safe.ignore (Config.lookUp_sure e ty name defaultValue)
  | find ty name => exact Safe.ignore (Config.find_sure ty name)
  | lookUpBase name => exact Safe.ignore (Config.lookUpBase_safe name).sure
  | loadFromYaml root => exact Config.loadFromYaml_sure e root
  | fromString v val => exact Safe.ignore (CfgVar.fromString_sure e h val)
  | setValue v val => exact CfgVar.setValue_sure e h.1 h.2
  | toString v => exact Safe.ignore (CfgVar.toString_sure e h)
  | getValue v => exact Safe.ignore (CfgVar.getValue_sure h)

theorem initial_ready (out : Output) : Ready (.initial out : Shared V) := by
  have hfresh : (SvrFrame.LoggerMgr.fresh out).Formatted := by
    refine ⟨⟨LoggerMgr.fresh_rooted out, rfl⟩, (LoggerMgr.fresh_separate out).formatter,
      (LoggerMgr.fresh_separate out).appenderFormatter, fun a ha => ?_⟩
    have hne : a ≠ 0 := Nat.ne_of_gt ha
    simp [SvrFrame.LoggerMgr.fresh, SvrFrame.LoggerMgr.addAppender, hne, SvrFrame.LogAppender.new]
  refine ⟨(hfresh.getLogger "system").1, fun name v hv => ?_⟩
  simp only [Shared.initial, Function.update_apply] at hv
  split at hv
  · cases hv
    simp [Shared.initial]
  · cases hv

namespace Process
variable {n : Nat}

/-- Every call that is made may be made. -/
def Legal (s : Process n V) : ThreadAct (Fin n) (Op V) → Prop
  | .call _ op => op.Legal s.shared
  | .next _ => True

instance (s : Process n V) : ∀ a, Decidable (Legal s a)
  | .call _ op => inferInstanceAs (Decidable (op.Legal _))
  | .next _ => inferInstanceAs (Decidable True)

theorem sure {s : Process n V} (h : Reach (step e) Legal (Threads.start (.initial out)) s) :
    s.Sure Ready := by
  apply h.invariant (Threads.start_sure (initial_ready out))
  intro t a u ht ha hstep
  exact ht.step (fun _ _ _ _ hlegal => Op.Legal.sure e hlegal) ha hstep

end Process

end Locking
end SvrFrame
