import SvrFrame.Locking.Config

namespace SvrFrame
namespace Locking
open Library LockProg
set_option autoImplicit true

variable {Ty : Type} {V : Ty → Type} (e : Env V) (s : Shared V)

/-! ### What the operations do while no other thread takes a step -/

@[simp] theorem alone_onMgr (f : SvrFrame.LoggerMgr → SvrFrame.LoggerMgr) :
    (onMgr f : Prog V Unit).alone s = some ((), { s with mgr := f s.mgr }) := rfl

@[simp] theorem alone_ofMgr (g : SvrFrame.LoggerMgr → α) :
    (ofMgr g : Prog V α).alone s = some (g s.mgr, s) := rfl

@[simp] theorem alone_ask :
    (ask e).alone s = some (e.outside s.asked, { s with asked := s.asked + 1 }) := rfl

@[simp] theorem alone_newAppender (sink : Sink) : (newAppender sink : Prog V AppenderId).alone s =
    some (s.mgr.nextAppender, { s with mgr := s.mgr.newAppender (.new sink) }) := rfl

namespace FileAppender

theorem new_alone (name : String) : (new e name).alone s =
    some (s.mgr.nextAppender, { s with
      mgr := s.mgr.newFileAppender name (e.outside s.asked).lastTime
        (e.outside (s.asked + 1)).io.opens
      asked := s.asked + 2 }) := by
  simp [new, reOpen, onFile, SvrFrame.LoggerMgr.newFileAppender, FileSink.new,
    SvrFrame.LoggerMgr.newAppender, SvrFrame.LoggerMgr.setAppender, SvrFrame.LogAppender.new]

end FileAppender

namespace LogAppender

theorem setFormatter_alone (a : AppenderId) (val : Option LogFormatter) :
    (setFormatter a val : Prog V Unit).alone s = some ((), { s with
      mgr := s.mgr.setAppender a ((s.mgr.appenders a).setFormatter val) }) := by
  simp [setFormatter]

theorem toYamlString_alone (a : AppenderId) : (toYamlString e a).alone s =
    some ((s.mgr.appenders a).toYamlString e.y, s) := by
  simp only [toYamlString, alone_bind, alone_ofMgr, Option.bind_some]
  split
  · rw [alone_withLock, alone_ofMgr]
  · rw [alone_ofMgr]

end LogAppender

namespace Logger

theorem addAppender_alone (l : LoggerId) (a : AppenderId) :
    (addAppender l a : Prog V Unit).alone s = some ((), { s with
      mgr := s.mgr.addAppender l a }) := by
  simp only [addAppender, LogAppender.getFormatter, alone_withLock, alone_bind, alone_ofMgr,
    alone_when, alone_onMgr, Option.bind_some, SvrFrame.LoggerMgr.addAppender,
    SvrFrame.LoggerMgr.inherit]
  by_cases h : (s.mgr.appenders a).mFormatter = none
  · simp [h]
  · simp [h, SvrFrame.LoggerMgr.setAppender]

/-- The turn of the loop of `SetFormatter` for one appender. -/
def giveFormatter (l : LoggerId) (s : SvrFrame.LoggerMgr) (i : AppenderId) : SvrFrame.LoggerMgr :=
  if (s.appenders i).bHasFormatter = false then
    s.setAppender i { s.appenders i with mFormatter := (s.loggers l).mFormatter }
  else s

/-- The loop reaches every appender without a formatter of its own, however often it is listed. -/
theorem foldl_giveFormatter (l : LoggerId) (s : SvrFrame.LoggerMgr) (list : List AppenderId) :
    list.foldl (giveFormatter l) s = { s with
      appenders := fun a =>
        if a ∈ list ∧ (s.appenders a).bHasFormatter = false then
          { s.appenders a with mFormatter := (s.loggers l).mFormatter }
        else s.appenders a } := by
  induction list generalizing s with
  | nil => simp
  | cons i list ih =>
    rw [List.foldl_cons, ih, giveFormatter]
    by_cases hi : (s.appenders i).bHasFormatter = false
    · rw [if_pos hi]
      simp only [SvrFrame.LoggerMgr.setAppender]
      congr 1
      funext a
      by_cases ha : a = i
      · subst ha
        simp [hi]
      · simp [ha]
    · rw [if_neg hi]
      congr 1
      funext a
      by_cases ha : a = i
      · subst ha
        simp [hi]
      · simp [ha]

theorem setFormatter_alone (l : LoggerId) (val : Option LogFormatter) :
    (setFormatter l val : Prog V Unit).alone s = some ((), { s with
      mgr := s.mgr.setFormatter l val }) := by
  have hturn (s : Shared V) (i : AppenderId) :
      (withLock (.appender i) .exclusive (do
        let own ← ofMgr fun s => (s.appenders i).bHasFormatter
        when (own = false) do
          onMgr fun s => s.setAppender i
            { s.appenders i with mFormatter := (s.loggers l).mFormatter }) : Prog V Unit).alone s =
        some ((), { s with mgr := giveFormatter l s.mgr i }) := by
    simp only [alone_withLock, alone_bind, alone_ofMgr, Option.bind_some, alone_when, alone_onMgr,
      giveFormatter]
    split <;> rfl
  simp only [setFormatter, alone_withLock, alone_bind, alone_onMgr, alone_ofMgr, Option.bind_some]
  rw [alone_forM _ hturn]
  have hloop (m : SvrFrame.LoggerMgr) (list : List AppenderId) :
      list.foldl (fun s i => { s with mgr := giveFormatter l s.mgr i }) { s with mgr := m } =
        { s with mgr := list.foldl (giveFormatter l) m } :=
    List.foldl_hom (fun m => { s with mgr := m }) fun _ _ => rfl
  rw [hloop, foldl_giveFormatter]
  simp [SvrFrame.LoggerMgr.setFormatter]

theorem setPattern_alone (l : LoggerId) {val : String}
    (h : (LogFormatter.new val).isError = false) : (setPattern l val : Prog V Unit).alone s =
      some ((), { s with mgr := s.mgr.setPattern l val }) := by
  simp only [setPattern, SvrFrame.LoggerMgr.setPattern, h]
  exact setFormatter_alone s l _

theorem toYamlString_alone (l : LoggerId) : (toYamlString e l).alone s =
    some (s.mgr.loggerToYamlString e.y l, s) := by
  rw [toYamlString, alone_withLock, alone_lift_bind s (alone_ofMgr s _)]
  refine alone_except_bind s (alone_foldlM s (fun node i => ?_) _) fun node => rfl
  rw [alone_lift_bind s (LogAppender.toYamlString_alone e s i)]
  exact alone_except_bind s rfl fun i => rfl

end Logger

namespace LoggerMgr

theorem getLogger_alone (name : String) : (getLogger name : Prog V LoggerId).alone s =
    some ((s.mgr.getLogger name).2, { s with mgr := (s.mgr.getLogger name).1 }) := by
  rw [getLogger, alone_withLock, alone_exchange]

theorem toYamlString_alone :
    (toYamlString e).alone s = some (s.mgr.toYamlString e.y, s) := by
  rw [toYamlString, alone_withLock, alone_lift_bind s (alone_ofMgr s _)]
  refine alone_except_bind s (alone_foldlM s (fun node i => ?_) _) fun node => rfl
  refine alone_except_bind s (Logger.toYamlString_alone e s i.2) fun text => ?_
  exact alone_except_bind s rfl fun i => rfl

end LoggerMgr

/-! ### One call after another -/

/-- The call of a thread for an action of the sequential model. -/
def Op.ofAct : SvrFrame.LoggerMgr.Act → Op V
  | .getLogger name => .getLogger name
  | .setLevel l level => .setLevel l level
  | .setFormatter l val => .setFormatter l (val.map .new)
  | .setPattern l val => .setPattern l val
  | .newStdOut => .newStdOut
  | .newFile name _ _ => .newFile name
  | .newClosedFile _ => .newClosedFile
  | .addAppender l a => .addAppender l a
  | .delAppender l a => .delAppender l a
  | .clearAppenders l => .clearAppenders l
  | .setAppenderLevel a level => .appenderSetLevel a level
  | .setAppenderFormatter a val => .appenderSetFormatter a (val.map .new)

/-- The answers from outside are those of the action, and its pattern does not end up on the
standard output as invalid. -/
def Answered (s : Shared V) : SvrFrame.LoggerMgr.Act → Prop
  | .newFile _ lastTime opens =>
    (e.outside s.asked).lastTime = lastTime ∧ (e.outside (s.asked + 1)).io.opens = opens
  | .newClosedFile lastTime => (e.outside s.asked).lastTime = lastTime
  | .setPattern _ val => (LogFormatter.new val).isError = false
  | _ => True

variable [DecidableEq Ty]

/-- A call that runs alone does what the sequential model says. -/
theorem Op.ofAct_alone {act : SvrFrame.LoggerMgr.Act} (h : Answered e s act)
    (hm : s.mgr.step act = some m) : ∃ asked,
      ((Op.ofAct act : Op V).prog e).alone s = some ((), { s with mgr := m, asked := asked }) := by
  cases act with
  | getLogger name =>
    cases hm
    exact ⟨s.asked, by simp [ofAct, prog, ignore, LoggerMgr.getLogger_alone]⟩
  | setLevel l level => cases hm; exact ⟨s.asked, rfl⟩
  | setFormatter l val => cases hm; exact ⟨s.asked, Logger.setFormatter_alone s l _⟩
  | setPattern l val => cases hm; exact ⟨s.asked, Logger.setPattern_alone s l h⟩
  | newStdOut => cases hm; exact ⟨s.asked, rfl⟩
  | newFile name lastTime opens =>
    cases hm
    obtain ⟨rfl, rfl⟩ := h
    exact ⟨s.asked + 2, by simp [ofAct, prog, ignore, FileAppender.new_alone]⟩
  | newClosedFile lastTime =>
    cases hm
    cases h
    exact ⟨s.asked + 1, rfl⟩
  | addAppender l a => cases hm; exact ⟨s.asked, Logger.addAppender_alone s l a⟩
  | delAppender l a => cases hm; exact ⟨s.asked, rfl⟩
  | clearAppenders l => cases hm; exact ⟨s.asked, rfl⟩
  | setAppenderLevel a level => cases hm; exact ⟨s.asked, rfl⟩
  | setAppenderFormatter a val => cases hm; exact ⟨s.asked, rfl⟩

namespace Process
variable {n : Nat} {s s' : Process n V}

/-- While all threads are idle, a call of one of them comes to its end. -/
theorem reach_call {out : Output}
    (h : Reach (step e) (fun _ _ => True) (Threads.start (.initial out)) s)
    (hidle : ∀ u, (s.prog u).isDone = true) (t : Fin n) {op : Op V}
    (halone : (op.prog e).alone s.shared = some ((), shared)) :
    Reach (step e) (fun _ _ => True) s { s with shared := shared } := by
  have hs := disciplined e h
  have hheld (u : Fin n) : s.held u = [] := hs.held_of_isDone (hidle u)
  have hcall : step e s (.call t op) = some (s.goto t (op.prog e)) := if_pos (hidle t)
  have hrun : Reach (step e) (fun _ _ => True) (s.withThread t s.shared [] (op.prog e))
      (s.withThread t shared [] (.done ())) :=
    Threads.reach_alone (fun u _ => hheld u) (Op.prog_inOrder e op [] (by simp)) hs.shared halone
  have hfirst : s.withThread t s.shared [] (op.prog e) = s.goto t (op.prog e) := by
    rw [Threads.withThread, ← hheld t, Function.update_eq_self]
    rfl
  have hlast : s.withThread t shared [] (.done ()) = { s with shared := shared } := by
    have hprog : s.prog t = .done () := by
      have ht := hidle t
      cases hp : s.prog t with
      | done a => rfl
      | _ =>
        rw [hp] at ht
        cases ht
    rw [Threads.withThread, ← hheld t, ← hprog, Function.update_eq_self, Function.update_eq_self]
  rw [hfirst, hlast] at hrun
  exact (Reach.tail .refl trivial hcall).trans hrun

/-- While all threads are idle, a call leaves the loggers as the sequential model says. -/
theorem reach_act {out : Output}
    (h : Reach (step e) (fun _ _ => True) (Threads.start (.initial out)) s)
    (hidle : ∀ u, (s.prog u).isDone = true) (t : Fin n) {act : SvrFrame.LoggerMgr.Act}
    (hact : Answered e s.shared act) (hm : s.shared.mgr.step act = some m) : ∃ asked,
      Reach (step e) (fun _ _ => True) s
        { s with shared := { s.shared with mgr := m, asked := asked } } := by
  obtain ⟨asked, halone⟩ := Op.ofAct_alone e s.shared hact hm
  exact ⟨asked, reach_call e h hidle t halone⟩

end Process

end Locking
end SvrFrame
