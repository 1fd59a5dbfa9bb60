import SvrFrame.Library.Guarded
import SvrFrame.Locking.Config

namespace SvrFrame
namespace Locking
open Library LockProg
set_option autoImplicit true

variable {Ty : Type} {V : Ty → Type} (e : Env V)

/-! ### What the locks protect -/

def stream (x : SvrFrame.LogAppender) : Option OFStream :=
  match x.sink with
  | .stdOut => none
  | .file f => some f.mFileStream

/-- What the lock protects of an object that exists: the registry, a variable, the map of the
loggers, the appenders and the formatter of a logger, the stream of an appender. The levels,
`mLastTime` and the formatter of an appender, which `AddAppender` sets without its lock, are not
among it. -/
def Untouched : Mutex Ty → Shared V → Shared V → Prop
  | .datas, s, s' => s'.datas = s.datas
  | .var v, s, s' => s.vars v ≠ none → s'.vars v = s.vars v
  | .mgr, s, s' => s'.mgr.mLoggers = s.mgr.mLoggers
  | .logger l, s, s' => l < s.mgr.nextLogger → l < s'.mgr.nextLogger ∧
      (s'.mgr.loggers l).mAppenderList = (s.mgr.loggers l).mAppenderList ∧
      (s'.mgr.loggers l).mFormatter = (s.mgr.loggers l).mFormatter
  | .appender a, s, s' => a < s.mgr.nextAppender → a < s'.mgr.nextAppender ∧
      (s'.mgr.appenders a).bHasFormatter = (s.mgr.appenders a).bHasFormatter ∧
      stream (s'.mgr.appenders a) = stream (s.mgr.appenders a)

instance : ∀ l : Mutex Ty, Std.Refl (Untouched (V := V) l)
  | .datas | .mgr => ⟨fun _ => rfl⟩
  | .var _ => ⟨fun _ _ => rfl⟩
  | .logger _ | .appender _ => ⟨fun _ h => ⟨h, rfl, rfl⟩⟩

instance : ∀ l : Mutex Ty, IsTrans (Shared V) (Untouched l)
  | .datas | .mgr => ⟨fun _ _ _ h h' => Eq.trans h' h⟩
  | .var _ => ⟨fun _ _ _ h h' hv => (h' (h hv ▸ hv)).trans (h hv)⟩
  | .logger _ | .appender _ => ⟨fun _ _ _ h h' hl =>
    have hfirst := h hl
    have hnext := h' hfirst.1
    ⟨hnext.1, hnext.2.1.trans hfirst.2.1, hnext.2.2.trans hfirst.2.2⟩⟩

/-- No variable has an address that has not been given out. -/
def Fresh (s : Shared V) : Prop := ∀ v : VarId Ty, s.nextVar ≤ v.id → s.vars v = none

variable {K : HeldLocks (Mutex Ty)}

/-- A change of the manager by a thread that holds the locks. -/
structure Spared (K : HeldLocks (Mutex Ty)) (m m' : SvrFrame.LoggerMgr) : Prop where
  mgr : (.mgr, .exclusive) ∉ K → m'.mLoggers = m.mLoggers
  logger : ∀ l, (.logger l, .exclusive) ∉ K → l < m.nextLogger → l < m'.nextLogger ∧
    (m'.loggers l).mAppenderList = (m.loggers l).mAppenderList ∧
    (m'.loggers l).mFormatter = (m.loggers l).mFormatter
  appender : ∀ a, (.appender a, .exclusive) ∉ K → a < m.nextAppender → a < m'.nextAppender ∧
    (m'.appenders a).bHasFormatter = (m.appenders a).bHasFormatter ∧
    stream (m'.appenders a) = stream (m.appenders a)

namespace Spared
variable {m : SvrFrame.LoggerMgr}

/-- Where the loggers and the appenders are left as they are. -/
theorem output (m : SvrFrame.LoggerMgr) (out : Output) (written : List Record) :
    Spared K m { m with out := out, written := written } :=
  ⟨fun _ => rfl, fun _ _ hl => ⟨hl, rfl, rfl⟩, fun _ _ ha => ⟨ha, rfl, rfl⟩⟩

theorem setAppender {x : SvrFrame.LogAppender} (h : (.appender a, .exclusive) ∈ K ∨
    (x.bHasFormatter = (m.appenders a).bHasFormatter ∧ stream x = stream (m.appenders a))) :
    Spared K m (m.setAppender a x) := by
  refine ⟨fun _ => rfl, fun _ _ hl => ⟨hl, rfl, rfl⟩, fun b hb hlt => ⟨hlt, ?_⟩⟩
  by_cases hba : b = a
  · subst hba
    simpa using h.resolve_left hb
  · simp [hba]

theorem setLogger {k : SvrFrame.Logger} (h : (.logger l, .exclusive) ∈ K ∨
    (k.mAppenderList = (m.loggers l).mAppenderList ∧ k.mFormatter = (m.loggers l).mFormatter)) :
    Spared K m (m.setLogger l k) := by
  refine ⟨fun _ => rfl, fun l' hl hlt => ⟨hlt, ?_⟩, fun _ _ ha => ⟨ha, rfl, rfl⟩⟩
  by_cases hll : l' = l
  · subst hll
    simpa using h.resolve_left hl
  · simp [hll]

theorem newAppender (m : SvrFrame.LoggerMgr) (x : SvrFrame.LogAppender) :
    Spared K m (m.newAppender x) := by
  refine ⟨fun _ => rfl, fun _ _ hl => ⟨hl, rfl, rfl⟩, fun a _ ha => ⟨Nat.lt_succ_of_lt ha, ?_⟩⟩
  simp [Nat.ne_of_lt ha]

theorem getLogger (m : SvrFrame.LoggerMgr) (name : String) (h : (.mgr, .exclusive) ∈ K) :
    Spared K m (m.getLogger name).1 := by
  simp only [SvrFrame.LoggerMgr.getLogger]
  split
  · exact ⟨fun _ => rfl, fun _ _ hl => ⟨hl, rfl, rfl⟩, fun _ _ ha => ⟨ha, rfl, rfl⟩⟩
  · refine ⟨fun hnot => absurd h hnot, fun l _ hl => ⟨Nat.lt_succ_of_lt hl, ?_⟩,
      fun _ _ ha => ⟨ha, rfl, rfl⟩⟩
    simp [Nat.ne_of_lt hl]

end Spared

theorem spared_respects {s : Shared V} {m : SvrFrame.LoggerMgr} (h : Spared K s.mgr m) :
    Respects Untouched K s { s with mgr := m } := by
  intro l hl
  cases l with
  | datas => exact rfl
  | var v => exact fun _ => rfl
  | mgr => exact h.mgr hl
  | logger l => exact h.logger l hl
  | appender a => exact h.appender a hl

variable [DecidableEq Ty]

/-- The program changes only what the locks `K` protect and those that it takes itself. -/
abbrev Obeying (K : HeldLocks (Mutex Ty)) (p : Prog V α) : Prop := p.Under Fresh Untouched K

theorem onMgr_obeys {f : SvrFrame.LoggerMgr → SvrFrame.LoggerMgr} (h : ∀ m, Spared K m (f m)) :
    Obeying K (onMgr f : Prog V Unit) :=
  Under.change fun s hs => ⟨hs, spared_respects (h s.mgr)⟩

theorem ofMgr_obeys (g : SvrFrame.LoggerMgr → α) : Obeying K (ofMgr g : Prog V α) :=
  Under.observe _

theorem ofMgr_bind_obeys {g : SvrFrame.LoggerMgr → α} {f : α → Prog V β}
    (hf : ∀ a, Obeying K (f a)) : Obeying K (ofMgr g >>= f) := Under.observe_bind hf

/-! ### Appenders -/

theorem ask_obeys : Obeying K (ask e) := by
  apply Under.exchange
  intro s hs
  refine ⟨hs, fun l _ => ?_⟩
  cases l with
  | datas | mgr => exact rfl
  | var v => exact fun _ => rfl
  | logger l | appender a => exact fun h => ⟨h, rfl, rfl⟩

theorem print_obeys (text : String) : Obeying K (print text : Prog V Unit) :=
  onMgr_obeys fun m => .output m _ m.written

theorem noteRecord_obeys (a : AppenderId) (level : LogLevel) (event : LogEvent) :
    Obeying K (noteRecord a level event : Prog V Unit) := onMgr_obeys fun m => .output m m.out _

/-- A change of the stream needs the lock of the appender. -/
theorem onFile_obeys {f : FileSink → Output → FileSink × Output}
    (h : (.appender a, .exclusive) ∈ K ∨ ∀ x out, (f x out).1.mFileStream = x.mFileStream) :
    Obeying K (onFile a f : Prog V Unit) := by
  apply onMgr_obeys
  intro m
  split
  · exact .output m m.out m.written
  · rename_i x hx
    have hset : Spared K m
        (m.setAppender a { m.appenders a with sink := .file (f x m.out).1 }) := by
      apply Spared.setAppender
      refine h.imp_right fun hstream => ⟨rfl, ?_⟩
      simp only [stream, hx, hstream]
    exact ⟨hset.mgr, hset.logger, hset.appender⟩

theorem format_obeys (a : AppenderId) (level : LogLevel) (event : LogEvent) :
    Obeying K (format e a level event) := by
  apply Under.bind (ask_obeys e)
  intro now
  apply ofMgr_bind_obeys
  intro fmt
  cases fmt with
  | none => exact Under.halt
  | some fmt => exact ofMgr_obeys _

namespace LogAppender

end LogAppender

theorem StdOutAppender.log_obeys (a : AppenderId) (level : LogLevel) (event : LogEvent) :
    Obeying K (StdOutAppender.log e a level event) := by
  apply ofMgr_bind_obeys
  intro mLevel
  apply Under.when
  apply Under.withLock
  apply Under.bind (format_obeys e a level event)
  intro text
  exact (noteRecord_obeys a level event).bind fun _ => print_obeys _

namespace FileAppender

theorem reOpen_obeys (a : AppenderId) : Obeying K (reOpen e a) :=
  (ask_obeys e).bind fun _ => Under.withLock (onFile_obeys (.inl List.mem_cons_self))

theorem log_obeys (a : AppenderId) (level : LogLevel) (event : LogEvent) :
    Obeying K (log e a level event) := by
  apply ofMgr_bind_obeys
  intro mLevel
  apply Under.when
  apply ofMgr_bind_obeys
  intro lastTime
  apply Under.bind
  · apply Under.when
    apply Under.bind (reOpen_obeys e a)
    -- `mLastTime` is set without the lock
    exact fun _ => onFile_obeys (.inr fun _ _ => rfl)
  · intro _
    apply Under.withLock
    apply Under.bind (format_obeys e a level event)
    intro text
    apply Under.bind (noteRecord_obeys a level event)
    intro _
    apply Under.bind (ask_obeys e)
    intro now
    apply Under.bind (onFile_obeys (.inl List.mem_cons_self))
    intro _
    exact ofMgr_bind_obeys fun _ => .when (print_obeys _)

end FileAppender

namespace LogAppender

theorem log_obeys (a : AppenderId) (level : LogLevel) (event : LogEvent) :
    Obeying K (log e a level event) := by
  apply ofMgr_bind_obeys
  intro file
  split
  · exact FileAppender.log_obeys e a level event
  · exact StdOutAppender.log_obeys e a level event

theorem toYamlString_obeys (a : AppenderId) : Obeying K (toYamlString e a) := by
  apply ofMgr_bind_obeys
  intro file
  split
  · exact Under.withLock (ofMgr_obeys _)
  · exact ofMgr_obeys _

end LogAppender

/-! ### Loggers -/

namespace Logger

theorem toYamlString_obeys (l : LoggerId) : Obeying K (toYamlString e l) := by
  apply Under.withLock
  apply Under.lift_bind (ofMgr_obeys _)
  intro k
  refine Under.except_bind (Under.except_foldlM (fun node i => ?_) _) fun node => .pure _
  apply Under.lift_bind (LogAppender.toYamlString_obeys e i)
  intro text
  exact Under.except_bind (.pure _) fun i => .pure _

theorem logAt_obeys (level : LogLevel) (event : LogEvent) (fuel : Nat) (l : LoggerId) :
    Obeying K (logAt e level event fuel l) := by
  induction fuel generalizing l K with
  | zero => exact Under.halt
  | succ fuel ih =>
    apply ofMgr_bind_obeys
    intro mLevel
    apply Under.when
    apply Under.withLock
    apply ofMgr_bind_obeys
    intro k
    split
    · exact ih _
    · exact Under.forM fun itr => LogAppender.log_obeys e itr level event

theorem log_obeys (l : LoggerId) (level : LogLevel) (event : LogEvent) :
    Obeying K (log e l level event) := ofMgr_bind_obeys fun _ => logAt_obeys e level event _ l

end Logger

theorem logText_obeys (l : LoggerId) (level : LogLevel) {text : Prog V String}
    (htext : Obeying K text) : Obeying K (logText e l level text) := by
  apply ofMgr_bind_obeys
  intro mLevel
  apply Under.when
  apply Under.bind (ask_obeys e)
  intro now
  exact htext.bind fun content => Logger.log_obeys e l level _

namespace LoggerMgr

theorem toYamlString_obeys : Obeying K (toYamlString e) := by
  apply Under.withLock
  apply Under.lift_bind (ofMgr_obeys _)
  intro k
  refine Under.except_bind (Under.except_foldlM (fun node i => ?_) _) fun node => .pure _
  apply Under.except_bind (Logger.toYamlString_obeys e i.2)
  intro text
  exact Under.except_bind (.pure _) fun i => .pure _

end LoggerMgr

/-! ### The listener -/

namespace LogIniter

end LogIniter

namespace CfgVar

end CfgVar

namespace Config

theorem logInvalid_obeys (name : String) (node : Node) : Obeying K (logInvalid e name node) :=
  Under.observe_bind fun _ => logText_obeys e _ .error (.pure _)

mutual
theorem listAllMember_obeys (name : String) (node : Node) :
    Obeying K (listAllMember e name node) := by
  cases node with
  | map es =>
    simp only [listAllMember]
    split
    · exact (listEntries_obeys name es).bind fun output => .pure _
    · exact (logInvalid_obeys e name _).bind fun _ => .pure []
  | _ =>
    simp only [listAllMember]
    split
    · exact .pure _
    · exact (logInvalid_obeys e name _).bind fun _ => .pure []

theorem listEntries_obeys (name : String) (es : List (Node × Node)) :
    Obeying K (listEntries e name es) := by
  cases es with
  | nil => exact .pure []
  | cons entry es =>
    obtain ⟨k, v⟩ := entry
    rw [listEntries]
    apply Under.bind (listAllMember_obeys _ v)
    intro first
    exact (listEntries_obeys name es).bind fun rest => .pure _
end

end Config

namespace Process
variable {n : Nat}

end Process
end Locking
end SvrFrame
