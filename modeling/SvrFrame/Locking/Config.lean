import SvrFrame.Config.Load
import SvrFrame.Yaml.Flow
import SvrFrame.Locking.Log

namespace SvrFrame
namespace Locking
open Library LockProg
set_option autoImplicit true

variable {Ty : Type} {V : Ty → Type} (e : Env V)

/-! ### What comes with the type of a variable -/

namespace Env

def toStr : (ty : VarType Ty) → ty.Val V → Except Exn String
  | .logDefines, val => Config.encodeSeq e.y (fun i => .ok (LogDefine.encode e.y i)) val.elems
  | .other ty, val => (e.cast ty).toStr val

def fromStr : (ty : VarType Ty) → String → Except Exn (ty.Val V)
  | .logDefines, text => SvrFrame.LoggerMgr.decodeDefines e.y text
  | .other ty, text => (e.cast ty).fromStr text

/-- `operator==`. -/
def eqVal : (ty : VarType Ty) → ty.Val V → ty.Val V → Bool
  | .logDefines, a, b => a = b
  | .other ty, a, b => e.eq ty a b

end Env

def Listener.notify {ty : VarType Ty} : Listener ty → ty.Val V → ty.Val V → Prog V Unit
  | .logIniter, old, new => LogIniter.onChange e old new

def ofVar (v : VarId Ty) (g : CfgVar V v.ty → α) : Prog V α := do
  match ← observe fun s => s.vars v with
  | some x => return g x
  | none => halt

/-! ### Variables -/

section
variable [DecidableEq Ty]

def Shared.setVal (s : Shared V) (v : VarId Ty) (val : v.ty.Val V) : Shared V :=
  { s with vars := Function.update s.vars v ((s.vars v).map fun x => { x with mVal := val }) }

namespace CfgVar

def toString (v : VarId Ty) : Prog V String := do
  let text ← withLock (.var v) .shared do
    let mVal ← ofVar v fun x => x.mVal
    return e.toStr v.ty mVal
  match text with
  | .ok text => return text
  | .error exn =>
    logRoot e .error do
      let mName ← ofVar v fun x => x.mName
      return "CfgVar::ToString exception " ++ e.what exn ++ " convert: " ++ e.typeName v.ty ++
        " to string name=" ++ mName
    return ""

def getValue (v : VarId Ty) : Prog V (v.ty.Val V) :=
  withLock (.var v) .shared (ofVar v fun x => x.mVal)

/-- The listeners run under the read lock; the write lock is taken after it is given back. -/
def setValue (v : VarId Ty) (val : v.ty.Val V) : Prog V Unit := do
  let changed ← withLock (.var v) .shared do
    let mVal ← ofVar v fun x => x.mVal
    if e.eqVal v.ty mVal val then return false
    else
      let mCbs ← ofVar v fun x => x.mCbs
      mCbs.forM fun cb => cb.notify e mVal val
      return true
  when changed (withLock (.var v) .exclusive (change fun s => s.setVal v val))

/-- `FromString`, which catches what the conversion throws. -/
def fromString (v : VarId Ty) (val : String) : Prog V Bool := do
  match e.fromStr v.ty val with
  | .ok val => setValue e v val
  | .error exn =>
    logRoot e .error do
      let mName ← ofVar v fun x => x.mName
      return "CfgVar::FromString exception " ++ e.what exn ++ " convert: string to " ++
        e.typeName v.ty ++ " name=" ++ mName ++ " - " ++ val
  return false

end CfgVar

/-! ### The registry -/

namespace Config

def newVar (ty : VarType Ty) (name : String) (defaultValue : ty.Val V) : Prog V (VarId Ty) :=
  exchange fun s =>
    let v : VarId Ty := ⟨ty, s.nextVar⟩
    (v, { s with
      datas := Function.update s.datas name (some v)
      vars := Function.update s.vars v (some ⟨name, defaultValue, []⟩)
      nextVar := s.nextVar + 1 })

/-- `LookUp` with a default value; a name that is not legal is thrown. -/
def lookUp (ty : VarType Ty) (name : String) (defaultValue : ty.Val V) :
    Prog V (Except Exn (Option (VarId Ty))) :=
  withLock .datas .exclusive do
    match ← observe fun s => s.datas name with
    | some v =>
      if v.ty = ty then
        logRoot e .info (pure ("Lookup name=" ++ name ++ " exists"))
        return .ok (some v)
      else
        logRoot e .error do
          let text ← CfgVar.toString e v
          return "Lookup name=" ++ name ++ " exists but type not " ++ e.typeName ty ++
            " real_type=" ++ e.typeName v.ty ++ " " ++ text
        return .ok none
    | none =>
      if SvrFrame.Config.validName name then
        let v ← newVar ty name defaultValue
        return .ok (some v)
      else
        logRoot e .error (pure "Lookup name invalid")
        return .error (.logicError name)

/-- `LookUp` without a default value. -/
def find (ty : VarType Ty) (name : String) : Prog V (Option (VarId Ty)) :=
  withLock .datas .shared (observe fun s => (s.datas name).filter fun v => v.ty = ty)

def lookUpBase (name : String) : Prog V (Option (VarId Ty)) :=
  withLock .datas .shared (observe fun s => s.datas name)

def logInvalid (name : String) (node : Node) : Prog V Unit := do
  let gLogger ← observe fun s => s.gLogger
  logText e gLogger .error
    (pure ("Config invalid name, prefix: " ++ name ++ " node: " ++ e.y.emit node))

mutual
def listAllMember (name : String) : Node → Prog V (List (String × Node))
  | .map es =>
    if SvrFrame.Config.validName name then do
      let output ← listEntries name es
      return (name, .map es) :: output
    else do
      logInvalid e name (.map es)
      return []
  | node =>
    if SvrFrame.Config.validName name then pure [(name, node)]
    else do
      logInvalid e name node
      return []

def listEntries (name : String) : List (Node × Node) → Prog V (List (String × Node))
  | [] => pure []
  | (k, v) :: es => do
    let first ← listAllMember (SvrFrame.Config.memberName name k) v
    let rest ← listEntries name es
    return first ++ rest
end

/-- The turn of the loop for one node. -/
def loadNode (i : String × Node) : Prog V Unit :=
  when (i.1 ≠ "") do
    let var ← lookUpBase (SvrFrame.Config.toLower i.1)
    match var with
    | some v => do
      let _ ← CfgVar.fromString e v (SvrFrame.Config.memberText e.y i.2)
    | none => pure ()

def loadFromYaml (root : Node) : Prog V Unit := do
  let allNodes ← listAllMember e "" root
  allNodes.forM (loadNode e)

end Config

/-! ### The registry comes before the variables, and these before what the listener locks -/

theorem ofVar_inOrder (v : VarId Ty) (g : CfgVar V v.ty → α) : InOrder b (ofVar v g) := by
  apply Above.observe_bind
  intro s _
  split
  · exact .pure _
  · exact Above.halt

theorem Listener.notify_inOrder {ty : VarType Ty} (cb : Listener ty) (old new : ty.Val V) :
    InOrder 2 (cb.notify e old new) := by
  cases cb with
  | logIniter => exact LogIniter.onChange_inOrder e old new

namespace CfgVar

theorem withVar_inOrder (v : VarId Ty) (mode : LockMode) {p : Prog V α} (hp : InOrder 2 p) :
    InOrder 1 (withLock (.var v) mode p) :=
  Above.withLock (Nat.le_refl 1) (Nat.lt_succ_self 1) hp

theorem toString_inOrder (v : VarId Ty) : InOrder 1 (toString e v) := by
  apply Above.bind (withVar_inOrder v _ ((ofVar_inOrder v _).bind fun mVal => .pure _))
  intro text
  cases text with
  | ok text => exact .pure text
  | error exn =>
    refine Above.bind (logRoot_inOrder e .error (by decide) ?_) fun _ => .pure ""
    exact (ofVar_inOrder v _).bind fun mName => .pure _

theorem getValue_inOrder (v : VarId Ty) : InOrder 1 (getValue v : Prog V (v.ty.Val V)) :=
  withVar_inOrder v _ (ofVar_inOrder v _)

theorem setValue_inOrder (v : VarId Ty) (val : v.ty.Val V) : InOrder 1 (setValue e v val) := by
  apply Above.bind
  · apply withVar_inOrder
    apply Above.bind (ofVar_inOrder v _)
    intro mVal
    split
    · exact .pure false
    · apply Above.bind (ofVar_inOrder v _)
      intro mCbs
      exact Above.bind (.forM fun cb => cb.notify_inOrder e mVal val) fun _ => .pure true
  · intro changed
    exact .when (withVar_inOrder v _ (Above.change fun _ hs => hs))

theorem fromString_inOrder (v : VarId Ty) (val : String) : InOrder 1 (fromString e v val) := by
  rw [fromString]
  split
  · exact (setValue_inOrder e v _).bind fun _ => .pure false
  · refine Above.bind (logRoot_inOrder e .error (by decide) ?_) fun _ => .pure false
    exact (ofVar_inOrder v _).bind fun mName => .pure _

end CfgVar

namespace Config

theorem withDatas_inOrder (mode : LockMode) {p : Prog V α} (hp : InOrder 1 p) :
    InOrder 0 (withLock .datas mode p) :=
  Above.withLock (Nat.le_refl 0) (Nat.lt_succ_self 0) hp

theorem lookUp_inOrder (ty : VarType Ty) (name : String) (defaultValue : ty.Val V) :
    InOrder 0 (lookUp e ty name defaultValue) := by
  apply withDatas_inOrder
  apply Above.observe_bind
  intro s _
  split
  · rename_i v _
    split
    · exact (logRoot_inOrder e .info (by decide) (.pure _)).bind fun _ => .pure _
    · refine Above.bind (logRoot_inOrder e .error (by decide) ?_) fun _ => .pure _
      exact (CfgVar.toString_inOrder e v).bind fun text => .pure _
  · split
    · exact Above.bind (.exchange fun _ hs => hs) fun v => .pure _
    · exact (logRoot_inOrder e .error (by decide) (.pure _)).bind fun _ => .pure _

theorem find_inOrder (ty : VarType Ty) (name : String) :
    InOrder 0 (find ty name : Prog V (Option (VarId Ty))) := withDatas_inOrder _ (Above.observe _)

theorem lookUpBase_inOrder (name : String) :
    InOrder 0 (lookUpBase name : Prog V (Option (VarId Ty))) :=
  withDatas_inOrder _ (Above.observe _)

theorem logInvalid_inOrder (name : String) (node : Node) : InOrder 3 (logInvalid e name node) :=
  Above.observe_bind fun _ _ => logText_inOrder e _ .error (Nat.le_refl 3) (.pure _)

mutual
theorem listAllMember_inOrder (name : String) (node : Node) :
    InOrder 3 (listAllMember e name node) := by
  cases node with
  | map es =>
    simp only [listAllMember]
    split
    · exact (listEntries_inOrder name es).bind fun output => .pure _
    · exact (logInvalid_inOrder e name _).bind fun _ => .pure []
  | _ =>
    simp only [listAllMember]
    split
    · exact .pure _
    · exact (logInvalid_inOrder e name _).bind fun _ => .pure []

theorem listEntries_inOrder (name : String) (es : List (Node × Node)) :
    InOrder 3 (listEntries e name es) := by
  cases es with
  | nil => exact .pure []
  | cons entry es =>
    obtain ⟨k, v⟩ := entry
    rw [listEntries]
    apply Above.bind (listAllMember_inOrder _ v)
    intro first
    exact (listEntries_inOrder name es).bind fun rest => .pure _
end

theorem loadNode_inOrder (i : String × Node) : InOrder 0 (loadNode e i) := by
  apply Above.when
  apply Above.bind (lookUpBase_inOrder _)
  intro var
  cases var with
  | some v => exact ((CfgVar.fromString_inOrder e v _).mono (Nat.zero_le 1)).bind fun _ => .pure _
  | none => exact .pure ()

theorem loadFromYaml_inOrder (root : Node) : InOrder 0 (loadFromYaml e root) := by
  apply Above.bind ((listAllMember_inOrder e "" root).mono (Nat.zero_le 3))
  intro allNodes
  exact .forM fun i => loadNode_inOrder e i

end Config

/-! ### Threads that log and configure -/

/-- What a thread may call. -/
inductive Op (V : Ty → Type) where
  | log (l : LoggerId) (level : LogLevel) (event : LogEvent)
  | addAppender (l : LoggerId) (a : AppenderId)
  | delAppender (l : LoggerId) (a : AppenderId)
  | setFormatter (l : LoggerId) (val : Option LogFormatter)
  | setPattern (l : LoggerId) (val : String)
  | clearAppenders (l : LoggerId)
  | loggerToYamlString (l : LoggerId)
  | setLevel (l : LoggerId) (level : LogLevel)
  | newStdOut
  | newFile (name : String)
  | newClosedFile
  | appenderLog (a : AppenderId) (level : LogLevel) (event : LogEvent)
  | appenderSetFormatter (a : AppenderId) (val : Option LogFormatter)
  | appenderGetFormatter (a : AppenderId)
  | appenderToYamlString (a : AppenderId)
  | appenderSetLevel (a : AppenderId) (level : LogLevel)
  | getLogger (name : String)
  | mgrToYamlString
  | lookUp (ty : VarType Ty) (name : String) (defaultValue : ty.Val V)
  | find (ty : VarType Ty) (name : String)
  | lookUpBase (name : String)
  | loadFromYaml (root : Node)
  | fromString (v : VarId Ty) (val : String)
  | setValue (v : VarId Ty) (val : v.ty.Val V)
  | toString (v : VarId Ty)
  | getValue (v : VarId Ty)

def Op.prog : Op V → Prog V Unit
  | .log l level event => Logger.log e l level event
  | .addAppender l a => Logger.addAppender l a
  | .delAppender l a => Logger.delAppender l a
  | .setFormatter l val => Logger.setFormatter l val
  | .setPattern l val => Logger.setPattern l val
  | .clearAppenders l => Logger.clearAppenders l
  | .loggerToYamlString l => (Logger.toYamlString e l).ignore
  | .setLevel l level => Logger.setLevel l level
  | .newStdOut => (newAppender .stdOut).ignore
  | .newFile name => (FileAppender.new e name).ignore
  | .newClosedFile => (FileAppender.newClosed e).ignore
  | .appenderLog a level event => LogAppender.log e a level event
  | .appenderSetFormatter a val => LogAppender.setFormatter a val
  | .appenderGetFormatter a => (LogAppender.getFormatter a).ignore
  | .appenderToYamlString a => (LogAppender.toYamlString e a).ignore
  | .appenderSetLevel a level => LogAppender.setLevel a level
  | .getLogger name => (LoggerMgr.getLogger name).ignore
  | .mgrToYamlString => (LoggerMgr.toYamlString e).ignore
  | .lookUp ty name defaultValue => (Config.lookUp e ty name defaultValue).ignore
  | .find ty name => (Config.find ty name).ignore
  | .lookUpBase name => (Config.lookUpBase name).ignore
  | .loadFromYaml root => Config.loadFromYaml e root
  | .fromString v val => (CfgVar.fromString e v val).ignore
  | .setValue v val => CfgVar.setValue e v val
  | .toString v => (CfgVar.toString e v).ignore
  | .getValue v => (CfgVar.getValue v).ignore

/-- The rank of the registry is the lowest. -/
theorem InOrder.all {p : Prog V α} (hp : InOrder b p) : InOrder 0 p := hp.mono (Nat.zero_le b)

theorem Op.prog_inOrder (op : Op V) : InOrder 0 (op.prog e) := by
  cases op with
  | log l level event => exact (Logger.log_inOrder e l level event).all
  | addAppender l a => exact (Logger.addAppender_inOrder l a).all
  | delAppender l a => exact (Logger.delAppender_inOrder l a).all
  | setFormatter l val => exact (Logger.setFormatter_inOrder l val).all
  | setPattern l val => exact (Logger.setPattern_inOrder l val).all
  | clearAppenders l => exact (Logger.clearAppenders_inOrder l).all
  | loggerToYamlString l => exact (Logger.toYamlString_inOrder e l).all.ignore
  | setLevel l level => exact Logger.setLevel_inOrder l level
  | newStdOut => exact (newAppender_inOrder .stdOut).ignore
  | newFile name => exact (FileAppender.new_inOrder e name).all.ignore
  | newClosedFile => exact (FileAppender.newClosed_inOrder e).ignore
  | appenderLog a level event => exact (LogAppender.log_inOrder e a level event).all
  | appenderSetFormatter a val => exact (LogAppender.setFormatter_inOrder a val).all
  | appenderGetFormatter a => exact (LogAppender.getFormatter_inOrder a).all.ignore
  | appenderToYamlString a => exact (LogAppender.toYamlString_inOrder e a).all.ignore
  | appenderSetLevel a level => exact LogAppender.setLevel_inOrder a level
  | getLogger name => exact (LoggerMgr.getLogger_inOrder name).all.ignore
  | mgrToYamlString => exact (LoggerMgr.toYamlString_inOrder e).all.ignore
  | lookUp ty name defaultValue => exact (Config.lookUp_inOrder e ty name defaultValue).ignore
  | find ty name => exact (Config.find_inOrder ty name).ignore
  | lookUpBase name => exact (Config.lookUpBase_inOrder name).ignore
  | loadFromYaml root => exact Config.loadFromYaml_inOrder e root
  | fromString v val => exact (CfgVar.fromString_inOrder e v val).all.ignore
  | setValue v val => exact (CfgVar.setValue_inOrder e v val).all
  | toString v => exact (CfgVar.toString_inOrder e v).all.ignore
  | getValue v => exact (CfgVar.getValue_inOrder v).all.ignore

abbrev Process (n : Nat) (V : Ty → Type) := Threads (Fin n) (Mutex Ty) (Shared V)

/-- What the initialisation of the statics leaves: the root logger and the logger `system`, and the
variable `logs` with its listener. -/
def Shared.initial (out : Output) : Shared V where
  mgr := ((LoggerMgr.fresh out).getLogger "system").1
  datas := Function.update (fun _ => none) "logs" (some ⟨.logDefines, 0⟩)
  vars := Function.update (fun _ => none) ⟨.logDefines, 0⟩
    (some ⟨"logs", OrdSet.empty, [.logIniter]⟩)
  nextVar := 1
  gLogger := ((LoggerMgr.fresh out).getLogger "system").2
  asked := 0

namespace Process
variable {n : Nat}

def step : Process n V → ThreadAct (Fin n) (Op V) → Option (Process n V) :=
  Threads.step (Op.prog e)

theorem disciplined {s : Process n V}
    (h : Reach (step e) (fun _ _ => True) (Threads.start (.initial out)) s) :
    s.Disciplined (fun s => RootFirst s.mgr) rank := by
  have hstart : (Threads.start (.initial out) : Process n V).Disciplined
      (fun s => RootFirst s.mgr) rank :=
    Threads.start_disciplined
      (RootFirst.getLogger ⟨LoggerMgr.fresh_rooted out, rfl⟩ "system")
  exact hstart.reach (Op.prog_inOrder e) h

/-- Threads that log and configure never wait for each other in a circle, and no thread waits for
itself. -/
theorem no_deadlock (out : Output) {s : Process n V}
    (h : Reach (step e) (fun _ _ => True) (Threads.start (.initial out)) s) (t : Fin n) :
    ¬ Relation.TransGen s.WaitsOn t t := (disciplined e h).no_cycle t

end Process
end

/-! ### Two threads that log -/

/-- No variables but those of `std::set<LogDefine>`, and a system that answers everything alike. -/
def plainEnv : Env (fun _ : Empty => Unit) where
  y := Flow.yaml
  outside _ := ⟨"Logger.cpp", 1, 1, 0, 0, ⟨true, true⟩, 0, fun _ _ => ""⟩
  cast ty := ty.elim
  eq ty := ty.elim
  typeName _ := "std::set<primo::LogDefine>"
  what _ := ""

def plainEvent : LogEvent := ⟨"main.cpp", 1, 0, 1, 0, 0, "Test Thread", "text", 0, .info⟩

/-- A thread that logs to `system`, which has no appenders, waits for one that logs to the root
logger. -/
theorem Process.no_deadlock_root : ∃ s : Process 2 (fun _ : Empty => Unit),
    Reach (step plainEnv) (fun _ _ => True) (Threads.start (.initial ⟨fun _ => "", ""⟩)) s ∧
      s.WaitsOn 0 1 ∧ ∀ t, ¬ Relation.TransGen s.WaitsOn t t := by
  obtain ⟨s, hs, hp⟩ := Reach.of_exec_map (step (n := 2) plainEnv) (fun _ _ => True)
    (Threads.start (.initial ⟨fun _ => "", ""⟩))
    [.call 0 (.log 1 .info plainEvent), .call 1 (.log 0 .info plainEvent), .next 0, .next 0,
      .next 0, .next 0, .next 0, .next 1, .next 1, .next 1]
    (fun s => decide (s.WaitsOn 0 1)) (by decide)
  exact ⟨s, hs, of_decide_eq_true hp, fun t => no_deadlock plainEnv _ hs t⟩

end Locking
end SvrFrame
