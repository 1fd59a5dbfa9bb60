import SvrFrame.Fiber
import Mathlib.Tactic.Simps.Basic

namespace SvrFrame
open Library
set_option autoImplicit true

abbrev WorkerId := Nat

/-- A `std::function<void()>`, known by its identity only. -/
abbrev Callback := Nat

/-- What an entry of `m_fibers` asks to run; an entry with neither is never queued. -/
inductive Task where
  | fiber (f : FiberId)
  | cb (c : Callback)
  deriving DecidableEq, Repr

/-- `FiberAndThread`; no thread is the source's `-1`. -/
structure FiberAndThread where
  task : Task
  thread : Option WorkerId
  deriving DecidableEq, Repr

/-- The part of a `Fiber` the scheduler's threads share. -/
structure FiberCell where
  mState : FiberState
  mCallback : Option Callback
  /-- The saved context stands behind the last switch of `MainFunc`. -/
  ended : Bool
  deriving DecidableEq, Repr

/-- The variable of `run` that holds the fiber being resumed: `ft.fiber` or `cb_fiber`. -/
inductive Site where
  | own
  | cb
  deriving DecidableEq, Repr

/-- Where a worker stands in `Scheduler::run`, or in the code `run` has switched to. -/
inductive Pc where
  | unborn
  | scan
  | picked (t : Task)
  | resume (site : Site) (f : FiberId)
  | enter (site : Site) (f : FiberId)
  | run (site : Site) (f : FiberId)
  | leave (site : Site) (f : FiberId)
  | back (site : Site) (f : FiberId)
  | after (site : Site) (f : FiberId)
  | dropped
  | missed
  | idleEnter
  | idleRun
  | idleLeave
  | idleBack
  | idleAfter
  | left
  deriving DecidableEq, Repr

/-- The worker has picked an entry and not yet executed the matching decrement. -/
def Pc.carries : Pc → Bool
  | .picked _ | .resume _ _ | .enter _ _ | .run _ _ | .leave _ _ | .back _ _ | .dropped => true
  | _ => false

structure Worker where
  pc : Pc
  cbFiber : Option FiberId
  /-- The state of `idle_fiber`, which no other thread can name. -/
  idleState : FiberState
  deriving DecidableEq, Repr

/-- How far the thread that owns the scheduler has come with `start` and `stop`. -/
inductive Phase where
  | fresh
  | started
  | stopping
  | stopped
  | joining
  deriving DecidableEq, Repr

/-- A scheduler with its worker threads and their fibers. -/
structure Scheduler where
  fibers : FiberId → FiberCell
  nextFiber : FiberId
  mFibers : List FiberAndThread
  mThreadCount : Nat
  mActiveThreadCount : Int
  mIdleThreadCount : Int
  mStopping : Bool
  mAutoStop : Bool
  /-- With `use_caller`, the worker that `stop` calls; else the source's `-1`. -/
  mRootThread : Option WorkerId
  phase : Phase
  workers : WorkerId → Worker

namespace Scheduler

/-- The workers that `start` makes are numbered from zero, the caller's thread comes last. -/
def initial (threads : Nat) (useCaller : Bool) : Scheduler where
  fibers := fun _ => ⟨.init, none, false⟩
  nextFiber := 0
  mFibers := []
  mThreadCount := if useCaller then threads - 1 else threads
  mActiveThreadCount := 0
  mIdleThreadCount := 0
  mStopping := true
  mAutoStop := false
  mRootThread := if useCaller then some (threads - 1) else none
  phase := .fresh
  workers := fun _ => ⟨.unborn, none, .init⟩

/-- The threads that ever execute `run`. -/
def workerCount (s : Scheduler) : Nat :=
  s.mThreadCount + if s.mRootThread.isSome then 1 else 0

def pcOf (s : Scheduler) (w : WorkerId) : Pc := (s.workers w).pc

def cbOf (s : Scheduler) (w : WorkerId) : Option FiberId := (s.workers w).cbFiber

def idleOf (s : Scheduler) (w : WorkerId) : FiberState := (s.workers w).idleState

def stateOf (s : Scheduler) (f : FiberId) : FiberState := (s.fibers f).mState

@[simps] def setWorker (s : Scheduler) (w : WorkerId) (k : Worker) : Scheduler :=
  { s with workers := Function.update s.workers w k }

@[simps!] def setPc (s : Scheduler) (w : WorkerId) (pc : Pc) : Scheduler :=
  s.setWorker w { s.workers w with pc := pc }

@[simps!] def setIdle (s : Scheduler) (w : WorkerId) (pc : Pc) (st : FiberState) : Scheduler :=
  s.setWorker w { s.workers w with pc := pc, idleState := st }

@[simps] def setCell (s : Scheduler) (f : FiberId) (x : FiberCell) : Scheduler :=
  { s with fibers := Function.update s.fibers f x }

@[simps!] def setState (s : Scheduler) (f : FiberId) (st : FiberState) : Scheduler :=
  s.setCell f { s.fibers f with mState := st }

/-- The end of `schedule`: `scheduleNoLock` appends the entry. -/
@[simps] def push (s : Scheduler) (e : FiberAndThread) : Scheduler :=
  { s with mFibers := s.mFibers ++ [e] }

/-- A `Fiber::ptr` has to point to a fiber somebody has made. -/
def schedule (s : Scheduler) (t : Task) (thread : Option WorkerId) : Option Scheduler :=
  match t with
  | .fiber f => if f < s.nextFiber then some (s.push ⟨t, thread⟩) else none
  | .cb _ => some (s.push ⟨t, thread⟩)

/-- The entries the scan of worker `w` does not step over. -/
def eligible (s : Scheduler) (w : WorkerId) (e : FiberAndThread) : Bool :=
  decide (e.thread = none ∨ e.thread = some w) &&
    match e.task with
    | .fiber f => decide (s.stateOf f ≠ .exec)
    | .cb _ => true

def isStopping (s : Scheduler) : Bool :=
  s.mAutoStop && s.mStopping && s.mFibers.isEmpty && s.mActiveThreadCount == 0

/-- The scan erases the first eligible entry and increments `m_activeThreadCount`. -/
@[simps] def take (s : Scheduler) (w : WorkerId) : Scheduler :=
  { s with
    mFibers := s.mFibers.eraseP (s.eligible w)
    mActiveThreadCount := s.mActiveThreadCount + 1 }

@[simps] def makeFiber (s : Scheduler) (c : Callback) : Scheduler :=
  { s with
    nextFiber := s.nextFiber + 1
    fibers := Function.update s.fibers s.nextFiber ⟨.init, some c, false⟩ }

/-- `Fiber::Reset` without its assertions. -/
@[simps!] def reset (s : Scheduler) (f : FiberId) (cb : Option Callback) : Scheduler :=
  s.setCell f ⟨.init, cb, false⟩

def resettable (st : FiberState) : Bool := st = .term || st = .except || st = .init

@[simps] def decActive (s : Scheduler) : Scheduler :=
  { s with mActiveThreadCount := s.mActiveThreadCount - 1 }

@[simps] def incIdle (s : Scheduler) : Scheduler :=
  { s with mIdleThreadCount := s.mIdleThreadCount + 1 }

@[simps] def decIdle (s : Scheduler) : Scheduler :=
  { s with mIdleThreadCount := s.mIdleThreadCount - 1 }

@[simps!] def adoptCb (s : Scheduler) (w : WorkerId) (f : FiberId) : Scheduler :=
  s.setWorker w { s.workers w with pc := .resume .cb f, cbFiber := some f }

@[simps!] def releaseCb (s : Scheduler) (w : WorkerId) : Scheduler :=
  s.setWorker w { s.workers w with pc := .scan, cbFiber := none }

/-- The tests on the state of a queued fiber after its `SwapIn` has returned. -/
def afterOwn (s : Scheduler) (w : WorkerId) (f : FiberId) : Scheduler :=
  if s.stateOf f = .ready then (s.push ⟨.fiber f, none⟩).setPc w .scan
  else if (s.stateOf f).finished then s.setPc w .scan
  else (s.setState f .hold).setPc w .scan

/-- The tests on the state of `cb_fiber` after its `SwapIn` has returned. -/
def afterCb (s : Scheduler) (w : WorkerId) (f : FiberId) : Scheduler :=
  if s.stateOf f = .ready then (s.push ⟨.fiber f, none⟩).releaseCb w
  else if (s.stateOf f).finished then (s.reset f none).setPc w .scan
  else (s.setState f .hold).releaseCb w

/-- The next step of worker `w` in `run`, `idle` or one of the context switches; `none` where
the worker has no step of its own or an assertion fails. -/
def workStep (s : Scheduler) (w : WorkerId) : Option Scheduler :=
  match s.pcOf w with
  | .unborn | .run _ _ | .left => none
  | .scan =>
    match s.mFibers.find? (s.eligible w) with
    | some e => some ((s.take w).setPc w (.picked e.task))
    | none => some (s.setPc w .missed)
  | .picked (.fiber f) =>
    some (s.setPc w (if (s.stateOf f).finished then .dropped else .resume .own f))
  | .picked (.cb c) =>
    match s.cbOf w with
    | some f =>
      if resettable (s.stateOf f) then some ((s.reset f (some c)).setPc w (.resume .cb f)) else none
    | none => some ((s.makeFiber c).adoptCb w s.nextFiber)
  | .resume site f =>
    if s.stateOf f = .exec then none else some ((s.setState f .exec).setPc w (.enter site f))
  | .enter site f => if (s.fibers f).ended then none else some (s.setPc w (.run site f))
  | .leave site f => some (s.setPc w (.back site f))
  | .back site f => some (s.decActive.setPc w (.after site f))
  | .after .own f => some (s.afterOwn w f)
  | .after .cb f => some (s.afterCb w f)
  | .dropped => some (s.decActive.setPc w .scan)
  | .missed =>
    if s.idleOf w = .term then some (s.setPc w .left)
    else some (s.incIdle.setPc w .idleEnter)
  | .idleEnter =>
    if s.idleOf w = .exec then none
    else some (s.setIdle w .idleRun .exec)
  | .idleRun =>
    if s.isStopping then some (s.setIdle w .idleLeave .term)
    else some (s.setPc w .idleLeave)
  | .idleLeave => some (s.setPc w .idleBack)
  | .idleBack => some (s.decIdle.setPc w .idleAfter)
  | .idleAfter =>
    if (s.idleOf w).finished then some (s.setPc w .scan)
    else some (s.setIdle w .scan .hold)

inductive BodyAct where
  | schedule (t : Task) (thread : Option WorkerId)
  | yieldToReady
  | yieldToHold
  | finish
  | throw
  deriving DecidableEq, Repr

/-- The next step of the fiber whose code runs on worker `w`. Calling an empty `mCallback` throws
`std::bad_function_call`. -/
def bodyStep (s : Scheduler) (w : WorkerId) (b : BodyAct) : Option Scheduler :=
  match s.pcOf w with
  | .run site f =>
    if (s.fibers f).mCallback = none ∧ b ≠ .throw then none
    else match b with
    | .schedule t thread => s.schedule t thread
    | .yieldToReady =>
      if s.stateOf f = .exec then some ((s.setState f .ready).setPc w (.leave site f)) else none
    | .yieldToHold => if s.stateOf f = .exec then some (s.setPc w (.back site f)) else none
    | .finish => some ((s.setCell f ⟨.term, none, true⟩).setPc w (.leave site f))
    | .throw =>
      some ((s.setCell f ⟨.except, (s.fibers f).mCallback, true⟩).setPc w (.leave site f))
  | _ => none

/-- `schedule` and `newFiber` are steps of threads that are no workers; `requestStop` and `stop`
are the two writes of `Scheduler::stop`, `callRoot` its last test of `stopping()`. -/
inductive Act where
  | start
  | requestStop
  | stop
  | callRoot
  | newFiber (c : Callback)
  | schedule (t : Task) (thread : Option WorkerId)
  | work (w : WorkerId)
  | body (w : WorkerId) (b : BodyAct)
  deriving DecidableEq, Repr

/-- `start` holds `m_mutex` until every worker has been made, so it is one step. -/
def startAll (s : Scheduler) : Scheduler :=
  { s with
    mStopping := false
    phase := .started
    workers := fun w => if w < s.mThreadCount then ⟨.scan, none, .init⟩ else s.workers w }

/-- `stop` enters `run` on the root fiber, in the thread of the caller. -/
def enterRoot (s : Scheduler) (w : WorkerId) : Scheduler :=
  { s with
    phase := .joining
    workers := Function.update s.workers w ⟨.scan, none, .init⟩ }

def step (s : Scheduler) : Act → Option Scheduler
  | .start => if s.phase = .fresh then some s.startAll else none
  | .requestStop =>
    if s.phase = .started then some { s with mAutoStop := true, phase := .stopping } else none
  | .stop =>
    if s.phase = .stopping then some { s with mStopping := true, phase := .stopped } else none
  -- An earlier test, made where there are no other workers, has the same two outcomes.
  | .callRoot =>
    match s.mRootThread with
    | some w =>
      if s.phase = .stopped then
        some (if s.isStopping then { s with phase := .joining } else s.enterRoot w)
      else none
    | none => none
  | .newFiber c => some (s.makeFiber c)
  | .schedule t thread => s.schedule t thread
  | .work w => s.workStep w
  | .body w b => s.bodyStep w b

end Scheduler
end SvrFrame
