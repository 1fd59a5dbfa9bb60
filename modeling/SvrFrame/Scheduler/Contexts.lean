import SvrFrame.Scheduler.Shutdown

namespace SvrFrame
open Library
set_option autoImplicit true

/-- Whose code a thread runs: that of `stop` and its caller, of `run`, of `idle` or of a task. -/
inductive ThreadCode where
  | stop (w : WorkerId)
  | run (w : WorkerId)
  | idle (w : WorkerId)
  | task (f : FiberId)
  deriving DecidableEq, Repr

/-- A `Fiber*`: the fiber that a thread has made for itself, which is its `t_threadFiber`, then
`m_rootFiber`, the `idle_fiber` of a worker, and the fibers that tasks run in. -/
inductive FiberPtr where
  | thread (w : WorkerId)
  | root
  | idle (w : WorkerId)
  | task (f : FiberId)
  deriving DecidableEq, Repr

/-- The fiber whose `MainFunc` or `CallerMainFunc` has called the code and holds it in `cur`. -/
def ThreadCode.fiber : ThreadCode → FiberPtr
  | .stop w => .thread w
  | .run _ => .root
  | .idle w => .idle w
  | .task f => .task f

/-- What `swapcontext` stores: whose code it is, and how many switches that code has made. -/
structure Continuation where
  code : ThreadCode
  point : Nat
  deriving DecidableEq, Repr

@[simps] def Continuation.next (c : Continuation) : Continuation := ⟨c.code, c.point + 1⟩

/-- A scheduler with the contexts of its fibers. -/
structure Control where
  sched : Scheduler
  running : WorkerId → Continuation
  tFiber : WorkerId → FiberPtr
  mContex : FiberPtr → Continuation
  /-- The fiber that a thread is about to swap out. -/
  leaving : WorkerId → FiberPtr
  rootEnded : Bool
  /-- Ghost: the continuation right behind the `SwapIn` of `run` that was called last. -/
  resumedAt : WorkerId → Continuation

namespace Control
open Scheduler (BodyAct)

def initial (threads : Nat) (useCaller : Bool) : Control where
  sched := .initial threads useCaller
  running w := ⟨if useCaller ∧ w = threads - 1 then .stop w else .run w, 0⟩
  tFiber := .thread
  mContex
    | .thread w => ⟨if useCaller ∧ w = threads - 1 then .stop w else .run w, 0⟩
    | .root => ⟨.run (threads - 1), 0⟩
    | .idle w => ⟨.idle w, 0⟩
    | .task f => ⟨.task f, 0⟩
  leaving := .thread
  rootEnded := false
  resumedAt w := ⟨.run w, 0⟩

@[simps] def setSched (m : Control) (s : Scheduler) : Control := { m with sched := s }

@[simps] def setThis (m : Control) (w : WorkerId) (f : FiberPtr) : Control :=
  { m with tFiber := Function.update m.tFiber w f }

/-- The constructor of a fiber and `Reset` call `makecontext`. -/
@[simps] def makecontext (m : Control) (f : FiberId) : Control :=
  { m with mContex := Function.update m.mContex (.task f) ⟨.task f, 0⟩ }

@[simps] def swapcontext (m : Control) (w : WorkerId) (a b : FiberPtr) : Control :=
  { m with
    mContex := Function.update m.mContex a (m.running w).next
    running := Function.update m.running w (Function.update m.mContex a (m.running w).next b) }

/-- The switch of `SwapIn`, called by `run`. -/
@[simps!] def enter (m : Control) (w : WorkerId) (f : FiberPtr) : Control :=
  { m.swapcontext w (.thread w) f with
    resumedAt := Function.update m.resumedAt w (m.running w).next }

/-- `SwapOut` and `Back`. -/
@[simps!] def swapOut (m : Control) (w : WorkerId) (this : FiberPtr) : Control :=
  (m.setThis w (.thread w)).swapcontext w this (.thread w)

@[simps] def leave (m : Control) (w : WorkerId) (this : FiberPtr) : Control :=
  { m with leaving := Function.update m.leaving w this }

/-- What the step of a worker in this place does to the contexts. -/
def workAfter (m : Control) (w : WorkerId) : Pc → Control
  | .picked (.cb _) => m.makecontext ((m.sched.cbOf w).getD m.sched.nextFiber)
  | .resume _ f => m.setThis w (.task f)
  | .enter _ f => m.enter w (.task f)
  | .leave _ _ | .idleLeave => m.swapOut w (m.leaving w)
  | .after .cb f => if (m.sched.stateOf f).finished then m.makecontext f else m
  | .idleEnter => (m.setThis w (.idle w)).enter w (.idle w)
  | .idleRun =>
    m.leave w (if m.sched.isStopping then (m.running w).code.fiber else m.tFiber w)
  | _ => m

def bodyAfter (m : Control) (w : WorkerId) : BodyAct → Control
  | .schedule _ _ => m
  | .yieldToReady => m.leave w (m.tFiber w)
  | .yieldToHold => m.swapOut w (m.tFiber w)
  | .finish | .throw => m.leave w (m.running w).code.fiber

/-- `Call`, where `stop` gets there. -/
def callRoot (m : Control) : Control :=
  match m.sched.mRootThread with
  | some w => if m.sched.isStopping then m else (m.setThis w .root).swapcontext w (.thread w) .root
  | none => m

def after (m : Control) : Scheduler.Act → Control
  | .newFiber _ => m.makecontext m.sched.nextFiber
  | .callRoot => m.callRoot
  | .work w => m.workAfter w (m.sched.pcOf w)
  | .body w b => m.bodyAfter w b
  | .start | .requestStop | .stop | .schedule _ _ => m

@[simps] def endRoot (m : Control) : Control := { m with rootEnded := true }

/-- `rootBack` is the end of `CallerMainFunc`, behind the `run` of the root fiber. -/
inductive Act where
  | sched (a : Scheduler.Act)
  | rootBack
  deriving DecidableEq, Repr

def rootBack (m : Control) : Option Control :=
  match m.sched.mRootThread with
  | some w =>
    if m.sched.pcOf w = .left ∧ m.rootEnded = false then
      some (m.swapOut w (m.running w).code.fiber).endRoot
    else none
  | none => none

def step (m : Control) : Act → Option Control
  | .sched a => (m.sched.step a).map (m.after a).setSched
  | .rootBack => m.rootBack

end Control

/-- Whose code the model takes a worker in this place to run. -/
@[simp] def Pc.code (w : WorkerId) : Pc → ThreadCode
  | .run _ f | .leave _ f => .task f
  | .idleRun | .idleLeave => .idle w
  | _ => .run w

/-- The fiber that `GetThis()` has to return there. -/
@[simp] def Pc.this? (w : WorkerId) : Pc → Option FiberPtr
  | .enter _ f | .run _ f | .leave _ f => some (.task f)
  | .idleRun | .idleLeave => some (.idle w)
  | _ => none

@[simp] def Pc.leaving? (w : WorkerId) : Pc → Option FiberPtr
  | .leave _ f => some (.task f)
  | .idleLeave => some (.idle w)
  | _ => none

namespace Control
open Scheduler (BodyAct Moves Counted step_moves)

variable {m m' : Control} {s' : Scheduler}

/-- Where the switches of a worker's thread lead. -/
structure Landed (m : Control) (w : WorkerId) : Prop where
  code : (m.running w).code = (m.sched.pcOf w).code w
  back : (m.running w).code = .run w → m.running w = m.resumedAt w
  behind : (m.resumedAt w).code = .run w
  slot : (m.resumedAt w).point ≠ 0 → m.mContex (.thread w) = m.resumedAt w
  away : (m.sched.pcOf w).code w ≠ .run w ∨ (m.sched.pcOf w).inIdle → (m.resumedAt w).point ≠ 0
  fresh : m.sched.idleOf w ≠ .init → (m.resumedAt w).point ≠ 0
  this : ∀ f ∈ (m.sched.pcOf w).this? w, m.tFiber w = f
  leaving : ∀ f ∈ (m.sched.pcOf w).leaving? w, m.leaving w = f
  idle : (m.mContex (.idle w)).code = .idle w

/-- The thread of a worker makes no switch, and nobody stores anything in its fibers. -/
structure Kept (m m' : Control) (w : WorkerId) : Prop where
  running : m'.running w = m.running w
  resumedAt : m'.resumedAt w = m.resumedAt w
  thread : m'.mContex (.thread w) = m.mContex (.thread w)
  idle : m'.mContex (.idle w) = m.mContex (.idle w)

/-- The step is one of another thread. -/
structure Apart (m m' : Control) (w : WorkerId) : Prop extends Kept m m' w where
  tFiber : m'.tFiber w = m.tFiber w
  leaving : m'.leaving w = m.leaving w

theorem Apart.refl (m : Control) (w : WorkerId) : Apart m m w := ⟨⟨rfl, rfl, rfl, rfl⟩, rfl, rfl⟩

theorem makecontext_apart (m : Control) (f : FiberId) (w : WorkerId) :
    Apart m (m.makecontext f) w := by
  refine ⟨⟨rfl, rfl, ?_, ?_⟩, rfl, rfl⟩ <;> simp

/-- A switch does not touch another thread, unless it stores in a fiber of that thread. -/
theorem swapOut_apart (m : Control) (hv : v ≠ w) {this : FiberPtr} (hthread : this ≠ .thread v)
    (hidle : this ≠ .idle v) : Apart m (m.swapOut w this) v := by
  refine ⟨⟨?_, rfl, ?_, ?_⟩, ?_, rfl⟩ <;> simp [hv, hthread.symm, hidle.symm]

/-- A step without a switch, in which the worker stays with the same code. -/
theorem Landed.moved (hm : Landed m w) (hk : Kept m m' w)
    (hcode : (s'.pcOf w).code w = (m.sched.pcOf w).code w)
    (hin : (s'.pcOf w).inIdle → (m.sched.pcOf w).inIdle)
    (hidle : s'.idleOf w ≠ .init → m.sched.idleOf w ≠ .init ∨ (m.sched.pcOf w).inIdle)
    (hthis : ∀ f ∈ (s'.pcOf w).this? w, m'.tFiber w = f)
    (hleaving : ∀ f ∈ (s'.pcOf w).leaving? w, m'.leaving w = f) :
    Landed (m'.setSched s') w where
  code := by
    rw [setSched_running, setSched_sched, hk.running, hcode]
    exact hm.code
  back := by
    rw [setSched_running, setSched_resumedAt, hk.running, hk.resumedAt]
    exact hm.back
  behind := by
    rw [setSched_resumedAt, hk.resumedAt]
    exact hm.behind
  slot := by
    rw [setSched_resumedAt, setSched_mContex, hk.resumedAt, hk.thread]
    exact hm.slot
  away h := by
    rw [setSched_resumedAt, hk.resumedAt]
    rw [setSched_sched, hcode] at h
    exact hm.away (h.imp_right hin)
  fresh h := by
    rw [setSched_resumedAt, hk.resumedAt]
    rcases hidle h with hold | hold
    · exact hm.fresh hold
    · exact hm.away (.inr hold)
  this := hthis
  leaving := hleaving
  idle := by
    rw [setSched_mContex, hk.idle]
    exact hm.idle

theorem Landed.apart (hm : Landed m w) (ha : Apart m m' w) (hpc : s'.pcOf w = m.sched.pcOf w)
    (hidle : s'.idleOf w = m.sched.idleOf w ∨ s'.idleOf w = .init) :
    Landed (m'.setSched s') w := by
  apply hm.moved ha.toKept
  · rw [hpc]
  · rw [hpc]
    exact id
  · intro hinit
    rcases hidle with hsame | hnew
    · exact .inl (hsame ▸ hinit)
    · exact absurd hnew hinit
  · rw [hpc, ha.tFiber]
    exact hm.this
  · rw [hpc, ha.leaving]
    exact hm.leaving

/-- `SwapIn`: the thread goes on with the code of the fiber. -/
theorem enter_landed {f : FiberPtr} (hf : f ≠ .thread w)
    (hrun : (m.running w).code = .run w) (hidle : (m.mContex (.idle w)).code = .idle w)
    (hcode : (m.mContex f).code = (s'.pcOf w).code w) (haway : (s'.pcOf w).code w ≠ .run w)
    (hthis : ∀ g ∈ (s'.pcOf w).this? w, m.tFiber w = g) (hleaving : (s'.pcOf w).leaving? w = none) :
    Landed ((m.enter w f).setSched s') w where
  code := by simpa [hf] using hcode
  back h := by
    simp only [setSched_running, enter_running, Function.update_self,
      Function.update_of_ne hf] at h
    exact absurd (hcode.symm.trans h) haway
  behind := by simpa using hrun
  slot _ := by simp
  away _ := by simp
  fresh _ := by simp
  this := hthis
  leaving g hg := by
    rw [setSched_sched, hleaving] at hg
    cases hg
  idle := by simpa using hidle

/-- `SwapOut`: the thread goes on with `run`, right behind the `SwapIn` that was called last. -/
theorem Landed.swapOut (hm : Landed m w) {this : FiberPtr} (hthread : this ≠ .thread w)
    (hidle : this = .idle w → (m.running w).code = .idle w)
    (hpoint : (m.resumedAt w).point ≠ 0) (hrun : (s'.pcOf w).code w = .run w)
    (hthis : (s'.pcOf w).this? w = none) (hleaving : (s'.pcOf w).leaving? w = none) :
    Landed ((m.swapOut w this).setSched s') w := by
  have hslot := hm.slot hpoint
  constructor
  · simpa [hthread.symm, hslot, hm.behind] using hrun.symm
  · intro _
    simpa [hthread.symm] using hslot
  · exact hm.behind
  · intro _
    simpa [hthread.symm] using hslot
  · exact fun _ => hpoint
  · exact fun _ => hpoint
  · intro f hf
    rw [setSched_sched, hthis] at hf
    cases hf
  · intro f hf
    rw [setSched_sched, hleaving] at hf
    cases hf
  · by_cases h : this = .idle w
    · subst h
      simpa using hidle rfl
    · simpa [Ne.symm h] using hm.idle

/-- What holds of the contexts in every state. -/
structure Inv (m : Control) : Prop where
  counted : Counted m.sched
  landed : ∀ w, m.sched.pcOf w ≠ .unborn → Landed m w
  unborn : ∀ w, m.sched.pcOf w = .unborn →
    m.running w = ⟨if m.sched.mRootThread = some w then .stop w else .run w, 0⟩ ∧
      m.resumedAt w = ⟨.run w, 0⟩ ∧ (m.mContex (.idle w)).code = .idle w
  tasks : ∀ f, (m.mContex (.task f)).code = .task f
  root : ∀ w, m.sched.mRootThread = some w → m.sched.pcOf w = .unborn →
    m.mContex .root = ⟨.run w, 0⟩
  left : ∀ w, m.sched.pcOf w = .left → m.sched.idleOf w = .term

theorem initial_inv (n : Nat) (useCaller : Bool) : Inv (initial n useCaller) where
  counted := Scheduler.initial_counted n useCaller
  landed _ h := absurd rfl h
  unborn w _ := by
    refine ⟨?_, rfl, rfl⟩
    cases useCaller with
    | false => rfl
    | true => simp [initial, Scheduler.initial, eq_comm]
  tasks _ := rfl
  root w hw _ := by
    cases useCaller with
    | false => cases hw
    | true =>
      cases hw
      rfl
  left _ h := by cases h

/-- The fiber that a task leaves is the one that it runs in. -/
theorem Landed.finish (hm : Landed m w) (hp : m.sched.pcOf w = .run site f) :
    (m.running w).code.fiber = .task f ∧ m.tFiber w = .task f := by
  rw [hm.code, hp]
  exact ⟨rfl, hm.this _ (by rw [hp]; rfl)⟩

theorem Landed.finishIdle (hm : Landed m w) (hp : m.sched.pcOf w = .idleRun) :
    (m.running w).code.fiber = .idle w ∧ m.tFiber w = .idle w := by
  rw [hm.code, hp]
  exact ⟨rfl, hm.this _ (by rw [hp]; rfl)⟩

/-- A worker's own step takes its thread where the model says. -/
theorem Inv.own (hs : Inv m) (h : Moves m.sched a s') (ha : a.worker = some w) :
    Landed ((m.after a).setSched s') w := by
  have hm := hs.landed w (h.workerFrame ha).born
  have hkept : Kept m m w := (Apart.refl m w).toKept
  cases h with
  | start | requestStop | stop | skipRoot | callRoot | newFiber | schedule => cases ha
  | bodySchedule hp ht =>
    cases ha
    obtain ⟨rfl, -⟩ := Scheduler.schedule_eq_push ht
    exact hm.moved hkept rfl id .inl hm.this hm.leaving
  | @resume _ site f hp =>
    cases ha
    simp only [after, workAfter, hp]
    have hkept : Kept m (m.setThis w (.task f)) w := ⟨rfl, rfl, rfl, rfl⟩
    apply hm.moved hkept <;> simp [hp, Pc.inIdle]
  | @yieldToReady _ site f hp | @finish _ site f hp | @throw _ site f hp =>
    cases ha
    simp only [after, bodyAfter, hm.finish hp]
    have hkept : Kept m (m.leave w (.task f)) w := ⟨rfl, rfl, rfl, rfl⟩
    apply hm.moved hkept <;>
      simp [hp, Pc.inIdle, hm.finish hp]
  | yieldToHold hp =>
    cases ha
    simp only [after, bodyAfter, hm.finish hp]
    have hpoint := hm.away (.inl (by simp [hp]))
    apply hm.swapOut _ _ hpoint <;> simp
  | @enter _ site f hp =>
    cases ha
    simp only [after, workAfter, hp]
    have hrun : (m.running w).code = .run w := by rw [hm.code, hp]; rfl
    have hthis : m.tFiber w = .task f := hm.this _ (by rw [hp]; rfl)
    apply enter_landed _ hrun hm.idle <;>
      simp [hthis, hs.tasks f]
  | @leave _ site f hp =>
    cases ha
    have hleaving : m.leaving w = .task f := hm.leaving _ (by rw [hp]; rfl)
    simp only [after, workAfter, hp, hleaving]
    have hpoint := hm.away (.inl (by simp [hp]))
    apply hm.swapOut _ _ hpoint <;> simp
  | idleLeave hp =>
    cases ha
    have hleaving : m.leaving w = .idle w := hm.leaving _ (by rw [hp]; rfl)
    simp only [after, workAfter, hp, hleaving]
    have hpoint := hm.away (.inl (by simp [hp]))
    apply hm.swapOut _ _ hpoint <;> simp [hm.code, hp]
  | idleEnter hp =>
    cases ha
    simp only [after, workAfter, hp]
    have hrun : (m.running w).code = .run w := by rw [hm.code, hp]; rfl
    apply enter_landed (m := m.setThis w (.idle w)) _ hrun hm.idle <;>
      simp [hm.idle]
  | idleStop hp hstop =>
    cases ha
    simp only [after, workAfter, hp, if_pos hstop, hm.finishIdle hp]
    have hkept : Kept m (m.leave w (.idle w)) w := ⟨rfl, rfl, rfl, rfl⟩
    apply hm.moved hkept <;>
      simp [hp, Pc.inIdle, hm.finishIdle hp]
  | idleWait hp hstop =>
    cases ha
    simp only [after, workAfter, hp, hstop, Bool.false_eq_true, if_false, hm.finishIdle hp]
    have hkept : Kept m (m.leave w (.idle w)) w := ⟨rfl, rfl, rfl, rfl⟩
    apply hm.moved hkept <;>
      simp [hp, Pc.inIdle, hm.finishIdle hp]
  | reuse hp | make hp =>
    cases ha
    simp only [after, workAfter, hp]
    apply hm.moved (makecontext_apart m _ w).toKept <;>
      simp [hp, Pc.inIdle]
  | doneCb hp hfin =>
    cases ha
    simp only [after, workAfter, hp, if_pos hfin]
    apply hm.moved (makecontext_apart m _ w).toKept <;>
      simp [hp, Pc.inIdle]
  | requeueCb hp hr =>
    cases ha
    simp only [after, workAfter, hp, hr]
    apply hm.moved hkept <;> simp [hp, Pc.inIdle]
  | holdCb hp _ hlive =>
    cases ha
    simp only [after, workAfter, hp, if_neg hlive]
    apply hm.moved hkept <;> simp [hp, Pc.inIdle]
  | _ hp =>
    cases ha
    simp only [after, workAfter, hp]
    apply hm.moved hkept <;> simp [hp, Pc.inIdle]

/-- What a step of a worker stores in the contexts of the fibers. -/
inductive Stores (m : Control) (w : WorkerId) (c : FiberPtr → Continuation) : Prop where
  | nothing : c = m.mContex → Stores m w c
  | made (f : FiberId) : c = Function.update m.mContex (.task f) ⟨.task f, 0⟩ → Stores m w c
  | run : c = Function.update m.mContex (.thread w) (m.running w).next → Stores m w c
  | task (f : FiberId) : (m.running w).code = .task f →
      c = Function.update m.mContex (.task f) (m.running w).next → Stores m w c
  | idle : (m.running w).code = .idle w →
      c = Function.update m.mContex (.idle w) (m.running w).next → Stores m w c

variable {c : FiberPtr → Continuation}

theorem Stores.tasks (h : Stores m w c) (hs : ∀ f, (m.mContex (.task f)).code = .task f)
    (f : FiberId) : (c (.task f)).code = .task f := by
  cases h with
  | nothing h =>
    rw [h]
    exact hs f
  | made g h | task g hg h =>
    by_cases hf : f = g
    · subst hf
      simp_all
    · simpa [h, hf] using hs f
  | run h | idle _ h => simpa [h] using hs f

theorem Stores.root (h : Stores m w c) : c .root = m.mContex .root := by
  cases h with
  | nothing h | made _ h | run h | task _ _ h | idle _ h => simp [h]

theorem Stores.others (h : Stores m w c) (hv : v ≠ w) :
    c (.thread v) = m.mContex (.thread v) ∧ c (.idle v) = m.mContex (.idle v) := by
  cases h with
  | nothing h | made _ h | run h | task _ _ h | idle _ h => simp [h, hv]

theorem Inv.stores (hs : Inv m) (h : Moves m.sched a s') (ha : a.worker = some w) :
    Stores m w (m.after a).mContex := by
  have hm := hs.landed w (h.workerFrame ha).born
  cases h with
  | start | requestStop | stop | skipRoot | callRoot | newFiber | schedule => cases ha
  | enter hp =>
    cases ha
    simp only [after, workAfter, hp]
    exact .run rfl
  | idleEnter hp =>
    cases ha
    simp only [after, workAfter, hp]
    exact .run rfl
  | @leave _ site f hp =>
    cases ha
    have hleaving : m.leaving w = .task f := hm.leaving _ (by rw [hp]; rfl)
    simp only [after, workAfter, hp, hleaving]
    exact .task f (by rw [hm.code, hp]; rfl) rfl
  | @yieldToHold _ site f hp =>
    cases ha
    simp only [after, bodyAfter, hm.finish hp]
    exact .task f (by rw [hm.code, hp]; rfl) rfl
  | idleLeave hp =>
    cases ha
    have hleaving : m.leaving w = .idle w := hm.leaving _ (by rw [hp]; rfl)
    simp only [after, workAfter, hp, hleaving]
    exact .idle (by rw [hm.code, hp]; rfl) rfl
  | reuse hp | make hp =>
    cases ha
    simp only [after, workAfter, hp]
    exact .made _ rfl
  | doneCb hp hfin =>
    cases ha
    simp only [after, workAfter, hp, if_pos hfin]
    exact .made _ rfl
  | requeueCb hp hr =>
    cases ha
    simp only [after, workAfter, hp, hr]
    exact .nothing rfl
  | holdCb hp _ hlive =>
    cases ha
    simp only [after, workAfter, hp, if_neg hlive]
    exact .nothing rfl
  | bodySchedule | yieldToReady | finish | throw =>
    cases ha
    exact .nothing rfl
  | _ hp =>
    cases ha
    simp only [after, workAfter, hp]
    exact .nothing rfl

/-- The thread of a worker changes only what is its own. -/
theorem after_others (m : Control) (a : Scheduler.Act) (ha : a.worker = some w) (hv : v ≠ w) :
    (m.after a).running v = m.running v ∧ (m.after a).resumedAt v = m.resumedAt v ∧
      (m.after a).tFiber v = m.tFiber v ∧ (m.after a).leaving v = m.leaving v := by
  cases a with
  | start | requestStop | stop | callRoot | newFiber | schedule => cases ha
  | work =>
    cases ha
    simp only [after, workAfter]
    split <;> try split
    all_goals simp [hv]
  | body _ b =>
    cases ha
    cases b <;> simp [after, bodyAfter, hv]

/-- Other threads, and the thread of `stop` before it has called the root fiber. -/
theorem Inv.apart (hs : Inv m) (h : Moves m.sched a s') (ha : a.worker ≠ some v)
    (hsame : s'.pcOf v = m.sched.pcOf v) : Apart m (m.after a) v := by
  cases hw : a.worker with
  | some w =>
    have hv : v ≠ w := fun hvw => ha (hvw ▸ hw)
    obtain ⟨hrunning, hresumed, htFiber, hleaving⟩ := after_others m a hw hv
    obtain ⟨hthread, hidle⟩ := (hs.stores h hw).others hv
    exact ⟨⟨hrunning, hresumed, hthread, hidle⟩, htFiber, hleaving⟩
  | none =>
    cases h with
    | start | requestStop | stop | schedule => exact .refl m v
    | newFiber => exact makecontext_apart m _ v
    | skipRoot hr _ hstop =>
      simp only [after, callRoot, hr, if_pos hstop]
      exact .refl m v
    | @callRoot w hr hp hstop =>
      have hunborn : m.sched.pcOf w = .unborn := hs.counted.rootUnborn w hr (by simp [hp])
      have hv : v ≠ w := by
        rintro rfl
        rw [hunborn, Scheduler.pcOf_enterRoot, if_pos rfl] at hsame
        cases hsame
      simp only [after, Control.callRoot, hr, hstop, Bool.false_eq_true, if_false]
      refine ⟨⟨?_, rfl, ?_, ?_⟩, ?_, rfl⟩ <;> simp [hv]
    | _ => cases hw

/-- A worker that is put to work begins with `run`. -/
theorem begun_landed (hrunning : m.running w = ⟨.run w, 0⟩) (hresumed : m.resumedAt w = ⟨.run w, 0⟩)
    (hidle : (m.mContex (.idle w)).code = .idle w) (hnew : s'.workers w = ⟨.scan, none, .init⟩) :
    Landed (m.setSched s') w := by
  have hpc : s'.pcOf w = .scan := congrArg Worker.pc hnew
  have hcold : s'.idleOf w = .init := congrArg Worker.idleState hnew
  constructor <;> simp [hrunning, hresumed, hidle, hpc, hcold, Pc.inIdle]

theorem Inv.begun (hs : Inv m) (h : Moves m.sched a s') (ha : a.worker ≠ some w)
    (hunborn : m.sched.pcOf w = .unborn) (hborn : s'.pcOf w = .scan) :
    Landed ((m.after a).setSched s') w := by
  obtain ⟨hrunning, hresumed, hidle⟩ := hs.unborn w hunborn
  have hsame : s'.workers w ≠ m.sched.workers w := by
    intro hsame
    have hpc : s'.pcOf w = m.sched.pcOf w := congrArg Worker.pc hsame
    rw [hunborn, hborn] at hpc
    cases hpc
  have hnew : s'.workers w = ⟨.scan, none, .init⟩ := (h.worker_other ha).resolve_left hsame
  cases h with
  | start =>
    have hlt : w < m.sched.mThreadCount := by
      by_contra hge
      exact hsame (if_neg hge)
    have hroot : m.sched.mRootThread ≠ some w :=
      fun hr => Nat.ne_of_lt hlt (hs.counted.rootLast w hr)
    rw [if_neg hroot] at hrunning
    exact begun_landed hrunning hresumed hidle hnew
  | @callRoot v hr hp hstop =>
    have hv : w = v := by
      by_contra hv
      exact hsame (Function.update_of_ne hv ..)
    subst hv
    simp only [after, Control.callRoot, hr, hstop, Bool.false_eq_true, if_false]
    have hstarted : ((m.setThis w .root).swapcontext w (.thread w) .root).running w =
        ⟨.run w, 0⟩ := by simpa using hs.root w hr hunborn
    exact begun_landed hstarted hresumed (by simpa using hidle) hnew
  | schedule ht =>
    obtain ⟨rfl, -⟩ := Scheduler.schedule_eq_push ht
    exact absurd rfl hsame
  | requestStop | stop | skipRoot | newFiber => exact absurd rfl hsame
  | bodySchedule _ ht =>
    obtain ⟨rfl, -⟩ := Scheduler.schedule_eq_push ht
    exact absurd rfl hsame
  | _ =>
    exact absurd (Function.update_of_ne (fun hw => ha (congrArg some hw.symm)) ..) hsame

theorem Inv.unborn_step (hs : Inv m) (h : Moves m.sched a s') (hw : s'.pcOf w = .unborn) :
    Apart m (m.after a) w ∧ m.sched.pcOf w = .unborn := by
  have hunborn := h.unborn_before hs.counted hw
  refine ⟨hs.apart h ?_ (hw.trans hunborn.symm), hunborn⟩
  intro ha
  exact (h.workerFrame ha).born hunborn

theorem Inv.tasks_step (hs : Inv m) (h : Moves m.sched a s') (f : FiberId) :
    ((m.after a).mContex (.task f)).code = .task f := by
  cases ha : a.worker with
  | some w => exact (hs.stores h ha).tasks hs.tasks f
  | none =>
    have hold := hs.tasks f
    cases h with
    | start | requestStop | stop | schedule => exact hold
    | newFiber =>
      by_cases hf : f = m.sched.nextFiber
      · simp [after, hf]
      · simpa [after, hf] using hold
    | skipRoot hr _ hstop => simpa [after, Control.callRoot, hr, hstop] using hold
    | callRoot hr _ hstop => simpa [after, Control.callRoot, hr, hstop] using hold
    | _ => cases ha

theorem Inv.root_step (hs : Inv m) (h : Moves m.sched a s') :
    (m.after a).mContex .root = m.mContex .root := by
  cases ha : a.worker with
  | some w => exact (hs.stores h ha).root
  | none =>
    cases h with
    | start | requestStop | stop | schedule => rfl
    | newFiber => simp [after]
    | skipRoot hr _ hstop => simp [after, Control.callRoot, hr, hstop]
    | callRoot hr _ hstop => simp [after, Control.callRoot, hr, hstop]
    | _ => cases ha

theorem Inv.sched_step (hs : Inv m) (h : Moves m.sched a s') : Inv ((m.after a).setSched s') where
  counted := hs.counted.step h
  landed w hw := by
    by_cases ha : a.worker = some w
    · exact hs.own h ha
    · rcases hs.counted.others h ha with hpc | ⟨hunborn, hborn⟩
      · have hidle := (h.worker_other ha).imp (congrArg Worker.idleState)
          (congrArg Worker.idleState)
        exact (hs.landed w (hpc ▸ hw)).apart (hs.apart h ha hpc) hpc hidle
      · exact hs.begun h ha hunborn hborn
  unborn w hw := by
    obtain ⟨hapart, hunborn⟩ := hs.unborn_step h hw
    obtain ⟨hrunning, hresumed, hidle⟩ := hs.unborn w hunborn
    simp only [setSched_running, setSched_resumedAt, setSched_mContex, setSched_sched,
      hapart.running, hapart.resumedAt, hapart.idle, h.threads.2]
    exact ⟨hrunning, hresumed, hidle⟩
  tasks := hs.tasks_step h
  root w hr hw := by
    rw [setSched_sched] at hr hw
    rw [h.threads.2] at hr
    rw [setSched_mContex, hs.root_step h]
    exact hs.root w hr (h.unborn_before hs.counted hw)
  left w hw := h.left_term hs.left hw

theorem Landed.endRoot (hm : Landed m w) : Landed m.endRoot w := by
  have hapart : Apart m m.endRoot w := ⟨⟨rfl, rfl, rfl, rfl⟩, rfl, rfl⟩
  exact hm.apart hapart rfl (.inl rfl)

theorem rootBack_eq (h : m.rootBack = some m') :
    ∃ w, m.sched.mRootThread = some w ∧ m.sched.pcOf w = .left ∧
      m' = (m.swapOut w (m.running w).code.fiber).endRoot := by
  simp only [Control.rootBack] at h
  split at h
  · split at h
    · rename_i w hr hback
      cases h
      exact ⟨w, hr, hback.1, rfl⟩
    · cases h
  · cases h

/-- The end of the root fiber: its thread goes on where `run` has called its last `SwapIn`. -/
theorem Inv.rootBack (hs : Inv m) (h : m.rootBack = some m') : Inv m' := by
  obtain ⟨w, hr, hleft, rfl⟩ := rootBack_eq h
  have hm : Landed m w := hs.landed w (by simp [hleft])
  have hroot : (m.running w).code.fiber = .root := by
    rw [hm.code, hleft]
    rfl
  rw [hroot]
  have hpoint : (m.resumedAt w).point ≠ 0 := hm.fresh (by rw [hs.left w hleft]; decide)
  have hown : Landed ((m.swapOut w .root).setSched m.sched) w := by
    apply hm.swapOut _ _ hpoint <;> simp [hleft]
  have hother {v : WorkerId} (hv : v ≠ w) : Apart m (m.swapOut w .root) v :=
    swapOut_apart m hv (by simp) (by simp)
  constructor
  case counted => exact hs.counted
  case landed =>
    intro v hv
    by_cases hvw : v = w
    · exact hvw ▸ hown.endRoot
    · have hmoved : Landed (m.swapOut w .root) v :=
        (hs.landed v hv).apart (hother hvw) rfl (.inl rfl)
      exact hmoved.endRoot
  case unborn =>
    intro v hv
    have hvw : v ≠ w := by
      rintro rfl
      rw [endRoot_sched, swapOut_sched, hleft] at hv
      cases hv
    obtain ⟨hrunning, hresumed, hidle⟩ := hs.unborn v hv
    have hapart := hother hvw
    refine ⟨hapart.running.trans hrunning, hresumed, ?_⟩
    rw [endRoot_mContex, hapart.idle]
    exact hidle
  case tasks =>
    intro f
    simpa using hs.tasks f
  case root =>
    intro v hv hunborn
    rw [endRoot_sched, swapOut_sched] at hv hunborn
    cases hr.symm.trans hv
    rw [hleft] at hunborn
    cases hunborn
  case left => exact hs.left

theorem Inv.step (hs : Inv m) (h : m.step a = some m') : Inv m' := by
  cases a with
  | sched a =>
    obtain ⟨s', hs', rfl⟩ := Option.map_eq_some_iff.1 h
    exact hs.sched_step (step_moves hs')
  | rootBack => exact hs.rootBack h

theorem reach_inv (h : Reach step (fun _ _ => True) (initial n useCaller) m) : Inv m :=
  h.invariant (initial_inv n useCaller) fun hs _ ht => hs.step ht

/-- A worker's thread runs the code that the model takes it to run: where that is `run`, it stands
right behind the `SwapIn` that `run` has called last, and where it is a task or `idle`, `GetThis`
returns the fiber whose code it is. -/
theorem control_follows (h : Reach step (fun _ _ => True) (initial n useCaller) m)
    (hw : m.sched.pcOf w ≠ .unborn) :
    (m.running w).code = (m.sched.pcOf w).code w ∧
      ((m.running w).code = .run w → m.running w = m.resumedAt w) ∧
      ∀ f ∈ (m.sched.pcOf w).this? w, m.tFiber w = f := by
  have hm := (reach_inv h).landed w hw
  exact ⟨hm.code, hm.back, hm.this⟩

/-- One thread, on which a task runs. -/
theorem control_follows_task :
    ∃ m, Reach step (fun _ _ => True) (initial 1 false) m ∧ m.sched.pcOf 0 = .run .cb 0 ∧
      (m.running 0).code = .task 0 ∧ m.tFiber 0 = .task 0 := by
  obtain ⟨m, hm, hp⟩ := Reach.of_exec_map step (fun _ _ => True) (initial 1 false)
    (.sched (.schedule (.cb 7) none) :: .sched .start :: List.replicate 4 (.sched (.work 0)))
    (fun m => decide (m.sched.pcOf 0 = .run .cb 0)) (by decide)
  have hrun := of_decide_eq_true hp
  obtain ⟨hcode, -, hthis⟩ := control_follows hm (w := 0) (by rw [hrun]; decide)
  rw [hrun] at hcode hthis
  exact ⟨m, hm, hrun, hcode, hthis _ rfl⟩

/-- `stop` does not come back from the call of the root fiber: what `Back` switches to is `run`,
once more from behind its last `SwapIn`. -/
theorem stop_left_for_good (h : Reach step (fun _ _ => True) (initial n useCaller) m)
    (hw : m.sched.mRootThread = some w) :
    ((m.running w).code = .stop w ↔ m.sched.pcOf w = .unborn) ∧
      ∀ m', m.step .rootBack = some m' →
        m'.running w = m.resumedAt w ∧ (m.resumedAt w).code = .run w := by
  have hs := reach_inv h
  constructor
  · constructor
    · intro hstop
      by_contra hborn
      have hcode := (hs.landed w hborn).code
      rw [hstop] at hcode
      cases hp : m.sched.pcOf w <;> rw [hp] at hcode <;> cases hcode
    · intro hunborn
      rw [(hs.unborn w hunborn).1, if_pos hw]
  · intro m' hstep
    obtain ⟨v, hv, hleft, hm'⟩ := rootBack_eq hstep
    cases hw.symm.trans hv
    have hsched : m'.sched = m.sched := by rw [hm']; rfl
    have hresumed : m'.resumedAt w = m.resumedAt w := by rw [hm']; rfl
    have hm : Landed m' w := (hs.rootBack hstep).landed w (by simp [hsched, hleft])
    have hcode : (m'.running w).code = .run w := by
      rw [hm.code, hsched, hleft]
      rfl
    rw [← hresumed]
    exact ⟨hm.back hcode, hm.behind⟩

def rootRun : List Act :=
  [.sched (.schedule (.cb 7) none), .sched .start, .sched .requestStop, .sched .stop,
    .sched .callRoot] ++ List.replicate 4 (.sched (.work 0)) ++ [.sched (.body 0 .finish)] ++
    List.replicate 12 (.sched (.work 0))

/-- The caller's thread alone: `run` has made two switches, to its task and to `idle`. -/
theorem stop_left_for_good_alone :
    ∃ m, Reach step (fun _ _ => True) (initial 1 true) m ∧
      (m.step .rootBack).map (fun m' => m'.running 0) = some ⟨.run 0, 2⟩ := by
  obtain ⟨m, hm, hp⟩ := Reach.of_exec_map step (fun _ _ => True) (initial 1 true) rootRun
    (fun m => decide (m.sched.mRootThread = some 0 ∧ m.resumedAt 0 = ⟨.run 0, 2⟩ ∧
      (m.step .rootBack).isSome)) (by decide)
  obtain ⟨hroot, hresumed, hback⟩ := of_decide_eq_true hp
  obtain ⟨m', hm'⟩ := Option.isSome_iff_exists.1 hback
  have hrunning := ((stop_left_for_good hm hroot).2 m' hm').1
  exact ⟨m, hm, by rw [hm', Option.map_some, hrunning, hresumed]⟩

end Control
end SvrFrame
