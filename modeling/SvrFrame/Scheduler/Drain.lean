import SvrFrame.Library.Tally
import SvrFrame.Scheduler.Steps

namespace SvrFrame
namespace Scheduler
open Library
set_option autoImplicit true

variable {s s' : Scheduler}

def Act.worker : Act → Option WorkerId
  | .work w | .body w _ => some w
  | _ => none

/-- One step of worker `w` leaves the position of every other worker alone, and moves the
active counter by exactly what the position of `w` contributes. -/
structure WorkerFrame (s : Scheduler) (w : WorkerId) (s' : Scheduler) : Prop where
  born : s.pcOf w ≠ .unborn
  stays : s'.pcOf w ≠ .unborn
  phase : s'.phase = s.phase
  autoStop : s'.mAutoStop = s.mAutoStop
  stopping : s'.mStopping = s.mStopping
  others : ∀ v ≠ w, s'.pcOf v = s.pcOf v
  active : s'.mActiveThreadCount + (if (s.pcOf w).carries then 1 else 0) =
    s.mActiveThreadCount + (if (s'.pcOf w).carries then 1 else 0)

theorem Moves.threads (h : Moves s a s') :
    s'.mThreadCount = s.mThreadCount ∧ s'.mRootThread = s.mRootThread := by
  cases h with
  | schedule ht | bodySchedule _ ht => obtain ⟨rfl, -⟩ := schedule_eq_push ht; exact ⟨rfl, rfl⟩
  | _ => exact ⟨rfl, rfl⟩

theorem Moves.workerFrame (h : Moves s a s') (ha : a.worker = some w) : WorkerFrame s w s' := by
  cases h with
  | start | requestStop | stop | skipRoot | callRoot | newFiber | schedule => cases ha
  | bodySchedule hp ht =>
    cases ha
    obtain ⟨rfl, -⟩ := schedule_eq_push ht
    constructor <;> simp [hp]
  | _ hp =>
    cases ha
    constructor <;> simp +contextual [hp, Pc.carries]

theorem Moves.workerCount (h : Moves s a s') : s'.workerCount = s.workerCount := by
  rw [Scheduler.workerCount, Scheduler.workerCount, h.threads.1, h.threads.2]

/-- `m_activeThreadCount` is the number of workers that carry an entry, and only the threads
that `start` and `stop` have put to work take part. -/
structure Counted (s : Scheduler) : Prop where
  active : s.mActiveThreadCount = tally s.workerCount fun w => (s.pcOf w).carries
  unborn : ∀ w, s.workerCount ≤ w → s.pcOf w = .unborn
  fresh : s.phase = .fresh → ∀ w, s.pcOf w = .unborn
  rootLast : ∀ w, s.mRootThread = some w → w = s.mThreadCount
  rootUnborn : ∀ w, s.mRootThread = some w → s.phase ≠ .joining → s.pcOf w = .unborn

theorem initial_counted (n : Nat) (useCaller : Bool) : Counted (initial n useCaller) where
  active := by
    simp only [initial, pcOf, Pc.carries, tally_false]
    rfl
  unborn _ _ := rfl
  fresh _ _ := rfl
  rootLast w h := by
    cases useCaller with
    | true => cases h; rfl
    | false => cases h
  rootUnborn _ _ _ := rfl

theorem Counted.worker_lt (hs : Counted s) (h : s.pcOf w ≠ .unborn) : w < s.workerCount := by
  by_contra hge
  exact h (hs.unborn w (Nat.le_of_not_lt hge))

theorem Counted.worker (hs : Counted s) (hm : Moves s a s') (h : WorkerFrame s w s') :
    Counted s' := by
  have hw : w < s.workerCount := hs.worker_lt h.born
  refine ⟨?_, ?_, ?_, ?_, ?_⟩
  · rw [hm.workerCount]
    exact tally_step hw (fun v hv => by rw [h.others v hv]) hs.active h.active
  · intro v hv
    rw [hm.workerCount] at hv
    rw [h.others v (Nat.ne_of_gt (Nat.lt_of_lt_of_le hw hv))]
    exact hs.unborn v hv
  · intro hp
    rw [h.phase] at hp
    exact absurd (hs.fresh hp w) h.born
  · rw [hm.threads.1, hm.threads.2]
    exact hs.rootLast
  · intro v hv hp
    rw [hm.threads.2] at hv
    rw [h.phase] at hp
    have hunborn := hs.rootUnborn v hv hp
    rw [h.others v fun hvw => h.born (hvw ▸ hunborn)]
    exact hunborn

theorem Counted.start (hs : Counted s) (hp : s.phase = .fresh) : Counted s.startAll := by
  have hpc (w : WorkerId) :
      s.startAll.pcOf w = if w < s.mThreadCount then .scan else s.pcOf w := by
    simp only [pcOf, startAll]
    split <;> rfl
  have hlast (w : WorkerId) (hw : s.mThreadCount ≤ w) : s.startAll.pcOf w = .unborn := by
    rw [hpc, if_neg (Nat.not_lt.2 hw)]
    exact hs.fresh hp w
  refine ⟨?_, ?_, fun h => (by cases h), hs.rootLast, ?_⟩
  · have hzero : tally s.workerCount (fun w => (s.startAll.pcOf w).carries) =
        tally s.workerCount fun w => (s.pcOf w).carries := by
      apply tally_congr
      intro w _
      rw [hpc, hs.fresh hp w]
      split <;> rfl
    exact hs.active.trans (congrArg _ hzero.symm)
  · exact fun w hw => hlast w (Nat.le_trans (Nat.le_add_right _ _) hw)
  · exact fun w hw _ => hlast w (Nat.le_of_eq (hs.rootLast w hw).symm)

theorem pcOf_enterRoot (s : Scheduler) (w v : WorkerId) :
    (s.enterRoot w).pcOf v = if v = w then .scan else s.pcOf v := by
  simp only [pcOf, enterRoot, Function.update_apply]
  split <;> rfl

theorem idleOf_enterRoot (s : Scheduler) (w v : WorkerId) :
    (s.enterRoot w).idleOf v = if v = w then .init else s.idleOf v := by
  simp only [idleOf, enterRoot, Function.update_apply]
  split <;> rfl

theorem Counted.enterRoot (hs : Counted s) (hr : s.mRootThread = some w) (hp : s.phase = .stopped) :
    Counted (s.enterRoot w) := by
  have hunborn : s.pcOf w = .unborn := hs.rootUnborn w hr (by rw [hp]; decide)
  refine ⟨?_, ?_, fun h => (by cases h), hs.rootLast, fun _ _ h => absurd rfl h⟩
  · have hsame : tally s.workerCount (fun v => ((s.enterRoot w).pcOf v).carries) =
        tally s.workerCount fun v => (s.pcOf v).carries := by
      apply tally_congr
      intro v _
      rw [pcOf_enterRoot]
      split
      · rename_i hv; rw [hv, hunborn]; rfl
      · rfl
    exact hs.active.trans (congrArg _ hsame.symm)
  · intro v hv
    have hlt : w < s.workerCount := by
      rw [hs.rootLast w hr, workerCount, hr]
      exact Nat.lt_succ_self _
    rw [pcOf_enterRoot, if_neg (Nat.ne_of_gt (Nat.lt_of_lt_of_le hlt hv))]
    exact hs.unborn v hv

theorem Counted.step (hs : Counted s) (h : Moves s a s') : Counted s' := by
  cases ha : a.worker with
  | some w => exact hs.worker h (h.workerFrame ha)
  | none =>
    cases h with
    | start hp => exact hs.start hp
    | requestStop hp | stop hp =>
      exact ⟨hs.active, hs.unborn, fun h => (by cases h), hs.rootLast,
        fun w hw _ => hs.rootUnborn w hw (by rw [hp]; decide)⟩
    | skipRoot =>
      exact ⟨hs.active, hs.unborn, fun h => (by cases h), hs.rootLast, fun _ _ h => absurd rfl h⟩
    | callRoot hr hp => exact hs.enterRoot hr hp
    | newFiber => exact ⟨hs.active, hs.unborn, hs.fresh, hs.rootLast, hs.rootUnborn⟩
    | schedule ht =>
      obtain ⟨rfl, -⟩ := schedule_eq_push ht
      exact ⟨hs.active, hs.unborn, hs.fresh, hs.rootLast, hs.rootUnborn⟩
    | _ => cases ha

/-- `start` and `stop` put to work only threads that have not been in `run`. -/
theorem Counted.outside (hs : Counted s) (h : Moves s a s') (ha : a.worker = none)
    (v : WorkerId) : s'.pcOf v = s.pcOf v ∨ (s.pcOf v = .unborn ∧ s'.pcOf v = .scan) := by
  cases h with
  | start hp =>
    simp only [pcOf, startAll]
    split
    · exact .inr ⟨hs.fresh hp v, rfl⟩
    · exact .inl rfl
  | callRoot hr hp =>
    rw [pcOf_enterRoot]
    split
    · rename_i hv
      rw [hv]
      exact .inr ⟨hs.rootUnborn _ hr (by rw [hp]; exact fun h => by cases h), rfl⟩
    · exact .inl rfl
  | requestStop | stop | skipRoot | newFiber => exact .inl rfl
  | schedule ht =>
    obtain ⟨rfl, -⟩ := schedule_eq_push ht
    exact .inl rfl
  | _ => cases ha

/-- The worker has decremented `m_activeThreadCount` and still holds a fiber it has to put
back into the queue. -/
def awaitsRequeue (s : Scheduler) (w : WorkerId) : Bool :=
  match s.pcOf w with
  | .after _ f => s.stateOf f = .ready
  | _ => false

def OutsideQuiet (s : Scheduler) : Act → Prop
  | .schedule _ _ => s.phase = .fresh ∨ s.phase = .started
  | _ => True

/-- `stopping()` does not answer true while some worker stands between the decrement of
`m_activeThreadCount` and the `schedule` of a fiber that yielded READY. -/
def NoRequeuePending (s : Scheduler) : Act → Prop
  | .work w =>
    s.pcOf w = .idleRun → s.isStopping → ∀ v < s.workerCount, s.awaitsRequeue v = false
  | _ => True

def DrainGuard (s : Scheduler) (a : Act) : Prop := OutsideQuiet s a ∧ NoRequeuePending s a

instance : ∀ (s : Scheduler) (a : Act), Decidable (OutsideQuiet s a)
  | s, .schedule _ _ => inferInstanceAs (Decidable (s.phase = .fresh ∨ s.phase = .started))
  | _, .start | _, .requestStop | _, .stop | _, .callRoot | _, .newFiber _ | _, .work _
  | _, .body _ _ =>
    inferInstanceAs (Decidable True)

instance : ∀ (s : Scheduler) (a : Act), Decidable (NoRequeuePending s a)
  | s, .work w => inferInstanceAs (Decidable (s.pcOf w = .idleRun → s.isStopping →
      ∀ v < s.workerCount, s.awaitsRequeue v = false))
  | _, .start | _, .requestStop | _, .stop | _, .callRoot | _, .newFiber _ | _, .schedule _ _
  | _, .body _ _ =>
    inferInstanceAs (Decidable True)

instance (s : Scheduler) (a : Act) : Decidable (DrainGuard s a) :=
  inferInstanceAs (Decidable (_ ∧ _))

/-- Nothing is queued, nothing is carried, nothing waits to be put back. -/
structure Quiet (s : Scheduler) : Prop where
  root : s.mRootThread = none
  phase : s.phase = .stopped
  empty : s.mFibers = []
  rest : ∀ w, (s.pcOf w).carries = false
  settled : ∀ w, s.awaitsRequeue w = false

theorem awaitsRequeue_false_iff (s : Scheduler) (w : WorkerId) : s.awaitsRequeue w = false ↔
    ∀ site f, s.pcOf w = .after site f → s.stateOf f ≠ .ready := by
  simp only [awaitsRequeue]
  split
  · rename_i site f hp
    simp only [decide_eq_false_iff_not, hp, Pc.after.injEq, and_imp]
    exact ⟨fun h _ _ _ hf => hf ▸ h, fun h => h site f rfl rfl⟩
  · rename_i hp
    exact ⟨fun _ site f h => absurd h (hp site f), fun _ => rfl⟩

/-- No worker has anything to do and nobody is about to put something into the queue. -/
structure AtRest (s : Scheduler) : Prop where
  empty : s.mFibers = []
  rest : ∀ w, (s.pcOf w).carries = false
  settled : ∀ w, s.awaitsRequeue w = false

/-- A step that queues nothing, makes no fiber READY and takes workers only to positions without
an entry leaves the scheduler at rest. -/
theorem AtRest.move (hs : AtRest s) (hq : s'.mFibers = s.mFibers)
    (hpc : ∀ v, s'.pcOf v = s.pcOf v ∨
      ((s'.pcOf v).carries = false ∧ ∀ site f, s'.pcOf v ≠ .after site f))
    (hready : ∀ f, s'.stateOf f = .ready → s.stateOf f = .ready) : AtRest s' := by
  refine ⟨hq.trans hs.empty, ?_, ?_⟩
  · intro v
    rcases hpc v with hold | ⟨hnew, -⟩
    · rw [hold]
      exact hs.rest v
    · exact hnew
  · intro v
    rw [awaitsRequeue_false_iff]
    intro site f hp hr
    rcases hpc v with hold | ⟨-, hnew⟩
    · rw [hold] at hp
      exact (awaitsRequeue_false_iff s v).1 (hs.settled v) site f hp (hready f hr)
    · exact hnew site f hp

/-- Only a thread that is no worker can put something into the queue of a scheduler at rest. -/
theorem AtRest.step (hs : AtRest s) (hg : ∀ t thread, a ≠ .schedule t thread)
    (h : Moves s a s') : AtRest s' := by
  have hrest {w : WorkerId} {pc : Pc} (hp : s.pcOf w = pc) : pc.carries = false := hp ▸ hs.rest w
  have hsettled {w : WorkerId} {site : Site} {f : FiberId} (hp : s.pcOf w = .after site f) :
      s.stateOf f ≠ .ready := (awaitsRequeue_false_iff s w).1 (hs.settled w) site f hp
  have hset {st : FiberState} {f g : FiberId} (hst : st ≠ .ready)
      (h : (if g = f then st else s.stateOf g) = .ready) : s.stateOf g = .ready := by
    split at h
    · exact absurd h hst
    · exact h
  cases h with
  | start =>
    refine hs.move rfl (fun v => ?_) fun _ hr => hr
    simp only [pcOf, startAll]
    split
    · exact .inr ⟨rfl, fun _ _ h => by cases h⟩
    · exact .inl rfl
  | callRoot =>
    refine hs.move rfl (fun v => ?_) fun _ hr => hr
    rw [pcOf_enterRoot]
    split
    · exact .inr ⟨rfl, fun _ _ h => by cases h⟩
    · exact .inl rfl
  | requestStop | stop | skipRoot => exact hs.move rfl (fun _ => .inl rfl) fun _ hr => hr
  | @newFiber c =>
    refine hs.move rfl (fun _ => .inl rfl) ?_
    intro g hr
    rw [stateOf_makeFiber] at hr
    exact hset (by decide) hr
  | schedule => exact absurd rfl (hg _ _)
  | pick hp he => rw [hs.empty] at he; cases he
  | drop hp | choose hp | reuse hp | make hp | resume hp | enter hp | leave hp | back hp
    | dropped hp | bodySchedule hp | yieldToReady hp | yieldToHold hp | finish hp | throw hp =>
    cases hrest hp
  | requeueOwn hp hr | requeueCb hp hr => exact absurd hr (hsettled hp)
  | @holdOwn w f | @doneCb w f | @holdCb w f =>
    refine hs.move rfl (fun v => ?_) ?ready
    case ready =>
      intro g hr
      simp only [stateOf_setPc, stateOf_releaseCb, stateOf_setState, stateOf_reset] at hr
      exact hset (by decide) hr
    by_cases hv : v = w <;> simp [hv, Pc.carries]
  | @miss w | @doneOwn w | @exit w | @toIdle w | @idleEnter w | @idleStop w | @idleWait w
    | @idleLeave w | @idleBack w | @idleDone w | @idleHold w =>
    refine hs.move rfl (fun v => ?_) fun _ hr => hr
    by_cases hv : v = w <;> simp [hv, Pc.carries]

theorem Quiet.step (hs : Quiet s) (hg : OutsideQuiet s a) (h : Moves s a s') : Quiet s' := by
  have hnot (t : Task) (thread : Option WorkerId) : a ≠ .schedule t thread := by
    rintro rfl
    rcases hg with hg | hg <;> rw [hs.phase] at hg <;> cases hg
  have hrest : AtRest s' := AtRest.step ⟨hs.empty, hs.rest, hs.settled⟩ hnot h
  refine ⟨h.threads.2.trans hs.root, ?_, hrest.empty, hrest.rest, hrest.settled⟩
  cases ha : a.worker with
  | some w => exact (h.workerFrame ha).phase.trans hs.phase
  | none =>
    cases h with
    | start hp | requestStop hp =>
      rw [hs.phase] at hp
      cases hp
    | stop => rfl
    | skipRoot hr | callRoot hr => rw [hs.root] at hr; cases hr
    | newFiber => exact hs.phase
    | schedule => exact absurd rfl (hnot _ _)
    | _ => cases ha

/-- The moment `stopping()` answers true with nothing about to be put back. -/
theorem atRest_of_stopping (hs : Counted s) (h : s.isStopping)
    (hr : ∀ v < s.workerCount, s.awaitsRequeue v = false) : AtRest s := by
  simp only [isStopping, Bool.and_eq_true, List.isEmpty_iff, beq_iff_eq] at h
  obtain ⟨⟨_, hempty⟩, hactive⟩ := h
  have hzero := hs.active.symm.trans hactive
  have hcount := tally_eq_zero (Int.natCast_eq_zero.1 hzero)
  refine ⟨hempty, ?_, ?_⟩
  · intro w
    by_cases hw : w < s.workerCount
    · exact hcount w hw
    · rw [hs.unborn w (Nat.le_of_not_lt hw)]
      rfl
  · intro w
    by_cases hw : w < s.workerCount
    · exact hr w hw
    · simp only [awaitsRequeue, hs.unborn w (Nat.le_of_not_lt hw)]

theorem quiet_of_stopping (hs : Counted s) (hroot : s.mRootThread = none)
    (hphase : s.phase = .stopped) (h : s.isStopping)
    (hr : ∀ v < s.workerCount, s.awaitsRequeue v = false) : Quiet s := by
  obtain ⟨hempty, hrest, hsettled⟩ := atRest_of_stopping hs h hr
  exact ⟨hroot, hphase, hempty, hrest, hsettled⟩

theorem Moves.idle_term (h : Moves s a s') (hv : s'.idleOf v = .term) :
    s.idleOf v = .term ∨ (a = .work v ∧ s.pcOf v = .idleRun ∧ s.isStopping) := by
  cases h with
  | start =>
    simp only [idleOf, startAll] at hv
    split at hv
    · cases hv
    · exact .inl hv
  | schedule ht | bodySchedule _ ht =>
    obtain ⟨rfl, -⟩ := schedule_eq_push ht
    exact .inl hv
  | requestStop | stop | skipRoot => exact .inl hv
  | callRoot =>
    rw [idleOf_enterRoot] at hv
    split at hv
    · cases hv
    · exact .inl hv
  | @idleStop w hp hstop =>
    rw [idleOf_setIdle] at hv
    split at hv
    · rename_i he; subst he; exact .inr ⟨rfl, hp, hstop⟩
    · exact .inl hv
  | idleEnter | idleHold =>
    rw [idleOf_setIdle] at hv
    split at hv
    · cases hv
    · exact .inl hv
  | _ => exact .inl (by simpa using hv)

theorem Moves.left_term (h : Moves s a s') (hl : ∀ v, s.pcOf v = .left → s.idleOf v = .term)
    (hv : s'.pcOf v = .left) : s'.idleOf v = .term := by
  cases h with
  | start =>
    simp only [pcOf, idleOf, startAll] at hv ⊢
    split at hv
    · cases hv
    · rename_i hw; rw [if_neg hw]; exact hl v hv
  | schedule ht | bodySchedule _ ht =>
    obtain ⟨rfl, -⟩ := schedule_eq_push ht
    exact hl v hv
  | requestStop | stop | skipRoot | newFiber => exact hl v hv
  | callRoot =>
    rw [pcOf_enterRoot] at hv
    rw [idleOf_enterRoot]
    split at hv
    · cases hv
    · rename_i hw; rw [if_neg hw]; exact hl v hv
  | exit hp hi =>
    rw [idleOf_setPc]
    rw [pcOf_setPc] at hv
    split at hv
    · rename_i he; rw [he, hi]
    · exact hl v hv
  | idleEnter | idleStop | idleHold =>
    rw [pcOf_setIdle] at hv
    split at hv
    · cases hv
    · rename_i hne
      rw [idleOf_setIdle, if_neg hne]
      exact hl v hv
  | _ =>
    simp only [pcOf_setPc, pcOf_releaseCb, pcOf_adoptCb] at hv
    split at hv
    · cases hv
    · simpa using hl v hv

/-- What holds along every drained run: a worker whose `idle` has returned is evidence that the
scheduler is quiet, and only such a worker leaves `run`. -/
structure DrainInv (s : Scheduler) : Prop where
  counted : Counted s
  root : s.mRootThread = none
  flags : s.mAutoStop = true → s.mStopping = true → s.phase = .stopped
  running : s.phase = .started → s.mStopping = false
  quiet : ∀ w, s.idleOf w = .term → Quiet s
  left : ∀ w, s.pcOf w = .left → s.idleOf w = .term

theorem initial_drainInv (n : Nat) : DrainInv (initial n false) where
  counted := initial_counted n false
  root := rfl
  flags h := by cases h
  running h := by cases h
  quiet _ h := by cases h
  left _ h := by cases h

theorem DrainInv.step (hs : DrainInv s) (hg : DrainGuard s a) (h : Moves s a s') :
    DrainInv s' := by
  have hflags : (s'.mAutoStop = true → s'.mStopping = true → s'.phase = .stopped) ∧
      (s'.phase = .started → s'.mStopping = false) := by
    cases ha : a.worker with
    | some w =>
      have hw := h.workerFrame ha
      rw [hw.autoStop, hw.stopping, hw.phase]
      exact ⟨hs.flags, hs.running⟩
    | none =>
      cases h with
      | start => exact ⟨fun _ h => (by cases h), fun _ => rfl⟩
      | requestStop hp =>
        have hrun := hs.running hp
        exact ⟨fun _ h => (by rw [hrun] at h; cases h), fun h => (by cases h)⟩
      | stop => exact ⟨fun _ _ => rfl, fun h => (by cases h)⟩
      | skipRoot hr | callRoot hr => rw [hs.root] at hr; cases hr
      | newFiber => exact ⟨hs.flags, hs.running⟩
      | schedule ht =>
        obtain ⟨rfl, -⟩ := schedule_eq_push ht
        exact ⟨hs.flags, hs.running⟩
      | _ => cases ha
  refine ⟨hs.counted.step h, h.threads.2.trans hs.root, hflags.1, hflags.2, fun w hw => ?_,
    fun w => h.left_term hs.left⟩
  have hquiet : Quiet s := by
    rcases h.idle_term hw with hold | ⟨rfl, hp, hstop⟩
    · exact hs.quiet w hold
    · have hon := hstop
      simp only [isStopping, Bool.and_eq_true] at hon
      have hflags := hs.flags hon.1.1.1 hon.1.1.2
      exact quiet_of_stopping hs.counted hs.root hflags hstop (hg.2 hp hstop)
  exact hquiet.step hg.1 h

theorem reach_drainInv (h : Reach step DrainGuard (initial n false) s) : DrainInv s :=
  h.invariant (initial_drainInv n) fun hs hg ht => hs.step hg (step_moves ht)

/-- When `stop` returns, every task has been run, provided `stopping()` never answers true
between the decrement and the requeueing of a READY fiber by another worker. -/
theorem stop_drains_queue (hn : 0 < n) (h : Reach step DrainGuard (initial n false) s)
    (hleft : ∀ w < n, s.pcOf w = .left) : s.mFibers = [] := by
  have hs := reach_drainInv h
  exact (hs.quiet 0 (hs.left 0 (hleft 0 hn))).empty

def drainedRun : List Act :=
  [.newFiber 0, .schedule (.fiber 0) none, .start, .work 0, .work 0, .work 0, .work 0,
    .body 0 .yieldToReady, .work 0, .work 0, .requestStop, .stop, .work 0, .work 0, .work 0,
    .work 0, .work 0, .body 0 .finish, .work 0, .work 0, .work 0, .work 0, .work 0, .work 0,
    .work 0, .work 0, .work 0, .work 0, .work 0, .work 0]

theorem stop_drains_queue_one_worker :
    ∃ s, Reach step DrainGuard (initial 1 false) s ∧ s.pcOf 0 = .left ∧ s.mFibers = [] := by
  obtain ⟨s, hs, hp⟩ := Reach.of_exec_map step DrainGuard (initial 1 false) drainedRun
    (fun s => s.pcOf 0 = .left) (by decide)
  have hleft := of_decide_eq_true hp
  refine ⟨s, hs, hleft, stop_drains_queue Nat.zero_lt_one hs ?_⟩
  intro w hw
  rw [Nat.lt_one_iff.1 hw]
  exact hleft

/-- Two workers hand a yielding fiber to and fro. Each evaluates `stopping()` while the other
has decremented the counter but not yet put the fiber back, so both `idle` fibers end; the fiber
then schedules a callback for the worker that has left already. -/
def strandedRun : List Act :=
  [.newFiber 0, .schedule (.fiber 0) none, .start, .requestStop, .stop,
    .work 0, .work 0, .work 0, .work 0, .body 0 .yieldToReady, .work 0, .work 0,
    .work 1, .work 1, .work 1, .work 1, .work 1, .work 1, .work 1,
    .work 0,
    .work 1, .work 1, .work 1, .work 1, .body 1 .yieldToReady, .work 1, .work 1,
    .work 0, .work 0, .work 0, .work 0, .work 0, .work 0, .work 0,
    .work 1,
    .work 0,
    .work 1, .work 1,
    .work 0, .work 0, .work 0, .body 0 (.schedule (.cb 1) (some 1)), .body 0 .finish,
    .work 0, .work 0, .work 0, .work 0, .work 0]

theorem stop_strands_a_task :
    ∃ s, Reach step OutsideQuiet (initial 2 false) s ∧ (∀ w < 2, s.pcOf w = .left) ∧
      s.mFibers = [⟨.cb 1, some 1⟩] := by
  obtain ⟨s, hs, hp⟩ := Reach.of_exec_map step OutsideQuiet (initial 2 false) strandedRun
    (fun s => decide ((∀ w : Nat, w < 2 → s.pcOf w = .left) ∧ s.mFibers = [⟨.cb 1, some 1⟩]))
    (by decide)
  exact ⟨s, hs, of_decide_eq_true hp⟩

end Scheduler
end SvrFrame
