import SvrFrame.Scheduler.Queue

namespace SvrFrame
namespace Scheduler
open Library
set_option autoImplicit true

variable {s s' : Scheduler}

/-- The next step of an `idle()` that a derived class has overridden with whatever code. -/
def idleStep (s : Scheduler) (w : WorkerId) (b : BodyAct) : Option Scheduler :=
  if s.pcOf w = .idleRun then
    match b with
    | .schedule t thread => s.schedule t thread
    | .yieldToReady => if s.idleOf w = .exec then some (s.setIdle w .idleLeave .ready) else none
    | .yieldToHold => if s.idleOf w = .exec then some (s.setPc w .idleLeave) else none
    | .finish => some (s.setIdle w .idleLeave .term)
    | .throw => some (s.setIdle w .idleLeave .except)
  else none

/-- `reset` is a call of `Fiber::Reset` by somebody who has a pointer to the fiber. -/
inductive LoopAct where
  | sched (a : Act)
  | idle (w : WorkerId) (b : BodyAct)
  | reset (f : FiberId) (cb : Option Callback)
  deriving DecidableEq, Repr

/-- A scheduler with its `idle()` overridden. The idle fiber that has ended has nothing behind its
last switch but "never reach". -/
def loopStep (s : Scheduler) : LoopAct → Option Scheduler
  | .sched (.work w) =>
    if s.pcOf w = .idleRun ∨ (s.pcOf w = .idleEnter ∧ (s.idleOf w).finished) then none
    else s.workStep w
  | .sched a => s.step a
  | .idle w b => s.idleStep w b
  | .reset f cb => if f < s.nextFiber ∧ resettable (s.stateOf f) then some (s.reset f cb) else none

/-- A worker whose `idle()` has thrown does not find the queue without an entry for it. -/
def FindsAfterThrow (s : Scheduler) : LoopAct → Prop
  | .sched (.work w) => s.pcOf w = .scan → s.idleOf w = .except →
      (s.mFibers.find? (s.eligible w)).isSome
  | _ => True

instance : ∀ (s : Scheduler) (x : LoopAct), Decidable (s.FindsAfterThrow x)
  | s, .sched (.work w) => inferInstanceAs (Decidable (s.pcOf w = .scan →
      s.idleOf w = .except → (s.mFibers.find? (s.eligible w)).isSome))
  | _, .sched .start | _, .sched .requestStop | _, .sched .stop | _, .sched .callRoot
  | _, .sched (.newFiber _) | _, .sched (.schedule _ _) | _, .sched (.body _ _) | _, .idle _ _
  | _, .reset _ _ => inferInstanceAs (Decidable True)

/-- At its three `SwapIn`s the loop has a fiber that is neither TERM nor EXCEPT, and no switch
leads behind the end of `MainFunc` or `CallerMainFunc`. -/
def ResumesLive (s : Scheduler) : Prop :=
  ∀ w, (∀ site f, s.pcOf w = .resume site f → (s.stateOf f).finished = false) ∧
    (s.pcOf w = .idleEnter → (s.idleOf w).finished = false) ∧
    ∀ site f, s.pcOf w = .enter site f → (s.fibers f).ended = false

structure LoopInv (s : Scheduler) : Prop where
  counted : Counted s
  one : s.workerCount = 1
  known : Known s
  ended : ∀ f, (s.fibers f).ended = true → (s.stateOf f).finished = true
  resume : ∀ w site f, s.pcOf w = .resume site f → (s.stateOf f).finished = false
  enter : ∀ w site f, s.pcOf w = .enter site f → s.stateOf f = .exec
  missed : ∀ w, s.pcOf w = .missed → s.idleOf w ≠ .except
  idle : ∀ w, s.pcOf w = .idleEnter → (s.idleOf w).finished = false

theorem initial_loopInv (useCaller : Bool) : LoopInv (initial 1 useCaller) where
  counted := initial_counted 1 useCaller
  one := by cases useCaller <;> rfl
  known := initial_known 1 useCaller
  ended _ h := by cases h
  resume _ _ _ h := by cases h
  enter _ _ _ h := by cases h
  missed _ h := by cases h
  idle _ h := by cases h

theorem LoopInv.resumesLive (hs : LoopInv s) : ResumesLive s := by
  intro w
  refine ⟨hs.resume w, hs.idle w, ?_⟩
  intro site f hp
  by_contra hended
  have hfinished := hs.ended f (eq_true_of_ne_false hended)
  rw [hs.enter w site f hp] at hfinished
  cases hfinished

/-- There is only one worker. -/
theorem LoopInv.eq (hs : LoopInv s) (hw : s.pcOf w ≠ .unborn) (hv : s.pcOf v ≠ .unborn) :
    w = v := by
  have hw := hs.counted.worker_lt hw
  have hv := hs.counted.worker_lt hv
  rw [hs.one] at hw hv
  rw [Nat.lt_one_iff.1 hw, Nat.lt_one_iff.1 hv]

/-- While the worker holds a fiber, the steps of others leave the fiber alone. -/
theorem LoopInv.untouched (hs : LoopInv s) (h : Moves s a s') (ha : a.worker ≠ some w)
    (hf : (s.pcOf w).fiber? = some f) : s'.fibers f = s.fibers f := by
  have hborn : s.pcOf w ≠ .unborn := fun hu => by rw [hu] at hf; cases hf
  apply h.untouched (hs.known.named w f (.inl hf))
  intro v hv _
  have hvw := hs.eq (h.workerFrame hv).born hborn
  exact ha (hvw ▸ hv)

theorem LoopInv.ended_step (hs : LoopInv s) (h : Moves s a s')
    (he : (s'.fibers f).ended = true) : (s'.stateOf f).finished = true := by
  have hset {g : FiberId} {x : FiberCell} (hx : x.ended = true → x.mState.finished = true)
      (he : (Function.update s.fibers g x f).ended = true) :
      ((s.setCell g x).stateOf f).finished = true := by
    rw [stateOf_setCell]
    rw [Function.update_apply] at he
    split at he
    · rename_i hf
      rw [if_pos hf]
      exact hx he
    · rename_i hf
      rw [if_neg hf]
      exact hs.ended f he
  have hlive {g : FiberId} {st : FiberState} (hg : (s.stateOf g).finished = false)
      (he : (s.fibers g).ended = true) : st.finished = true := by
    rw [hs.ended g he] at hg
    cases hg
  cases h with
  | schedule ht | bodySchedule _ ht =>
    obtain ⟨rfl, -⟩ := schedule_eq_push ht
    exact hs.ended f he
  | newFiber => exact hset (fun h => by cases h) he
  | make => exact hset (fun h => by cases h) he
  | reuse | doneCb => exact hset (fun h => by cases h) he
  | @resume w site g hp => exact hset (hlive (hs.resume w site g hp)) he
  | holdOwn hp hr hf | holdCb hp hr hf => exact hset (hlive (eq_false_of_ne_true hf)) he
  | yieldToReady hp hexec => exact hset (hlive (by rw [hexec]; rfl)) he
  | finish | throw => exact hset (fun _ => rfl) he
  | _ => exact hs.ended f he

theorem LoopInv.resume_step (hs : LoopInv s) (h : Moves s a s')
    (hp : s'.pcOf w = .resume site f) : (s'.stateOf f).finished = false := by
  by_cases ha : a.worker = some w
  · cases h with
    | start | requestStop | stop | skipRoot | callRoot | newFiber | schedule => cases ha
    | bodySchedule hrun ht =>
      cases ha
      obtain ⟨rfl, -⟩ := schedule_eq_push ht
      exact hs.resume w site f hp
    | choose _ hlive =>
      cases ha
      rw [pcOf_setPc, if_pos rfl] at hp
      cases hp
      exact eq_false_of_ne_true hlive
    | reuse =>
      cases ha
      rw [pcOf_setPc, if_pos rfl] at hp
      cases hp
      rw [stateOf_setPc, stateOf_reset, if_pos rfl]
      rfl
    | make =>
      cases ha
      rw [pcOf_adoptCb, if_pos rfl] at hp
      cases hp
      rw [stateOf_adoptCb, stateOf_makeFiber, if_pos rfl]
      rfl
    | _ =>
      cases ha
      simp at hp
  · rcases h.pcOf_other ha with hpc | hpc
    · rw [hpc] at hp
      have hsame := hs.untouched h ha (f := f) (by rw [hp]; rfl)
      rw [stateOf, hsame]
      exact hs.resume w site f hp
    · rw [hpc] at hp
      cases hp

theorem LoopInv.enter_step (hs : LoopInv s) (h : Moves s a s')
    (hp : s'.pcOf w = .enter site f) : s'.stateOf f = .exec := by
  by_cases ha : a.worker = some w
  · cases h with
    | start | requestStop | stop | skipRoot | callRoot | newFiber | schedule => cases ha
    | bodySchedule hrun ht =>
      cases ha
      obtain ⟨rfl, -⟩ := schedule_eq_push ht
      exact hs.enter w site f hp
    | resume =>
      cases ha
      rw [pcOf_setPc, if_pos rfl] at hp
      cases hp
      rw [stateOf_setPc, stateOf_setState, if_pos rfl]
    | _ =>
      cases ha
      simp at hp
  · rcases h.pcOf_other ha with hpc | hpc
    · rw [hpc] at hp
      have hsame := hs.untouched h ha (f := f) (by rw [hp]; rfl)
      rw [stateOf, hsame]
      exact hs.enter w site f hp
    · rw [hpc] at hp
      cases hp

theorem LoopInv.missed_step (hs : LoopInv s) (hg : s.FindsAfterThrow (.sched a))
    (h : Moves s a s') (hp : s'.pcOf w = .missed) : s'.idleOf w ≠ .except := by
  by_cases ha : a.worker = some w
  · cases h with
    | start | requestStop | stop | skipRoot | callRoot | newFiber | schedule => cases ha
    | bodySchedule hrun ht =>
      cases ha
      obtain ⟨rfl, -⟩ := schedule_eq_push ht
      exact hs.missed w hp
    | miss hscan he =>
      cases ha
      rw [idleOf_setPc]
      intro hexcept
      have hfound := hg hscan hexcept
      rw [he] at hfound
      cases hfound
    | _ =>
      cases ha
      simp at hp
  · revert hp
    exact h.worker_keeps (Q := fun k => k.pc = .missed → k.idleState ≠ .except) ha (hs.missed w)
      fun hp => by cases hp

theorem LoopInv.idle_step (hs : LoopInv s) (h : Moves s a s') (hp : s'.pcOf w = .idleEnter) :
    (s'.idleOf w).finished = false := by
  by_cases ha : a.worker = some w
  · cases h with
    | start | requestStop | stop | skipRoot | callRoot | newFiber | schedule => cases ha
    | bodySchedule hrun ht =>
      cases ha
      obtain ⟨rfl, -⟩ := schedule_eq_push ht
      exact hs.idle w hp
    | toIdle hmissed hterm =>
      cases ha
      have hexcept := hs.missed w hmissed
      rw [idleOf_setPc, idleOf_incIdle]
      revert hterm hexcept
      cases s.idleOf w <;> simp [FiberState.finished]
    | _ =>
      cases ha
      simp at hp
  · revert hp
    exact h.worker_keeps (Q := fun k => k.pc = .idleEnter → k.idleState.finished = false) ha
      (hs.idle w) fun hp => by cases hp

theorem LoopInv.sched_step (hs : LoopInv s) (hg : s.FindsAfterThrow (.sched a))
    (h : Moves s a s') : LoopInv s' where
  counted := hs.counted.step h
  one := h.workerCount.trans hs.one
  known := hs.known.step h
  ended _ := hs.ended_step h
  resume _ _ _ := hs.resume_step h
  enter _ _ _ := hs.enter_step h
  missed _ := hs.missed_step hg h
  idle _ := hs.idle_step h

/-- However `idle()` leaves its fiber, the loop is not yet at a test of the fiber's state. -/
theorem LoopInv.idleLeaves (hs : LoopInv s) (hp : s.pcOf w = .idleRun) (st : FiberState) :
    LoopInv (s.setIdle w .idleLeave st) := by
  have hmoves : ∃ st', Moves s (.work w) (s.setIdle w .idleLeave st') := by
    cases hstop : s.isStopping with
    | true => exact ⟨_, .idleStop hp hstop⟩
    | false => exact ⟨s.idleOf w, .idleWait hp hstop⟩
  obtain ⟨st', hm⟩ := hmoves
  have hg : s.FindsAfterThrow (.sched (.work w)) := fun hscan => by rw [hp] at hscan; cases hscan
  have h' := hs.sched_step hg hm
  have hpc : (s.setIdle w .idleLeave st).pcOf = (s.setIdle w .idleLeave st').pcOf := by
    funext v
    rw [pcOf_setIdle, pcOf_setIdle]
  have hidle (v : WorkerId) (hv : (s.setIdle w .idleLeave st).pcOf v ≠ .idleLeave) :
      (s.setIdle w .idleLeave st).idleOf v = (s.setIdle w .idleLeave st').idleOf v := by
    have hvw : v ≠ w := fun hvw => hv (by rw [pcOf_setIdle, if_pos hvw])
    rw [idleOf_setIdle, idleOf_setIdle, if_neg hvw, if_neg hvw]
  constructor
  · obtain ⟨active, unborn, fresh, rootLast, rootUnborn⟩ := h'.counted
    rw [← hpc] at active unborn fresh rootUnborn
    exact ⟨active, unborn, fresh, rootLast, rootUnborn⟩
  · exact h'.one
  · exact ⟨hs.known.queued, fun v f hn => h'.known.named v f (by simpa [Names] using hn)⟩
  · exact h'.ended
  · rw [hpc]
    exact h'.resume
  · rw [hpc]
    exact h'.enter
  · intro v hv
    rw [hidle v (by rw [hv]; decide)]
    exact h'.missed v (hpc ▸ hv)
  · intro v hv
    rw [hidle v (by rw [hv]; decide)]
    exact h'.idle v (hpc ▸ hv)

theorem LoopInv.reset (hs : LoopInv s) (hf : resettable (s.stateOf f)) :
    LoopInv (s.reset f cb) where
  counted := ⟨hs.counted.active, hs.counted.unborn, hs.counted.fresh, hs.counted.rootLast,
    hs.counted.rootUnborn⟩
  one := hs.one
  known := ⟨hs.known.queued, hs.known.named⟩
  ended g he := by
    rw [reset_fibers, Function.update_apply] at he
    rw [stateOf_reset]
    split at he
    · cases he
    · rename_i hg
      rw [if_neg hg]
      exact hs.ended g he
  resume w site g hp := by
    rw [stateOf_reset]
    split
    · rfl
    · exact hs.resume w site g hp
  enter w site g hp := by
    have hexec := hs.enter w site g hp
    rw [stateOf_reset, if_neg]
    · exact hexec
    · rintro rfl
      rw [hexec] at hf
      cases hf
  missed := hs.missed
  idle := hs.idle

theorem idleStep_cases (h : s.idleStep w b = some s') : s.pcOf w = .idleRun ∧
    ((∃ t thread, b = .schedule t thread ∧ s.schedule t thread = some s') ∨
      ∃ st, s' = s.setIdle w .idleLeave st) := by
  simp only [idleStep] at h
  split at h
  · rename_i hp
    refine ⟨hp, ?_⟩
    cases b with
    | schedule t thread => exact .inl ⟨t, thread, rfl, h⟩
    | yieldToReady =>
      simp only at h
      split at h
      · cases h; exact .inr ⟨_, rfl⟩
      · cases h
    | yieldToHold =>
      simp only at h
      split at h
      · cases h; exact .inr ⟨s.idleOf w, rfl⟩
      · cases h
    | finish | throw => cases h; exact .inr ⟨_, rfl⟩
  · cases h

theorem LoopInv.step {x : LoopAct} (hs : LoopInv s) (hg : s.FindsAfterThrow x)
    (h : s.loopStep x = some s') : LoopInv s' := by
  cases x with
  | sched a =>
    apply hs.sched_step hg
    apply step_moves
    cases a with
    | work w =>
      simp only [loopStep] at h
      split at h
      · cases h
      · exact h
    | _ => exact h
  | idle w b =>
    obtain ⟨hp, ⟨t, thread, -, ht⟩ | ⟨st, rfl⟩⟩ := idleStep_cases h
    · exact hs.sched_step (a := .schedule t thread) trivial (.schedule ht)
    · exact hs.idleLeaves hp st
  | reset f cb =>
    simp only [loopStep] at h
    split at h
    · rename_i hf
      cases h
      exact hs.reset hf.2
    · cases h

theorem reach_loopInv {useCaller : Bool}
    (h : Reach loopStep FindsAfterThrow (initial 1 useCaller) s) : LoopInv s :=
  h.invariant (initial_loopInv useCaller) fun hs hg ht => hs.step hg ht

/-- The loop tests the idle fiber for TERM only. -/
theorem resumes_dead_idle (h : ¬ s.FindsAfterThrow (.sched (.work w))) :
    ∃ t u, s.loopStep (.sched (.work w)) = some t ∧ t.loopStep (.sched (.work w)) = some u ∧
      u.pcOf w = .idleEnter ∧ u.idleOf w = .except := by
  simp only [FindsAfterThrow, Classical.not_imp] at h
  obtain ⟨hscan, hexcept, hmiss⟩ := h
  have hmiss : s.mFibers.find? (s.eligible w) = none := by simpa using hmiss
  have hmissed : (s.setPc w .missed).pcOf w = .missed := by simp
  have hidle : (s.setPc w .missed).idleOf w = .except := by simpa using hexcept
  refine ⟨s.setPc w .missed, (s.setPc w .missed).incIdle.setPc w .idleEnter, ?_, ?_, ?_, ?_⟩
  · simp [loopStep, workStep, hscan, hmiss]
  · simp [loopStep, workStep, hexcept]
  · simp
  · simpa using hexcept

/-- A scheduler with one worker resumes no fiber that is TERM or EXCEPT as long as the worker whose
`idle()` has thrown always finds an entry for it, and only so long. -/
theorem loop_resumes_live {useCaller : Bool}
    (h : Reach loopStep FindsAfterThrow (initial 1 useCaller) s) :
    ResumesLive s ∧ ∀ w, ¬ s.FindsAfterThrow (.sched (.work w)) →
      ∃ t u, s.loopStep (.sched (.work w)) = some t ∧ t.loopStep (.sched (.work w)) = some u ∧
        ¬ ResumesLive u := by
  constructor
  · exact (reach_loopInv h).resumesLive
  · intro w hw
    obtain ⟨t, u, ht, hu, hp, hexcept⟩ := resumes_dead_idle hw
    refine ⟨t, u, ht, hu, ?_⟩
    intro hlive
    have hidle := (hlive w).2.1 hp
    rw [hexcept] at hidle
    cases hidle

/-- `idle()` throws once it has scheduled a callback, which the worker then finds. -/
theorem loop_resumes_live_idle_thrown :
    ∃ s, Reach loopStep FindsAfterThrow (initial 1 false) s ∧ ResumesLive s ∧
      s.idleOf 0 = .except ∧ s.pcOf 0 = .enter .cb 0 := by
  obtain ⟨s, hs, hp⟩ := Reach.of_exec_map loopStep FindsAfterThrow (initial 1 false)
    [.sched .start, .sched (.work 0), .sched (.work 0), .sched (.work 0),
      .idle 0 (.schedule (.cb 0) none), .idle 0 .throw, .sched (.work 0), .sched (.work 0),
      .sched (.work 0), .sched (.work 0), .sched (.work 0), .sched (.work 0)]
    (fun s => decide (s.idleOf 0 = .except ∧ s.pcOf 0 = .enter .cb 0)) (by decide)
  exact ⟨s, hs, (loop_resumes_live hs).1, of_decide_eq_true hp⟩

/-- The overridden `idle()` throws; the next scan finds nothing and the loop resumes the idle fiber,
whose context stands behind the last switch of `MainFunc`. -/
theorem loop_resumes_dead_idle :
    ∃ s, Reach loopStep (fun _ _ => True) (initial 1 false) s ∧ ¬ ResumesLive s := by
  obtain ⟨s, hs, hp⟩ := Reach.of_exec_map loopStep (fun _ _ => True) (initial 1 false)
    [.sched .start, .sched (.work 0), .sched (.work 0), .sched (.work 0), .idle 0 .throw,
      .sched (.work 0), .sched (.work 0), .sched (.work 0), .sched (.work 0), .sched (.work 0)]
    (fun s => decide (s.pcOf 0 = .idleEnter ∧ (s.idleOf 0).finished = true)) (by decide)
  obtain ⟨hp, hdead⟩ := of_decide_eq_true hp
  refine ⟨s, hs, ?_⟩
  intro hlive
  have hidle := (hlive 0).2.1 hp
  rw [hdead] at hidle
  cases hidle

/-- What the scheduler's own `idle()` makes of the idle fiber. -/
structure OwnIdle (s : Scheduler) : Prop where
  running : ∀ w, s.pcOf w = .idleRun → s.idleOf w = .exec
  not_except : ∀ w, s.idleOf w ≠ .except

theorem OwnIdle.step (hs : OwnIdle s) (h : Moves s a s') : OwnIdle s' := by
  have hworker (w : WorkerId) :
      (s'.pcOf w = .idleRun → s'.idleOf w = .exec) ∧ s'.idleOf w ≠ .except := by
    by_cases ha : a.worker = some w
    · cases h with
      | start | requestStop | stop | skipRoot | callRoot | newFiber | schedule => cases ha
      | bodySchedule _ ht =>
        obtain ⟨rfl, -⟩ := schedule_eq_push ht
        exact ⟨hs.running w, hs.not_except w⟩
      | idleEnter | idleStop | idleHold =>
        cases ha
        simp
      | _ =>
        cases ha
        simpa using hs.not_except w
    · exact h.worker_keeps
        (Q := fun k => (k.pc = .idleRun → k.idleState = .exec) ∧ k.idleState ≠ .except) ha
        ⟨hs.running w, hs.not_except w⟩ ⟨fun hp => (by cases hp), fun hi => (by cases hi)⟩
  exact ⟨fun w => (hworker w).1, fun w => (hworker w).2⟩

/-- The scheduler's own `idle()` is one of those that `idleStep` allows. -/
theorem workStep_idle (hp : s.pcOf w = .idleRun) (he : s.idleOf w = .exec) :
    s.workStep w = s.idleStep w (if s.isStopping then .finish else .yieldToHold) := by
  by_cases hstop : s.isStopping
  · simp [workStep, idleStep, hp, hstop]
  · simp [workStep, idleStep, hp, hstop, he]

/-- With its own `idle()` the scheduler with one worker resumes no fiber that is TERM or EXCEPT. -/
theorem own_idle_resumes_live {useCaller : Bool}
    (h : Reach step (fun _ _ => True) (initial 1 useCaller) s) : ResumesLive s := by
  have hown {t : Scheduler} (ht : Reach step (fun _ _ => True) (initial 1 useCaller) t) :
      OwnIdle t :=
    ht.invariant ⟨fun _ hp => (by cases hp), fun _ hi => (by cases hi)⟩ fun hs _ hu =>
      hs.step (step_moves hu)
  have hloop : Reach loopStep FindsAfterThrow (initial 1 useCaller) s := by
    apply h.simulate
    intro t a u ht hl _ hu
    have hi := hown ht
    by_cases hrun : ∃ w, a = .work w ∧ t.pcOf w = .idleRun
    · obtain ⟨w, rfl, hp⟩ := hrun
      exact ⟨.idle w _, trivial, (workStep_idle hp (hi.running w hp)).symm.trans hu⟩
    · refine ⟨.sched a, ?_, ?_⟩
      · cases a with
        | work w => exact fun _ hexcept => absurd hexcept (hi.not_except w)
        | _ => trivial
      · cases a with
        | work w =>
          have hlive := ((reach_loopInv hl).resumesLive w).2.1
          simp only [loopStep]
          rw [if_neg]
          · exact hu
          · rintro (hp | ⟨hp, hdead⟩)
            · exact hrun ⟨w, rfl, hp⟩
            · rw [hlive hp] at hdead
              cases hdead
        | _ => exact hu
  exact (reach_loopInv hloop).resumesLive

end Scheduler
end SvrFrame
