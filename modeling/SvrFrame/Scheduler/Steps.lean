import SvrFrame.Scheduler.Model

namespace SvrFrame
namespace Scheduler
open Library
set_option autoImplicit true

section Accessors
variable (s : Scheduler)

@[simp] theorem pcOf_setWorker : (s.setWorker w k).pcOf v = if v = w then k.pc else s.pcOf v := by
  simp only [pcOf, setWorker_workers, Function.update_apply]
  split <;> rfl

@[simp] theorem cbOf_setWorker :
    (s.setWorker w k).cbOf v = if v = w then k.cbFiber else s.cbOf v := by
  simp only [cbOf, setWorker_workers, Function.update_apply]
  split <;> rfl

@[simp] theorem idleOf_setWorker :
    (s.setWorker w k).idleOf v = if v = w then k.idleState else s.idleOf v := by
  simp only [idleOf, setWorker_workers, Function.update_apply]
  split <;> rfl

@[simp] theorem pcOf_setPc : (s.setPc w pc).pcOf v = if v = w then pc else s.pcOf v :=
  pcOf_setWorker s

@[simp] theorem pcOf_setIdle : (s.setIdle w pc st).pcOf v = if v = w then pc else s.pcOf v :=
  pcOf_setWorker s

@[simp] theorem pcOf_adoptCb :
    (s.adoptCb w f).pcOf v = if v = w then .resume .cb f else s.pcOf v :=
  pcOf_setWorker s

@[simp] theorem pcOf_releaseCb : (s.releaseCb w).pcOf v = if v = w then .scan else s.pcOf v :=
  pcOf_setWorker s

@[simp] theorem cbOf_adoptCb : (s.adoptCb w f).cbOf v = if v = w then some f else s.cbOf v :=
  cbOf_setWorker s

@[simp] theorem cbOf_releaseCb : (s.releaseCb w).cbOf v = if v = w then none else s.cbOf v :=
  cbOf_setWorker s

@[simp] theorem idleOf_setIdle : (s.setIdle w pc st).idleOf v = if v = w then st else s.idleOf v :=
  idleOf_setWorker s

theorem cbOf_setWorker_same (h : k.cbFiber = s.cbOf w) : (s.setWorker w k).cbOf = s.cbOf := by
  funext v
  rw [cbOf_setWorker]
  split
  · rename_i hv; rw [hv, h]
  · rfl

theorem idleOf_setWorker_same (h : k.idleState = s.idleOf w) :
    (s.setWorker w k).idleOf = s.idleOf := by
  funext v
  rw [idleOf_setWorker]
  split
  · rename_i hv; rw [hv, h]
  · rfl

@[simp] theorem cbOf_setPc : (s.setPc w pc).cbOf = s.cbOf := cbOf_setWorker_same s rfl
@[simp] theorem cbOf_setIdle : (s.setIdle w pc st).cbOf = s.cbOf := cbOf_setWorker_same s rfl
@[simp] theorem idleOf_setPc : (s.setPc w pc).idleOf = s.idleOf := idleOf_setWorker_same s rfl
@[simp] theorem idleOf_adoptCb : (s.adoptCb w f).idleOf = s.idleOf := idleOf_setWorker_same s rfl
@[simp] theorem idleOf_releaseCb : (s.releaseCb w).idleOf = s.idleOf := idleOf_setWorker_same s rfl

@[simp] theorem pcOf_take : (s.take w).pcOf = s.pcOf := rfl
@[simp] theorem pcOf_makeFiber : (s.makeFiber c).pcOf = s.pcOf := rfl
@[simp] theorem pcOf_setCell : (s.setCell f x).pcOf = s.pcOf := rfl
@[simp] theorem pcOf_setState : (s.setState f st).pcOf = s.pcOf := rfl
@[simp] theorem pcOf_reset : (s.reset f o).pcOf = s.pcOf := rfl
@[simp] theorem pcOf_push : (s.push e).pcOf = s.pcOf := rfl
@[simp] theorem pcOf_decActive : s.decActive.pcOf = s.pcOf := rfl
@[simp] theorem pcOf_incIdle : s.incIdle.pcOf = s.pcOf := rfl
@[simp] theorem pcOf_decIdle : s.decIdle.pcOf = s.pcOf := rfl

@[simp] theorem cbOf_take : (s.take w).cbOf = s.cbOf := rfl
@[simp] theorem cbOf_makeFiber : (s.makeFiber c).cbOf = s.cbOf := rfl
@[simp] theorem cbOf_setCell : (s.setCell f x).cbOf = s.cbOf := rfl
@[simp] theorem cbOf_setState : (s.setState f st).cbOf = s.cbOf := rfl
@[simp] theorem cbOf_reset : (s.reset f o).cbOf = s.cbOf := rfl
@[simp] theorem cbOf_push : (s.push e).cbOf = s.cbOf := rfl
@[simp] theorem cbOf_decActive : s.decActive.cbOf = s.cbOf := rfl
@[simp] theorem cbOf_incIdle : s.incIdle.cbOf = s.cbOf := rfl
@[simp] theorem cbOf_decIdle : s.decIdle.cbOf = s.cbOf := rfl

@[simp] theorem idleOf_take : (s.take w).idleOf = s.idleOf := rfl
@[simp] theorem idleOf_makeFiber : (s.makeFiber c).idleOf = s.idleOf := rfl
@[simp] theorem idleOf_setCell : (s.setCell f x).idleOf = s.idleOf := rfl
@[simp] theorem idleOf_setState : (s.setState f st).idleOf = s.idleOf := rfl
@[simp] theorem idleOf_reset : (s.reset f o).idleOf = s.idleOf := rfl
@[simp] theorem idleOf_push : (s.push e).idleOf = s.idleOf := rfl
@[simp] theorem idleOf_decActive : s.decActive.idleOf = s.idleOf := rfl
@[simp] theorem idleOf_incIdle : s.incIdle.idleOf = s.idleOf := rfl
@[simp] theorem idleOf_decIdle : s.decIdle.idleOf = s.idleOf := rfl

@[simp] theorem stateOf_setCell :
    (s.setCell f x).stateOf g = if g = f then x.mState else s.stateOf g := by
  simp only [stateOf, setCell_fibers, Function.update_apply]
  split <;> rfl

@[simp] theorem stateOf_makeFiber :
    (s.makeFiber c).stateOf g = if g = s.nextFiber then .init else s.stateOf g :=
  stateOf_setCell s

@[simp] theorem stateOf_setState :
    (s.setState f st).stateOf g = if g = f then st else s.stateOf g :=
  stateOf_setCell s

@[simp] theorem stateOf_reset : (s.reset f o).stateOf g = if g = f then .init else s.stateOf g :=
  stateOf_setCell s

@[simp] theorem stateOf_take : (s.take w).stateOf = s.stateOf := rfl
@[simp] theorem stateOf_setWorker : (s.setWorker w k).stateOf = s.stateOf := rfl
@[simp] theorem stateOf_setPc : (s.setPc w pc).stateOf = s.stateOf := rfl
@[simp] theorem stateOf_setIdle : (s.setIdle w pc st).stateOf = s.stateOf := rfl
@[simp] theorem stateOf_adoptCb : (s.adoptCb w f).stateOf = s.stateOf := rfl
@[simp] theorem stateOf_releaseCb : (s.releaseCb w).stateOf = s.stateOf := rfl
@[simp] theorem stateOf_push : (s.push e).stateOf = s.stateOf := rfl
@[simp] theorem stateOf_decActive : s.decActive.stateOf = s.stateOf := rfl
@[simp] theorem stateOf_incIdle : s.incIdle.stateOf = s.stateOf := rfl
@[simp] theorem stateOf_decIdle : s.decIdle.stateOf = s.stateOf := rfl

end Accessors

/-- The transitions of the scheduler, one constructor for each thing a step can do. -/
inductive Moves (s : Scheduler) : Act → Scheduler → Prop where
  | start : s.phase = .fresh → Moves s .start s.startAll
  | requestStop : s.phase = .started →
      Moves s .requestStop { s with mAutoStop := true, phase := .stopping }
  | stop : s.phase = .stopping → Moves s .stop { s with mStopping := true, phase := .stopped }
  | skipRoot : s.mRootThread = some w → s.phase = .stopped → s.isStopping →
      Moves s .callRoot { s with phase := .joining }
  | callRoot : s.mRootThread = some w → s.phase = .stopped → s.isStopping = false →
      Moves s .callRoot (s.enterRoot w)
  | newFiber : Moves s (.newFiber c) (s.makeFiber c)
  | schedule : s.schedule t thread = some s' → Moves s (.schedule t thread) s'
  | pick : s.pcOf w = .scan → s.mFibers.find? (s.eligible w) = some e →
      Moves s (.work w) ((s.take w).setPc w (.picked e.task))
  | miss : s.pcOf w = .scan → s.mFibers.find? (s.eligible w) = none →
      Moves s (.work w) (s.setPc w .missed)
  | drop : s.pcOf w = .picked (.fiber f) → (s.stateOf f).finished →
      Moves s (.work w) (s.setPc w .dropped)
  | choose : s.pcOf w = .picked (.fiber f) → ¬ (s.stateOf f).finished →
      Moves s (.work w) (s.setPc w (.resume .own f))
  | reuse : s.pcOf w = .picked (.cb c) → s.cbOf w = some f → resettable (s.stateOf f) →
      Moves s (.work w) ((s.reset f (some c)).setPc w (.resume .cb f))
  | make : s.pcOf w = .picked (.cb c) → s.cbOf w = none →
      Moves s (.work w) ((s.makeFiber c).adoptCb w s.nextFiber)
  | resume : s.pcOf w = .resume site f → s.stateOf f ≠ .exec →
      Moves s (.work w) ((s.setState f .exec).setPc w (.enter site f))
  | enter : s.pcOf w = .enter site f → (s.fibers f).ended = false →
      Moves s (.work w) (s.setPc w (.run site f))
  | leave : s.pcOf w = .leave site f → Moves s (.work w) (s.setPc w (.back site f))
  | back : s.pcOf w = .back site f → Moves s (.work w) (s.decActive.setPc w (.after site f))
  | requeueOwn : s.pcOf w = .after .own f → s.stateOf f = .ready →
      Moves s (.work w) ((s.push ⟨.fiber f, none⟩).setPc w .scan)
  | doneOwn : s.pcOf w = .after .own f → (s.stateOf f).finished →
      Moves s (.work w) (s.setPc w .scan)
  | holdOwn : s.pcOf w = .after .own f → s.stateOf f ≠ .ready → ¬ (s.stateOf f).finished →
      Moves s (.work w) ((s.setState f .hold).setPc w .scan)
  | requeueCb : s.pcOf w = .after .cb f → s.stateOf f = .ready →
      Moves s (.work w) ((s.push ⟨.fiber f, none⟩).releaseCb w)
  | doneCb : s.pcOf w = .after .cb f → (s.stateOf f).finished →
      Moves s (.work w) ((s.reset f none).setPc w .scan)
  | holdCb : s.pcOf w = .after .cb f → s.stateOf f ≠ .ready → ¬ (s.stateOf f).finished →
      Moves s (.work w) ((s.setState f .hold).releaseCb w)
  | dropped : s.pcOf w = .dropped → Moves s (.work w) (s.decActive.setPc w .scan)
  | exit : s.pcOf w = .missed → s.idleOf w = .term → Moves s (.work w) (s.setPc w .left)
  | toIdle : s.pcOf w = .missed → s.idleOf w ≠ .term →
      Moves s (.work w) (s.incIdle.setPc w .idleEnter)
  | idleEnter : s.pcOf w = .idleEnter → s.idleOf w ≠ .exec →
      Moves s (.work w) (s.setIdle w .idleRun .exec)
  | idleStop : s.pcOf w = .idleRun → s.isStopping →
      Moves s (.work w) (s.setIdle w .idleLeave .term)
  | idleWait : s.pcOf w = .idleRun → s.isStopping = false →
      Moves s (.work w) (s.setPc w .idleLeave)
  | idleLeave : s.pcOf w = .idleLeave → Moves s (.work w) (s.setPc w .idleBack)
  | idleBack : s.pcOf w = .idleBack → Moves s (.work w) (s.decIdle.setPc w .idleAfter)
  | idleDone : s.pcOf w = .idleAfter → (s.idleOf w).finished → Moves s (.work w) (s.setPc w .scan)
  | idleHold : s.pcOf w = .idleAfter → ¬ (s.idleOf w).finished →
      Moves s (.work w) (s.setIdle w .scan .hold)
  | bodySchedule : s.pcOf w = .run site f → s.schedule t thread = some s' →
      Moves s (.body w (.schedule t thread)) s'
  | yieldToReady : s.pcOf w = .run site f → s.stateOf f = .exec →
      Moves s (.body w .yieldToReady) ((s.setState f .ready).setPc w (.leave site f))
  | yieldToHold : s.pcOf w = .run site f → s.stateOf f = .exec →
      Moves s (.body w .yieldToHold) (s.setPc w (.back site f))
  | finish : s.pcOf w = .run site f →
      Moves s (.body w .finish) ((s.setCell f ⟨.term, none, true⟩).setPc w (.leave site f))
  | throw : s.pcOf w = .run site f → Moves s (.body w .throw)
      ((s.setCell f ⟨.except, (s.fibers f).mCallback, true⟩).setPc w (.leave site f))

variable {s s' : Scheduler}

theorem schedule_eq_push (h : s.schedule t thread = some s') :
    s' = s.push ⟨t, thread⟩ ∧ ∀ f, t = .fiber f → f < s.nextFiber := by
  cases t with
  | fiber f =>
    simp only [schedule] at h
    split at h
    · rename_i hf
      cases h
      exact ⟨rfl, fun g hg => by cases hg; exact hf⟩
    · cases h
  | cb c =>
    cases h
    exact ⟨rfl, fun g hg => by cases hg⟩

theorem workStep_moves (h : s.workStep w = some s') : Moves s (.work w) s' := by
  simp only [workStep] at h
  split at h
  · cases h
  · cases h
  · cases h
  · rename_i hp
    split at h
    · rename_i he; cases h; exact .pick hp he
    · rename_i he; cases h; exact .miss hp he
  · rename_i hp
    cases h
    split
    · rename_i hf; exact .drop hp hf
    · rename_i hf; exact .choose hp hf
  · rename_i hp
    split at h
    · rename_i hcb
      split at h
      · rename_i hst; cases h; exact .reuse hp hcb hst
      · cases h
    · rename_i hcb; cases h; exact .make hp hcb
  · rename_i hp
    split at h
    · cases h
    · rename_i hst; cases h; exact .resume hp hst
  · rename_i hp
    split at h
    · cases h
    · rename_i hst; cases h; exact .enter hp (Bool.not_eq_true _ ▸ hst)
  · rename_i hp; cases h; exact .leave hp
  · rename_i hp; cases h; exact .back hp
  · rename_i hp
    cases h
    simp only [afterOwn]
    split
    · rename_i hr; exact .requeueOwn hp hr
    · rename_i hr
      split
      · rename_i hf; exact .doneOwn hp hf
      · rename_i hf; exact .holdOwn hp hr hf
  · rename_i hp
    cases h
    simp only [afterCb]
    split
    · rename_i hr; exact .requeueCb hp hr
    · rename_i hr
      split
      · rename_i hf; exact .doneCb hp hf
      · rename_i hf; exact .holdCb hp hr hf
  · rename_i hp; cases h; exact .dropped hp
  · rename_i hp
    split at h
    · rename_i hi; cases h; exact .exit hp hi
    · rename_i hi; cases h; exact .toIdle hp hi
  · rename_i hp
    split at h
    · cases h
    · rename_i hi; cases h; exact .idleEnter hp hi
  · rename_i hp
    split at h
    · rename_i hi; cases h; exact .idleStop hp hi
    · rename_i hi; cases h; exact .idleWait hp (Bool.not_eq_true _ ▸ hi)
  · rename_i hp; cases h; exact .idleLeave hp
  · rename_i hp; cases h; exact .idleBack hp
  · rename_i hp
    split at h
    · rename_i hi; cases h; exact .idleDone hp hi
    · rename_i hi; cases h; exact .idleHold hp hi

theorem bodyStep_moves (h : s.bodyStep w b = some s') : Moves s (.body w b) s' := by
  simp only [bodyStep] at h
  split at h
  · rename_i site f hp
    split at h
    · cases h
    cases b with
    | schedule t thread => exact .bodySchedule hp h
    | yieldToReady =>
      simp only at h
      split at h
      · rename_i hst; cases h; exact .yieldToReady hp hst
      · cases h
    | yieldToHold =>
      simp only at h
      split at h
      · rename_i hst; cases h; exact .yieldToHold hp hst
      · cases h
    | finish => cases h; exact .finish hp
    | throw => cases h; exact .throw hp
  · cases h

theorem step_moves (h : s.step a = some s') : Moves s a s' := by
  cases a with
  | start =>
    simp only [step] at h
    split at h
    · rename_i hp; cases h; exact .start hp
    · cases h
  | requestStop =>
    simp only [step] at h
    split at h
    · rename_i hp; cases h; exact .requestStop hp
    · cases h
  | stop =>
    simp only [step] at h
    split at h
    · rename_i hp; cases h; exact .stop hp
    · cases h
  | callRoot =>
    simp only [step] at h
    split at h
    · rename_i hr
      split at h
      · rename_i hp
        cases h
        split
        · rename_i hstop; exact .skipRoot hr hp hstop
        · rename_i hstop; exact .callRoot hr hp (Bool.not_eq_true _ ▸ hstop)
      · cases h
    · cases h
  | newFiber c => cases h; exact .newFiber
  | schedule t thread => exact .schedule h
  | work w => exact workStep_moves h
  | body w b => exact bodyStep_moves h

end Scheduler
end SvrFrame
