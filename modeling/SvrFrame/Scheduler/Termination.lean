import SvrFrame.Library.Fair
import SvrFrame.Scheduler.Shutdown
import Mathlib.Order.Filter.AtTopBot.Basic
import Mathlib.Order.Filter.Finite

namespace SvrFrame
open Library Filter
set_option autoImplicit true

/-- The steps that what the worker has in hand can still cost; putting an entry back is one more
than the entry is worth. -/
def Pc.load : Pc → Nat
  | .leave _ _ => 10
  | .back _ _ => 9
  | .after _ _ => 8
  | .picked _ => 6
  | .resume _ _ => 5
  | .enter _ _ => 4
  | .run _ _ => 3
  | .dropped => 1
  | _ => 0

theorem Pc.load_of_carries {pc : Pc} (h : pc.load = 0) : pc.carries = false := by
  cases pc with
  | leave | back | after | picked | resume | enter | run | dropped => cases h
  | _ => rfl

theorem Pc.load_of_inside {pc : Pc} (h : pc.inside? = some f) : pc.load ≠ 0 := by
  cases pc with
  | enter | run | leave | back | after => exact Nat.succ_ne_zero _
  | _ => cases h

/-- How far the worker is from its next scan. -/
def Pc.toScan : Pc → Nat
  | .missed => 6
  | .idleEnter => 5
  | .idleRun => 4
  | .idleLeave => 3
  | .idleBack => 2
  | .idleAfter => 1
  | _ => 0

/-- How far the worker is from the end of `run` when `stopping()` is true: once round to the end of
its idle fiber, and then to the test of that fiber's state. -/
def Pc.toLeave (idleDone : Bool) : Pc → Nat
  | .idleLeave => if idleDone then 5 else 12
  | .idleBack => if idleDone then 4 else 11
  | .idleAfter => if idleDone then 3 else 10
  | .scan => if idleDone then 2 else 9
  | .missed => if idleDone then 1 else 8
  | .idleEnter => 7
  | .idleRun => 6
  | _ => 0

namespace Scheduler

variable {s s' : Scheduler}

/-- The worker has something in hand, or finds something in the queue. -/
def Busy (s : Scheduler) (w : WorkerId) : Prop :=
  (s.pcOf w).load ≠ 0 ∨ s.pcOf w = .scan ∧ (s.mFibers.find? (s.eligible w)).isSome

/-- A worker without anything in hand that finds nothing leaves the queue as it is. -/
theorem Moves.calm_queue (h : Moves s (.work w) s') (hcalm : ¬ s.Busy w) :
    s'.mFibers = s.mFibers := by
  cases h with
  | pick hp he => exact absurd (.inr ⟨hp, by rw [he]; rfl⟩) hcalm
  | requeueOwn hp | requeueCb hp =>
    exact absurd (.inl (by rw [hp]; exact Nat.succ_ne_zero _)) hcalm
  | _ => rfl

/-- Round the idle branch a worker comes to its scan. -/
theorem Moves.toScan (h : Moves s (.work w) s') (hload : (s.pcOf w).load = 0)
    (hscan : s.pcOf w ≠ .scan) (hidle : s.idleOf w ≠ .term) :
    (s'.pcOf w).toScan < (s.pcOf w).toScan := by
  cases h with
  | pick hp | miss hp => exact absurd hp hscan
  | exit _ hterm => exact absurd hterm hidle
  | toIdle hp | idleEnter hp | idleStop hp | idleWait hp | idleLeave hp | idleBack hp | idleDone hp
    | idleHold hp => simp [Pc.toScan, hp]
  | drop hp | choose hp | reuse hp | make hp | resume hp | enter hp | leave hp | back hp
    | requeueOwn hp | doneOwn hp | holdOwn hp | requeueCb hp | doneCb hp | holdCb hp
    | dropped hp =>
    rw [hp] at hload
    cases hload

/-- With `stopping()` true it comes to the end of `run`. -/
theorem Moves.toLeave (h : Moves s (.work w) s') (hload : (s.pcOf w).load = 0)
    (hstop : s.isStopping) :
    (s'.pcOf w).toLeave (s'.idleOf w = .term) < (s.pcOf w).toLeave (s.idleOf w = .term) := by
  have hempty : s.mFibers = [] := by
    simp only [isStopping, Bool.and_eq_true, List.isEmpty_iff] at hstop
    exact hstop.1.2
  cases h with
  | pick _ he =>
    rw [hempty] at he
    cases he
  | idleWait _ hwait =>
    rw [hstop] at hwait
    cases hwait
  | exit hp hterm | toIdle hp hterm => simp [Pc.toLeave, hp, hterm]
  | idleHold hp hlive =>
    have hterm : s.idleOf w ≠ .term := fun hterm => hlive (by rw [hterm]; rfl)
    simp [Pc.toLeave, hp, hterm]
  | idleEnter hp | idleStop hp => simp [Pc.toLeave, hp]
  | miss hp | idleLeave hp | idleBack hp | idleDone hp =>
    by_cases hterm : s.idleOf w = .term <;> simp [Pc.toLeave, hp, hterm]
  | drop hp | choose hp | reuse hp | make hp | resume hp | enter hp | leave hp | back hp
    | requeueOwn hp | doneOwn hp | holdOwn hp | requeueCb hp | doneCb hp | holdCb hp
    | dropped hp =>
    rw [hp] at hload
    cases hload

/-- `stop` has done all that it does before it waits for the threads. -/
def Called (s : Scheduler) : Prop := s.phase = .joining ∨ s.phase = .stopped ∧ s.mRootThread = none

/-- What still happens then, unless a task goes on. -/
def Act.late : Act → Prop
  | .work _ | .newFiber _ => True
  | _ => False

theorem Called.past (hc : Called s) :
    s.phase ≠ .fresh ∧ s.phase ≠ .started ∧ s.phase ≠ .stopping := by
  rcases hc with hp | ⟨hp, -⟩ <;> simp [hp]

theorem Called.not_callRoot (hc : Called s) (hr : s.mRootThread = some w) :
    s.phase ≠ .stopped := by
  intro hp
  rcases hc with hold | ⟨-, hroot⟩
  · rw [hp] at hold
    cases hold
  · rw [hr] at hroot
    cases hroot

theorem Called.step (hc : Called s) (h : Moves s a s') : Called s' := by
  cases ha : a.worker with
  | some w => rwa [Called, (h.workerFrame ha).phase, h.threads.2]
  | none =>
    cases h with
    | start hp => exact absurd hp hc.past.1
    | requestStop hp => exact absurd hp hc.past.2.1
    | stop hp => exact absurd hp hc.past.2.2
    | skipRoot hr hp | callRoot hr hp => exact absurd hp (hc.not_callRoot hr)
    | newFiber => exact hc
    | schedule ht =>
      obtain ⟨rfl, -⟩ := schedule_eq_push ht
      exact hc
    | _ => cases ha

theorem Moves.late (h : Moves s a s') (hg : OutsideQuiet s a) (hb : ∀ w b, a ≠ .body w b)
    (hc : Called s) : a.late := by
  cases h with
  | start hp => exact absurd hp hc.past.1
  | requestStop hp => exact absurd hp hc.past.2.1
  | stop hp => exact absurd hp hc.past.2.2
  | skipRoot hr hp | callRoot hr hp => exact absurd hp (hc.not_callRoot hr)
  | schedule =>
    rcases hg with hp | hp
    · exact absurd hp hc.past.1
    · exact absurd hp hc.past.2.1
  | bodySchedule | yieldToReady | yieldToHold | finish | throw => exact absurd rfl (hb _ _)
  | _ => trivial

theorem Moves.work_other (h : Moves s (.work v) s') (hv : w ≠ v) :
    s'.workers w = s.workers w := by
  cases h with
  | _ => simp [hv]

/-- What is known of every state of a run in which fibers are not shared, no entry is for a foreign
thread and `stopping()` is exact. -/
structure Ready (s : Scheduler) : Prop where
  sound : Sound s
  leaves : Leaves s
  pinned : ∀ e ∈ s.mFibers, ∀ w ∈ e.thread, w < s.workerCount

def LastingGuard (s : Scheduler) (a : Act) : Prop := StopGuard s a ∧ Unshared s a ∧ PinsKnown s a

instance (s : Scheduler) (a : Act) : Decidable (LastingGuard s a) :=
  inferInstanceAs (Decidable (_ ∧ _ ∧ _))

theorem Ready.step (hs : Ready s) (hg : LastingGuard s a) (h : Moves s a s') : Ready s' where
  sound := hs.sound.step hg.2.1 h
  leaves := hs.leaves.step hg.1 h
  pinned e he w hw := by
    rw [h.workerCount]
    rcases h.entries he with hold | hnew | ⟨-, -, f, -, rfl, -⟩
    · exact hs.pinned e hold w hw
    · exact hg.2.2 e hnew w hw
    · cases hw

theorem reach_ready (h : Reach step LastingGuard (initial n useCaller) s) : Ready s :=
  h.invariant ⟨initial_sound n useCaller, initial_leaves n useCaller, fun _ he => by cases he⟩
    fun hs hg ht => hs.step hg (step_moves ht)

/-- A worker that may never leave `run` again is evidence of an empty queue. -/
theorem Ready.gone (hs : Ready s) (hc : Called s) (hw : w < s.workerCount)
    (hgone : s.pcOf w = .left ∨ s.pcOf w = .unborn) : s.mFibers = [] := by
  rcases hgone with hleft | hunborn
  · exact (hs.leaves.term w (hs.leaves.left w hleft)).atRest.empty
  · have hlast : s.mThreadCount ≤ w := by
      by_contra hlt
      exact hs.leaves.born hc.past.1 w (Nat.lt_of_not_le hlt) hunborn
    cases hr : s.mRootThread with
    | none =>
      simp only [workerCount, hr] at hw
      exact absurd hw (Nat.not_lt_of_le hlast)
    | some v =>
      have hv := hs.leaves.counted.rootLast v hr
      have hwv : w = v := by
        simp only [workerCount, hr, Option.isSome_some, if_true] at hw
        rw [hv]
        exact Nat.le_antisymm (Nat.le_of_lt_succ hw) hlast
      rcases hc with hp | ⟨-, hnone⟩
      · exact (hs.leaves.root w (hwv ▸ hr) hp hunborn).atRest.empty
      · rw [hr] at hnone
        cases hnone

section Runs
variable {r : Run step}

/-- From time `k` on `stop` has been called and no task goes on. -/
structure Tail (r : Run step) (n k : ℕ) : Prop where
  count : ∀ j, k ≤ j → (r.state j).workerCount = n
  ready : ∀ j, k ≤ j → Ready (r.state j)
  called : ∀ j, k ≤ j → Called (r.state j)
  late : ∀ j, k ≤ j → ∀ a ∈ r.act j, a.late
  workers : ∀ w, r.Fair fun a => a = .work w
  tasks : ∀ w, r.Fair fun a => ∃ b, a = .body w b

theorem Tail.mono (h : Tail r n k) (hm : k ≤ m) : Tail r n m where
  count j hj := h.count j (Nat.le_trans hm hj)
  ready j hj := h.ready j (Nat.le_trans hm hj)
  called j hj := h.called j (Nat.le_trans hm hj)
  late j hj := h.late j (Nat.le_trans hm hj)
  workers := h.workers
  tasks := h.tasks

/-- Only its own steps change a worker. -/
theorem Tail.frame (h : Tail r n k) (hj : k ≤ j) (hw : r.act j ≠ some (.work w)) :
    (r.state (j + 1)).workers w = (r.state j).workers w := by
  cases ha : r.act j with
  | none => rw [Run.state_eq ha]
  | some a =>
    have hlate := h.late j hj a ha
    have hstep := Run.step_eq ha
    cases a with
    | work v =>
      apply (step_moves hstep).work_other
      intro hwv
      exact hw (hwv ▸ ha)
    | newFiber c =>
      rw [← Option.some.inj hstep]
      rfl
    | _ => cases hlate

/-- The ranking rule for one worker. -/
theorem Tail.reaches (h : Tail r n k) {P : Scheduler → Prop} (w : WorkerId) (ρ : Worker → ℕ)
    (hlive : ∀ j, k ≤ j → ¬ P (r.state j) → (r.state j).pcOf w ≠ .unborn ∧
      (r.state j).pcOf w ≠ .left ∧ ((r.state j).pcOf w).load = 0)
    (hlt : ∀ j, k ≤ j → ¬ P (r.state j) → r.act j = some (.work w) →
      Moves (r.state j) (.work w) (r.state (j + 1)) →
        ρ ((r.state (j + 1)).workers w) < ρ ((r.state j).workers w)) :
    ∃ j, k ≤ j ∧ P (r.state j) := by
  apply (h.workers w).reaches fun s => ρ (s.workers w)
  · intro j hj hnot
    obtain ⟨hborn, hleft, hload⟩ := hlive j hj hnot
    refine ⟨.work w, rfl, (h.ready j hj).sound.can_step hborn hleft ?_⟩
    intro site f hp
    rw [hp] at hload
    cases hload
  · intro j hj hnot
    by_cases hw : r.act j = some (.work w)
    · exact Nat.le_of_lt (hlt j hj hnot hw (step_moves (Run.step_eq hw)))
    · rw [h.frame hj hw]
  · rintro j hj hnot ⟨a, ha, rfl⟩
    exact hlt j hj hnot ha (step_moves (Run.step_eq ha))

/-- From time `k` on, nothing is in anybody's hands and nobody finds anything. -/
structure Calm (r : Run step) (n k : ℕ) : Prop where
  tail : Tail r n k
  finds : ∀ j, k ≤ j → ∀ w, r.act j = some (.work w) → ¬ (r.state j).Busy w
  load : ∀ j, k ≤ j → ∀ w, ((r.state j).pcOf w).load = 0

theorem Calm.queue_step (h : Calm r n k) (hj : k ≤ j) :
    (r.state (j + 1)).mFibers = (r.state j).mFibers := by
  cases ha : r.act j with
  | none => rw [Run.state_eq ha]
  | some a =>
    have hlate := h.tail.late j hj a ha
    have hstep := Run.step_eq ha
    cases a with
    | work v => exact (step_moves hstep).calm_queue (h.finds j hj v ha)
    | newFiber c =>
      rw [← Option.some.inj hstep]
      rfl
    | _ => cases hlate

theorem Calm.queue (h : Calm r n k) (hj : k ≤ j) : (r.state j).mFibers = (r.state k).mFibers := by
  induction j, hj using Nat.le_induction with
  | base => rfl
  | succ j hj ih => exact (h.queue_step hj).trans ih

/-- A queued entry that is for the worker is one that its scan does not step over. -/
theorem Calm.eligible (h : Calm r n k) (hj : k ≤ j) (hw : e.thread = none ∨ e.thread = some w) :
    (r.state j).eligible w e = true := by
  cases ht : e.task with
  | cb c => simp [Scheduler.eligible, ht, hw]
  | fiber f =>
    have hexec : (r.state j).stateOf f ≠ .exec := by
      intro hexec
      obtain ⟨v, hv⟩ := (h.tail.ready j hj).sound.exec f hexec
      exact Pc.load_of_inside hv (h.load j hj v)
    simp [Scheduler.eligible, ht, hw, hexec]

/-- The worker that an entry is for would come to its scan and find it. -/
theorem Calm.empty (h : Calm r n k) (hn : 0 < n) : (r.state k).mFibers = [] := by
  by_contra hne
  obtain ⟨e, he⟩ := List.exists_mem_of_ne_nil _ hne
  obtain ⟨w, hw, hthread⟩ : ∃ w < n, e.thread = none ∨ e.thread = some w := by
    cases ht : e.thread with
    | none => exact ⟨0, hn, .inl rfl⟩
    | some w =>
      have hlt := (h.tail.ready k (Nat.le_refl k)).pinned e he w ht
      rw [h.tail.count k (Nat.le_refl k)] at hlt
      exact ⟨w, hlt, .inr rfl⟩
  have hqueue {j : ℕ} (hj : k ≤ j) : (r.state j).mFibers ≠ [] := h.queue hj ▸ hne
  have hhere {j : ℕ} (hj : k ≤ j) :
      (r.state j).pcOf w ≠ .left ∧ (r.state j).pcOf w ≠ .unborn := by
    rw [← not_or]
    intro hgone
    rw [← h.tail.count j hj] at hw
    exact hqueue hj ((h.tail.ready j hj).gone (h.tail.called j hj) hw hgone)
  obtain ⟨j, -, hfalse⟩ := h.tail.reaches (P := fun _ => False) w (fun x => x.pc.toScan)
    (fun j hj _ => ⟨(hhere hj).2, (hhere hj).1, h.load j hj w⟩) fun j hj _ ha hmoves => by
      apply hmoves.toScan (h.load j hj w)
      · intro hscan
        apply h.finds j hj w ha
        right
        exists hscan
        exact List.find?_isSome.2 ⟨e, h.queue hj ▸ he, h.eligible hj hthread⟩
      · intro hterm
        exact hqueue hj ((h.tail.ready j hj).leaves.term w hterm).atRest.empty
  exact hfalse

theorem Calm.stopping (h : Calm r n k) (hempty : (r.state k).mFibers = []) (hj : k ≤ j) :
    (r.state j).isStopping := by
  have hleaves := (h.tail.ready j hj).leaves
  have hactive : (r.state j).mActiveThreadCount = 0 := by
    rw [hleaves.counted.active, tally_congr fun w _ => Pc.load_of_carries (h.load j hj w),
      tally_false]
    rfl
  have hphase : (r.state j).phase.flags = (true, true) := by
    rcases h.tail.called j hj with hp | ⟨hp, -⟩ <;> rw [hp] <;> rfl
  have hflags := hleaves.flags.trans hphase
  simp only [Prod.mk.injEq] at hflags
  simp [isStopping, hflags, h.queue hj, hempty, hactive]

theorem Calm.leaves (h : Calm r n k) (hempty : (r.state k).mFibers = []) (w : WorkerId) :
    ∀ᶠ j in atTop, (r.state j).pcOf w = .left ∨ (r.state j).pcOf w = .unborn := by
  obtain ⟨m, hkm, hm⟩ := h.tail.reaches (P := fun s => s.pcOf w = .left ∨ s.pcOf w = .unborn) w
    (fun x => x.pc.toLeave (x.idleState = .term))
    (fun j hj hnot => by
      rw [not_or] at hnot
      exact ⟨hnot.2, hnot.1, h.load j hj w⟩)
    (fun j hj _ _ hmoves => hmoves.toLeave (h.load j hj w) (h.stopping hempty hj))
  apply (eventually_ge_atTop m).mono
  intro j hj
  induction j, hj using Nat.le_induction with
  | base => exact hm
  | succ j hj ih =>
    -- such a worker has no steps of its own
    have hsame := h.tail.frame (Nat.le_trans hkm hj) (w := w) fun ha => by
      have hstep := Run.step_eq ha
      rcases ih with hp | hp <;> simp [step, workStep, hp] at hstep
    rw [pcOf, hsame]
    exact ih

end Runs

/-- A run of a scheduler, from its construction on, in which every thread that can go on does so,
each task comes to an end, and `stop` is called. -/
structure ShutDown (n : Nat) (useCaller : Bool) (r : Run step) : Prop where
  first : r.state 0 = initial n useCaller
  keeps : r.Keeps LastingGuard
  workers : ∀ w, r.Fair fun a => a = .work w
  tasks : ∀ w, r.Fair fun a => ∃ b, a = .body w b
  ends : ∀ᶠ i in atTop, ∀ w b, r.act i ≠ some (.body w b)
  called : ∃ i, Called (r.state i)

theorem ShutDown.ready {r : Run step} (h : ShutDown n useCaller r) (i : ℕ) : Ready (r.state i) := by
  have hreach := Run.reach h.keeps i
  rw [h.first] at hreach
  exact reach_ready hreach

theorem ShutDown.called_from {r : Run step} (hi : Called (r.state i)) (hj : i ≤ j) :
    Called (r.state j) :=
  Run.stays hi (fun _ _ hc _ _ hstep => hc.step (step_moves hstep)) j hj

theorem ShutDown.tail {r : Run step} (hn : 0 < n) (h : ShutDown n useCaller r) :
    ∃ k, Tail r n k := by
  obtain ⟨i, hi⟩ := h.called
  obtain ⟨k, hk⟩ := eventually_atTop.1 h.ends
  have hcalled {j : ℕ} (hj : max i k ≤ j) : Called (r.state j) :=
    called_from hi (Nat.le_trans (Nat.le_max_left i k) hj)
  exists max i k
  exact {
    count := fun j _ => reach_workerCount hn (h.first ▸ Run.reach h.keeps j)
    ready := fun j _ => h.ready j
    called := fun _ hj => hcalled hj
    late := fun j hj a ha => by
      apply (step_moves (Run.step_eq ha)).late (h.keeps j a ha).1.1.1 _ (hcalled hj)
      rintro w b rfl
      exact hk j (Nat.le_trans (Nat.le_max_right i k) hj) w b ha
    workers := h.workers
    tasks := h.tasks }

end Scheduler
end SvrFrame
