import SvrFrame.Scheduler.Drain

namespace SvrFrame
namespace Scheduler
open Library
set_option autoImplicit true

variable {s s' t : Scheduler}

/-- Nobody but the tasks and the workers puts anything into the queue. -/
def TasksOnly (_ : Scheduler) : Act → Prop
  | .schedule _ _ => False
  | _ => True

instance : ∀ (s : Scheduler) (a : Act), Decidable (TasksOnly s a)
  | _, .schedule _ _ => inferInstanceAs (Decidable False)
  | _, .start | _, .requestStop | _, .stop | _, .callRoot | _, .newFiber _ | _, .work _
  | _, .body _ _ => inferInstanceAs (Decidable True)

/-- Whatever happens next, the queue is empty, no worker is active and no task code runs. -/
def StaysQuiet (s : Scheduler) : Prop :=
  ∀ t, Reach step TasksOnly s t →
    t.mFibers = [] ∧ t.mActiveThreadCount = 0 ∧ ∀ w site f, t.pcOf w ≠ .run site f

theorem TasksOnly.not_schedule (h : TasksOnly s a) (t : Task) (thread : Option WorkerId) :
    a ≠ .schedule t thread := by
  rintro rfl
  exact h

theorem AtRest.staysQuiet (hs : AtRest s) (hc : Counted s) : StaysQuiet s := by
  intro t ht
  obtain ⟨hrest, hcounted⟩ : AtRest t ∧ Counted t :=
    ht.invariant (I := fun t => AtRest t ∧ Counted t) ⟨hs, hc⟩ fun hi hg hstep =>
      ⟨hi.1.step hg.not_schedule (step_moves hstep), hi.2.step (step_moves hstep)⟩
  refine ⟨hrest.empty, ?_, ?_⟩
  · have hzero : tally t.workerCount (fun w => (t.pcOf w).carries) = tally t.workerCount fun _ =>
        false := tally_congr fun w _ => hrest.rest w
    rw [hcounted.active, hzero, tally_false]
    rfl
  · intro w site f hp
    have hcarries := hrest.rest w
    rw [hp] at hcarries
    cases hcarries

/-- A worker that has a READY fiber to put back does so in its next step. -/
theorem requeue_step (hp : s.pcOf v = .after site f) (hr : s.stateOf f = .ready) :
    ∃ t, s.step (.work v) = some t ∧ t.mFibers = s.mFibers ++ [⟨.fiber f, none⟩] := by
  cases site with
  | own =>
    refine ⟨s.afterOwn v f, by simp only [step, workStep, hp], ?_⟩
    simp only [afterOwn, hr, if_true]
    rfl
  | cb =>
    refine ⟨s.afterCb v f, by simp only [step, workStep, hp], ?_⟩
    simp only [afterCb, hr, if_true]
    rfl

theorem idle_stops (hp : s.pcOf w = .idleRun) (hstop : s.isStopping)
    (h : s.step (.work w) = some s') : s' = s.setIdle w .idleLeave .term := by
  simp only [step, workStep, hp, hstop, if_true, Option.some.injEq] at h
  exact h.symm

/-- Once `stopping()` has answered true to a worker the scheduler stays quiet, exactly if at that
moment no other worker stands between its decrement and the requeueing of a READY fiber. -/
theorem quiescence_stable_iff (h : Reach step (fun _ _ => True) (initial n useCaller) s)
    (hp : s.pcOf w = .idleRun) (hstop : s.isStopping) (hstep : s.step (.work w) = some s') :
    StaysQuiet s' ↔ ∀ v < s.workerCount, s.awaitsRequeue v = false := by
  have hc : Counted s := h.invariant (initial_counted n useCaller) fun hi _ ht =>
    hi.step (step_moves ht)
  constructor
  · intro hquiet v _
    by_contra hv
    obtain ⟨site, f, hpc, hr⟩ : ∃ site f, s.pcOf v = .after site f ∧ s.stateOf f = .ready := by
      by_contra hnone
      refine hv ((awaitsRequeue_false_iff s v).2 ?_)
      intro site f hpc hr
      exact hnone ⟨site, f, hpc, hr⟩
    have hne : v ≠ w := by
      rintro rfl
      rw [hp] at hpc
      cases hpc
    obtain rfl := idle_stops hp hstop hstep
    obtain ⟨t, ht, hq⟩ := requeue_step (s := s.setIdle w .idleLeave .term) (v := v)
      (by rw [pcOf_setIdle, if_neg hne, hpc]) hr
    have hempty := (hquiet t (.tail (a := .work v) .refl trivial ht)).1
    rw [hq] at hempty
    exact List.append_ne_nil_of_right_ne_nil _ (List.cons_ne_nil _ _) hempty
  · intro hr
    have hrest := atRest_of_stopping hc hstop hr
    have hm := step_moves hstep
    exact (hrest.step (fun _ _ h => by cases h) hm).staysQuiet (hc.step hm)

/-- A worker whose task has ended asks `stopping()` when nobody has anything left. -/
theorem quiescence_stable_iff_one_task :
    ∃ s s', Reach step (fun _ _ => True) (initial 2 false) s ∧ s.pcOf 0 = .idleRun ∧
      s.step (.work 0) = some s' ∧ StaysQuiet s' := by
  obtain ⟨s, hs, hp⟩ := Reach.of_exec_map step (fun _ _ => True) (initial 2 false)
    [.schedule (.cb 0) none, .start, .work 0, .work 0, .work 0, .work 0, .requestStop, .stop,
      .body 0 .finish, .work 0, .work 0, .work 0, .work 0, .work 0, .work 0]
    (fun s => decide (s.pcOf 0 = .idleRun ∧ s.isStopping = true ∧ s.workerCount = 2 ∧
      ∀ v : Nat, v < 2 → s.awaitsRequeue v = false)) (by decide)
  obtain ⟨hp, hstop, hcount, hr⟩ := of_decide_eq_true hp
  obtain ⟨s', hs'⟩ : ∃ s', s.step (.work 0) = some s' :=
    ⟨_, by simp only [step, workStep, hp, hstop, if_true]; rfl⟩
  exact ⟨s, s', hs, hp, hs', (quiescence_stable_iff hs hp hstop hs').2 (hcount ▸ hr)⟩

/-- The second worker asks `stopping()` while the first one has decremented the counter and not
yet put back the fiber that yielded READY; the fiber then goes on. -/
theorem quiescence_not_stable :
    ∃ s s' t, Reach step OutsideQuiet (initial 2 false) s ∧ s.pcOf 1 = .idleRun ∧
      s.isStopping = true ∧ s.step (.work 1) = some s' ∧ Reach step TasksOnly s' t ∧
      t.pcOf 0 = .run .own 0 := by
  obtain ⟨s, hs, hp⟩ := Reach.of_exec_map step OutsideQuiet (initial 2 false)
    [.newFiber 0, .schedule (.fiber 0) none, .start, .requestStop, .stop,
      .work 0, .work 0, .work 0, .work 0, .body 0 .yieldToReady, .work 0, .work 0,
      .work 1, .work 1, .work 1]
    (fun s => decide (s.pcOf 1 = .idleRun ∧ s.isStopping = true) &&
      ((s.step (.work 1)).bind fun s' => (exec step TasksOnly s'
        [.work 0, .work 0, .work 0, .work 0, .work 0]).map fun t =>
          decide (t.pcOf 0 = .run .own 0)) == some true) (by decide)
  simp only [Bool.and_eq_true, decide_eq_true_eq, beq_iff_eq, Option.bind_eq_some_iff,
    Option.map_eq_some_iff] at hp
  obtain ⟨⟨hp, hstop⟩, s', hs', t, ht, hrun⟩ := hp
  exact ⟨s, s', t, hs, hp, hstop, hs', .of_exec ht, hrun⟩

end Scheduler
end SvrFrame
