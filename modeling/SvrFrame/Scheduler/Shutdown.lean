import SvrFrame.Scheduler.Progress
import SvrFrame.Scheduler.Quiescence

namespace SvrFrame
open Library
set_option autoImplicit true

/-- `m_autoStop` and `m_stopping` as `start` and `stop` have left them. -/
def Phase.flags : Phase → Bool × Bool
  | .fresh => (false, true)
  | .started => (false, false)
  | .stopping => (true, false)
  | .stopped | .joining => (true, true)

namespace Scheduler

variable {s s' : Scheduler}

/-- `stop` decides rightly that the caller's thread has nothing to do in `run`. -/
def RootTestExact (s : Scheduler) : Act → Prop
  | .callRoot => s.isStopping → ∀ v < s.workerCount, s.awaitsRequeue v = false
  | _ => True

def StopGuard (s : Scheduler) (a : Act) : Prop := DrainGuard s a ∧ RootTestExact s a

/-- Every entry is for any thread or for one of those that execute `run`. -/
def PinsKnown (s : Scheduler) (a : Act) : Prop :=
  ∀ e ∈ a.scheduled, ∀ w ∈ e.thread, w < s.workerCount

instance : ∀ (s : Scheduler) (a : Act), Decidable (RootTestExact s a)
  | s, .callRoot => inferInstanceAs (Decidable (s.isStopping →
      ∀ v < s.workerCount, s.awaitsRequeue v = false))
  | _, .start | _, .requestStop | _, .stop | _, .newFiber _ | _, .schedule _ _ | _, .work _
  | _, .body _ _ => inferInstanceAs (Decidable True)

instance (s : Scheduler) (a : Act) : Decidable (StopGuard s a) :=
  inferInstanceAs (Decidable (_ ∧ _))

instance (s : Scheduler) (a : Act) : Decidable (PinsKnown s a) :=
  inferInstanceAs (Decidable (∀ e ∈ a.scheduled, ∀ w ∈ e.thread, w < s.workerCount))

/-- The scheduler has been asked to stop, and nothing is left to do. -/
structure Resting (s : Scheduler) : Prop where
  phase : s.phase = .stopped ∨ s.phase = .joining
  atRest : AtRest s

theorem Moves.phase_stopped (h : Moves s a s') (hp : s.phase = .stopped ∨ s.phase = .joining) :
    s'.phase = .stopped ∨ s'.phase = .joining := by
  cases ha : a.worker with
  | some w =>
    rw [(h.workerFrame ha).phase]
    exact hp
  | none =>
    cases h with
    | start hold | requestStop hold => rcases hp with hp | hp <;> rw [hold] at hp <;> cases hp
    | stop => exact .inl rfl
    | skipRoot | callRoot => exact .inr rfl
    | newFiber => exact hp
    | schedule ht =>
      obtain ⟨rfl, -⟩ := schedule_eq_push ht
      exact hp
    | _ => cases ha

theorem Resting.step (hs : Resting s) (hg : OutsideQuiet s a) (h : Moves s a s') :
    Resting s' := by
  apply Resting.mk (h.phase_stopped hs.phase)
  apply hs.atRest.step _ h
  intro t thread ha
  subst ha
  rcases hs.phase with hp | hp <;> rcases hg with hq | hq <;> rw [hp] at hq <;> cases hq

/-- With `use_caller` and without, a worker whose `idle` has returned and a caller's thread that
`stop` has left out are evidence that nothing is left to do. -/
structure Leaves (s : Scheduler) : Prop where
  counted : Counted s
  flags : (s.mAutoStop, s.mStopping) = s.phase.flags
  term : ∀ w, s.idleOf w = .term → Resting s
  left : ∀ w, s.pcOf w = .left → s.idleOf w = .term
  born : s.phase ≠ .fresh → ∀ w < s.mThreadCount, s.pcOf w ≠ .unborn
  root : ∀ w, s.mRootThread = some w → s.phase = .joining → s.pcOf w = .unborn → Resting s

theorem initial_leaves (n : Nat) (useCaller : Bool) : Leaves (initial n useCaller) where
  counted := initial_counted n useCaller
  flags := rfl
  term _ h := by cases h
  left _ h := by cases h
  born h := absurd rfl h
  root _ _ h := by cases h

theorem Leaves.flags_step (hs : Leaves s) (h : Moves s a s') :
    (s'.mAutoStop, s'.mStopping) = s'.phase.flags := by
  cases ha : a.worker with
  | some w =>
    have hw := h.workerFrame ha
    rw [hw.autoStop, hw.stopping, hw.phase]
    exact hs.flags
  | none =>
    have hflags := hs.flags
    cases h with
    | start hp | requestStop hp | stop hp | skipRoot _ hp | callRoot _ hp =>
      simp only [hp, Phase.flags, Prod.mk.injEq] at hflags
      simp [Phase.flags, startAll, enterRoot, hflags]
    | newFiber => exact hflags
    | schedule ht =>
      obtain ⟨rfl, -⟩ := schedule_eq_push ht
      exact hflags
    | _ => cases ha

theorem Leaves.resting (hs : Leaves s) (hstop : s.isStopping)
    (hr : ∀ v < s.workerCount, s.awaitsRequeue v = false) : Resting s := by
  have hrest := atRest_of_stopping hs.counted hstop hr
  simp only [isStopping, Bool.and_eq_true] at hstop
  have hflags := hs.flags
  rw [hstop.1.1.1, hstop.1.1.2] at hflags
  apply Resting.mk _ hrest
  cases hp : s.phase with
  | stopped => exact .inl rfl
  | joining => exact .inr rfl
  | fresh | started | stopping =>
    rw [hp] at hflags
    cases hflags

/-- A thread that is in `run` comes on by its own steps only. -/
theorem Counted.others (hs : Counted s) (h : Moves s a s') (ha : a.worker ≠ some w) :
    s'.pcOf w = s.pcOf w ∨ (s.pcOf w = .unborn ∧ s'.pcOf w = .scan) := by
  cases hv : a.worker with
  | some v => exact .inl ((h.workerFrame hv).others w fun hwv => ha (hwv ▸ hv))
  | none => exact hs.outside h hv w

theorem Moves.unborn_before (h : Moves s a s') (hc : Counted s) (hw : s'.pcOf w = .unborn) :
    s.pcOf w = .unborn := by
  by_cases ha : a.worker = some w
  · exact absurd hw (h.workerFrame ha).stays
  · rcases hc.others h ha with hsame | ⟨hunborn, -⟩
    · rw [← hsame]
      exact hw
    · exact hunborn

theorem Leaves.born_step (hs : Leaves s) (h : Moves s a s') (hp : s'.phase ≠ .fresh)
    (hw : w < s'.mThreadCount) : s'.pcOf w ≠ .unborn := by
  intro hunborn
  rw [h.threads.1] at hw
  have hfresh : s.phase = .fresh := by
    by_contra hphase
    exact hs.born hphase w hw (h.unborn_before hs.counted hunborn)
  cases ha : a.worker with
  | some v => exact hp ((h.workerFrame ha).phase.trans hfresh)
  | none =>
    cases h with
    | start =>
      simp only [pcOf, startAll, if_pos hw] at hunborn
      cases hunborn
    | newFiber => exact hp hfresh
    | schedule ht =>
      obtain ⟨rfl, -⟩ := schedule_eq_push ht
      exact hp hfresh
    | requestStop hold | stop hold | skipRoot _ hold | callRoot _ hold =>
      rw [hfresh] at hold
      cases hold
    | _ => cases ha

theorem Leaves.root_step (hs : Leaves s) (hg : StopGuard s a) (h : Moves s a s')
    (hr : s.mRootThread = some w) (hp : s'.phase = .joining) (hw : s'.pcOf w = .unborn) :
    Resting s := by
  have hold := h.unborn_before hs.counted hw
  cases ha : a.worker with
  | some v => exact hs.root w hr ((h.workerFrame ha).phase.symm.trans hp) hold
  | none =>
    cases h with
    | skipRoot _ _ hstop => exact hs.resting hstop (hg.2 hstop)
    | callRoot hr' =>
      rw [Option.some.inj (hr'.symm.trans hr), pcOf_enterRoot, if_pos rfl] at hw
      cases hw
    | newFiber => exact hs.root w hr hp hold
    | schedule ht =>
      obtain ⟨rfl, -⟩ := schedule_eq_push ht
      exact hs.root w hr hp hold
    | start | requestStop | stop => cases hp
    | _ => cases ha

theorem Leaves.step (hs : Leaves s) (hg : StopGuard s a) (h : Moves s a s') : Leaves s' where
  counted := hs.counted.step h
  flags := hs.flags_step h
  term w hw := by
    apply Resting.step _ hg.1.1 h
    rcases h.idle_term hw with hold | ⟨rfl, hp, hstop⟩
    · exact hs.term w hold
    · exact hs.resting hstop (hg.1.2 hp hstop)
  left w := h.left_term hs.left
  born hp _ := hs.born_step h hp
  root _ hr hp hw := (hs.root_step hg h (h.threads.2.symm.trans hr) hp hw).step hg.1.1 h

theorem reach_leaves (h : Reach step StopGuard (initial n useCaller) s) : Leaves s :=
  h.invariant (initial_leaves n useCaller) fun hs hg ht => hs.step hg (step_moves ht)

theorem reach_workerCount (hn : 0 < n) (h : Reach step g (initial n useCaller) s) :
    s.workerCount = n := by
  apply h.invariant (I := fun s => s.workerCount = n)
  · cases useCaller with
    | false => rfl
    | true => exact Nat.sub_add_cancel hn
  · exact fun hs _ ht => (step_moves ht).workerCount.trans hs

/-- Every thread has come to the end of `run`; the caller's thread may never have been in it, where
`stop` has not called the root fiber. -/
def AllLeft (s : Scheduler) : Prop :=
  (∀ w < s.mThreadCount, s.pcOf w = .left) ∧
    ∀ w ∈ s.mRootThread, s.phase = .joining ∧ (s.pcOf w = .left ∨ s.pcOf w = .unborn)

/-- The same for both kinds of schedulers: when all threads have left `run`, every task has been
run. -/
theorem all_left_drained (hn : 0 < n) (h : Reach step StopGuard (initial n useCaller) s)
    (hall : s.AllLeft) : s.mFibers = [] := by
  have hs := reach_leaves h
  have hleft {w : WorkerId} (hw : s.pcOf w = .left) : s.mFibers = [] :=
    (hs.term w (hs.left w hw)).atRest.empty
  cases hroot : s.mRootThread with
  | some w =>
    obtain ⟨hphase, hw | hw⟩ := hall.2 w hroot
    · exact hleft hw
    · exact (hs.root w hroot hphase hw).atRest.empty
  | none =>
    have hcount : s.mThreadCount = n := by simpa [workerCount, hroot] using reach_workerCount hn h
    exact hleft (hall.1 0 (hcount ▸ hn))

/-- Two threads and the caller's: the task of the caller's thread waits until `stop` calls the
root fiber. -/
def drainedRootRun : List Act :=
  [.schedule (.cb 7) (some 1), .start] ++ List.replicate 6 (.work 0) ++
    [.requestStop, .stop, .callRoot] ++ List.replicate 4 (.work 1) ++ [.body 1 .finish] ++
    List.replicate 12 (.work 1) ++ List.replicate 10 (.work 0)

theorem all_left_drained_caller :
    ∃ s, Reach step StopGuard (initial 2 true) s ∧ s.pcOf 1 = .left ∧ s.mFibers = [] := by
  obtain ⟨s, hs, hp⟩ := Reach.of_exec_map step StopGuard (initial 2 true) drainedRootRun
    (fun s => s.pcOf 0 = .left ∧ s.pcOf 1 = .left ∧ s.phase = .joining ∧ s.mThreadCount = 1 ∧
      s.mRootThread = some 1) (by decide)
  obtain ⟨hzero, hone, hphase, hcount, hroot⟩ := of_decide_eq_true hp
  exists s, hs, hone
  apply all_left_drained Nat.zero_lt_two hs
  apply And.intro
  · intro w hw
    rw [hcount] at hw
    rw [Nat.lt_one_iff.1 hw]
    exact hzero
  · intro w hw
    cases hroot.symm.trans hw
    exact ⟨hphase, .inl hone⟩

/-- An entry for a thread that executes no `run`, in a scheduler in which no worker has been told
to stop. -/
structure Blocked (s : Scheduler) (e : FiberAndThread) : Prop where
  counted : Counted s
  queued : e ∈ s.mFibers
  foreign : ∃ t ∈ e.thread, s.workerCount ≤ t
  term : ∀ w, s.idleOf w ≠ .term
  left : ∀ w, s.pcOf w ≠ .left
  root : ∀ w ∈ s.mRootThread, s.phase = .joining → s.pcOf w ≠ .unborn

theorem Blocked.not_eligible (hs : Blocked s e) (hw : w < s.workerCount) :
    s.eligible w e = false := by
  obtain ⟨t, ht, hforeign⟩ := hs.foreign
  have hne : t ≠ w := Nat.ne_of_gt (Nat.lt_of_lt_of_le hw hforeign)
  simp [eligible, Option.mem_def.1 ht, hne]

theorem Blocked.not_stopping (hs : Blocked s e) : s.isStopping = false := by
  have hne : s.mFibers.isEmpty = false := List.isEmpty_eq_false_iff_exists_mem.2 ⟨e, hs.queued⟩
  simp [isStopping, hne]

theorem Blocked.queued_step (hs : Blocked s e) (h : Moves s a s') : e ∈ s'.mFibers := by
  have hborn {w : WorkerId} {pc : Pc} (hp : s.pcOf w = pc) (hpc : pc ≠ .unborn) :
      w < s.workerCount := hs.counted.worker_lt (hp ▸ hpc)
  cases h with
  | schedule ht | bodySchedule _ ht =>
    obtain ⟨rfl, -⟩ := schedule_eq_push ht
    exact List.mem_append_left _ hs.queued
  | requeueOwn | requeueCb => exact List.mem_append_left _ hs.queued
  | @pick w _ hp =>
    have hskip := hs.not_eligible (hborn hp fun h => by cases h)
    exact (List.mem_eraseP_of_neg (Bool.eq_false_iff.1 hskip)).2 hs.queued
  | _ => exact hs.queued

theorem Blocked.step (hs : Blocked s e) (h : Moves s a s') : Blocked s' e where
  counted := hs.counted.step h
  queued := hs.queued_step h
  foreign := by
    rw [h.workerCount]
    exact hs.foreign
  term w hw := by
    rcases h.idle_term hw with hold | ⟨-, -, hstop⟩
    · exact hs.term w hold
    · rw [hs.not_stopping] at hstop
      cases hstop
  left w hw := by
    have hterm := h.left_term (fun v hv => absurd hv (hs.left v)) hw
    rcases h.idle_term hterm with hold | ⟨-, -, hstop⟩
    · exact hs.term w hold
    · rw [hs.not_stopping] at hstop
      cases hstop
  root w hr hp hw := by
    rw [h.threads.2] at hr
    have hold := h.unborn_before hs.counted hw
    cases h with
    | skipRoot _ _ hstop =>
      rw [hs.not_stopping] at hstop
      cases hstop
    | callRoot hr' =>
      rw [Option.some.inj (hr'.symm.trans hr), pcOf_enterRoot, if_pos rfl] at hw
      cases hw
    | start | requestStop | stop => cases hp
    | schedule ht | bodySchedule _ ht =>
      obtain ⟨rfl, -⟩ := schedule_eq_push ht
      exact hs.root w hr hp hold
    | _ => exact hs.root w hr hp hold

/-- An entry for a thread that is none of the workers is never taken from the queue, whatever
happens, and the threads that `stop` waits for do not all leave `run`. -/
theorem foreign_entry_blocks_stop (hn : 0 < n)
    (h : Reach step (fun _ _ => True) (initial n useCaller) s) (he : e ∈ s.mFibers)
    (ht : e.thread = some t) (hforeign : n ≤ t) (hterm : ∀ w, s.idleOf w ≠ .term)
    (hphase : s.phase ≠ .joining) (hr : Reach step (fun _ _ => True) s s') :
    e ∈ s'.mFibers ∧ ¬ s'.AllLeft := by
  have hcount := reach_workerCount hn h
  have hleft : ∀ w, s.pcOf w = .left → s.idleOf w = .term :=
    h.invariant (fun _ hw => by cases hw) fun hs _ hu _ => (step_moves hu).left_term hs
  have hcounted : Counted s :=
    h.invariant (initial_counted n useCaller) fun hs _ hu => hs.step (step_moves hu)
  have hblocked : Blocked s e :=
    { counted := hcounted
      queued := he
      foreign := ⟨t, ht, hcount ▸ hforeign⟩
      term := hterm
      left := fun w hw => hterm w (hleft w hw)
      root := fun _ _ hp => absurd hp hphase }
  have hs' := hr.invariant (I := fun s => Blocked s e) hblocked fun hs _ hu =>
    hs.step (step_moves hu)
  have hcount' := reach_workerCount hn (h.trans hr)
  apply And.intro hs'.queued
  intro hall
  cases hroot : s'.mRootThread with
  | some w =>
    obtain ⟨hjoining, hw | hw⟩ := hall.2 w hroot
    · exact hs'.left w hw
    · exact hs'.root w hroot hjoining hw
  | none =>
    have hthreads : s'.mThreadCount = n := by simpa [workerCount, hroot] using hcount'
    exact hs'.left 0 (hall.1 0 (hthreads ▸ hn))

/-- A callback for the second thread of a scheduler that has one. -/
theorem foreign_entry_blocks_stop_callback :
    ∃ s, Reach step (fun _ _ => True) (initial 1 false) s ∧ s.mFibers = [⟨.cb 7, some 1⟩] ∧
      ∀ s', Reach step (fun _ _ => True) s s' → ⟨.cb 7, some 1⟩ ∈ s'.mFibers ∧ ¬ s'.AllLeft := by
  have hs : Reach step (fun _ _ => True) (initial 1 false)
      ((initial 1 false).push ⟨.cb 7, some 1⟩) :=
    .tail (a := .schedule (.cb 7) (some 1)) .refl trivial rfl
  exists _, hs, rfl
  intro s' hr
  exact foreign_entry_blocks_stop Nat.zero_lt_one hs (List.mem_singleton_self _) rfl
    (Nat.le_refl 1) (fun _ h => by cases h) (fun h => by cases h) hr

end Scheduler
end SvrFrame
