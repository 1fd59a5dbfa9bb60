import SvrFrame.Scheduler.Drain

namespace SvrFrame
open Library
set_option autoImplicit true

/-- The worker stands between `++m_idleThreadCount` and `--m_idleThreadCount`. -/
def Pc.idles : Pc → Bool
  | .idleEnter | .idleRun | .idleLeave | .idleBack => true
  | _ => false

namespace Scheduler

variable {s s' : Scheduler}

/-- The step takes an entry from the queue. -/
def picks (s : Scheduler) : Act → Bool
  | .work w => s.pcOf w = .scan && (s.mFibers.find? (s.eligible w)).isSome
  | _ => false

/-- The step executes `--m_activeThreadCount`. -/
def decrements (s : Scheduler) : Act → Bool
  | .work w =>
    match s.pcOf w with
    | .back _ _ | .dropped => true
    | _ => false
  | _ => false

/-- A step of a worker that does not change whether it carries an entry neither picks one nor
executes the decrement. -/
theorem Moves.pick_or_decrement (h : Moves s a s') (ha : a.worker = some w) :
    (if s.picks a then 1 else 0) + (if (s.pcOf w).carries then 1 else 0) =
      (if s.decrements a then 1 else 0) + if (s'.pcOf w).carries then 1 else 0 := by
  cases h with
  | start | requestStop | stop | skipRoot | callRoot | newFiber | schedule => cases ha
  | bodySchedule hp ht =>
    cases ha
    obtain ⟨rfl, -⟩ := schedule_eq_push ht
    rfl
  | pick hp he =>
    cases ha
    simp [picks, decrements, hp, he, Pc.carries]
  | miss hp he =>
    cases ha
    simp [picks, decrements, hp, he, Pc.carries]
  | _ hp =>
    cases ha
    simp [picks, decrements, hp, Pc.carries]

theorem Moves.idle_change (h : Moves s a s') (ha : a.worker = some w) :
    s'.mIdleThreadCount + (if (s.pcOf w).idles then 1 else 0) =
      s.mIdleThreadCount + if (s'.pcOf w).idles then 1 else 0 := by
  cases h with
  | start | requestStop | stop | skipRoot | callRoot | newFiber | schedule => cases ha
  | bodySchedule hp ht =>
    cases ha
    obtain ⟨rfl, -⟩ := schedule_eq_push ht
    rfl
  | _ hp =>
    cases ha
    simp [hp, Pc.idles]

theorem Moves.idle_outside (h : Moves s a s') (ha : a.worker = none) :
    s'.mIdleThreadCount = s.mIdleThreadCount := by
  cases h with
  | start | requestStop | stop | skipRoot | callRoot | newFiber => rfl
  | schedule ht =>
    obtain ⟨rfl, -⟩ := schedule_eq_push ht
    rfl
  | _ => cases ha

end Scheduler

/-- A scheduler with the history of `m_activeThreadCount`, worker by worker. -/
structure Counters where
  sched : Scheduler
  picked : WorkerId → Nat
  decremented : WorkerId → Nat

namespace Counters
open Scheduler

def initial (threads : Nat) (useCaller : Bool) : Counters :=
  ⟨Scheduler.initial threads useCaller, fun _ => 0, fun _ => 0⟩

def after (c : Counters) (a : Act) (s : Scheduler) : Counters where
  sched := s
  picked w := c.picked w + if a.worker = some w ∧ c.sched.picks a then 1 else 0
  decremented w := c.decremented w + if a.worker = some w ∧ c.sched.decrements a then 1 else 0

def step (c : Counters) (a : Act) : Option Counters := (c.sched.step a).map (c.after a)

structure Inv (c : Counters) : Prop where
  counted : Counted c.sched
  idle : c.sched.mIdleThreadCount = tally c.sched.workerCount fun w => (c.sched.pcOf w).idles
  matched : ∀ w, c.picked w = c.decremented w + if (c.sched.pcOf w).carries then 1 else 0

variable {c : Counters} {s' : Scheduler}

theorem initial_inv (n : Nat) (useCaller : Bool) : Inv (initial n useCaller) where
  counted := initial_counted n useCaller
  idle := (congrArg Nat.cast (tally_false _)).symm
  matched _ := rfl

theorem Inv.idle_step (hs : Inv c) (h : Moves c.sched a s') :
    s'.mIdleThreadCount = tally s'.workerCount fun w => (s'.pcOf w).idles := by
  rw [h.workerCount]
  cases ha : a.worker with
  | some w =>
    have hframe := h.workerFrame ha
    have hw := hs.counted.worker_lt hframe.born
    exact tally_step hw (fun v hv => by rw [hframe.others v hv]) hs.idle (h.idle_change ha)
  | none =>
    rw [h.idle_outside ha, hs.idle]
    congr 1
    apply tally_congr
    intro v _
    rcases hs.counted.outside h ha v with hpc | ⟨hold, hnew⟩
    · rw [hpc]
    · rw [hold, hnew]
      rfl

theorem Inv.matched_step (hs : Inv c) (h : Moves c.sched a s') (v : WorkerId) :
    (c.after a s').picked v =
      (c.after a s').decremented v + if (s'.pcOf v).carries then 1 else 0 := by
  have hv := hs.matched v
  by_cases ha : a.worker = some v
  · have hchange := h.pick_or_decrement ha
    simp only [after, ha, true_and]
    omega
  · simp only [after, ha, false_and, if_false, Nat.add_zero]
    have hsame : (s'.pcOf v).carries = (c.sched.pcOf v).carries := by
      cases hw : a.worker with
      | some w => rw [(h.workerFrame hw).others v fun he => ha (he ▸ hw)]
      | none =>
        rcases hs.counted.outside h hw v with hpc | ⟨hold, hnew⟩
        · rw [hpc]
        · rw [hold, hnew]
          rfl
    rw [hsame]
    exact hv

theorem Inv.step (hs : Inv c) (h : Moves c.sched a s') : Inv (c.after a s') where
  counted := hs.counted.step h
  idle := hs.idle_step h
  matched := hs.matched_step h

theorem reach_inv (h : Reach step (fun _ _ => True) (initial n useCaller) c) : Inv c :=
  h.invariant (initial_inv n useCaller) fun hs _ ht => by
    obtain ⟨s', hm, rfl⟩ := Option.map_eq_some_iff.1 ht
    exact hs.step (step_moves hm)

end Counters
end SvrFrame
