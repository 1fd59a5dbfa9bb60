import SvrFrame.Scheduler.Queue

namespace SvrFrame
open Library
set_option autoImplicit true

namespace Scheduler

/-- The fiber whose callback ends with the step. -/
def ends (s : Scheduler) : Act → Option FiberId
  | .body w .finish | .body w .throw => (s.pcOf w).fiber?
  | _ => none

/-- The fiber that the step calls `Reset` on. -/
def resets (s : Scheduler) : Act → Option FiberId
  | .work w =>
    match s.pcOf w with
    | .picked (.cb _) => s.cbOf w
    | .after .cb f => if (s.stateOf f).finished then some f else none
    | _ => none
  | _ => none

/-- Without a `Reset`, the context of a fiber whose callback has ended stays behind the last
switch of `MainFunc`. -/
theorem Moves.ended {s s' : Scheduler} (h : Moves s a s') (hlt : f < s.nextFiber)
    (hr : s.resets a ≠ some f) (he : (s.fibers f).ended = true) : (s'.fibers f).ended = true := by
  have hset (g : FiberId) (x : FiberCell) (hx : g = f → x.ended = true) :
      ((s.setCell g x).fibers f).ended = true := by
    simp only [setCell_fibers, Function.update_apply]
    split
    · rename_i hf
      exact hx hf.symm
    · exact he
  have hnew (c : Callback) : ((s.makeFiber c).fibers f).ended = true :=
    hset _ _ fun h => absurd hlt (h ▸ Nat.lt_irrefl _)
  cases h with
  | schedule ht | bodySchedule _ ht =>
    obtain ⟨rfl, -⟩ := schedule_eq_push ht
    exact he
  | newFiber => exact hnew _
  | make => exact hnew _
  | reuse hp hcb => exact hset _ _ fun h => absurd (by simp [resets, hp, hcb, h]) hr
  | doneCb hp hf => exact hset _ _ fun h => absurd (by simp [resets, hp, h ▸ hf, h]) hr
  | resume | holdOwn | holdCb | yieldToReady => exact hset _ _ fun h => h ▸ he
  | finish | throw => exact hset _ _ fun _ => rfl
  | _ => exact he

end Scheduler

/-- A scheduler that knows of its queue entries which of them were there when the callback of
their fiber ended. -/
structure Marked where
  sched : Scheduler
  /-- The entries of `m_fibers` with their marks. -/
  queue : List (FiberAndThread × Bool)
  /-- The mark of the entry that the worker has picked last. -/
  hand : WorkerId → Bool

namespace Marked
open Scheduler

def initial (threads : Nat) (useCaller : Bool) : Marked :=
  ⟨Scheduler.initial threads useCaller, [], fun _ => false⟩

def eligible (m : Marked) (w : WorkerId) (x : FiberAndThread × Bool) : Bool :=
  m.sched.eligible w x.1

def mark (f : FiberId) (x : FiberAndThread × Bool) : FiberAndThread × Bool :=
  (x.1, x.2 || x.1.fiber? = some f)

def queueAt (m : Marked) (w : WorkerId) : Pc → List (FiberAndThread × Bool)
  | .scan => m.queue.eraseP (m.eligible w)
  | .after _ f =>
    if m.sched.stateOf f = .ready then m.queue ++ [(⟨.fiber f, none⟩, false)] else m.queue
  | _ => m.queue

def queueAfter (m : Marked) : Act → List (FiberAndThread × Bool)
  | .schedule t thread | .body _ (.schedule t thread) => m.queue ++ [(⟨t, thread⟩, false)]
  | .work w => m.queueAt w (m.sched.pcOf w)
  | a =>
    match m.sched.ends a with
    | some f => m.queue.map (mark f)
    | none => m.queue

def handAfter (m : Marked) : Act → WorkerId → Bool
  | .work w =>
    if m.sched.pcOf w = .scan then
      Function.update m.hand w ((m.queue.find? (m.eligible w)).elim false Prod.snd)
    else m.hand
  | _ => m.hand

def after (m : Marked) (a : Act) (s : Scheduler) : Marked := ⟨s, m.queueAfter a, m.handAfter a⟩

def step (m : Marked) (a : Act) : Option Marked := (m.sched.step a).map (m.after a)

/-- The fiber has a marked entry, in the queue or in the hands of a worker that has just picked
it. -/
def HasStale (m : Marked) (f : FiberId) : Prop :=
  (∃ x ∈ m.queue, x.1.fiber? = some f ∧ x.2 = true) ∨
    ∃ w < m.sched.workerCount, m.hand w = true ∧ (m.sched.pcOf w).fiber? = some f

instance (m : Marked) (f : FiberId) : Decidable (m.HasStale f) :=
  inferInstanceAs (Decidable (_ ∨ _))

/-- `cb_fiber->reset` is not called on a fiber that has a marked entry. -/
def ResetsClean (m : Marked) (a : Act) : Prop := ∀ f ∈ m.sched.resets a, ¬ m.HasStale f

instance (m : Marked) (a : Act) : Decidable (m.ResetsClean a) :=
  inferInstanceAs (Decidable (∀ f ∈ m.sched.resets a, ¬ m.HasStale f))

/-- A worker with a marked entry runs no code. -/
def Inert (m : Marked) : Prop := ∀ w, m.hand w = true → ∀ site f, m.sched.pcOf w ≠ .run site f

/-- How far a worker gets with a marked entry: to the switch, if the state of the fiber lets it
pass, and never into the code. -/
def Spent (s : Scheduler) : Pc → Prop
  | .picked (.fiber f) | .resume .own f | .enter .own f => (s.fibers f).ended = true
  | .picked (.cb _) | .resume .cb _ | .enter .cb _ | .run _ _ | .leave _ _ | .back _ _
  | .after _ _ => False
  | .unborn | .scan | .dropped | .missed | .idleEnter | .idleRun | .idleLeave | .idleBack
  | .idleAfter | .left => True

structure Inv (m : Marked) : Prop where
  counted : Counted m.sched
  known : Known m.sched
  entries : m.queue.map Prod.fst = m.sched.mFibers
  marked : ∀ x ∈ m.queue, x.2 = true → ∃ f, x.1.fiber? = some f ∧ (m.sched.fibers f).ended = true
  hand : ∀ w, m.hand w = true → Spent m.sched (m.sched.pcOf w)

variable {m : Marked} {s' : Scheduler}

theorem initial_inv (n : Nat) (useCaller : Bool) : Inv (initial n useCaller) where
  counted := initial_counted n useCaller
  known := initial_known n useCaller
  entries := rfl
  marked _ h := by cases h
  hand _ h := by cases h

theorem map_mark (q : List (FiberAndThread × Bool)) (f : FiberId) :
    (q.map (mark f)).map Prod.fst = q.map Prod.fst := by
  rw [List.map_map]
  rfl

theorem Inv.find_fst (hs : Inv m) (w : WorkerId) :
    (m.queue.find? (m.eligible w)).map Prod.fst = m.sched.mFibers.find? (m.sched.eligible w) := by
  rw [← hs.entries, List.find?_map]
  rfl

theorem Inv.entries_step (hs : Inv m) (h : Moves m.sched a s') :
    (m.queueAfter a).map Prod.fst = s'.mFibers := by
  have hadd (x : FiberAndThread × Bool) :
      (m.queue ++ [x]).map Prod.fst = m.sched.mFibers ++ [x.1] := by
    rw [List.map_append, hs.entries]
    rfl
  cases h with
  | schedule ht | bodySchedule _ ht =>
    obtain ⟨rfl, -⟩ := schedule_eq_push ht
    exact hadd _
  | pick hp =>
    simp only [queueAfter, hp, queueAt]
    change _ = m.sched.mFibers.eraseP _
    rw [← hs.entries, List.eraseP_map]
    rfl
  | @miss w hp he =>
    simp only [queueAfter, hp, queueAt]
    have hnone : m.queue.find? (m.eligible w) = none := by
      have hfst := hs.find_fst w
      rw [he] at hfst
      exact Option.map_eq_none_iff.1 hfst
    rw [List.eraseP_of_forall_not (by simpa using hnone)]
    exact hs.entries
  | requeueOwn hp hr | requeueCb hp hr =>
    simp only [queueAfter, hp, queueAt, hr, if_true]
    exact hadd _
  | holdOwn hp hr | holdCb hp hr =>
    simp only [queueAfter, hp, queueAt, hr, if_false]
    exact hs.entries
  | doneOwn hp hf | doneCb hp hf =>
    have hr {f : FiberId} (hf : (m.sched.stateOf f).finished = true) :
        m.sched.stateOf f ≠ .ready := by
      intro hr
      rw [hr] at hf
      cases hf
    simp only [queueAfter, hp, queueAt, hr hf, if_false]
    exact hs.entries
  | finish hp | throw hp =>
    simp only [queueAfter, ends, hp, Pc.fiber?]
    rw [map_mark]
    exact hs.entries
  | start | requestStop | stop | skipRoot | callRoot | newFiber => exact hs.entries
  | yieldToReady | yieldToHold => exact hs.entries
  | _ hp =>
    simp only [queueAfter, hp, queueAt]
    exact hs.entries

theorem Inv.mem_queued (hs : Inv m) (hx : x ∈ m.queue) (hf : x.1.fiber? = some f) :
    f ∈ m.sched.queued := by
  have hmem : x.1 ∈ m.sched.mFibers := hs.entries ▸ List.mem_map_of_mem hx
  exact List.mem_filterMap.2 ⟨x.1, hmem, hf⟩

/-- A marked entry comes from one, or gets its mark when the callback of its fiber ends. -/
theorem mem_queueAfter (hx : x ∈ m.queueAfter a) (hmark : x.2 = true) :
    x ∈ m.queue ∨ ∃ f, m.sched.ends a = some f ∧ x.1.fiber? = some f := by
  have hadd {e : FiberAndThread} (hx : x ∈ m.queue ++ [(e, false)]) : x ∈ m.queue := by
    rcases List.mem_append.1 hx with hx | hx
    · exact hx
    · rw [List.mem_singleton.1 hx] at hmark
      cases hmark
  have hends {f : FiberId} (hx : x ∈ m.queue.map (mark f)) :
      x ∈ m.queue ∨ x.1.fiber? = some f := by
    obtain ⟨y, hy, rfl⟩ := List.mem_map.1 hx
    simp only [mark, Bool.or_eq_true, decide_eq_true_eq] at hmark
    rcases hmark with hold | hnew
    · left
      rw [mark, hold, Bool.true_or, ← hold]
      exact hy
    · exact .inr hnew
  cases a with
  | schedule t thread => exact .inl (hadd hx)
  | body w b =>
    cases b with
    | schedule t thread => exact .inl (hadd hx)
    | finish | throw =>
      simp only [queueAfter] at hx
      cases hf : m.sched.ends _ with
      | some f =>
        rw [hf] at hx
        exact (hends hx).imp_right fun h => ⟨f, rfl, h⟩
      | none =>
        rw [hf] at hx
        exact .inl hx
    | yieldToReady | yieldToHold => exact .inl hx
  | work w =>
    simp only [queueAfter] at hx
    cases hp : m.sched.pcOf w with
    | scan =>
      rw [hp] at hx
      exact .inl (List.eraseP_subset hx)
    | after site f =>
      rw [hp] at hx
      simp only [queueAt] at hx
      split at hx
      · exact .inl (hadd hx)
      · exact .inl hx
    | _ =>
      rw [hp] at hx
      exact .inl hx
  | _ => exact .inl hx

theorem ended_of_ends (h : Moves m.sched a s') (he : m.sched.ends a = some f) :
    (s'.fibers f).ended = true := by
  cases h with
  | finish hp | throw hp =>
    simp only [ends, hp, Pc.fiber?, Option.some.injEq] at he
    rw [he]
    rw [setPc_fibers, setCell_fibers, Function.update_self]
  | bodySchedule | yieldToReady | yieldToHold => cases he
  | _ => cases he

theorem Inv.marked_step (hs : Inv m) (hg : ResetsClean m a) (h : Moves m.sched a s')
    (hx : x ∈ m.queueAfter a) (hmark : x.2 = true) :
    ∃ f, x.1.fiber? = some f ∧ (s'.fibers f).ended = true := by
  rcases mem_queueAfter hx hmark with hold | ⟨f, hends, hf⟩
  · obtain ⟨f, hf, hended⟩ := hs.marked x hold hmark
    have hlt := hs.known.queued f (hs.mem_queued hold hf)
    have hnot : m.sched.resets a ≠ some f := fun hr => hg f hr (.inl ⟨x, hold, hf, hmark⟩)
    exact ⟨f, hf, h.ended hlt hnot hended⟩
  · exact ⟨f, hf, ended_of_ends h hends⟩

theorem Spent.mono {s : Scheduler} (h : Spent s pc)
    (hended : ∀ f, pc.fiber? = some f → (s.fibers f).ended = true → (s'.fibers f).ended = true) :
    Spent s' pc := by
  cases pc with
  | picked t =>
    cases t with
    | fiber f => exact hended f rfl h
    | cb c => exact h
  | resume site f | enter site f =>
    cases site with
    | own => exact hended f rfl h
    | cb => exact h
  | run | leave | back | after => exact h
  | _ => trivial

/-- A worker keeps its marked entry out of the code. -/
theorem Inv.hand_worker (hs : Inv m) (h : Moves m.sched a s') (ha : a.worker = some w)
    (hhand : m.handAfter a w = true) : Spent s' (s'.pcOf w) := by
  have hbody {b : BodyAct} {site : Site} {f : FiberId} (hp : m.sched.pcOf w = .run site f)
      (hhand : m.handAfter (.body w b) w = true) : False := by
    have hold := hs.hand w hhand
    rw [hp] at hold
    exact hold
  have hold {pc : Pc} (hp : m.sched.pcOf w = pc) (hne : pc ≠ .scan)
      (hhand : m.handAfter (.work w) w = true) : Spent m.sched pc := by
    rw [handAfter, if_neg (hp ▸ hne)] at hhand
    exact hp ▸ hs.hand w hhand
  cases h with
  | start | requestStop | stop | skipRoot | callRoot | newFiber | schedule => cases ha
  | bodySchedule hp | yieldToReady hp | yieldToHold hp | finish hp | throw hp =>
    cases ha
    exact (hbody hp hhand).elim
  | @pick w e hp he =>
    cases ha
    rw [handAfter, if_pos hp, Function.update_self] at hhand
    cases hx : m.queue.find? (m.eligible w) with
    | none =>
      rw [hx] at hhand
      cases hhand
    | some x =>
      rw [hx] at hhand
      obtain ⟨f, hf, hended⟩ := hs.marked x (List.mem_of_find?_eq_some hx) hhand
      have hfst := hs.find_fst w
      rw [hx, he] at hfst
      have htask : e.task = .fiber f :=
        FiberAndThread.fiber_eq.1 (Option.some.inj hfst ▸ hf)
      rw [pcOf_setPc, if_pos rfl, htask]
      exact hended
  | choose hp =>
    cases ha
    rw [pcOf_setPc, if_pos rfl]
    exact hold hp (fun h => by cases h) hhand
  | @resume w site f hp =>
    cases ha
    rw [pcOf_setPc, if_pos rfl]
    cases site with
    | own =>
      have hended : (m.sched.fibers f).ended = true := hold hp (fun h => by cases h) hhand
      simpa only [Spent, setPc_fibers, setState_fibers, Function.update_self] using hended
    | cb => exact (hold hp (fun h => by cases h) hhand).elim
  | @enter w site f hp hlive =>
    cases ha
    cases site with
    | own =>
      have hended : (m.sched.fibers f).ended = true := hold hp (fun h => by cases h) hhand
      rw [hlive] at hended
      cases hended
    | cb => exact (hold hp (fun h => by cases h) hhand).elim
  | reuse hp | make hp | leave hp | back hp | requeueOwn hp | doneOwn hp | holdOwn hp
    | requeueCb hp | doneCb hp | holdCb hp =>
    cases ha
    exact (hold hp (fun h => by cases h) hhand).elim
  | _ =>
    cases ha
    simp [Spent]

theorem Inv.hand_step (hs : Inv m) (hg : ResetsClean m a) (h : Moves m.sched a s')
    (hhand : m.handAfter a w = true) : Spent s' (s'.pcOf w) := by
  by_cases ha : a.worker = some w
  · exact hs.hand_worker h ha hhand
  · have hkept : m.hand w = true := by
      cases a with
      | work v =>
        have hne : w ≠ v := fun he => ha (he ▸ rfl)
        simp only [handAfter] at hhand
        split at hhand
        · rwa [Function.update_of_ne hne] at hhand
        · exact hhand
      | _ => exact hhand
    rcases h.pcOf_other ha with hpc | hpc
    · rw [hpc]
      have hold := hs.hand w hkept
      apply hold.mono
      intro f hf hended
      apply h.ended (hs.known.named w f (.inl hf)) ?_ hended
      intro hr
      have hw : w < m.sched.workerCount := hs.counted.worker_lt fun hu => by
        rw [hu] at hf
        cases hf
      exact hg f hr (.inr ⟨w, hw, hkept, hf⟩)
    · rw [hpc]
      trivial

theorem Inv.step (hs : Inv m) (hg : ResetsClean m a) (h : Moves m.sched a s') :
    Inv (m.after a s') where
  counted := hs.counted.step h
  known := hs.known.step h
  entries := hs.entries_step h
  marked _ hx hmark := hs.marked_step hg h hx hmark
  hand _ hhand := hs.hand_step hg h hhand

theorem Inv.inert (hs : Inv m) : Inert m := by
  intro w hhand site f hp
  have hspent := hs.hand w hhand
  rw [hp] at hspent
  exact hspent

/-- An entry that was in the queue when the callback of its fiber ended runs no code, provided
`cb_fiber->reset` is never called on a fiber that has such an entry. -/
theorem stale_entry_inert (h : Reach step ResetsClean (initial n useCaller) m) : Inert m := by
  have hs : Inv m := h.invariant (initial_inv n useCaller) fun hs hg ht => by
    obtain ⟨s', hm, rfl⟩ := Option.map_eq_some_iff.1 ht
    exact hs.step hg (step_moves hm)
  exact hs.inert

/-- A fiber is scheduled again while its callback runs; the entry is picked after the end. -/
theorem stale_entry_inert_dropped : ∃ m, Reach step ResetsClean (initial 1 false) m ∧
    m.hand 0 = true ∧ m.sched.pcOf 0 = .dropped ∧ Inert m := by
  obtain ⟨m, hm, hp⟩ := Reach.of_exec_map step ResetsClean (initial 1 false)
    [.newFiber 0, .schedule (.fiber 0) none, .start, .work 0, .work 0, .work 0, .work 0,
      .body 0 (.schedule (.fiber 0) none), .body 0 .finish, .work 0, .work 0, .work 0, .work 0,
      .work 0]
    (fun m => decide (m.hand 0 = true ∧ m.sched.pcOf 0 = .dropped)) (by decide)
  obtain ⟨hhand, hpc⟩ := of_decide_eq_true hp
  exact ⟨m, hm, hhand, hpc, stale_entry_inert hm⟩

/-- A callback schedules the fiber it runs in and returns. Its worker resets that fiber for the
next callback, and the entry then resumes it with an empty callback. -/
theorem stale_entry_resumes_cb_fiber :
    ∃ m, Reach step (fun _ _ => True) (initial 1 false) m ∧ ¬ Inert m ∧
      m.sched.cbOf 0 = some 0 ∧ m.sched.pcOf 0 = .run .own 0 ∧
      (m.sched.fibers 0).mCallback = none := by
  obtain ⟨m, hm, hp⟩ := Reach.of_exec_map step (fun _ _ => True) (initial 1 false)
    [.schedule (.cb 0) none, .start, .work 0, .work 0, .work 0, .work 0,
      .body 0 (.schedule (.fiber 0) none), .body 0 .finish, .work 0, .work 0, .work 0, .work 0,
      .work 0, .work 0, .work 0]
    (fun m => decide (m.hand 0 = true ∧ m.sched.cbOf 0 = some 0 ∧ m.sched.pcOf 0 = .run .own 0 ∧
      (m.sched.fibers 0).mCallback = none)) (by decide)
  obtain ⟨hhand, hcb, hpc, hempty⟩ := of_decide_eq_true hp
  exact ⟨m, hm, fun hinert => hinert 0 hhand .own 0 hpc, hcb, hpc, hempty⟩

end Marked
end SvrFrame
