import SvrFrame.Scheduler.Ledger

namespace SvrFrame
open Library
set_option autoImplicit true

/-- What `~Fiber` asserts of a fiber with a stack. -/
def FiberState.destructible (st : FiberState) : Bool := st = .init || st = .except || st = .term

/-- The fiber that the worker resumes as `cb_fiber`. -/
def Pc.cb? : Pc → Option FiberId
  | .resume .cb f | .enter .cb f | .run .cb f | .leave .cb f | .back .cb f | .after .cb f => some f
  | _ => none

/-- The fiber whose `SwapIn` has returned and whose state the worker looks at next. -/
def Pc.after? : Pc → Option FiberId
  | .after _ f => some f
  | _ => none

/-- A scheduler with the pointers that keep its fibers alive. -/
structure Owners where
  ledger : Ledger
  /-- `ft.fiber` of each worker. -/
  ft : WorkerId → Option FiberId
  /-- How many pointers to the fiber there are outside the scheduler. -/
  outside : FiberId → Nat

namespace Owners
open Scheduler

def initial (threads : Nat) (useCaller : Bool) : Owners :=
  ⟨Ledger.initial threads useCaller, fun _ => none, fun _ => 0⟩

abbrev sched (o : Owners) : Scheduler := o.ledger.sched

/-- `MainFunc` keeps a pointer to the fiber in `cur`, on the fiber's own stack, from its first line
until the callback has ended. -/
def OnStack (o : Owners) (f : FiberId) : Prop :=
  f < o.sched.nextFiber ∧ o.ledger.atEntry f = false ∧ (o.sched.fibers f).ended = false

/-- The worker has a pointer in `ft.fiber`, or in `cb_fiber` as long as it is in `run`. -/
def HeldBy (o : Owners) (w : WorkerId) (f : FiberId) : Prop :=
  o.ft w = some f ∨ (o.sched.cbOf w = some f ∧ o.sched.pcOf w ≠ .left)

def Referenced (o : Owners) (f : FiberId) : Prop :=
  0 < o.outside f ∨ f ∈ o.sched.queued ∨ (∃ w < o.sched.workerCount, o.HeldBy w f) ∨ o.OnStack f

instance (o : Owners) (f : FiberId) : Decidable (o.OnStack f) :=
  inferInstanceAs (Decidable (_ ∧ _ ∧ _))

instance (o : Owners) (w : WorkerId) (f : FiberId) : Decidable (o.HeldBy w f) :=
  inferInstanceAs (Decidable (_ ∨ _ ∧ _))

instance (o : Owners) (f : FiberId) : Decidable (o.Referenced f) :=
  inferInstanceAs (Decidable (_ ∨ _ ∨ _ ∨ _))

/-- The code of the fiber runs, so that it can get at its own pointer through `GetThis()`. -/
def Runs (o : Owners) (w : WorkerId) (f : FiberId) : Prop :=
  o.sched.pcOf w = .run .own f ∨ o.sched.pcOf w = .run .cb f

instance (o : Owners) (w : WorkerId) (f : FiberId) : Decidable (o.Runs w f) :=
  inferInstanceAs (Decidable (_ ∨ _))

/-- Whoever schedules a fiber has a pointer to it. -/
def HasPointer (o : Owners) : Scheduler.Act → Prop
  | .schedule (.fiber f) _ => 0 < o.outside f
  | .body w (.schedule (.fiber f) _) => 0 < o.outside f ∨ o.Runs w f
  | _ => True

instance : ∀ (o : Owners) (a : Scheduler.Act), Decidable (o.HasPointer a)
  | o, .schedule (.fiber f) _ => inferInstanceAs (Decidable (0 < o.outside f))
  | o, .body w (.schedule (.fiber f) _) =>
    inferInstanceAs (Decidable (0 < o.outside f ∨ o.Runs w f))
  | _, .schedule (.cb _) _ | _, .body _ (.schedule (.cb _) _) | _, .body _ .yieldToReady
  | _, .body _ .yieldToHold | _, .body _ .finish | _, .body _ .throw | _, .start
  | _, .requestStop | _, .stop | _, .callRoot | _, .newFiber _ | _, .work _ =>
    inferInstanceAs (Decidable True)

/-- `ft` is the entry the scan has taken until `ft.reset()`. -/
def ftAt (o : Owners) (w : WorkerId) : Pc → Option FiberId
  | .scan => (o.sched.mFibers.find? (o.sched.eligible w)).bind FiberAndThread.fiber?
  | .after .own _ | .dropped => none
  | _ => o.ft w

def ftAfter (o : Owners) : Scheduler.Act → WorkerId → Option FiberId
  | .work w => Function.update o.ft w (o.ftAt w (o.sched.pcOf w))
  | _ => o.ft

def outsideAfter (o : Owners) : Scheduler.Act → FiberId → Nat
  | .newFiber _ => Function.update o.outside o.sched.nextFiber 1
  | _ => o.outside

def after (o : Owners) (a : Scheduler.Act) (s : Scheduler) : Owners :=
  ⟨o.ledger.after a s, o.ftAfter a, o.outsideAfter a⟩

/-- Besides the scheduler's own steps, pointers are copied and given up outside. -/
inductive Act where
  | sched (a : Scheduler.Act)
  | keep (f : FiberId)
  | release (f : FiberId)
  deriving DecidableEq, Repr

def step (o : Owners) : Act → Option Owners
  | .sched a => if o.HasPointer a then (o.sched.step a).map (o.after a) else none
  | .keep f =>
    if 0 < o.outside f ∨ ∃ w < o.sched.workerCount, o.Runs w f then
      some { o with outside := Function.update o.outside f (o.outside f + 1) }
    else none
  | .release f =>
    if 0 < o.outside f then
      some { o with outside := Function.update o.outside f (o.outside f - 1) }
    else none

/-- A worker does not write HOLD to a fiber that has been reset since its `SwapIn`. -/
def HoldsStarted (o : Owners) : Act → Prop
  | .sched (.work w) => ∀ f ∈ (o.sched.pcOf w).after?, o.sched.stateOf f ≠ .init
  | _ => True

instance : ∀ (o : Owners) (x : Act), Decidable (o.HoldsStarted x)
  | o, .sched (.work w) =>
    inferInstanceAs (Decidable (∀ f ∈ (o.sched.pcOf w).after?, o.sched.stateOf f ≠ .init))
  | _, .sched .start | _, .sched .requestStop | _, .sched .stop | _, .sched .callRoot
  | _, .sched (.newFiber _) | _, .sched (.schedule _ _) | _, .sched (.body _ _) | _, .keep _
  | _, .release _ => inferInstanceAs (Decidable True)

/-- A fiber that nobody has a pointer to any more is one that `~Fiber` accepts; the idle fiber of
a worker that has left `run` has ended. -/
def NoneLost (o : Owners) : Prop :=
  (∀ f, ¬ o.Referenced f → (o.sched.stateOf f).destructible = true) ∧
    ∀ w, o.sched.pcOf w = .left → o.sched.idleOf w = .term

/-- A fiber that may not be destroyed is on its own stack, or about to get there. -/
structure Inv (o : Owners) : Prop where
  counted : Counted o.sched
  known : Known o.sched
  left : ∀ w, o.sched.pcOf w = .left → o.sched.idleOf w = .term
  ft : ∀ w f, (o.sched.pcOf w).own? = some f → o.ft w = some f
  cb : ∀ w f, (o.sched.pcOf w).cb? = some f → o.sched.cbOf w = some f
  busy : ∀ f, (o.sched.stateOf f).destructible = false →
    o.OnStack f ∨ ∃ w site, o.sched.pcOf w = .enter site f

variable {o o' : Owners} {s s' : Scheduler}

theorem initial_inv (n : Nat) (useCaller : Bool) : Inv (initial n useCaller) where
  counted := initial_counted n useCaller
  known := initial_known n useCaller
  left _ h := by cases h
  ft _ _ h := by cases h
  cb _ _ h := by cases h
  busy _ h := by cases h

/-- What keeps `~Fiber` from failing: a fiber without pointers may be destroyed. -/
theorem Inv.destructible (hs : Inv o) (h : ¬ o.Referenced f) :
    (o.sched.stateOf f).destructible = true := by
  by_contra hst
  rcases hs.busy f (Bool.not_eq_true _ ▸ hst) with hstack | ⟨w, site, hp⟩
  · exact h (.inr (.inr (.inr hstack)))
  · have hw : w < o.sched.workerCount := hs.counted.worker_lt fun hu => by
      rw [hu] at hp
      cases hp
    have hheld : o.HeldBy w f := by
      cases site with
      | own => exact .inl (hs.ft w f (by rw [hp]; rfl))
      | cb => exact .inr ⟨hs.cb w f (by rw [hp]; rfl), fun hl => by rw [hl] at hp; cases hp⟩
    exact h (.inr (.inr (.inl ⟨w, hw, hheld⟩)))

end Owners

namespace Scheduler

variable {s s' : Scheduler}

/-- A fiber may be destroyed until a worker swaps it in. -/
theorem Moves.busy (h : Moves s a s')
    (hg : ∀ w site, a = .work w → s.pcOf w = .after site f → s.stateOf f ≠ .init)
    (hst : (s'.stateOf f).destructible = false) : (s.stateOf f).destructible = false ∨
      ∃ w site, a = .work w ∧ s'.pcOf w = .enter site f := by
  have hfree {st : FiberState} {g : FiberId} (hfree : st.destructible = true)
      (hst : (if f = g then st else s.stateOf f).destructible = false) :
      (s.stateOf f).destructible = false := by
    split at hst
    · rw [hfree] at hst
      cases hst
    · exact hst
  have hhold {w : WorkerId} {site : Site} {g : FiberId} (ha : a = .work w)
      (hp : s.pcOf w = .after site g) (hr : s.stateOf g ≠ .ready)
      (hf : ¬ (s.stateOf g).finished = true)
      (hst : (if f = g then .hold else s.stateOf f).destructible = false) :
      (s.stateOf f).destructible = false := by
    split at hst
    · rename_i he
      subst he
      have hinit := hg w site ha hp
      revert hr hf hinit
      cases s.stateOf f <;> simp [FiberState.finished, FiberState.destructible]
    · exact hst
  cases h with
  | schedule ht | bodySchedule _ ht =>
    obtain ⟨rfl, -⟩ := schedule_eq_push ht
    exact .inl hst
  | newFiber =>
    rw [stateOf_makeFiber] at hst
    exact .inl (hfree rfl hst)
  | make =>
    rw [stateOf_adoptCb, stateOf_makeFiber] at hst
    exact .inl (hfree rfl hst)
  | reuse | doneCb =>
    rw [stateOf_setPc, stateOf_reset] at hst
    exact .inl (hfree rfl hst)
  | @resume w site g =>
    rw [stateOf_setPc, stateOf_setState] at hst
    split at hst
    · rename_i he
      subst he
      exact .inr ⟨w, site, rfl, by rw [pcOf_setPc, if_pos rfl]⟩
    · exact .inl hst
  | holdOwn hp hr hf =>
    rw [stateOf_setPc, stateOf_setState] at hst
    exact .inl (hhold rfl hp hr hf hst)
  | holdCb hp hr hf =>
    rw [stateOf_releaseCb, stateOf_setState] at hst
    exact .inl (hhold rfl hp hr hf hst)
  | yieldToReady hp hexec =>
    rw [stateOf_setPc, stateOf_setState] at hst
    split at hst
    · rename_i he
      rw [he, hexec]
      exact .inl rfl
    · exact .inl hst
  | finish | throw =>
    rw [stateOf_setPc, stateOf_setCell] at hst
    exact .inl (hfree rfl hst)
  | _ => exact .inl hst

/-- A callback that ends leaves a fiber that may be destroyed. -/
theorem Moves.ends (h : Moves s a s') (he : (s'.fibers f).ended = true)
    (hst : (s'.stateOf f).destructible = false) : (s.fibers f).ended = true := by
  cases h with
  | schedule ht | bodySchedule _ ht =>
    obtain ⟨rfl, -⟩ := schedule_eq_push ht
    exact he
  | finish | throw =>
    rw [stateOf_setPc, stateOf_setCell] at hst
    simp only [setPc_fibers, setCell_fibers, Function.update_apply] at he
    split at he
    · rename_i hf
      rw [if_pos hf] at hst
      cases hst
    · exact he
  | newFiber | reuse | make | resume | holdOwn | holdCb | doneCb | yieldToReady =>
    simp only [setPc_fibers, adoptCb_fibers, releaseCb_fibers, makeFiber_fibers, reset_fibers,
      setState_fibers, Function.update_apply] at he
    split at he
    · first | cases he | (rename_i hf; rw [hf]; exact he)
    · exact he
  | _ => exact he

end Scheduler

namespace Owners
open Scheduler

variable {o o' : Owners} {s' : Scheduler}

/-- A context is made only for a fiber that may be destroyed. -/
theorem atEntry_of_contexts (h : Moves o.sched a s') (hc : o.ledger.contexts a f = true)
    (hst : (s'.stateOf f).destructible = false) : o.ledger.atEntry f = true := by
  have hupdate {g : FiberId} (hc : Function.update o.ledger.atEntry g true f = true)
      (hg : f = g → (s'.stateOf f).destructible = true) : o.ledger.atEntry f = true := by
    by_cases he : f = g
    · rw [hg he] at hst
      cases hst
    · rwa [Function.update_of_ne he] at hc
  cases h with
  | newFiber => exact hupdate hc fun he => by rw [he, stateOf_makeFiber, if_pos rfl]; rfl
  | reuse hp hcb =>
    simp only [Ledger.contexts, hp, Ledger.contextsAt, hcb, Option.getD_some] at hc
    exact hupdate hc fun he => by rw [he, stateOf_setPc, stateOf_reset, if_pos rfl]; rfl
  | make hp hcb =>
    simp only [Ledger.contexts, hp, Ledger.contextsAt, hcb, Option.getD_none] at hc
    exact hupdate hc fun he => by rw [he, stateOf_adoptCb, stateOf_makeFiber, if_pos rfl]; rfl
  | doneCb hp hf =>
    simp only [Ledger.contexts, hp, Ledger.contextsAt, hf, if_true] at hc
    exact hupdate hc fun he => by rw [he, stateOf_setPc, stateOf_reset, if_pos rfl]; rfl
  | enter hp =>
    simp only [Ledger.contexts, hp, Ledger.contextsAt, Function.update_apply] at hc
    split at hc
    · cases hc
    · exact hc
  | requeueCb hp hr =>
    simpa [Ledger.contexts, hp, Ledger.contextsAt, hr, FiberState.finished] using hc
  | holdCb hp _ hf =>
    simpa only [Ledger.contexts, hp, Ledger.contextsAt, hf, Bool.false_eq_true, if_false] using hc
  | start | requestStop | stop | skipRoot | callRoot | schedule | bodySchedule | yieldToReady
    | yieldToHold | finish | throw => exact hc
  | pick hp | miss hp | drop hp | choose hp | resume hp | leave hp | back hp | requeueOwn hp
    | doneOwn hp | holdOwn hp | dropped hp | exit hp | toIdle hp | idleEnter hp | idleStop hp
    | idleWait hp | idleLeave hp | idleBack hp | idleDone hp | idleHold hp =>
    simpa only [Ledger.contexts, hp, Ledger.contextsAt] using hc

theorem Inv.busy_step (hs : Inv o) (hg : o.HoldsStarted (.sched a)) (h : Moves o.sched a s')
    (hst : (s'.stateOf f).destructible = false) :
    (o.after a s').OnStack f ∨ ∃ w site, s'.pcOf w = .enter site f := by
  have hstarted (w : WorkerId) (site : Site) (ha : a = .work w)
      (hp : o.sched.pcOf w = .after site f) : o.sched.stateOf f ≠ .init := by
    subst ha
    exact hg f (by rw [hp]; rfl)
  rcases h.busy hstarted hst with hold | ⟨w, site, -, hp⟩
  · rcases hs.busy f hold with ⟨hlt, hbegun, hlive⟩ | ⟨w, site, hp⟩
    · left
      refine ⟨Nat.lt_of_lt_of_le hlt h.nextFiber_le, ?_, ?_⟩
      · by_contra hc
        rw [atEntry_of_contexts h (eq_true_of_ne_false hc) hst] at hbegun
        cases hbegun
      · by_contra hc
        rw [h.ends (eq_true_of_ne_false hc) hst] at hlive
        cases hlive
    · -- The switch has been made: the worker stays where it is or begins `MainFunc`.
      by_cases ha : a.worker = some w
      · left
        cases h with
        | enter hp' hlive =>
          cases ha
          rw [hp] at hp'
          cases hp'
          have hlt := hs.known.named w f (.inl (by rw [hp]; rfl))
          exact ⟨hlt, by simp [after, Ledger.after, Ledger.contexts, hp, Ledger.contextsAt], hlive⟩
        | start | requestStop | stop | skipRoot | callRoot | newFiber | schedule => cases ha
        | _ hp' =>
          cases ha
          rw [hp] at hp'
          cases hp'
      · right
        refine ⟨w, site, ?_⟩
        cases hw : a.worker with
        | some v => rw [(h.workerFrame hw).others w fun he => ha (he ▸ hw), hp]
        | none =>
          rcases hs.counted.outside h hw w with hsame | ⟨hunborn, -⟩
          · rw [hsame, hp]
          · rw [hp] at hunborn
            cases hunborn
  · exact .inr ⟨w, site, hp⟩

theorem Inv.ft_step (hs : Inv o) (h : Moves o.sched a s')
    (hf : (s'.pcOf w).own? = some f) : o.ftAfter a w = some f := by
  have hkeep {pc pc' : Pc} (hp : o.sched.pcOf w = pc) (hf : pc'.own? = some f)
      (hown : pc.own? = pc'.own?) (hat : o.ftAt w pc = o.ft w) :
      o.ftAfter (.work w) w = some f := by
    rw [ftAfter, Function.update_self, hp, hat]
    exact hs.ft w f (by rw [hp, hown, hf])
  by_cases ha : a.worker = some w
  · cases h with
    | start | requestStop | stop | skipRoot | callRoot | newFiber | schedule => cases ha
    | bodySchedule _ ht =>
      cases ha
      obtain ⟨rfl, -⟩ := schedule_eq_push ht
      exact hs.ft w f hf
    | pick hp he =>
      cases ha
      rw [pcOf_setPc, if_pos rfl, Pc.own_picked] at hf
      simp only [ftAfter, Function.update_self, hp, ftAt, he, Option.bind_some]
      exact hf
    | choose hp =>
      cases ha
      rw [pcOf_setPc, if_pos rfl] at hf
      exact hkeep hp hf rfl rfl
    | @resume w site g hp | @enter w site g hp | @leave w site g hp | @back w site g hp =>
      cases ha
      rw [pcOf_setPc, if_pos rfl] at hf
      exact hkeep hp hf (by cases site <;> rfl) rfl
    | @yieldToReady w site g hp | @yieldToHold w site g hp | @finish w site g hp
      | @throw w site g hp =>
      cases ha
      rw [pcOf_setPc, if_pos rfl] at hf
      exact hs.ft w f (by rw [hp]; cases site <;> exact hf)
    | _ =>
      cases ha
      simp [Pc.own?] at hf
  · have hsame : o.ftAfter a w = o.ft w := by
      cases a with
      | work v => exact Function.update_of_ne (fun he => ha (congrArg some he.symm)) _ _
      | _ => rfl
    rcases h.pcOf_other ha with hpc | hpc
    · rw [hsame]
      exact hs.ft w f (hpc ▸ hf)
    · rw [hpc] at hf
      cases hf

theorem Inv.cb_step (hs : Inv o) (h : Moves o.sched a s')
    (hf : (s'.pcOf w).cb? = some f) : s'.cbOf w = some f := by
  have hkeep {pc pc' : Pc} (hp : o.sched.pcOf w = pc) (hf : pc'.cb? = some f)
      (hcb : pc.cb? = pc'.cb?) : o.sched.cbOf w = some f :=
    hs.cb w f (by rw [hp, hcb, hf])
  by_cases ha : a.worker = some w
  · cases h with
    | start | requestStop | stop | skipRoot | callRoot | newFiber | schedule => cases ha
    | bodySchedule _ ht =>
      cases ha
      obtain ⟨rfl, -⟩ := schedule_eq_push ht
      exact hs.cb w f hf
    | @pick w e =>
      cases ha
      rw [pcOf_setPc, if_pos rfl] at hf
      cases ht : e.task <;> rw [ht] at hf <;> cases hf
    | reuse _ hcb =>
      cases ha
      rw [pcOf_setPc, if_pos rfl] at hf
      rw [cbOf_setPc, cbOf_reset, hcb]
      exact hf
    | make =>
      cases ha
      rw [pcOf_adoptCb, if_pos rfl] at hf
      rw [cbOf_adoptCb, if_pos rfl]
      exact hf
    | @resume w site g hp | @enter w site g hp | @leave w site g hp | @back w site g hp
      | @yieldToReady w site g hp | @yieldToHold w site g hp | @finish w site g hp
      | @throw w site g hp =>
      cases ha
      rw [pcOf_setPc, if_pos rfl] at hf
      rw [cbOf_setPc]
      exact hkeep hp hf (by cases site <;> rfl)
    | _ =>
      cases ha
      simp [Pc.cb?] at hf
  · revert hf
    exact h.worker_keeps (Q := fun k => k.pc.cb? = some f → k.cbFiber = some f) ha (hs.cb w f)
      fun hf => by cases hf

theorem Inv.sched_step (hs : Inv o) (hg : o.HoldsStarted (.sched a)) (h : Moves o.sched a s') :
    Inv (o.after a s') where
  counted := hs.counted.step h
  known := hs.known.step h
  left _ := h.left_term hs.left
  ft _ _ hf := hs.ft_step h hf
  cb _ _ hf := hs.cb_step h hf
  busy _ hst := hs.busy_step hg h (Bool.not_eq_true _ ▸ hst)

theorem Inv.step (hs : Inv o) (hg : o.HoldsStarted x) (h : o.step x = some o') : Inv o' := by
  cases x with
  | sched a =>
    simp only [Owners.step] at h
    split at h
    · obtain ⟨s', hs', rfl⟩ := Option.map_eq_some_iff.1 h
      exact hs.sched_step hg (step_moves hs')
    · cases h
  | keep f | release f =>
    simp only [Owners.step] at h
    split at h
    · cases h
      exact ⟨hs.counted, hs.known, hs.left, hs.ft, hs.cb, hs.busy⟩
    · cases h

/-- The last pointer to a suspended task is never given up, provided no worker writes HOLD to a
fiber that another one has reset. -/
theorem suspended_task_survives (h : Reach step HoldsStarted (initial n useCaller) o) :
    NoneLost o := by
  have hs : Inv o := h.invariant (initial_inv n useCaller) fun hs hg ht => hs.step hg ht
  exact ⟨fun _ => hs.destructible, hs.left⟩

/-- A callback yields HOLD and nobody else has a pointer to its fiber: the fiber itself has. -/
theorem suspended_task_survives_hold : ∃ o, Reach step HoldsStarted (initial 1 false) o ∧
    o.sched.stateOf 0 = .hold ∧ o.outside 0 = 0 ∧ o.sched.cbOf 0 = none ∧ o.sched.mFibers = [] ∧
    NoneLost o := by
  obtain ⟨o, ho, hp⟩ := Reach.of_exec_map step HoldsStarted (initial 1 false)
    ([.schedule (.cb 0) none, .start, .work 0, .work 0, .work 0, .work 0, .body 0 .yieldToHold,
      .work 0, .work 0].map .sched)
    (fun o => decide (o.sched.stateOf 0 = .hold ∧ o.outside 0 = 0 ∧ o.sched.cbOf 0 = none ∧
      o.sched.mFibers = [])) (by decide)
  obtain ⟨hhold, hout, hcb, hq⟩ := of_decide_eq_true hp
  exact ⟨o, ho, hhold, hout, hcb, hq, suspended_task_survives ho⟩

/-- The fiber of a callback is scheduled once more after the callback has ended. Worker 1 runs it
with an empty callback, which throws; before worker 1 has looked at the state, worker 0 has reset
the fiber, run the next callback in it and reset it again. -/
def lostRun : List Act :=
  [.sched (.schedule (.cb 0) none), .sched .start, .sched (.work 0), .sched (.work 0),
    .sched (.work 0), .sched (.work 0), .keep 0, .sched (.body 0 .finish), .sched (.work 0),
    .sched (.work 0), .sched (.work 0), .sched (.schedule (.fiber 0) none), .sched (.work 1),
    .sched (.work 1), .sched (.work 1), .sched (.work 1), .sched (.body 1 .throw),
    .sched (.work 1), .sched (.work 1), .sched (.schedule (.cb 1) none), .sched (.work 0),
    .sched (.work 0), .sched (.work 0), .sched (.work 0), .sched (.body 0 .finish),
    .sched (.work 0), .sched (.work 0), .sched (.work 0), .sched (.work 1), .release 0,
    .sched .requestStop, .sched .stop, .sched (.work 0), .sched (.work 0), .sched (.work 0),
    .sched (.work 0), .sched (.work 0), .sched (.work 0), .sched (.work 0), .sched (.work 0)]

/-- Worker 1 has written HOLD, and worker 0 leaves `run` with the last pointer. -/
theorem suspended_task_is_lost :
    ∃ o o', Reach step (fun _ _ => True) (initial 2 false) o ∧
      o.step (.sched (.work 0)) = some o' ∧ o'.sched.pcOf 0 = .left ∧ o.Referenced 0 ∧
      ¬ o'.Referenced 0 ∧ o'.sched.stateOf 0 = .hold := by
  obtain ⟨o, ho, hp⟩ := Reach.of_exec_map step (fun _ _ => True) (initial 2 false) lostRun
    (fun o => decide (o.Referenced 0) && (o.step (.sched (.work 0))).any fun o' : Owners =>
      decide (o'.sched.pcOf 0 = .left ∧ ¬ o'.Referenced 0 ∧ o'.sched.stateOf 0 = .hold))
    (by decide)
  simp only [Bool.and_eq_true, decide_eq_true_eq, Option.any_eq_true] at hp
  obtain ⟨href, o', hstep, hleft, hnot, hhold⟩ := hp
  exact ⟨o, o', ho, hstep, hleft, href, hnot, hhold⟩

end Owners
end SvrFrame
