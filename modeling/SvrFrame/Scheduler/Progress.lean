import SvrFrame.Scheduler.Queue

namespace SvrFrame
open Library
set_option autoImplicit true

/-- The fiber that the worker has set to EXEC and not yet let go of. -/
def Pc.inside? : Pc → Option FiberId
  | .enter _ f | .run _ f | .leave _ f | .back _ f | .after _ f => some f
  | _ => none

/-- The variable and the fiber of a pass through the loop. -/
def Pc.pass? : Pc → Option (Site × FiberId)
  | .resume site f | .enter site f | .run site f | .leave site f | .back site f
  | .after site f => some (site, f)
  | _ => none

/-- The idle fiber has been set to EXEC and its state not yet been tested. -/
def Pc.inIdle : Pc → Bool
  | .idleRun | .idleLeave | .idleBack | .idleAfter => true
  | _ => false

theorem Pc.fiber_of_inside {pc : Pc} (h : pc.inside? = some f) : pc.fiber? = some f := by
  cases pc with
  | enter | run | leave | back | after => exact h
  | _ => cases h

namespace Scheduler

variable {s s' : Scheduler}

/-- What the position of a worker says about its fibers. -/
structure WorkerOk (s : Scheduler) (w : WorkerId) : Prop where
  atCb : ∀ f, (s.pcOf w).pass? = some (.cb, f) → s.cbOf w = some f
  resume : ∀ site f, s.pcOf w = .resume site f → (s.stateOf f).finished = false
  enter : ∀ site f, s.pcOf w = .enter site f ∨ s.pcOf w = .run site f → s.stateOf f = .exec
  spare : ∀ f, s.cbOf w = some f → (s.pcOf w).inside? ≠ some f → resettable (s.stateOf f)
  newborn : s.pcOf w = .unborn → s.cbOf w = none
  idle : s.idleOf w = .exec → (s.pcOf w).inIdle

/-- What keeps every worker that is not in the code of a task from getting stuck. -/
structure Sound (s : Scheduler) : Prop where
  counted : Counted s
  single : Single s
  ended : ∀ f, (s.fibers f).ended = true → (s.stateOf f).finished = true
  exec : ∀ f, s.stateOf f = .exec → ∃ w, (s.pcOf w).inside? = some f
  /-- Only a fiber that is over, or kept for the next callback of its worker, has lost its own. -/
  callable : ∀ f < s.nextFiber, (s.fibers f).mCallback = none →
    (s.stateOf f).finished ∨ ∃ w, s.cbOf w = some f ∧ (s.pcOf w).fiber? ≠ some f
  worker : ∀ w, WorkerOk s w

theorem initial_sound (n : Nat) (useCaller : Bool) : Sound (initial n useCaller) where
  counted := initial_counted n useCaller
  single := initial_single n useCaller
  ended _ h := by cases h
  exec _ h := by cases h
  callable _ h := absurd h (Nat.not_lt_zero _)
  worker w :=
    { atCb := fun _ h => by cases h
      resume := fun _ _ h => by cases h
      enter := fun _ _ h => by rcases h with h | h <;> cases h
      spare := fun _ h => by cases h
      newborn := fun _ => rfl
      idle := fun h => by cases h }

/-- A worker that has not reached the fiber yet finds it in another state than EXEC. -/
theorem Sound.not_exec (hs : Sound s) (hf : (s.pcOf w).fiber? = some f)
    (hin : (s.pcOf w).inside? ≠ some f) : s.stateOf f ≠ .exec := by
  intro hexec
  obtain ⟨v, hv⟩ := hs.exec f hexec
  have hvw := hs.single.unique f v w (.inl (Pc.fiber_of_inside hv)) (.inl hf)
  exact hin (hvw ▸ hv)

/-- The fiber that a worker enters has not ended. -/
theorem Sound.enter_live (hs : Sound s) (hp : s.pcOf w = .enter site f) :
    (s.fibers f).ended = false := by
  by_contra hended
  have hfinished := hs.ended f (eq_true_of_ne_false hended)
  rw [(hs.worker w).enter site f (.inl hp)] at hfinished
  cases hfinished

/-- A fiber that a worker is about to run has a callback. -/
theorem Sound.has_callback (hs : Sound s) (hf : (s.pcOf w).fiber? = some f)
    (hlive : (s.stateOf f).finished = false) : (s.fibers f).mCallback ≠ none := by
  intro hnone
  rcases hs.callable f (hs.single.namedKnown w f (.inl hf)) hnone with hfinished | ⟨v, hcb, hv⟩
  · rw [hlive] at hfinished
    cases hfinished
  · exact hv (hs.single.unique f v w (.inr hcb) (.inl hf) ▸ hf)

theorem Sound.untouched (hs : Sound s) (h : Moves s a s') (ha : a.worker ≠ some w)
    (hf : s.Names w f) : s'.fibers f = s.fibers f := by
  apply h.untouched (hs.single.namedKnown w f hf)
  intro v hv hn
  exact ha (hs.single.unique f w v hf hn ▸ hv)

theorem WorkerOk.new (h : s.workers w = ⟨.scan, none, .init⟩) : WorkerOk s w := by
  have hpc : s.pcOf w = .scan := congrArg Worker.pc h
  have hcb : s.cbOf w = none := congrArg Worker.cbFiber h
  have hidle : s.idleOf w = .init := congrArg Worker.idleState h
  constructor
  · rw [hpc]
    intro f hf
    cases hf
  · rw [hpc]
    intro site f hp
    cases hp
  · rw [hpc]
    intro site f hp
    rcases hp with hp | hp <;> cases hp
  · rw [hcb]
    intro f hf
    cases hf
  · exact fun _ => hcb
  · rw [hidle]
    intro hi
    cases hi

/-- Only the worker itself changes what is said about its fibers. -/
theorem WorkerOk.other (hs : Sound s) (h : Moves s a s') (ha : a.worker ≠ some w) :
    WorkerOk s' w := by
  have hw := hs.worker w
  rcases h.worker_other ha with hsame | hnew
  · have hpc : s'.pcOf w = s.pcOf w := congrArg Worker.pc hsame
    have hcb : s'.cbOf w = s.cbOf w := congrArg Worker.cbFiber hsame
    have hidle : s'.idleOf w = s.idleOf w := congrArg Worker.idleState hsame
    have hstate {f : FiberId} (hf : s.Names w f) : s'.stateOf f = s.stateOf f :=
      congrArg FiberCell.mState (hs.untouched h ha hf)
    constructor
    · rw [hpc, hcb]
      exact hw.atCb
    · intro site f hp
      rw [hpc] at hp
      rw [hstate (.inl (by rw [hp]; rfl))]
      exact hw.resume site f hp
    · intro site f hp
      rw [hpc] at hp
      have hf : (s.pcOf w).fiber? = some f := by rcases hp with hp | hp <;> rw [hp] <;> rfl
      rw [hstate (.inl hf)]
      exact hw.enter site f hp
    · intro f hf hin
      rw [hcb] at hf
      rw [hpc] at hin
      rw [hstate (.inr hf)]
      exact hw.spare f hf hin
    · rw [hpc, hcb]
      exact hw.newborn
    · rw [hpc, hidle]
      exact hw.idle
  · exact .new hnew

/-- A worker works on the fiber in `cb_fiber` from the moment it has got a callback for it. -/
theorem Moves.own_atCb (h : Moves s a s') (ha : a.worker = some w)
    (hw : ∀ f, (s.pcOf w).pass? = some (.cb, f) → s.cbOf w = some f)
    (hf : (s'.pcOf w).pass? = some (.cb, f)) : s'.cbOf w = some f := by
  cases h with
  | start | requestStop | stop | skipRoot | callRoot | newFiber | schedule => cases ha
  | bodySchedule _ ht =>
    obtain ⟨rfl, -⟩ := schedule_eq_push ht
    exact hw f hf
  | reuse hp hcb =>
    cases ha
    simp only [pcOf_setPc, if_true, Pc.pass?, Option.some.injEq, Prod.mk.injEq, true_and] at hf
    subst hf
    simpa using hcb
  | make =>
    cases ha
    simp only [pcOf_adoptCb, if_true, Pc.pass?, Option.some.injEq, Prod.mk.injEq, true_and] at hf
    subst hf
    simp
  | resume hp | enter hp | leave hp | back hp | yieldToReady hp | yieldToHold hp | finish hp
    | throw hp =>
    cases ha
    rw [pcOf_setPc, if_pos rfl] at hf
    simpa using hw f (by rw [hp]; exact hf)
  | _ =>
    cases ha
    simp [Pc.pass?] at hf

/-- A fiber that is about to be resumed has been tested, or has got a new callback. -/
theorem Moves.own_resume (h : Moves s a s') (ha : a.worker = some w)
    (hw : ∀ site f, s.pcOf w = .resume site f → (s.stateOf f).finished = false)
    (hp : s'.pcOf w = .resume site f) : (s'.stateOf f).finished = false := by
  cases h with
  | start | requestStop | stop | skipRoot | callRoot | newFiber | schedule => cases ha
  | bodySchedule _ ht =>
    obtain ⟨rfl, -⟩ := schedule_eq_push ht
    exact hw site f hp
  | choose _ hlive =>
    cases ha
    rw [pcOf_setPc, if_pos rfl] at hp
    cases hp
    exact eq_false_of_ne_true hlive
  | reuse =>
    cases ha
    rw [pcOf_setPc, if_pos rfl] at hp
    cases hp
    simp [FiberState.finished]
  | make =>
    cases ha
    rw [pcOf_adoptCb, if_pos rfl] at hp
    cases hp
    simp [FiberState.finished]
  | _ =>
    cases ha
    simp at hp

theorem Moves.own_enter (h : Moves s a s') (ha : a.worker = some w)
    (hw : ∀ site f, s.pcOf w = .enter site f ∨ s.pcOf w = .run site f → s.stateOf f = .exec)
    (hp : s'.pcOf w = .enter site f ∨ s'.pcOf w = .run site f) : s'.stateOf f = .exec := by
  cases h with
  | start | requestStop | stop | skipRoot | callRoot | newFiber | schedule => cases ha
  | bodySchedule _ ht =>
    obtain ⟨rfl, -⟩ := schedule_eq_push ht
    exact hw site f hp
  | resume =>
    cases ha
    rw [pcOf_setPc, if_pos rfl] at hp
    rcases hp with hp | hp <;> cases hp
    simp
  | enter hold =>
    cases ha
    rw [pcOf_setPc, if_pos rfl] at hp
    rcases hp with hp | hp <;> cases hp
    exact hw site f (.inl hold)
  | _ =>
    cases ha
    simp at hp

/-- The state of the idle fiber is EXEC only while the worker is in it or behind its switch. -/
theorem Moves.own_idle (h : Moves s a s') (ha : a.worker = some w)
    (hw : s.idleOf w = .exec → (s.pcOf w).inIdle) (hi : s'.idleOf w = .exec) :
    (s'.pcOf w).inIdle := by
  cases h with
  | start | requestStop | stop | skipRoot | callRoot | newFiber | schedule => cases ha
  | bodySchedule _ ht =>
    obtain ⟨rfl, -⟩ := schedule_eq_push ht
    exact hw hi
  | idleEnter | idleWait | idleLeave | idleBack =>
    cases ha
    simp [Pc.inIdle]
  | idleDone _ hfinished =>
    cases ha
    rw [idleOf_setPc] at hi
    rw [hi] at hfinished
    cases hfinished
  | idleStop | idleHold =>
    cases ha
    simp at hi
  | _ hp =>
    -- the worker was not in its idle fiber
    cases ha
    have hin := hw (by simpa using hi)
    rw [hp] at hin
    cases hin

/-- The fiber in `cb_fiber` can be reset whenever the worker does not work on it. -/
theorem WorkerOk.own_spare (hs : Sound s) (h : Moves s a s') (ha : a.worker = some w)
    (hf : s'.cbOf w = some f) (hin : (s'.pcOf w).inside? ≠ some f) :
    resettable (s'.stateOf f) = true := by
  have hw := hs.worker w
  have hkept {pc : Pc} (hp : s.pcOf w = pc) (hcb : s.cbOf w = some f) (hpc : pc.inside? ≠ some f) :
      resettable (s.stateOf f) = true := hw.spare f hcb (by rw [hp]; exact hpc)
  cases h with
  | start | requestStop | stop | skipRoot | callRoot | newFiber | schedule => cases ha
  | bodySchedule _ ht =>
    obtain ⟨rfl, -⟩ := schedule_eq_push ht
    exact hw.spare f hf hin
  | reuse _ hcb =>
    cases ha
    rw [cbOf_setPc, cbOf_reset, hcb] at hf
    cases hf
    simp [resettable]
  | make =>
    cases ha
    rw [cbOf_adoptCb, if_pos rfl] at hf
    cases hf
    simp [resettable]
  | requeueCb | holdCb =>
    cases ha
    simp at hf
  | doneCb hp =>
    cases ha
    rw [cbOf_setPc, cbOf_reset, hw.atCb _ (by rw [hp]; rfl)] at hf
    cases hf
    simp [resettable]
  | @requeueOwn _ g hp | @doneOwn _ g hp | @holdOwn _ g hp =>
    -- the fiber of this pass is another one
    cases ha
    have hcb : s.cbOf w = some f := by simpa using hf
    have hne : g ≠ f := fun hg => hs.single.own w g (by rw [hp]; rfl) (by rw [hcb, hg])
    simpa [hne.symm] using hkept hp hcb (by simpa [Pc.inside?] using hne)
  | @resume _ _ g hp =>
    cases ha
    have hne : g ≠ f := by simpa [Pc.inside?] using hin
    simpa [hne.symm] using hkept hp (by simpa using hf) (by simp [Pc.inside?])
  | @yieldToReady _ _ g hp | @finish _ _ g hp | @throw _ _ g hp =>
    cases ha
    have hne : g ≠ f := by simpa [Pc.inside?] using hin
    simpa [hne.symm] using hkept hp (by simpa using hf) (by simpa [Pc.inside?] using hne)
  | enter hp | leave hp | back hp | yieldToHold hp =>
    cases ha
    simpa using hkept hp (by simpa using hf) (by simpa [Pc.inside?] using hin)
  | _ hp =>
    cases ha
    simpa using hkept hp (by simpa using hf) (by simp [Pc.inside?])

/-- A fiber in `cb_fiber` that its worker does not work on stays so, or gets a callback. -/
theorem Sound.own_kept (hs : Sound s) (h : Moves s a s') (ha : a.worker = some w)
    (hcb : s.cbOf w = some f) (hf : (s.pcOf w).fiber? ≠ some f) :
    (s'.fibers f).mCallback ≠ none ∨ s'.cbOf w = some f ∧ (s'.pcOf w).fiber? ≠ some f := by
  cases h with
  | start | requestStop | stop | skipRoot | callRoot | newFiber | schedule => cases ha
  | bodySchedule _ ht =>
    obtain ⟨rfl, -⟩ := schedule_eq_push ht
    exact .inr ⟨hcb, hf⟩
  | pick hp he =>
    cases ha
    right
    apply And.intro (by simpa using hcb)
    rw [pcOf_setPc, if_pos rfl, Pc.fiber_picked]
    intro hef
    exact idle_of_found he hef (hs.single.apart f w (queued_of_found he hef) (.inr hcb))
  | reuse _ hold =>
    cases ha
    left
    rw [hold] at hcb
    cases hcb
    simp
  | make _ hold =>
    rw [Option.some.inj ha, hcb] at hold
    cases hold
  | requeueCb hp | holdCb hp =>
    cases ha
    have hg := (hs.worker w).atCb _ (by rw [hp]; rfl)
    rw [hcb] at hg
    rw [hp] at hf
    exact absurd hg.symm hf
  | choose hp | resume hp | enter hp | leave hp | back hp | yieldToReady hp | yieldToHold hp
    | finish hp | throw hp =>
    cases ha
    rw [hp] at hf
    exact .inr ⟨by simpa using hcb, by rw [pcOf_setPc, if_pos rfl]; exact hf⟩
  | _ =>
    cases ha
    exact .inr (by simp [hcb, Pc.fiber?])

theorem WorkerOk.own (hs : Sound s) (h : Moves s a s') (ha : a.worker = some w) :
    WorkerOk s' w where
  atCb _ := h.own_atCb ha (hs.worker w).atCb
  resume _ _ := h.own_resume ha (hs.worker w).resume
  enter _ _ := h.own_enter ha (hs.worker w).enter
  spare _ := WorkerOk.own_spare hs h ha
  newborn hunborn := absurd hunborn (h.workerFrame ha).stays
  idle := h.own_idle ha (hs.worker w).idle

theorem Sound.ended_step (hs : Sound s) (h : Moves s a s')
    (he : (s'.fibers f).ended = true) : (s'.stateOf f).finished = true := by
  -- a step that does not end the fiber finds it unfinished, or makes it anew
  have hset {g : FiberId} {x : FiberCell}
      (hx : x.ended = true → x.mState.finished = true ∨ ((s.fibers g).ended = true ∧
        (s.stateOf g).finished = false))
      (he : (Function.update s.fibers g x f).ended = true) :
      ((s.setCell g x).stateOf f).finished = true := by
    rw [stateOf_setCell]
    rw [Function.update_apply] at he
    by_cases hf : f = g
    · rw [if_pos hf] at he ⊢
      rcases hx he with hfinished | ⟨hended, hlive⟩
      · exact hfinished
      · rw [hs.ended g hended] at hlive
        cases hlive
    · rw [if_neg hf] at he ⊢
      exact hs.ended f he
  cases h with
  | schedule ht | bodySchedule _ ht =>
    obtain ⟨rfl, -⟩ := schedule_eq_push ht
    exact hs.ended f he
  | newFiber | make | reuse | doneCb => exact hset (fun h => by cases h) he
  | @resume w site g hp =>
    exact hset (fun h => .inr ⟨h, (hs.worker w).resume site g hp⟩) he
  | holdOwn _ _ hlive | holdCb _ _ hlive =>
    exact hset (fun h => .inr ⟨h, eq_false_of_ne_true hlive⟩) he
  | yieldToReady _ hexec => exact hset (fun h => .inr ⟨h, by rw [hexec]; rfl⟩) he
  | finish | throw => exact hset (fun _ => .inl rfl) he
  | _ => exact hs.ended f he

/-- The worker that is inside an EXEC fiber still is, where another worker has moved or this one has
stayed inside. -/
theorem Sound.exec_moved (hs : Sound s) {w : WorkerId} {pc : Pc}
    (hpc : ∀ v, s'.pcOf v = if v = w then pc else s.pcOf v) (hold : s.stateOf f = .exec)
    (hin : (s.pcOf w).inside? = some f → pc.inside? = some f) :
    ∃ w, (s'.pcOf w).inside? = some f := by
  obtain ⟨v, hv⟩ := hs.exec f hold
  exists v
  rw [hpc v]
  by_cases hvw : v = w
  · rw [if_pos hvw]
    exact hin (hvw ▸ hv)
  · rw [if_neg hvw]
    exact hv

/-- A step that no worker takes makes no fiber EXEC. -/
theorem Sound.exec_outside (hs : Sound s) (h : Moves s a s') (ha : a.worker = none)
    (he : s'.stateOf f = .exec) : ∃ w, (s'.pcOf w).inside? = some f := by
  have hold : s.stateOf f = .exec := by
    cases h with
    | newFiber =>
      rw [stateOf_makeFiber] at he
      split at he
      · cases he
      · exact he
    | schedule ht =>
      obtain ⟨rfl, -⟩ := schedule_eq_push ht
      exact he
    | start | requestStop | stop | skipRoot | callRoot => exact he
    | _ => cases ha
  obtain ⟨v, hv⟩ := hs.exec f hold
  exists v
  rcases hs.counted.outside h ha v with hsame | ⟨hunborn, -⟩
  · rw [hsame]
    exact hv
  · rw [hunborn] at hv
    cases hv

theorem Sound.exec_own (hs : Sound s) (h : Moves s a s') (ha : a.worker = some w)
    (he : s'.stateOf f = .exec) : ∃ w, (s'.pcOf w).inside? = some f := by
  cases h with
  | start | requestStop | stop | skipRoot | callRoot | newFiber | schedule => cases ha
  | bodySchedule _ ht =>
    obtain ⟨rfl, -⟩ := schedule_eq_push ht
    exact hs.exec f he
  | @resume w site g hp =>
    by_cases hf : f = g
    · exact ⟨w, by simp [Pc.inside?, hf]⟩
    · apply hs.exec_moved (fun _ => pcOf_setPc _) (by simpa [hf] using he)
      intro hin
      rw [hp] at hin
      cases hin
  | @requeueOwn w g hp hr | @requeueCb w g hp hr =>
    apply hs.exec_moved (fun _ => by simp; rfl) (by simpa using he)
    intro hin
    rw [hp] at hin
    cases hin
    simp [hr] at he
  | @doneOwn w g hp hr =>
    apply hs.exec_moved (fun _ => by simp; rfl) (by simpa using he)
    intro hin
    rw [hp] at hin
    cases hin
    rw [stateOf_setPc] at he
    rw [he] at hr
    cases hr
  | @doneCb w g hp | @holdOwn w g hp | @holdCb w g hp | @yieldToReady w site g hp
    | @finish w site g hp | @throw w site g hp =>
    -- the state of this fiber is no longer EXEC
    by_cases hf : f = g
    · simp [hf] at he
    · apply hs.exec_moved (fun _ => by simp; rfl) (by simpa [hf] using he)
      intro hin
      rw [hp] at hin
      exact absurd (Option.some.inj hin).symm hf
  | @reuse w c g hp =>
    by_cases hf : f = g
    · simp [hf] at he
    · apply hs.exec_moved (fun _ => pcOf_setPc _) (by simpa [hf] using he)
      intro hin
      rw [hp] at hin
      cases hin
  | @make w c hp =>
    by_cases hf : f = s.nextFiber
    · simp [hf] at he
    · apply hs.exec_moved (fun _ => pcOf_adoptCb _) (by simpa [hf] using he)
      intro hin
      rw [hp] at hin
      cases hin
  | idleEnter hp | idleStop hp | idleHold hp =>
    apply hs.exec_moved (fun _ => pcOf_setIdle _) he
    intro hin
    rw [hp] at hin
    cases hin
  | _ hp =>
    apply hs.exec_moved (fun _ => pcOf_setPc _) he
    intro hin
    rw [hp] at hin
    exact hin

/-- A fiber that is EXEC stays in the hands of a worker that is inside. -/
theorem Sound.exec_step (hs : Sound s) (h : Moves s a s') (he : s'.stateOf f = .exec) :
    ∃ w, (s'.pcOf w).inside? = some f := by
  cases ha : a.worker with
  | none => exact hs.exec_outside h ha he
  | some w => exact hs.exec_own h ha he

/-- A fiber without a callback is an old one, or is over, or has just been put aside. -/
theorem Sound.callback_lost (hs : Sound s) (h : Moves s a s') (hf : f < s'.nextFiber)
    (hnone : (s'.fibers f).mCallback = none) :
    f < s.nextFiber ∧ s'.fibers f = s.fibers f ∨
      (s'.stateOf f).finished ∨ ∃ w, s'.cbOf w = some f ∧ (s'.pcOf w).fiber? ≠ some f := by
  have hset {g : FiberId} {x : FiberCell} (hlt : f < s.nextFiber) (hf : f = g → x.mCallback ≠ none)
      (hnone : (Function.update s.fibers g x f).mCallback = none) :
      f < s.nextFiber ∧ Function.update s.fibers g x f = s.fibers f := by
    apply And.intro hlt
    rw [Function.update_apply] at hnone ⊢
    split at hnone
    · exact absurd hnone (hf ‹f = g›)
    · rename_i hfg
      rw [if_neg hfg]
  have hheld {w : WorkerId} {g : FiberId} (hp : (s.pcOf w).fiber? = some g)
      (hlive : (s.stateOf g).finished = false) : f = g → (s.fibers g).mCallback ≠ none :=
    fun _ => hs.has_callback hp hlive
  cases h with
  | schedule ht | bodySchedule _ ht =>
    obtain ⟨rfl, -⟩ := schedule_eq_push ht
    exact .inl ⟨hf, rfl⟩
  | newFiber | make =>
    have hlt : f < s.nextFiber := by
      apply Nat.lt_of_le_of_ne (Nat.le_of_lt_succ hf)
      rintro rfl
      simp at hnone
    exact .inl (hset hlt (fun hfg => absurd hfg (Nat.ne_of_lt hlt)) hnone)
  | reuse => exact .inl (hset hf (fun _ => by simp) hnone)
  | @resume w site g hp =>
    exact .inl (hset hf (hheld (by rw [hp]; rfl) ((hs.worker w).resume site g hp)) hnone)
  | yieldToReady hp hexec =>
    exact .inl (hset hf (hheld (by rw [hp]; rfl) (by rw [hexec]; rfl)) hnone)
  | holdOwn hp _ hlive | holdCb hp _ hlive =>
    exact .inl (hset hf (hheld (by rw [hp]; rfl) (eq_false_of_ne_true hlive)) hnone)
  | @finish w site g | @throw w site g =>
    by_cases hfg : f = g
    · exact .inr (.inl (by simp [hfg, FiberState.finished]))
    · exact .inl ⟨hf, Function.update_of_ne hfg ..⟩
  | @doneCb w g hp =>
    by_cases hfg : f = g
    · have hcb := (hs.worker w).atCb g (by rw [hp]; rfl)
      exact .inr (.inr ⟨w, by simp [hcb, hfg], by simp [Pc.fiber?]⟩)
    · exact .inl ⟨hf, Function.update_of_ne hfg ..⟩
  | _ => exact .inl ⟨hf, rfl⟩

/-- `start` and `stop` put no worker to work that has a `cb_fiber`. -/
theorem Sound.keeps_cb (hs : Sound s) (h : Moves s a s') (ha : a.worker ≠ some w)
    (hcb : s.cbOf w = some f) : s'.workers w = s.workers w := by
  have hborn : s.pcOf w ≠ .unborn := fun hunborn => by
    rw [(hs.worker w).newborn hunborn] at hcb
    cases hcb
  cases h with
  | start hp => exact absurd (hs.counted.fresh hp w) hborn
  | @callRoot v hr hp =>
    have hne : w ≠ v := by
      rintro rfl
      exact hborn (hs.counted.rootUnborn w hr (by rw [hp]; exact fun h => by cases h))
    exact Function.update_of_ne hne ..
  | requestStop | stop | skipRoot | newFiber => rfl
  | schedule ht | bodySchedule _ ht =>
    obtain ⟨rfl, -⟩ := schedule_eq_push ht
    rfl
  | _ =>
    simp only [Act.worker, ne_eq, Option.some.injEq] at ha
    simp [Ne.symm ha]

theorem Sound.callable_step (hs : Sound s) (h : Moves s a s') (hf : f < s'.nextFiber)
    (hnone : (s'.fibers f).mCallback = none) :
    (s'.stateOf f).finished ∨ ∃ w, s'.cbOf w = some f ∧ (s'.pcOf w).fiber? ≠ some f := by
  rcases hs.callback_lost h hf hnone with ⟨hlt, hsame⟩ | hdone
  · rw [hsame] at hnone
    rcases hs.callable f hlt hnone with hfinished | ⟨w, hcb, hw⟩
    · left
      rw [stateOf, hsame]
      exact hfinished
    · right
      exists w
      by_cases ha : a.worker = some w
      · rcases hs.own_kept h ha hcb hw with hcall | hkept
        · rw [hsame] at hcall
          exact absurd hnone hcall
        · exact hkept
      · have hold := hs.keeps_cb h ha hcb
        exact ⟨(congrArg Worker.cbFiber hold).trans hcb, by rw [pcOf, hold]; exact hw⟩
  · exact hdone

theorem Sound.step (hs : Sound s) (hg : Unshared s a) (h : Moves s a s') : Sound s' where
  counted := hs.counted.step h
  single := hs.single.step hs.counted hg h
  ended _ := hs.ended_step h
  exec _ := hs.exec_step h
  callable _ := hs.callable_step h
  worker w := by
    by_cases ha : a.worker = some w
    · exact WorkerOk.own hs h ha
    · exact WorkerOk.other hs h ha

theorem reach_sound (h : Reach step Unshared (initial n useCaller) s) : Sound s :=
  h.invariant (initial_sound n useCaller) fun hs hg ht => hs.step hg (step_moves ht)

/-- A worker in `run` that is not in the code of a task has a step: no assertion of the loop, of
`Reset` or of `SwapIn` fails, and no switch leads behind the end of `MainFunc`. -/
theorem Sound.can_step (hs : Sound s) (hborn : s.pcOf w ≠ .unborn) (hleft : s.pcOf w ≠ .left)
    (hrun : ∀ site f, s.pcOf w ≠ .run site f) : (s.workStep w).isSome := by
  have hw := hs.worker w
  cases hp : s.pcOf w with
  | unborn => exact absurd hp hborn
  | left => exact absurd hp hleft
  | run site f => exact absurd hp (hrun site f)
  | scan =>
    simp only [workStep, hp]
    split <;> rfl
  | picked t =>
    cases t with
    | fiber f => simp [workStep, hp]
    | cb c =>
      cases hcb : s.cbOf w with
      | none => simp [workStep, hp, hcb]
      | some f =>
        have hspare := hw.spare f hcb (by rw [hp]; exact fun h => by cases h)
        simp [workStep, hp, hcb, hspare]
  | resume site f =>
    have hexec := hs.not_exec (w := w) (f := f) (by rw [hp]; rfl)
      (by rw [hp]; exact fun h => by cases h)
    simp [workStep, hp, hexec]
  | enter site f => simp [workStep, hp, hs.enter_live hp]
  | idleEnter =>
    have hidle : s.idleOf w ≠ .exec := fun h => by
      have hin := hw.idle h
      rw [hp] at hin
      cases hin
    simp [workStep, hp, hidle]
  | after site f => cases site <;> simp [workStep, hp]
  | idleRun | missed | idleAfter =>
    simp only [workStep, hp]
    split <;> rfl
  | leave | back | dropped | idleLeave | idleBack => simp [workStep, hp]

/-- The fiber whose code runs is EXEC and has a callback, so that nothing it may do is refused. -/
theorem Sound.can_body (hs : Sound s) (hrun : s.pcOf w = .run site f)
    (hb : ∀ t thread, b = .schedule t thread → ∀ g, t = .fiber g → g < s.nextFiber) :
    (s.bodyStep w b).isSome := by
  have hexec := (hs.worker w).enter site f (.inr hrun)
  have hcall := hs.has_callback (w := w) (f := f) (by rw [hrun]; rfl) (by rw [hexec]; rfl)
  cases b with
  | schedule t thread =>
    cases t with
    | fiber g => simp [bodyStep, hrun, hcall, schedule, hb _ _ rfl g rfl]
    | cb c => simp [bodyStep, hrun, hcall, schedule]
  | yieldToReady | yieldToHold => simp [bodyStep, hrun, hcall, hexec]
  | finish | throw => simp [bodyStep, hrun, hcall]

/-- However many workers there are and however their steps and the calls interleave, a worker in
`run` always has a step, and so has the task it runs: no assertion of the loop, of `Reset`, of
`SwapIn` or of the yields fails, no switch leads behind the end of `MainFunc`, and no empty
`mCallback` is called. -/
theorem worker_never_stuck (h : Reach step Unshared (initial n useCaller) s)
    (hborn : s.pcOf w ≠ .unborn) (hleft : s.pcOf w ≠ .left) :
    (s.workStep w).isSome ∨ ∃ site f, s.pcOf w = .run site f ∧
      ∀ b, (∀ t thread, b = .schedule t thread → ∀ g, t = .fiber g → g < s.nextFiber) →
        (s.bodyStep w b).isSome := by
  have hs := reach_sound h
  by_cases hrun : ∃ site f, s.pcOf w = .run site f
  · obtain ⟨site, f, hrun⟩ := hrun
    exact .inr ⟨site, f, hrun, fun b hb => hs.can_body hrun hb⟩
  · exact .inl (hs.can_step hborn hleft fun site f hp => hrun ⟨site, f, hp⟩)

/-- The second worker has taken over a fiber that scheduled itself and yielded. -/
theorem worker_never_stuck_handed_over :
    ∃ s, Reach step Unshared (initial 2 false) s ∧ s.pcOf 1 = .picked (.fiber 0) ∧
      ((s.workStep 1).isSome ∨ ∃ site f, s.pcOf 1 = .run site f ∧
        ∀ b, (∀ t thread, b = .schedule t thread → ∀ g, t = .fiber g → g < s.nextFiber) →
          (s.bodyStep 1 b).isSome) := by
  obtain ⟨s, hs, hp⟩ := Reach.of_exec_map step Unshared (initial 2 false) handedOverRun
    (fun s => s.pcOf 1 = .picked (.fiber 0)) (by decide)
  have hpc : s.pcOf 1 = .picked (.fiber 0) := of_decide_eq_true hp
  have hborn : s.pcOf 1 ≠ .unborn := by rw [hpc]; exact fun h => by cases h
  have hleft : s.pcOf 1 ≠ .left := by rw [hpc]; exact fun h => by cases h
  exact ⟨s, hs, hpc, worker_never_stuck hs hborn hleft⟩

end Scheduler
end SvrFrame
