import SvrFrame.Scheduler.Drain
import Mathlib.Data.List.Nodup

namespace SvrFrame
open Library
set_option autoImplicit true

def FiberAndThread.fiber? (e : FiberAndThread) : Option FiberId :=
  match e.task with
  | .fiber f => some f
  | .cb _ => none

/-- The fiber in the worker's hands, from the pick to the end of the pass through the loop. -/
def Pc.fiber? : Pc → Option FiberId
  | .picked (.fiber f) | .resume _ f | .enter _ f | .run _ f | .leave _ f | .back _ f
  | .after _ f => some f
  | _ => none

/-- The same, for the fibers that are held in `ft.fiber`. -/
def Pc.own? : Pc → Option FiberId
  | .picked (.fiber f) | .resume .own f | .enter .own f | .run .own f | .leave .own f
  | .back .own f | .after .own f => some f
  | _ => none

theorem FiberAndThread.fiber_eq {e : FiberAndThread} : e.fiber? = some f ↔ e.task = .fiber f := by
  obtain ⟨task, thread⟩ := e
  constructor
  · intro h
    cases task with
    | fiber g => cases h; rfl
    | cb c => cases h
  · rintro rfl
    rfl

theorem Pc.fiber_picked (e : FiberAndThread) : (Pc.picked e.task).fiber? = e.fiber? := by
  obtain ⟨task, thread⟩ := e
  cases task <;> rfl

theorem Pc.own_picked (e : FiberAndThread) : (Pc.picked e.task).own? = e.fiber? := by
  obtain ⟨task, thread⟩ := e
  cases task <;> rfl

/-- The fiber the worker holds between picking it and the return of its `SwapIn`. -/
def Pc.held? : Pc → Option FiberId
  | .picked (.fiber f) | .resume _ f | .enter _ f | .run _ f | .leave _ f => some f
  | _ => none

theorem Pc.fiber_of_held {pc : Pc} (h : pc.held? = some f) : pc.fiber? = some f := by
  cases pc with
  | picked t => cases t <;> exact h
  | resume | enter | run | leave => exact h
  | _ => cases h

namespace Scheduler

variable {s s' : Scheduler}

/-- The fibers that have an entry in `m_fibers`. -/
def queued (s : Scheduler) : List FiberId := s.mFibers.filterMap FiberAndThread.fiber?

theorem queued_of_found {p : FiberAndThread → Bool} (he : s.mFibers.find? p = some e)
    (hf : e.fiber? = some f) : f ∈ s.queued :=
  List.mem_filterMap.2 ⟨e, List.mem_of_find?_eq_some he, hf⟩

/-- The scan passes over a fiber that is executed. -/
theorem idle_of_found (he : s.mFibers.find? (s.eligible w) = some e) (hf : e.fiber? = some f) :
    s.stateOf f ≠ .exec := by
  have helig := List.find?_some he
  simp only [eligible, FiberAndThread.fiber_eq.1 hf, Bool.and_eq_true, decide_eq_true_eq] at helig
  exact helig.2

/-- Worker `w` has a pointer to `f` in `ft.fiber` or `cb_fiber`. -/
def Names (s : Scheduler) (w : WorkerId) (f : FiberId) : Prop :=
  (s.pcOf w).fiber? = some f ∨ s.cbOf w = some f

instance (s : Scheduler) (w : WorkerId) (f : FiberId) : Decidable (Names s w f) :=
  inferInstanceAs (Decidable (_ ∨ _))

/-- A fiber may be scheduled that has no entry yet and that no worker works on, or that is
running (its state is EXEC until its worker has written HOLD). -/
def MaySchedule (s : Scheduler) : Task → Prop
  | .fiber f => f ∉ s.queued ∧ (s.stateOf f = .exec ∨ ∀ v < s.workerCount, ¬ s.Names v f)
  | .cb _ => True

/-- A fiber that has an entry in the queue while it runs leaves the state EXEC only through
HOLD. -/
def MayLeaveExec (s : Scheduler) (w : WorkerId) : Prop :=
  ∀ f ∈ (s.pcOf w).fiber?, f ∉ s.queued

def Unshared (s : Scheduler) : Act → Prop
  | .schedule t _ | .body _ (.schedule t _) => MaySchedule s t
  | .body w .yieldToReady | .body w .finish | .body w .throw => MayLeaveExec s w
  | _ => True

def ShareGuard (s : Scheduler) (a : Act) : Prop := s.workerCount ≤ 1 ∨ Unshared s a

instance : ∀ (s : Scheduler) (t : Task), Decidable (MaySchedule s t)
  | s, .fiber f => inferInstanceAs (Decidable (f ∉ s.queued ∧
      (s.stateOf f = .exec ∨ ∀ v < s.workerCount, ¬ s.Names v f)))
  | _, .cb _ => inferInstanceAs (Decidable True)

instance (s : Scheduler) (w : WorkerId) : Decidable (MayLeaveExec s w) :=
  inferInstanceAs (Decidable (∀ f ∈ (s.pcOf w).fiber?, f ∉ s.queued))

instance : ∀ (s : Scheduler) (a : Act), Decidable (Unshared s a)
  | s, .schedule t _ | s, .body _ (.schedule t _) => inferInstanceAs (Decidable (MaySchedule s t))
  | s, .body w .yieldToReady | s, .body w .finish | s, .body w .throw =>
    inferInstanceAs (Decidable (MayLeaveExec s w))
  | _, .start | _, .requestStop | _, .stop | _, .callRoot | _, .newFiber _ | _, .work _
  | _, .body _ .yieldToHold => inferInstanceAs (Decidable True)

instance (s : Scheduler) (a : Act) : Decidable (ShareGuard s a) :=
  inferInstanceAs (Decidable (_ ∨ _))

/-- Every fiber is in one place: a single entry, or the variables of a single worker. -/
structure Single (s : Scheduler) : Prop where
  nodup : s.queued.Nodup
  unique : ∀ f w v, s.Names w f → s.Names v f → w = v
  apart : ∀ f w, f ∈ s.queued → s.Names w f → s.stateOf f = .exec
  own : ∀ w f, (s.pcOf w).own? = some f → s.cbOf w ≠ some f
  queuedKnown : ∀ f ∈ s.queued, f < s.nextFiber
  namedKnown : ∀ w f, s.Names w f → f < s.nextFiber
  outside : ∀ w f, s.workerCount ≤ w → ¬ s.Names w f

theorem not_names_initial (n : Nat) (useCaller : Bool) (w : WorkerId) (f : FiberId) :
    ¬ (initial n useCaller).Names w f := by
  rintro (h | h) <;> cases h

theorem initial_single (n : Nat) (useCaller : Bool) : Single (initial n useCaller) where
  nodup := List.nodup_nil
  unique f w _ h := absurd h (not_names_initial n useCaller w f)
  apart f w _ h := absurd h (not_names_initial n useCaller w f)
  own _ _ h := by cases h
  queuedKnown f h := absurd h List.not_mem_nil
  namedKnown w f h := absurd h (not_names_initial n useCaller w f)
  outside w f _ := not_names_initial n useCaller w f

theorem Single.not_queued (hs : Single s) (hn : s.Names w f) (hst : s.stateOf f ≠ .exec) :
    f ∉ s.queued := fun hf => hst (hs.apart f w hf hn)

/-- Workers let go of pointers, and nothing else that matters changes. -/
theorem Single.letGo (hs : Single s) (hfibers : s'.fibers = s.fibers)
    (hnext : s'.nextFiber = s.nextFiber) (hqueue : s'.mFibers = s.mFibers)
    (hcount : s'.workerCount = s.workerCount) (hnames : ∀ w f, s'.Names w f → s.Names w f)
    (hown : ∀ w f, (s'.pcOf w).own? = some f → s'.cbOf w ≠ some f) : Single s' := by
  have hst : s'.stateOf = s.stateOf := by simp only [funext_iff, stateOf, hfibers, implies_true]
  have hq : s'.queued = s.queued := by simp only [queued, hqueue]
  refine ⟨hq ▸ hs.nodup, ?_, ?_, hown, ?_, ?_, ?_⟩
  · exact fun f w v hw hv => hs.unique f w v (hnames w f hw) (hnames v f hv)
  · rw [hq, hst]
    exact fun f w hf hw => hs.apart f w hf (hnames w f hw)
  · rw [hq, hnext]
    exact hs.queuedKnown
  · rw [hnext]
    exact fun w f hw => hs.namedKnown w f (hnames w f hw)
  · rw [hcount]
    exact fun w f hw hf => hs.outside w f hw (hnames w f hf)

/-- The counters, the flags and the phase do not matter. -/
theorem Single.congr (hs : Single s) (hfibers : s'.fibers = s.fibers)
    (hnext : s'.nextFiber = s.nextFiber) (hqueue : s'.mFibers = s.mFibers)
    (hcount : s'.workerCount = s.workerCount) (hworkers : s'.workers = s.workers) :
    Single s' := by
  have hpc : s'.pcOf = s.pcOf := by simp only [funext_iff, pcOf, hworkers, implies_true]
  have hcb : s'.cbOf = s.cbOf := by simp only [funext_iff, cbOf, hworkers, implies_true]
  refine hs.letGo hfibers hnext hqueue hcount ?_ ?_ <;> simp only [Names, hpc, hcb]
  · exact fun _ _ h => h
  · exact hs.own

theorem Single.setWorker (hs : Single s) (hw : ∀ f, (s.setWorker w k).Names w f → s.Names w f)
    (hown : ∀ f, k.pc.own? = some f → k.cbFiber ≠ some f) : Single (s.setWorker w k) := by
  refine hs.letGo rfl rfl rfl rfl ?_ ?_
  · intro v f h
    by_cases hv : v = w
    · subst hv; exact hw f h
    · simpa only [Names, pcOf_setWorker, cbOf_setWorker, if_neg hv] using h
  · intro v f h
    rw [pcOf_setWorker] at h
    rw [cbOf_setWorker]
    split at h
    · rename_i hv; rw [if_pos hv]; exact hown f h
    · rename_i hv; rw [if_neg hv]; exact hs.own v f h

/-- The new position holds the fiber the old one held. -/
theorem Single.keep (hs : Single s) {pc pc' : Pc} (hp : s.pcOf w = pc)
    (hfiber : pc'.fiber? = pc.fiber?) (hown : pc'.own? = pc.own?) : Single (s.setPc w pc') := by
  apply hs.setWorker
  · intro f h
    simp only [Names, pcOf_setWorker, cbOf_setWorker, if_true, hfiber] at h
    rw [Names, hp]
    exact h
  · intro f h
    rw [hown] at h
    exact hs.own w f (hp ▸ h)

/-- The new position holds no fiber. -/
theorem Single.letGoPc (hs : Single s) (hcb : k.cbFiber = s.cbOf w) (hfiber : k.pc.fiber? = none)
    (hown : k.pc.own? = none) : Single (s.setWorker w k) := by
  apply hs.setWorker
  · intro f h
    simp only [Names, pcOf_setWorker, cbOf_setWorker, if_true, hfiber, hcb] at h
    exact .inr (h.resolve_left fun h => by cases h)
  · intro f h
    rw [hown] at h
    cases h

theorem Single.drop (hs : Single s) (hfiber : pc'.fiber? = none) (hown : pc'.own? = none) :
    Single (s.setPc w pc') :=
  hs.letGoPc rfl hfiber hown

theorem Single.dropIdle (hs : Single s) (hfiber : pc'.fiber? = none) (hown : pc'.own? = none) :
    Single (s.setIdle w pc' st) :=
  hs.letGoPc rfl hfiber hown

/-- A worker at the scan with no `cb_fiber` holds nothing at all. -/
theorem Single.restart (hs : Single s) (hpc : k.pc = .scan) (hcb : k.cbFiber = none) :
    Single (s.setWorker w k) := by
  apply hs.setWorker
  · intro f h
    simp only [Names, pcOf_setWorker, cbOf_setWorker, if_true, hpc, hcb] at h
    rcases h with h | h <;> cases h
  · intro f h
    rw [hpc] at h
    cases h

theorem Single.releaseCb (hs : Single s) : Single (s.releaseCb w) := hs.restart rfl rfl

theorem Single.holdCb (hs : Single s) (hcb : s.cbOf w = some f) :
    Single (s.setPc w (.resume .cb f)) := by
  apply hs.setWorker
  · intro g h
    simp only [Names, pcOf_setWorker, cbOf_setWorker, if_true] at h
    rcases h with h | h
    · cases h; exact .inr hcb
    · exact .inr h
  · intro g h
    cases h

/-- A queued fiber that some worker works on must stay EXEC. -/
theorem Single.setCell (hs : Single s)
    (hx : f ∈ s.queued → (∃ v, s.Names v f) → x.mState = .exec) : Single (s.setCell f x) := by
  refine ⟨hs.nodup, hs.unique, fun g v hg hv => ?_, hs.own, hs.queuedKnown, hs.namedKnown,
    hs.outside⟩
  rw [stateOf_setCell]
  split
  · rename_i h; subst h; exact hx hg ⟨v, hv⟩
  · exact hs.apart g v hg hv

theorem Single.makeFiber (hs : Single s) : Single (s.makeFiber c) := by
  refine ⟨hs.nodup, hs.unique, fun g v hg hv => ?_, hs.own,
    fun f hf => Nat.lt_succ_of_lt (hs.queuedKnown f hf),
    fun v f hv => Nat.lt_succ_of_lt (hs.namedKnown v f hv), hs.outside⟩
  rw [stateOf_makeFiber, if_neg (Nat.ne_of_lt (hs.queuedKnown g hg))]
  exact hs.apart g v hg hv

/-- Once a pass through the loop has ended, no worker has a pointer to its queued fiber. -/
theorem Single.forget_own (hs : Single s) (hp : s.pcOf w = .after .own f) (v : WorkerId) :
    ¬ (s.setPc w .scan).Names v f := by
  have hw : s.Names w f := .inl (by rw [hp]; rfl)
  intro h
  simp only [Names, pcOf_setPc, cbOf_setPc] at h
  by_cases hv : v = w
  · subst hv
    rw [if_pos rfl] at h
    rcases h with h | h
    · cases h
    · exact hs.own v f (by rw [hp]; rfl) h
  · rw [if_neg hv] at h
    exact hv (hs.unique f v w h hw)

theorem Single.forget_cb (hs : Single s) (hp : s.pcOf w = .after .cb f) (v : WorkerId) :
    ¬ (s.releaseCb w).Names v f := by
  have hw : s.Names w f := .inl (by rw [hp]; rfl)
  intro h
  simp only [Names, pcOf_releaseCb, cbOf_releaseCb] at h
  by_cases hv : v = w
  · subst hv
    rw [if_pos rfl, if_pos rfl] at h
    rcases h with h | h <;> cases h
  · rw [if_neg hv, if_neg hv] at h
    exact hv (hs.unique f v w h hw)

/-- An entry for a fiber that is running or that no worker has a pointer to. -/
theorem Single.push (hs : Single s) (hf : f < s.nextFiber) (hq : f ∉ s.queued)
    (hnames : s.stateOf f = .exec ∨ ∀ v, ¬ s.Names v f) : Single (s.push ⟨.fiber f, thread⟩) := by
  have hqueued : (s.push ⟨.fiber f, thread⟩).queued = s.queued ++ [f] := by
    simp only [queued, push_mFibers, List.filterMap_append]
    rfl
  refine ⟨?_, hs.unique, ?_, hs.own, ?_, hs.namedKnown, hs.outside⟩
  · rw [hqueued]
    exact hs.nodup.append (List.nodup_singleton f) (by simpa using hq)
  · intro g w hg hw
    rw [hqueued, List.mem_append, List.mem_singleton] at hg
    rcases hg with hg | rfl
    · exact hs.apart g w hg hw
    · exact hnames.resolve_right fun h => h w hw
  · intro g hg
    rw [hqueued, List.mem_append, List.mem_singleton] at hg
    rcases hg with hg | rfl
    · exact hs.queuedKnown g hg
    · exact hf

theorem Single.pushCb (hs : Single s) : Single (s.push ⟨.cb c, thread⟩) := by
  have hqueued : (s.push ⟨.cb c, thread⟩).queued = s.queued := by
    simp only [queued, push_mFibers, List.filterMap_append]
    exact List.append_nil _
  exact ⟨hqueued ▸ hs.nodup, hs.unique, fun f w hf => hs.apart f w (hqueued ▸ hf), hs.own,
    fun f hf => hs.queuedKnown f (hqueued ▸ hf), hs.namedKnown, hs.outside⟩

theorem Single.schedule (hs : Single s) (hg : MaySchedule s t) (h : s.schedule t thread = some s') :
    Single s' := by
  obtain ⟨rfl, hf⟩ := schedule_eq_push h
  cases t with
  | fiber f =>
    refine hs.push (hf f rfl) hg.1 (hg.2.imp_right fun hn v hv => ?_)
    by_cases hlt : v < s.workerCount
    · exact hn v hlt hv
    · exact hs.outside v f (Nat.le_of_not_lt hlt) hv
  | cb c => exact hs.pushCb

theorem eraseP_queued_sublist (l : List FiberAndThread) (p : FiberAndThread → Bool) :
    ((l.eraseP p).filterMap FiberAndThread.fiber?).Sublist (l.filterMap FiberAndThread.fiber?) :=
  List.Sublist.filterMap _ List.eraseP_sublist

theorem not_mem_eraseP_queued {l : List FiberAndThread} {p : FiberAndThread → Bool}
    (hl : (l.filterMap FiberAndThread.fiber?).Nodup) (he : l.find? p = some e)
    (hf : e.fiber? = some f) : f ∉ (l.eraseP p).filterMap FiberAndThread.fiber? := by
  induction l with
  | nil => cases he
  | cons x l ih =>
    by_cases hx : p x = true
    · rw [List.find?_cons_of_pos hx] at he
      cases he
      rw [List.eraseP_cons_of_pos hx]
      rw [List.filterMap_cons_some hf] at hl
      exact (List.nodup_cons.1 hl).1
    · rw [List.find?_cons_of_neg hx] at he
      rw [List.eraseP_cons_of_neg hx]
      cases hxf : x.fiber? with
      | none =>
        rw [List.filterMap_cons_none hxf] at hl ⊢
        exact ih hl he
      | some g =>
        rw [List.filterMap_cons_some hxf] at hl ⊢
        obtain ⟨hg, hl⟩ := List.nodup_cons.1 hl
        rw [List.mem_cons, not_or]
        refine ⟨?_, ih hl he⟩
        rintro rfl
        exact hg (List.mem_filterMap.2 ⟨e, List.mem_of_find?_eq_some he, hf⟩)

/-- The scan takes an entry: its fiber leaves the queue and is in the hands of `w` only. -/
theorem Single.pick (hs : Single s) (hn : w < s.workerCount) (hp : s.pcOf w = .scan)
    (he : s.mFibers.find? (s.eligible w) = some e) :
    Single ((s.take w).setPc w (.picked e.task)) := by
  have hsub : ((s.take w).setPc w (.picked e.task)).queued.Sublist s.queued :=
    eraseP_queued_sublist _ _
  -- Every pointer of the new state is an old one or the new one to the fiber of `e`.
  have hnames (v : WorkerId) (f : FiberId)
      (h : ((s.take w).setPc w (.picked e.task)).Names v f) :
      s.Names v f ∨ (v = w ∧ e.fiber? = some f) := by
    simp only [Names, pcOf_setPc, cbOf_setPc, pcOf_take, cbOf_take] at h
    by_cases hv : v = w
    · rw [if_pos hv, Pc.fiber_picked] at h
      exact h.elim (fun h => .inr ⟨hv, h⟩) fun h => .inl (.inr h)
    · rw [if_neg hv] at h
      exact .inl h
  have hfree (v : WorkerId) (f : FiberId) (hf : e.fiber? = some f) : ¬ s.Names v f :=
    fun h => idle_of_found he hf (hs.apart f v (queued_of_found he hf) h)
  refine ⟨hs.nodup.sublist hsub, ?_, ?_, ?_, ?_, ?_, ?_⟩
  · intro f x y hx hy
    rcases hnames x f hx with hx' | ⟨hxw, hxf⟩ <;> rcases hnames y f hy with hy' | ⟨hyw, hyf⟩
    · exact hs.unique f x y hx' hy'
    · exact absurd hx' (hfree x f hyf)
    · exact absurd hy' (hfree y f hxf)
    · rw [hxw, hyw]
  · intro f v hf hv
    rcases hnames v f hv with hv | ⟨-, hef⟩
    · exact hs.apart f v (hsub.subset hf) hv
    · exact absurd hf (not_mem_eraseP_queued hs.nodup he hef)
  · intro v f h
    rw [cbOf_setPc, cbOf_take]
    rw [pcOf_setPc] at h
    split at h
    · rw [Pc.own_picked] at h
      exact fun hcb => hfree v f h (.inr hcb)
    · exact hs.own v f h
  · exact fun f hf => hs.queuedKnown f (hsub.subset hf)
  · intro v f hv
    rcases hnames v f hv with hv | ⟨-, hef⟩
    · exact hs.namedKnown v f hv
    · exact hs.queuedKnown f (queued_of_found he hef)
  · intro v f hv hf
    rcases hnames v f hf with hf | ⟨rfl, -⟩
    · exact hs.outside v f hv hf
    · exact absurd hn (Nat.not_lt.2 hv)

theorem Single.adopt (hs : Single s) (hn : w < s.workerCount) (hf : f < s.nextFiber)
    (hq : f ∉ s.queued) (hfree : ∀ v, ¬ s.Names v f) (hcb : s.cbOf w = none)
    (hp : (s.pcOf w).fiber? = none) : Single (s.adoptCb w f) := by
  have hnames (v : WorkerId) (g : FiberId) (h : (s.adoptCb w f).Names v g) :
      s.Names v g ∨ (v = w ∧ g = f) := by
    simp only [Names, pcOf_adoptCb, cbOf_adoptCb] at h
    by_cases hv : v = w
    · rw [if_pos hv, if_pos hv] at h
      rcases h with h | h <;> cases h <;> exact .inr ⟨hv, rfl⟩
    · rw [if_neg hv, if_neg hv] at h
      exact .inl h
  refine ⟨hs.nodup, ?_, ?_, ?_, hs.queuedKnown, ?_, ?_⟩
  · intro g x y hx hy
    rcases hnames x g hx with hx' | ⟨hxw, hxf⟩ <;> rcases hnames y g hy with hy' | ⟨hyw, hyf⟩
    · exact hs.unique g x y hx' hy'
    · exact absurd (hyf ▸ hx') (hfree x)
    · exact absurd (hxf ▸ hy') (hfree y)
    · rw [hxw, hyw]
  · intro g v hg hv
    rcases hnames v g hv with hv | ⟨-, rfl⟩
    · exact hs.apart g v hg hv
    · exact absurd hg hq
  · intro v g h
    rw [pcOf_adoptCb] at h
    rw [cbOf_adoptCb]
    split at h
    · cases h
    · rename_i hv; rw [if_neg hv]; exact hs.own v g h
  · intro v g hv
    rcases hnames v g hv with hv | ⟨-, rfl⟩
    · exact hs.namedKnown v g hv
    · exact hf
  · intro v g hv hg
    rcases hnames v g hg with hg | ⟨rfl, -⟩
    · exact hs.outside v g hv hg
    · exact absurd hn (Nat.not_lt.2 hv)

theorem Single.start (hs : Single s) (hfresh : ∀ w, s.pcOf w = .unborn) : Single s.startAll := by
  have hpc (w : WorkerId) :
      (s.startAll.pcOf w).fiber? = none ∧ (s.startAll.pcOf w).own? = none := by
    simp only [pcOf, startAll]
    split
    · exact ⟨rfl, rfl⟩
    · have h := hfresh w
      rw [pcOf] at h
      rw [h]
      exact ⟨rfl, rfl⟩
  refine hs.letGo rfl rfl rfl rfl ?_ ?_
  · intro w f h
    have hcb := h.resolve_left fun h => by rw [(hpc w).1] at h; cases h
    simp only [cbOf, startAll] at hcb
    split at hcb
    · cases hcb
    · exact .inr hcb
  · intro w f h
    rw [(hpc w).2] at h
    cases h

theorem Single.enterRoot (hs : Single s) : Single (s.enterRoot w) := by
  have hset : Single (s.setWorker w ⟨.scan, none, .init⟩) := hs.restart rfl rfl
  exact hset.congr rfl rfl rfl rfl rfl

/-- The fiber of a running task: its state may change where the guard has checked the queue. -/
theorem Single.setRunning (hs : Single s) (hp : s.pcOf w = .run site f) (hg : MayLeaveExec s w)
    (hfiber : pc'.fiber? = some f) (hown : pc'.own? = (s.pcOf w).own?) :
    Single ((s.setCell f x).setPc w pc') := by
  have hq : f ∉ s.queued := hg f (by rw [hp]; rfl)
  have hcell : Single (s.setCell f x) := hs.setCell fun h => absurd h hq
  exact hcell.keep hp (by rw [hfiber]; rfl) (by rw [hown, hp])

theorem Single.step (hs : Single s) (hcount : Counted s) (hg : Unshared s a) (h : Moves s a s') :
    Single s' := by
  have hnames {w : WorkerId} {pc : Pc} {f : FiberId} (hp : s.pcOf w = pc)
      (hf : pc.fiber? = some f) : s.Names w f := .inl (hp ▸ hf)
  cases h with
  | start hp => exact hs.start (hcount.fresh hp)
  | requestStop | stop | skipRoot => exact hs.congr rfl rfl rfl rfl rfl
  | callRoot => exact hs.enterRoot
  | newFiber => exact hs.makeFiber
  | schedule ht => exact hs.schedule hg ht
  | bodySchedule _ ht => exact hs.schedule hg ht
  | pick hp he => exact hs.pick (hcount.worker_lt (by simp [hp])) hp he
  | make hp hcb =>
    refine hs.makeFiber.adopt (hcount.worker_lt (by simp [hp])) (Nat.lt_succ_self _) ?_ ?_ hcb
      (by rw [pcOf_makeFiber, hp]; rfl)
    · exact fun h => Nat.lt_irrefl _ (hs.queuedKnown _ h)
    · exact fun v h => Nat.lt_irrefl _ (hs.namedKnown v _ h)
  | @reuse w c f hp hcb hst =>
    have hq : f ∉ s.queued := hs.not_queued (.inr hcb) fun h => by rw [h] at hst; cases hst
    exact (hs.setCell fun h => absurd h hq).holdCb hcb
  | @resume w site f hp hst =>
    have hs' : Single (s.setCell f { s.fibers f with mState := .exec }) := hs.setCell fun _ _ => rfl
    exact hs'.keep hp rfl (by cases site <;> rfl)
  | @enter w site f hp | @leave w site f hp | @yieldToHold w site f hp =>
    exact hs.keep hp rfl (by cases site <;> rfl)
  | @back w site f hp =>
    have hs' : Single s.decActive := hs.congr rfl rfl rfl rfl rfl
    exact hs'.keep hp rfl (by cases site <;> rfl)
  | @requeueOwn w f hp hr =>
    have hn := hnames hp rfl
    have hscan : Single (s.setPc w .scan) := hs.drop rfl rfl
    have hq := hs.not_queued hn fun h => by rw [hr] at h; cases h
    exact hscan.push (hs.namedKnown w f hn) hq (.inr (hs.forget_own hp))
  | @requeueCb w f hp hr =>
    have hn := hnames hp rfl
    have hq := hs.not_queued hn fun h => by rw [hr] at h; cases h
    exact hs.releaseCb.push (hs.namedKnown w f hn) hq (.inr (hs.forget_cb hp))
  | @holdOwn w f hp =>
    have hscan : Single (s.setPc w .scan) := hs.drop rfl rfl
    exact hscan.setCell fun _ ⟨v, hv⟩ => absurd hv (hs.forget_own hp v)
  | @holdCb w f hp =>
    exact hs.releaseCb.setCell fun _ ⟨v, hv⟩ => absurd hv (hs.forget_cb hp v)
  | @doneCb w f hp hst =>
    have hq := hs.not_queued (hnames hp rfl) fun h => by rw [h] at hst; cases hst
    exact (hs.setCell fun h => absurd h hq).drop rfl rfl
  | miss | drop | doneOwn | exit | idleWait | idleLeave | idleDone => exact hs.drop rfl rfl
  | dropped | toIdle | idleBack =>
    refine Single.drop ?_ rfl rfl
    exact hs.congr rfl rfl rfl rfl rfl
  | idleEnter | idleStop | idleHold => exact hs.dropIdle rfl rfl
  | choose hp => exact hs.keep hp rfl rfl
  | @yieldToReady w site f hp | @finish w site f hp | @throw w site f hp =>
    exact hs.setRunning hp hg rfl (by rw [hp]; cases site <;> rfl)

structure ShareInv (s : Scheduler) : Prop where
  counted : Counted s
  single : 1 < s.workerCount → Single s

theorem ShareInv.step (hs : ShareInv s) (hg : ShareGuard s a) (h : Moves s a s') : ShareInv s' := by
  refine ⟨hs.counted.step h, ?_⟩
  intro hn
  rw [h.workerCount] at hn
  have hunshared : Unshared s a := hg.resolve_left (Nat.not_le.2 hn)
  exact (hs.single hn).step hs.counted hunshared h

theorem reach_shareInv (h : Reach step ShareGuard (initial n useCaller) s) : ShareInv s :=
  h.invariant ⟨initial_counted n useCaller, fun _ => initial_single n useCaller⟩
    fun hs hg ht => hs.step hg (step_moves ht)

/-- Worker `w` has picked `f`, and the `SwapIn` it makes for it has not returned. -/
def holds (s : Scheduler) (w : WorkerId) (f : FiberId) : Prop := (s.pcOf w).held? = some f

instance (s : Scheduler) (w : WorkerId) (f : FiberId) : Decidable (holds s w f) :=
  inferInstanceAs (Decidable (_ = _))

theorem Counted.holds_lt (hs : Counted s) (h : s.holds w f) : w < s.workerCount :=
  hs.worker_lt fun hp => by rw [holds, hp] at h; cases h

/-- No fiber is held by two workers, provided there is one worker only or no fiber is scheduled
while it is queued or in the hands of a worker that has not set it to EXEC. -/
theorem fiber_held_by_one_worker (h : Reach step ShareGuard (initial n useCaller) s)
    (hw : s.holds w f) (hv : s.holds v f) : w = v := by
  have hs := reach_shareInv h
  by_cases hn : 1 < s.workerCount
  · exact (hs.single hn).unique f w v (.inl (Pc.fiber_of_held hw)) (.inl (Pc.fiber_of_held hv))
  · have hone : s.workerCount ≤ 1 := Nat.le_of_not_lt hn
    have hwlt := Nat.lt_of_lt_of_le (hs.counted.holds_lt hw) hone
    have hvlt := Nat.lt_of_lt_of_le (hs.counted.holds_lt hv) hone
    rw [Nat.lt_one_iff.1 hwlt, Nat.lt_one_iff.1 hvlt]

/-- Two workers; the second resumes the fiber after the first has written HOLD. -/
def handedOverRun : List Act :=
  [.newFiber 0, .schedule (.fiber 0) none, .start, .work 0, .work 0, .work 0, .work 0,
    .body 0 (.schedule (.fiber 0) none), .body 0 .yieldToHold, .work 0, .work 0, .work 1]

theorem fiber_held_by_one_worker_handed_over :
    ∃ s, Reach step ShareGuard (initial 2 false) s ∧ s.holds 1 0 ∧ ∀ w, s.holds w 0 → w = 1 := by
  obtain ⟨s, hs, hp⟩ := Reach.of_exec_map step ShareGuard (initial 2 false) handedOverRun
    (fun s => s.holds 1 0) (by decide)
  have hheld : s.holds 1 0 := of_decide_eq_true hp
  exact ⟨s, hs, hheld, fun w hw => fiber_held_by_one_worker hs hw hheld⟩

/-- A fiber that is scheduled twice is picked by two workers. -/
theorem two_workers_hold_one_fiber :
    ∃ s, Reach step (fun _ _ => True) (initial 2 false) s ∧ s.holds 0 0 ∧ s.holds 1 0 := by
  obtain ⟨s, hs, hp⟩ := Reach.of_exec_map step (fun _ _ => True) (initial 2 false)
    [.newFiber 0, .schedule (.fiber 0) none, .schedule (.fiber 0) none, .start, .work 0, .work 1]
    (fun s => decide (s.holds 0 0 ∧ s.holds 1 0)) (by decide)
  exact ⟨s, hs, of_decide_eq_true hp⟩

end Scheduler
end SvrFrame
