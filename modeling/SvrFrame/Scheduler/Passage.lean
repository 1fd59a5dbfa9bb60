import SvrFrame.Scheduler.Queue

namespace SvrFrame
namespace Scheduler
open Library
set_option autoImplicit true

variable {s s' : Scheduler}

/-! ### A fiber on its way through one scheduler -/

/-- The fiber is nowhere in the scheduler. -/
structure Absent (s : Scheduler) (f : FiberId) : Prop where
  out : f ∉ s.queued
  free : ∀ w, ¬ s.Names w f

/-- It has one entry, and no worker has it. -/
structure Waits (s : Scheduler) (f : FiberId) : Prop where
  once : s.queued.count f = 1
  free : ∀ w, ¬ s.Names w f

/-- One worker has it, and it has no entry. -/
structure InHand (s : Scheduler) (w : WorkerId) (f : FiberId) : Prop where
  names : s.Names w f
  only : ∀ v, s.Names v f → v = w
  out : f ∉ s.queued
  own : (s.pcOf w).own? = some f → s.cbOf w ≠ some f

structure Held (s : Scheduler) (w : WorkerId) (f : FiberId) : Prop extends InHand s w f where
  exec : ∀ site, s.pcOf w = .enter site f ∨ s.pcOf w = .run site f → s.stateOf f = .exec

/-- The worker still runs the code that has given the fiber away. -/
structure Leaving (s : Scheduler) (w : WorkerId) (f : FiberId) : Prop extends InHand s w f where
  place : ∃ site, s.pcOf w = .run site f ∨ s.pcOf w = .back site f ∨ s.pcOf w = .after site f
  exec : s.stateOf f = .exec

theorem count_push (s : Scheduler) (f : FiberId) (thread : Option WorkerId) :
    (s.push ⟨.fiber f, thread⟩).queued.count f = s.queued.count f + 1 := by
  simp [queued, FiberAndThread.fiber?]

theorem count_push_other (s : Scheduler) (h : t ≠ .fiber f) :
    (s.push ⟨t, thread⟩).queued.count f = s.queued.count f := by
  cases t with
  | cb c =>
    have hnone : (⟨.cb c, thread⟩ : FiberAndThread).fiber? = none := rfl
    simp [queued, hnone]
  | fiber g =>
    have hne : g ≠ f := fun he => h (he ▸ rfl)
    simp [queued, FiberAndThread.fiber?, hne]

theorem count_eraseP {l : List FiberAndThread} {p : FiberAndThread → Bool}
    (h : l.find? p = some e) (f : FiberId) : (l.filterMap FiberAndThread.fiber?).count f =
      ((l.eraseP p).filterMap FiberAndThread.fiber?).count f +
        if e.task = .fiber f then 1 else 0 := by
  obtain ⟨pre, post, hl, herase, -⟩ := find?_splits h
  rw [herase, hl]
  obtain ⟨task, thread⟩ := e
  cases task with
  | cb c =>
    have hnone : (⟨.cb c, thread⟩ : FiberAndThread).fiber? = none := rfl
    simp [hnone]
  | fiber g =>
    by_cases hg : g = f
    · simp [FiberAndThread.fiber?, hg, Nat.add_assoc]
    · simp [FiberAndThread.fiber?, hg]

/-- What happens to the entries of one fiber. -/
theorem Moves.queued_count (h : Moves s a s') (f : FiberId) :
    s'.queued.count f = s.queued.count f ∨
      ((∃ thread, a.scheduled = some ⟨.fiber f, thread⟩) ∧ s'.workers = s.workers ∧
        s'.fibers = s.fibers ∧ s'.queued.count f = s.queued.count f + 1) ∨
      (∃ w site, a = .work w ∧ s.pcOf w = .after site f ∧ s.stateOf f = .ready ∧
        s'.fibers = s.fibers ∧ s'.queued.count f = s.queued.count f + 1) ∨
      ∃ w e, a = .work w ∧ s.pcOf w = .scan ∧ s.mFibers.find? (s.eligible w) = some e ∧
        e.task = .fiber f ∧ s'.queued.count f + 1 = s.queued.count f := by
  cases h with
  | @schedule t thread _ ht | @bodySchedule _ _ _ t thread _ _ ht =>
    obtain ⟨rfl, -⟩ := schedule_eq_push ht
    by_cases hf : t = .fiber f
    · subst hf
      exact .inr (.inl ⟨⟨thread, rfl⟩, rfl, rfl, count_push s f thread⟩)
    · exact .inl (count_push_other s hf)
  | @requeueOwn w g hp hr =>
    by_cases hg : g = f
    · subst hg
      exact .inr (.inr (.inl ⟨w, .own, rfl, hp, hr, rfl, count_push s g none⟩))
    · exact .inl (count_push_other s fun h => hg (by cases h; rfl))
  | @requeueCb w g hp hr =>
    by_cases hg : g = f
    · subst hg
      exact .inr (.inr (.inl ⟨w, .cb, rfl, hp, hr, rfl, count_push s g none⟩))
    · exact .inl (count_push_other s fun h => hg (by cases h; rfl))
  | @pick w e hp he =>
    have hcount := count_eraseP he f
    by_cases hf : e.task = .fiber f
    · rw [if_pos hf] at hcount
      exact .inr (.inr (.inr ⟨w, e, rfl, hp, he, hf, hcount.symm⟩))
    · rw [if_neg hf] at hcount
      exact .inl hcount.symm
  | _ => exact .inl rfl

theorem count_queued : s.queued.count f = 0 ↔ f ∉ s.queued := List.count_eq_zero

theorem Absent.step (hs : Absent s f) (h : Moves s a s')
    (hsched : ∀ thread, a.scheduled ≠ some ⟨.fiber f, thread⟩) (hmake : ¬ Makes s a f) :
    Absent s' f := by
  have hnot {p : FiberAndThread → Bool} {e : FiberAndThread} (he : s.mFibers.find? p = some e) :
      e.fiber? ≠ some f :=
    fun hf => hs.out (queued_of_found he hf)
  constructor
  · have hzero := count_queued.2 hs.out
    rcases h.queued_count f with hsame | ⟨⟨thread, ht⟩, -⟩ | ⟨w, site, -, hp, -⟩ |
      ⟨w, e, -, -, -, -, hcount⟩
    · rw [← count_queued, hsame]
      exact hzero
    · exact absurd ht (hsched thread)
    · exact absurd (.inl (by rw [hp]; rfl)) (hs.free w)
    · rw [hzero] at hcount
      cases hcount
  · intro w hn
    rcases h.names hn with hold | ⟨-, -, e, he, hf⟩ | hmakes
    · exact hs.free w hold
    · exact hnot he hf
    · exact hmake hmakes

theorem Moves.pick_eq (h : Moves s (.work w) s') (hp : s.pcOf w = .scan)
    (he : s.mFibers.find? (s.eligible w) = some e) : s' = (s.take w).setPc w (.picked e.task) := by
  cases h with
  | pick _ he' => rw [Option.some.inj (he.symm.trans he')]
  | _ => simp_all

/-- Only a pick moves a waiting fiber, and only one that is not EXEC. -/
theorem Waits.step (hs : Waits s f) (hk : Known s) (h : Moves s a s')
    (hsched : ∀ thread, a.scheduled ≠ some ⟨.fiber f, thread⟩) :
    s'.fibers f = s.fibers f ∧ (Waits s' f ∨
      ∃ w, a = .work w ∧ s.stateOf f ≠ .exec ∧ Held s' w f ∧ s'.pcOf w = .picked (.fiber f)) := by
  have hq : f ∈ s.queued := List.count_pos_iff.1 (by rw [hs.once]; exact Nat.one_pos)
  have hmake : ¬ Makes s a f := fun hm => Nat.lt_irrefl _ (hm.1 ▸ hk.queued f hq)
  refine ⟨h.untouched (hk.queued f hq) fun w _ => hs.free w, ?_⟩
  by_cases hpick : ∃ w e, a = .work w ∧ s.pcOf w = .scan ∧
      s.mFibers.find? (s.eligible w) = some e ∧ e.task = .fiber f
  · obtain ⟨w, e, rfl, hp, he, ht⟩ := hpick
    obtain rfl := h.pick_eq hp he
    have hcount := count_eraseP he f
    change s.queued.count f = ((s.take w).setPc w (.picked e.task)).queued.count f + _ at hcount
    rw [hs.once, if_pos ht] at hcount
    have hnames {v : WorkerId} (hn : ((s.take w).setPc w (.picked e.task)).Names v f) : v = w := by
      by_contra hv
      simp only [Names, pcOf_setPc, cbOf_setPc, if_neg hv] at hn
      exact hs.free v hn
    refine .inr ⟨w, rfl, ?_,
      ⟨⟨.inl ?_, fun v => hnames, ?_, fun _ hcb => ?_⟩, fun site hpc => ?_⟩, ?_⟩
    · exact idle_of_found he (FiberAndThread.fiber_eq.2 ht)
    · rw [pcOf_setPc, if_pos rfl, ht]
      rfl
    · exact count_queued.1 (Nat.succ.inj hcount).symm
    · exact hs.free w (.inr (by simpa using hcb))
    · simp at hpc
    · rw [pcOf_setPc, if_pos rfl, ht]
  · refine .inl ⟨?_, fun v hn => ?_⟩
    · rcases h.queued_count f with hsame | ⟨⟨thread, ht⟩, -⟩ | ⟨w, site, -, hp, -⟩ |
        ⟨w, e, ha, hp, he, ht, -⟩
      · rw [hsame, hs.once]
      · exact absurd ht (hsched thread)
      · exact absurd (.inl (by rw [hp]; rfl)) (hs.free w)
      · exact absurd ⟨w, e, ha, hp, he, ht⟩ hpick
    · rcases h.names hn with hold | ⟨ha, hp, e, he, hf⟩ | hmakes
      · exact hs.free v hold
      · exact hpick ⟨v, e, ha, hp, he, FiberAndThread.fiber_eq.1 hf⟩
      · exact hmake hmakes

theorem Moves.own (h : Moves s a s') (hf : (s'.pcOf w).own? = some f) (hq : f ∉ s.queued) :
    (s.pcOf w).own? = some f := by
  have hpick {e : FiberAndThread} (he : s.mFibers.find? (s.eligible w) = some e)
      (hef : e.fiber? = some f) : (s.pcOf w).own? = some f :=
    absurd (queued_of_found he hef) hq
  by_cases hw : a.worker = some w
  · cases h with
    | start | requestStop | stop | skipRoot | callRoot | newFiber | schedule => cases hw
    | bodySchedule _ ht =>
      obtain ⟨rfl, -⟩ := schedule_eq_push ht
      exact hf
    | @pick w e hp he =>
      cases hw
      rw [pcOf_setPc, if_pos rfl, Pc.own_picked] at hf
      exact hpick he hf
    | choose hp =>
      cases hw
      simp only [pcOf_setPc, if_true] at hf
      rw [hp]
      exact hf
    | @resume w site g hp | @enter w site g hp | @leave w site g hp | @back w site g hp
      | @yieldToReady w site g hp | @yieldToHold w site g hp | @finish w site g hp
      | @throw w site g hp =>
      cases hw
      simp only [pcOf_setPc, if_true] at hf
      rw [hp]
      cases site <;> exact hf
    | _ =>
      cases hw
      simp [Pc.own?] at hf
  · rcases h.pcOf_other hw with hpc | hpc
    · rw [← hpc]
      exact hf
    · rw [hpc] at hf
      cases hf

theorem Held.exec_step (hs : Held s w f) (hk : Known s) (h : Moves s a s')
    (hpc : s'.pcOf w = .enter site f ∨ s'.pcOf w = .run site f) : s'.stateOf f = .exec := by
  by_cases hw : a.worker = some w
  · cases h with
    | start | requestStop | stop | skipRoot | callRoot | newFiber | schedule => cases hw
    | bodySchedule _ ht =>
      obtain ⟨rfl, -⟩ := schedule_eq_push ht
      exact hs.exec site hpc
    | @resume w site g hp =>
      cases hw
      have hg : g = f := by simp at hpc; exact hpc.2
      simp [hg]
    | @enter w site' g hp =>
      cases hw
      have hg : site' = site ∧ g = f := by simpa using hpc
      rw [stateOf_setPc]
      exact hs.exec site (.inl (by rw [hp, hg.1, hg.2]))
    | _ =>
      cases hw
      simp at hpc
  · have hcell : s'.fibers f = s.fibers f :=
      h.untouched (hk.named w f hs.names) fun v hv hn => hw (hs.only v hn ▸ hv)
    rw [stateOf, hcell]
    refine hs.exec site ?_
    rcases h.pcOf_other hw with hold | hold
    · rw [← hold]
      exact hpc
    · rw [hold] at hpc
      simp at hpc

/-- The end of a pass through the loop, for a fiber that has not finished. -/
theorem lets_go (h : Moves s (.work w) s') (hp : s.pcOf w = .after site f)
    (hown : (s.pcOf w).own? = some f → s.cbOf w ≠ some f) (hfin : (s.stateOf f).finished = false) :
    ¬ s'.Names w f ∧ (s.stateOf f ≠ .ready → s'.stateOf f = .hold) := by
  have hown : site = .own → s.cbOf w ≠ some f := by
    rintro rfl
    exact hown (by rw [hp]; rfl)
  cases h with
  | requeueOwn hp' hr | requeueCb hp' hr =>
    cases hp.symm.trans hp'
    refine ⟨?_, fun h => absurd hr h⟩
    simp_all [Names, Pc.fiber?]
  | holdOwn hp' | holdCb hp' =>
    cases hp.symm.trans hp'
    refine ⟨?_, fun _ => by simp⟩
    simp_all [Names, Pc.fiber?]
  | doneOwn hp' hdone | doneCb hp' hdone =>
    cases hp.symm.trans hp'
    rw [hfin] at hdone
    cases hdone
  | _ => simp_all

theorem InHand.not_makes (hs : InHand s w f) (hk : Known s) : ¬ Makes s a f :=
  fun hm => Nat.lt_irrefl _ (hm.1 ▸ hk.named w f hs.names)

theorem InHand.untouched (hs : InHand s w f) (hk : Known s) (h : Moves s a s')
    (hw : a.worker ≠ some w) : s'.fibers f = s.fibers f :=
  h.untouched (hk.named w f hs.names) fun v hv hn => hw (hs.only v hn ▸ hv)

theorem InHand.only_step (hs : InHand s w f) (hk : Known s) (h : Moves s a s')
    (hn : s'.Names v f) : v = w := by
  rcases h.names hn with hold | ⟨-, -, e, he, hf⟩ | hmakes
  · exact hs.only v hold
  · exact absurd (queued_of_found he hf) hs.out
  · exact absurd hmakes (hs.not_makes hk)

theorem InHand.own_step (hs : InHand s w f) (hk : Known s) (h : Moves s a s')
    (hown : (s'.pcOf w).own? = some f) : s'.cbOf w ≠ some f := by
  intro hcb
  rcases h.cbOf hcb with hold | ⟨hmakes, -⟩
  · exact hs.own (h.own hown hs.out) hold
  · exact hs.not_makes hk hmakes

/-- A fiber in hand gets an entry only where it has yielded READY. -/
theorem InHand.out_step (hs : InHand s w f) (h : Moves s a s')
    (hsched : ∀ thread, a.scheduled ≠ some ⟨.fiber f, thread⟩) : f ∉ s'.queued ∨
      ∃ site, a = .work w ∧ s.pcOf w = .after site f ∧ s.stateOf f = .ready ∧
        s'.fibers = s.fibers ∧ s'.queued.count f = 1 := by
  have hzero := count_queued.2 hs.out
  rcases h.queued_count f with hsame | ⟨⟨thread, ht⟩, -⟩ | ⟨v, site, rfl, hp, hr, hcell, hcount⟩ |
    ⟨v, e, -, -, -, -, hcount⟩
  · exact .inl (count_queued.1 (hsame.trans hzero))
  · exact absurd ht (hsched thread)
  · obtain rfl : v = w := hs.only v (.inl (by rw [hp]; rfl))
    exact .inr ⟨site, rfl, hp, hr, hcell, by rw [hcount, hzero]⟩
  · rw [hzero] at hcount
    cases hcount

/-- A fiber that is held stays with its worker, or yields READY and goes back into the queue, or
is let go of. -/
theorem Held.step (hs : Held s w f) (hk : Known s) (h : Moves s a s')
    (hsched : ∀ thread, a.scheduled ≠ some ⟨.fiber f, thread⟩) : Held s' w f ∨
      (Waits s' f ∧ s'.stateOf f = .ready ∧ ∃ site, s.pcOf w = .after site f) ∨ Absent s' f := by
  rcases hs.out_step h hsched with hout | ⟨site, rfl, hp, hr, hcell, hcount⟩
  · by_cases hn : s'.Names w f
    · exact .inl ⟨⟨hn, fun v => hs.only_step hk h, hout, hs.own_step hk h⟩,
        fun site => hs.exec_step hk h⟩
    · exact .inr (.inr ⟨hout, fun v hv => hn (hs.only_step hk h hv ▸ hv)⟩)
  · have hfree := (lets_go h hp hs.own (by rw [hr]; rfl)).1
    refine .inr (.inl ⟨⟨hcount, fun v hv => hfree (hs.only_step hk h hv ▸ hv)⟩, ?_, site, hp⟩)
    rw [stateOf, hcell]
    exact hr

/-- A worker that has work is moved by its own steps only. -/
theorem Moves.pcOf_same (h : Moves s a s') (hc : Counted s) (hroot : s.mRootThread = none)
    (hw : a.worker ≠ some w) (hpc : s.pcOf w ≠ .unborn) : s'.pcOf w = s.pcOf w := by
  cases ha : a.worker with
  | some v => exact (h.workerFrame ha).others w fun he => hw (he ▸ ha)
  | none =>
    cases h with
    | start hp => exact absurd (hc.fresh hp w) hpc
    | skipRoot hr | callRoot hr =>
      rw [hroot] at hr
      cases hr
    | schedule ht =>
      obtain ⟨rfl, -⟩ := schedule_eq_push ht
      rfl
    | requestStop | stop | newFiber => rfl
    | _ => cases ha

/-- The worker goes on to the end of the pass, where it writes HOLD. -/
theorem Leaving.step (hs : Leaving s w f) (hk : Known s) (hc : Counted s)
    (hroot : s.mRootThread = none) (h : Moves s a s')
    (hsched : ∀ thread, a.scheduled ≠ some ⟨.fiber f, thread⟩)
    (hbody : ∀ site b, s.pcOf w = .run site f → a = .body w b → b = .yieldToHold) :
    Leaving s' w f ∨ (Absent s' f ∧ s'.stateOf f = .hold) := by
  have hout : f ∉ s'.queued := by
    rcases hs.out_step h hsched with hout | ⟨site, -, -, hr, -⟩
    · exact hout
    · rw [hs.exec] at hr
      cases hr
  have hkeep {pc : Pc} (hpc : s'.pcOf w = pc) (hfiber : pc.fiber? = some f) : InHand s' w f :=
    ⟨.inl (hpc ▸ hfiber), fun v => hs.only_step hk h, hout, hs.own_step hk h⟩
  by_cases hw : a.worker = some w
  · obtain ⟨site, hp | hp | hp⟩ := hs.place
    · have ha : a = .body w .yieldToHold := by
        cases h with
        | yieldToHold => cases hw; rfl
        | bodySchedule | yieldToReady | finish | throw =>
          cases hw
          cases hbody site _ hp rfl
        | start | requestStop | stop | skipRoot | callRoot | newFiber | schedule => cases hw
        | _ hp' =>
          cases hw
          cases hp.symm.trans hp'
      subst ha
      cases h with
      | yieldToHold hp' =>
        cases hp.symm.trans hp'
        have hpc : (s.setPc w (.back site f)).pcOf w = .back site f := by simp
        exact .inl ⟨hkeep hpc rfl, ⟨site, .inr (.inl hpc)⟩, hs.exec⟩
    · cases h with
      | back hp' =>
        cases hw
        cases hp.symm.trans hp'
        have hpc : (s.decActive.setPc w (.after site f)).pcOf w = .after site f := by simp
        exact .inl ⟨hkeep hpc rfl, ⟨site, .inr (.inr hpc)⟩, hs.exec⟩
      | start | requestStop | stop | skipRoot | callRoot | newFiber | schedule => cases hw
      | _ hp' =>
        cases hw
        cases hp.symm.trans hp'
    · have ha : a = .work w := by
        cases h with
        | start | requestStop | stop | skipRoot | callRoot | newFiber | schedule => cases hw
        | bodySchedule hp' | yieldToReady hp' | yieldToHold hp' | finish hp' | throw hp' =>
          cases hw
          cases hp.symm.trans hp'
        | _ => cases hw; rfl
      subst ha
      obtain ⟨hfree, hhold⟩ := lets_go h hp hs.own (by rw [hs.exec]; rfl)
      refine .inr ⟨⟨hout, fun v hv => hfree (hs.only_step hk h hv ▸ hv)⟩, hhold ?_⟩
      rw [hs.exec]
      exact fun h => by cases h
  · have hpc : s'.pcOf w = s.pcOf w := by
      refine h.pcOf_same hc hroot hw ?_
      obtain ⟨site, hp | hp | hp⟩ := hs.place <;> rw [hp] <;> exact fun h => by cases h
    obtain ⟨site, hplace⟩ := hs.place
    rw [← hpc] at hplace
    have hin : InHand s' w f := by
      rcases hplace with hp | hp | hp <;> exact hkeep hp rfl
    refine .inl ⟨hin, ⟨site, hplace⟩, ?_⟩
    rw [stateOf, hs.untouched hk h hw]
    exact hs.exec

/-- The worker has picked the fiber and not entered its code yet. -/
def Arriving (s : Scheduler) (w : WorkerId) (f : FiberId) : Prop :=
  s.pcOf w = .picked (.fiber f) ∨ s.pcOf w = .resume .own f ∨ s.pcOf w = .enter .own f

theorem Arriving.step (hs : Arriving s w f) (hin : InHand s w f) (hc : Counted s)
    (hroot : s.mRootThread = none) (h : Moves s a s') (hn : s'.Names w f) :
    Arriving s' w f ∨ (a = .work w ∧ s.pcOf w = .enter .own f) := by
  have hown : (s.pcOf w).own? = some f := by
    rcases hs with hp | hp | hp <;> rw [hp] <;> rfl
  by_cases hw : a.worker = some w
  · cases h with
    | start | requestStop | stop | skipRoot | callRoot | newFiber | schedule => cases hw
    | choose hp =>
      cases hw
      rcases hs with hs | hs | hs <;> cases hp.symm.trans hs
      exact .inl (.inr (.inl (by simp)))
    | drop hp =>
      cases hw
      rcases hn with hn | hn
      · simp [Pc.fiber?] at hn
      · exact absurd (by simpa using hn) (hin.own hown)
    | resume hp =>
      cases hw
      rcases hs with hs | hs | hs <;> cases hp.symm.trans hs
      exact .inl (.inr (.inr (by simp)))
    | enter hp =>
      cases hw
      rcases hs with hs | hs | hs <;> cases hp.symm.trans hs
      exact .inr ⟨rfl, hp⟩
    | _ hp =>
      cases hw
      rcases hs with hs | hs | hs <;> cases hp.symm.trans hs
  · have hpc : s'.pcOf w = s.pcOf w :=
      h.pcOf_same hc hroot hw fun hp => by rw [hp] at hown; cases hown
    refine .inl ?_
    simp only [Arriving, hpc]
    exact hs

/-! ### Fibers that are shared with other schedulers -/

/-- The fibers are those of `x`. -/
def share (s x : Scheduler) : Scheduler := { s with fibers := x.fibers, nextFiber := x.nextFiber }

variable {x : Scheduler}

theorem Absent.share (hs : Absent s f) : Absent (s.share x) f := ⟨hs.out, hs.free⟩

theorem Waits.share (hs : Waits s f) : Waits (s.share x) f := ⟨hs.once, hs.free⟩

theorem InHand.share (hs : InHand s w f) : InHand (s.share x) w f :=
  ⟨hs.names, hs.only, hs.out, hs.own⟩

theorem Held.share (hs : Held s w f) (hx : x.fibers f = s.fibers f) : Held (s.share x) w f :=
  ⟨hs.toInHand.share, fun site hpc => (congrArg FiberCell.mState hx).trans (hs.exec site hpc)⟩

theorem Leaving.share (hs : Leaving s w f) (hx : x.fibers f = s.fibers f) :
    Leaving (s.share x) w f :=
  ⟨hs.toInHand.share, hs.place, (congrArg FiberCell.mState hx).trans hs.exec⟩

theorem Known.share (hs : Known s) (hx : s.nextFiber ≤ x.nextFiber) : Known (s.share x) :=
  ⟨fun f hf => Nat.lt_of_lt_of_le (hs.queued f hf) hx,
    fun w f hf => Nat.lt_of_lt_of_le (hs.named w f hf) hx⟩

theorem Counted.share (hs : Counted s) : Counted (s.share x) :=
  ⟨hs.active, hs.unborn, hs.fresh, hs.rootLast, hs.rootUnborn⟩

/-- An entry for a fiber that was nowhere. -/
theorem Absent.push (hs : Absent s f) (thread : Option WorkerId) :
    Waits (s.push ⟨.fiber f, thread⟩) f :=
  ⟨by rw [count_push, count_queued.2 hs.out], hs.free⟩

/-- The worker that makes a fiber has it. -/
theorem Absent.make (hs : Absent s f) (h : Moves s a s') (hm : Makes s a f) :
    ∃ w, Held s' w f := by
  obtain ⟨rfl, w, c, rfl, hp, hcb⟩ := hm
  cases h with
  | make =>
    refine ⟨w, ⟨.inr (by simp), fun v hv => ?_, hs.out, fun hown => ?_⟩, fun site hpc => ?_⟩
    · by_contra hne
      simp only [Names, pcOf_adoptCb, cbOf_adoptCb, if_neg hne] at hv
      exact hs.free v hv
    · simp [Pc.own?] at hown
    · simp at hpc
  | _ => simp_all

end Scheduler
end SvrFrame
