import SvrFrame.Scheduler.Passage

namespace SvrFrame
open Library Scheduler
set_option autoImplicit true

abbrev SchedId := Nat

/-- How far one fiber has come: nobody has scheduled it, or it is in its own code, or it is in
`Scheduler::switchTo`, between its `schedule` and the return of its `YieldToHold`. -/
inductive Stage where
  | fresh
  | code
  | switching
  deriving DecidableEq, Repr

/-- Several schedulers, which share the fibers, and the scopes that one fiber has open. -/
structure Switching where
  fibers : FiberId → FiberCell
  nextFiber : FiberId
  scheds : SchedId → Scheduler
  stage : Stage
  /-- `m_caller` of the open `SchedulerSwitcher`s, the innermost first. -/
  callers : List SchedId
  /-- Where the code of the fiber has to run. -/
  current : SchedId
  /-- Where the open scopes were entered. -/
  entered : List SchedId

namespace Switching

def view (n : Switching) (i : SchedId) : Scheduler :=
  { n.scheds i with fibers := n.fibers, nextFiber := n.nextFiber }

def put (n : Switching) (i : SchedId) (s : Scheduler) : Switching :=
  { n with
    fibers := s.fibers
    nextFiber := s.nextFiber
    scheds := Function.update n.scheds i s }

/-- Schedulers built with `use_caller = false`. -/
def initial (threads : SchedId → Nat) : Switching where
  fibers := fun _ => ⟨.init, none, false⟩
  nextFiber := 0
  scheds := fun i => Scheduler.initial (threads i) false
  stage := .fresh
  callers := []
  current := 0
  entered := []

/-- `enter` and `leave` are the constructor and the destructor of a `SchedulerSwitcher`, up to the
`YieldToHold` of `switchTo`, in the fiber whose code runs on the worker. -/
inductive Act where
  | sched (i : SchedId) (a : Scheduler.Act)
  | enter (i : SchedId) (w : WorkerId) (target : Option SchedId)
  | leave (i : SchedId) (w : WorkerId)
  deriving DecidableEq, Repr

/-- The fiber is scheduled for the first time, or made for a callback, or its code goes on. -/
def note (f : FiberId) (n : Switching) (i : SchedId) : Scheduler.Act → Stage × SchedId
  | .schedule (.fiber g) _ | .body _ (.schedule (.fiber g) _) =>
    if g = f then (.code, i) else (n.stage, n.current)
  | .work w =>
    match (n.view i).pcOf w with
    | .picked (.cb _) =>
      if (n.view i).cbOf w = none ∧ n.nextFiber = f then (.code, i) else (n.stage, n.current)
    | .enter _ g => (if g = f then .code else n.stage, n.current)
    | _ => (n.stage, n.current)
  | _ => (n.stage, n.current)

/-- The fiber runs code of its own on the worker. -/
def inCode (f : FiberId) (n : Switching) (i : SchedId) (w : WorkerId) : Bool :=
  match (n.view i).pcOf w with
  | .run _ g => decide (g = f ∧ n.stage = .code ∧ (n.fibers f).mCallback ≠ none)
  | _ => false

/-- `Scheduler::switchTo` of scheduler `j`, called on a worker of `i`. -/
def switchTo (f : FiberId) (n : Switching) (i j : SchedId) : Option Switching :=
  if i = j then some n
  else ((n.view j).schedule (.fiber f) none).map fun s => { n.put j s with stage := .switching }

def advance (n : Switching) (i : SchedId) (s : Scheduler) (p : Stage × SchedId) : Switching :=
  { n.put i s with stage := p.1, current := p.2 }

def step (f : FiberId) (n : Switching) : Act → Option Switching
  | .sched i a => ((n.view i).step a).map fun s => n.advance i s (note f n i a)
  | .enter i w target =>
    if inCode f n i w then
      let m := { n with
        callers := i :: n.callers
        current := target.getD n.current
        entered := n.current :: n.entered }
      match target with
      | some j => switchTo f m i j
      | none => some m
    else none
  | .leave i w =>
    if inCode f n i w then
      match n.callers with
      | j :: callers =>
        switchTo f { n with
          callers := callers
          current := n.entered.headD n.current
          entered := n.entered.tail } i j
      | [] => none
    else none

/-- What the body of the fiber does, besides opening and closing scopes. -/
def mayDo (f : FiberId) (n : Switching) : Pc → BodyAct → Bool
  | .run _ g, .yieldToHold => decide (g = f → n.stage = .switching)
  | .run _ g, .finish | .run _ g, .throw => decide (g = f → n.stage = .code ∧ n.entered = [])
  | .run _ g, _ => decide (g = f → n.stage = .code)
  | _, _ => true

def bodyMay (f : FiberId) (n : Switching) (i : SchedId) : Scheduler.Act → Bool
  | .body w b => mayDo f n ((n.view i).pcOf w) b
  | _ => true

/-- The fiber is scheduled once, and then by its scopes only. -/
def ByScopes (f : FiberId) (n : Switching) : Act → Prop
  | .sched i a => (∀ e ∈ a.scheduled, e.task = .fiber f → n.stage = .fresh) ∧ bodyMay f n i a = true
  | _ => True

instance : ∀ (f : FiberId) (n : Switching) (a : Act), Decidable (ByScopes f n a)
  | f, n, .sched i a => inferInstanceAs (Decidable
      ((∀ e ∈ a.scheduled, e.task = .fiber f → n.stage = .fresh) ∧ bodyMay f n i a = true))
  | _, _, .enter _ _ _ | _, _, .leave _ _ => inferInstanceAs (Decidable True)

/-! ### Where the fiber is -/

inductive Place (f : FiberId) (n : Switching) : Prop where
  | fresh : n.stage = .fresh → (∀ i, Absent (n.view i) f) → Place f n
  | waits : n.stage ≠ .fresh → Waits (n.view n.current) f →
      (∀ i ≠ n.current, Absent (n.view i) f) →
      (n.stage = .switching → (n.fibers f).mState = .hold) → Place f n
  | held : n.stage ≠ .fresh → Held (n.view n.current) w f →
      (∀ i ≠ n.current, Absent (n.view i) f) →
      (n.stage = .switching → Arriving (n.view n.current) w f) → Place f n
  -- It has its entry already while the last worker still runs it.
  | moves : n.stage = .switching → i ≠ n.current → Leaving (n.view i) w f →
      Waits (n.view n.current) f → (∀ j, j ≠ i → j ≠ n.current → Absent (n.view j) f) → Place f n
  | gone : n.stage ≠ .fresh → (∀ i, Absent (n.view i) f) → Place f n

structure Inv (f : FiberId) (n : Switching) : Prop where
  known : ∀ i, Known (n.view i)
  counted : ∀ i, Counted (n.view i)
  root : ∀ i, (n.view i).mRootThread = none
  place : Place f n
  callers : n.callers = n.entered

variable {n : Switching} {s' : Scheduler}

theorem initial_inv (f : FiberId) (threads : SchedId → Nat) : Inv f (initial threads) where
  known i := initial_known (threads i) false
  counted i := initial_counted (threads i) false
  root _ := rfl
  place := .fresh rfl fun i =>
    ⟨List.not_mem_nil, fun w => not_names_initial (threads i) false w f⟩
  callers := rfl

theorem view_put (n : Switching) (i : SchedId) (s : Scheduler) : (n.put i s).view i = s := by
  simp only [view, put, Function.update_self]

theorem view_put_other (h : j ≠ i) (n : Switching) (s : Scheduler) :
    (n.put i s).view j = (n.view j).share s := by
  simp only [view, put, share, Function.update_of_ne h]

theorem view_advance (n : Switching) (i : SchedId) (s : Scheduler) (p : Stage × SchedId) :
    (n.advance i s p).view i = s := view_put n i s

theorem view_advance_other (h : j ≠ i) (n : Switching) (s : Scheduler) (p : Stage × SchedId) :
    (n.advance i s p).view j = (n.view j).share s := view_put_other h n s

/-- What holds of the scheduler after its step holds of its view. -/
theorem view_here {P : Scheduler → Prop} (h : P s) : P ((n.advance i s p).view i) := by
  rw [view_advance]
  exact h

theorem view_elsewhere {P : Scheduler → Prop} (hj : j ≠ i) (h : P ((n.view j).share s)) :
    P ((n.advance i s p).view j) := by
  rw [view_advance_other hj]
  exact h

theorem note_body (f : FiberId) (n : Switching) (i : SchedId) (w : WorkerId) (t : Task)
    (thread : Option WorkerId) :
    note f n i (.body w (.schedule t thread)) = note f n i (.schedule t thread) := by
  cases t <;> rfl

theorem note_schedule (f : FiberId) (n : Switching) (i : SchedId) (t : Task)
    (thread : Option WorkerId) :
    (t = .fiber f ∧ note f n i (.schedule t thread) = (.code, i)) ∨
      (t ≠ .fiber f ∧ note f n i (.schedule t thread) = (n.stage, n.current)) := by
  cases t with
  | fiber g =>
    by_cases hg : g = f
    · exact .inl ⟨congrArg Task.fiber hg, if_pos hg⟩
    · exact .inr ⟨by simpa using hg, if_neg hg⟩
  | cb c => exact .inr ⟨(by cases ·), rfl⟩

/-- What a step of a scheduler means for the fiber. -/
theorem note_cases (f : FiberId) (n : Switching) (i : SchedId) (a : Scheduler.Act) :
    (((∃ thread, a.scheduled = some ⟨.fiber f, thread⟩) ∨ Makes (n.view i) a f) ∧
      note f n i a = (.code, i)) ∨
    ((∃ w site, a = .work w ∧ (n.view i).pcOf w = .enter site f) ∧
      note f n i a = (.code, n.current)) ∨
    ((∀ thread, a.scheduled ≠ some ⟨.fiber f, thread⟩) ∧ ¬ Makes (n.view i) a f ∧
      (∀ w site, a = .work w → (n.view i).pcOf w ≠ .enter site f) ∧
      note f n i a = (n.stage, n.current)) := by
  have hidle (hsched : ∀ thread, a.scheduled ≠ some ⟨.fiber f, thread⟩) (hwork : ∀ w, a ≠ .work w)
      (hnote : note f n i a = (n.stage, n.current)) :
      (∀ thread, a.scheduled ≠ some ⟨.fiber f, thread⟩) ∧ ¬ Makes (n.view i) a f ∧
        (∀ w site, a = .work w → (n.view i).pcOf w ≠ .enter site f) ∧
        note f n i a = (n.stage, n.current) :=
    ⟨hsched, fun ⟨_, w, _, ha, _⟩ => hwork w ha, fun w _ ha => absurd ha (hwork w), hnote⟩
  cases a with
  | schedule t thread =>
    rcases note_schedule f n i t thread with ⟨rfl, hnote⟩ | ⟨ht, hnote⟩
    · exact .inl ⟨.inl ⟨thread, rfl⟩, hnote⟩
    · exact .inr (.inr (hidle (fun _ h => ht (by cases h; rfl)) (fun _ h => by cases h) hnote))
  | body w b =>
    cases b with
    | schedule t thread =>
      have hbody := note_body f n i w t thread
      rcases note_schedule f n i t thread with ⟨rfl, hnote⟩ | ⟨ht, hnote⟩
      · exact .inl ⟨.inl ⟨thread, rfl⟩, hbody.trans hnote⟩
      · have hnote := hbody.trans hnote
        exact .inr (.inr (hidle (fun _ h => ht (by cases h; rfl)) (fun _ h => by cases h) hnote))
    | _ => exact .inr (.inr (hidle (fun _ h => by cases h) (fun _ h => by cases h) rfl))
  | work w =>
    have hsched : ∀ thread, (Scheduler.Act.work w).scheduled ≠ some ⟨.fiber f, thread⟩ :=
      fun _ h => by cases h
    by_cases hm : Makes (n.view i) (.work w) f
    · obtain ⟨hf, w', c, ha, hp, hcb⟩ := id hm
      cases ha
      refine .inl ⟨.inr hm, ?_⟩
      simp only [note, hp, hcb, true_and]
      exact if_pos hf.symm
    · by_cases he : ∃ site, (n.view i).pcOf w = .enter site f
      · obtain ⟨site, hp⟩ := he
        refine .inr (.inl ⟨⟨w, site, rfl, hp⟩, ?_⟩)
        simp only [note, hp, if_true]
      · refine .inr (.inr ⟨hsched, hm, fun w' site ha hp => he (by cases ha; exact ⟨site, hp⟩), ?_⟩)
        simp only [note]
        split
        · rename_i c hp
          exact if_neg fun h => hm ⟨h.2.symm, w, c, rfl, hp, h.1⟩
        · rename_i site g hp
          rw [if_neg fun h : g = f => he ⟨site, h ▸ hp⟩]
        · rfl
  | _ => exact .inr (.inr (hidle (fun _ h => by cases h) (fun _ h => by cases h) rfl))

theorem absent_view (hi : j = i → Absent s' f) (hother : j ≠ i → Absent (n.view j) f) :
    Absent ((n.advance i s' p).view j) f := by
  by_cases hj : j = i
  · rw [hj, view_advance]
    exact hi hj
  · rw [view_advance_other hj]
    exact (hother hj).share

theorem absent_sched (habs : ∀ j, Absent (n.view j) f) (h : Moves (n.view i) a s') :
    Place f (n.advance i s' (note f n i a)) := by
  rcases note_cases f n i a with ⟨hin, hnote⟩ | ⟨⟨w, site, rfl, hp⟩, hnote⟩ |
    ⟨hsched, hmake, -, hnote⟩
  · rw [hnote]
    have hothers : ∀ j ≠ i, Absent ((n.advance i s' (.code, i)).view j) f := fun j hj =>
      absent_view (fun h => absurd h hj) fun _ => habs j
    rcases hin with ⟨thread, hsched⟩ | hmake
    · refine .waits (fun h => by cases h) ?_ hothers fun h => by cases h
      refine view_here (P := (Waits · f)) ?_
      rw [h.scheduled_eq hsched]
      exact (habs i).push thread
    · obtain ⟨w, hheld⟩ := (habs i).make h hmake
      refine .held (w := w) (fun h => by cases h) ?_ hothers fun h => by cases h
      exact view_here (P := (Held · w f)) hheld
  · exact absurd (.inl (by rw [hp]; rfl)) ((habs i).free w)
  · rw [hnote]
    have habs' (j : SchedId) : Absent ((n.advance i s' (n.stage, n.current)).view j) f :=
      absent_view (fun _ => (habs i).step h hsched hmake) fun _ => habs j
    by_cases hstage : n.stage = .fresh
    · exact .fresh hstage habs'
    · exact .gone hstage habs'

/-- The fiber of a step that neither schedules nor makes it nor enters it. -/
theorem note_same (hlt : f < n.nextFiber)
    (hsched : ∀ thread, a.scheduled ≠ some ⟨.fiber f, thread⟩)
    (henter : ∀ w site, a = .work w → (n.view i).pcOf w ≠ .enter site f) :
    ¬ Makes (n.view i) a f ∧ note f n i a = (n.stage, n.current) := by
  have hmake : ¬ Makes (n.view i) a f := fun hm => Nat.lt_irrefl _ (hm.1 ▸ hlt)
  rcases note_cases f n i a with ⟨⟨thread, hs⟩ | hm, -⟩ | ⟨⟨w, site, ha, hp⟩, -⟩ | ⟨-, -, -, hnote⟩
  · exact absurd hs (hsched thread)
  · exact absurd hm hmake
  · exact absurd hp (henter w site ha)
  · exact ⟨hmake, hnote⟩

/-- A scheduler that does not have the fiber does nothing to it. -/
theorem absent_step (hlt : f < n.nextFiber) (habs : Absent (n.view i) f)
    (hsched : ∀ thread, a.scheduled ≠ some ⟨.fiber f, thread⟩) (h : Moves (n.view i) a s') :
    Absent s' f ∧ s'.fibers f = n.fibers f ∧ note f n i a = (n.stage, n.current) := by
  obtain ⟨hmake, hnote⟩ := note_same (i := i) hlt hsched fun w site _ hp =>
    habs.free w (.inl (by rw [hp]; rfl))
  exact ⟨habs.step h hsched hmake, h.untouched hlt fun w _ => habs.free w, hnote⟩

theorem Waits.lt {s : Scheduler} (hs : Waits s f) (hk : Known s) : f < s.nextFiber :=
  hk.queued f (List.count_pos_iff.1 (by rw [hs.once]; exact Nat.one_pos))

theorem waits_sched (hk : Known (n.view n.current)) (hstage : n.stage ≠ .fresh)
    (hw : Waits (n.view n.current) f) (hothers : ∀ j ≠ n.current, Absent (n.view j) f)
    (hhold : n.stage = .switching → (n.fibers f).mState = .hold)
    (hsched : ∀ thread, a.scheduled ≠ some ⟨.fiber f, thread⟩) (h : Moves (n.view i) a s') :
    Place f (n.advance i s' (note f n i a)) := by
  have hlt : f < n.nextFiber := Waits.lt hw hk
  by_cases hi : i = n.current
  · subst hi
    obtain ⟨-, hnote⟩ := note_same (i := n.current) hlt hsched fun w site _ hp =>
      hw.free w (.inl (by rw [hp]; rfl))
    rw [hnote]
    have hothers' : ∀ j ≠ n.current,
        Absent ((n.advance n.current s' (n.stage, n.current)).view j) f := fun j hj =>
      absent_view (fun h => absurd h hj) fun _ => hothers j hj
    obtain ⟨hcell, hwait | ⟨w, -, -, hheld, hp⟩⟩ := hw.step hk h hsched
    · refine .waits hstage ?_ hothers' fun hsw => ?_
      · exact view_here (P := (Waits · f)) hwait
      · exact (congrArg FiberCell.mState hcell).trans (hhold hsw)
    · refine .held (w := w) hstage ?_ hothers' fun _ => ?_
      · exact view_here (P := (Held · w f)) hheld
      · exact view_here (P := (Arriving · w f)) (.inl hp)
  · obtain ⟨habs, hcell, hnote⟩ := absent_step hlt (hothers i hi) hsched h
    rw [hnote]
    refine .waits hstage ?_ (fun j hj => absent_view (fun _ => habs) fun _ => hothers j hj) ?_
    · exact view_elsewhere (P := (Waits · f)) (Ne.symm hi) hw.share
    · exact fun hsw => (congrArg FiberCell.mState hcell).trans (hhold hsw)

theorem held_sched (hk : Known (n.view n.current)) (hc : Counted (n.view n.current))
    (hroot : (n.view n.current).mRootThread = none) (hstage : n.stage ≠ .fresh)
    (hw : Held (n.view n.current) w f) (hothers : ∀ j ≠ n.current, Absent (n.view j) f)
    (harrive : n.stage = .switching → Arriving (n.view n.current) w f)
    (hsched : ∀ thread, a.scheduled ≠ some ⟨.fiber f, thread⟩) (h : Moves (n.view i) a s') :
    Place f (n.advance i s' (note f n i a)) := by
  have hlt : f < n.nextFiber := hk.named w f hw.names
  by_cases hi : i = n.current
  · subst hi
    -- If the step enters the code of the fiber, `switchTo` has returned.
    have hnote : ∃ st, note f n n.current a = (st, n.current) ∧ st ≠ .fresh ∧
        (st = .switching → n.stage = .switching ∧
          ∀ w site, a = .work w → (n.view n.current).pcOf w ≠ .enter site f) := by
      rcases note_cases f n n.current a with ⟨⟨thread, ht⟩ | hm, -⟩ | ⟨-, hnote⟩ |
        ⟨-, -, henter, hnote⟩
      · exact absurd ht (hsched thread)
      · exact absurd hm (hw.not_makes hk)
      · exact ⟨.code, hnote, (fun h => by cases h), fun h => by cases h⟩
      · exact ⟨n.stage, hnote, hstage, fun h => ⟨h, henter⟩⟩
    obtain ⟨st, hnote, hst, henter⟩ := hnote
    rw [hnote]
    have hothers' : ∀ j ≠ n.current, Absent ((n.advance n.current s' (st, n.current)).view j) f :=
      fun j hj => absent_view (fun h => absurd h hj) fun _ => hothers j hj
    rcases hw.step hk h hsched with hheld | ⟨hwait, hready, site, hp⟩ | habs
    · refine .held (w := w) hst ?_ hothers' fun hsw => ?_
      · exact view_here (P := (Held · w f)) hheld
      · refine view_here (P := (Arriving · w f)) ?_
        obtain ⟨hswitch, henter⟩ := henter hsw
        rcases (harrive hswitch).step hw.toInHand hc hroot h hheld.names with harr | ⟨ha, hp⟩
        · exact harr
        · exact absurd hp (henter w .own ha)
    · refine .waits hst ?_ hothers' fun hsw => ?_
      · exact view_here (P := (Waits · f)) hwait
      · rcases harrive (henter hsw).1 with harr | harr | harr <;> cases hp.symm.trans harr
    · exact .gone hst fun j => absent_view (fun _ => habs) fun hj => hothers j hj
  · obtain ⟨habs, hcell, hnote⟩ := absent_step hlt (hothers i hi) hsched h
    rw [hnote]
    refine .held (w := w) hstage ?_ (fun j hj => absent_view (fun _ => habs) fun _ => hothers j hj)
      fun hsw => ?_
    · exact view_elsewhere (P := (Held · w f)) (Ne.symm hi) (hw.share hcell)
    · exact view_elsewhere (P := (Arriving · w f)) (Ne.symm hi) (harrive hsw)

theorem moves_sched (hs : Inv f n) (hstage : n.stage = .switching) (hne : k ≠ n.current)
    (hw : Leaving (n.view k) w f) (hwait : Waits (n.view n.current) f)
    (hothers : ∀ j, j ≠ k → j ≠ n.current → Absent (n.view j) f)
    (hsched : ∀ thread, a.scheduled ≠ some ⟨.fiber f, thread⟩)
    (hbody : bodyMay f n i a = true) (h : Moves (n.view i) a s') :
    Place f (n.advance i s' (note f n i a)) := by
  have hlt : f < n.nextFiber := (hs.known k).named w f hw.names
  have hnote : note f n i a = (n.stage, n.current) := by
    refine (note_same hlt hsched fun v site _ hp => ?_).2
    have hn : (n.view i).Names v f := .inl (by rw [hp]; rfl)
    by_cases hik : i = k
    · subst hik
      obtain rfl := hw.only v hn
      obtain ⟨site, hpc | hpc | hpc⟩ := hw.place <;> cases hp.symm.trans hpc
    · by_cases hic : i = n.current
      · subst hic
        exact hwait.free v hn
      · exact (hothers i hik hic).free v hn
  rw [hnote]
  by_cases hik : i = k
  · subst hik
    have hwait' : Waits ((n.advance i s' (n.stage, n.current)).view n.current) f :=
      view_elsewhere (P := (Waits · f)) hne.symm hwait.share
    have hcur : ∀ site b, (n.view i).pcOf w = .run site f → a = .body w b → b = .yieldToHold := by
      rintro site b hp rfl
      simp only [bodyMay, hp] at hbody
      cases b <;> simp_all [mayDo]
    rcases hw.step (hs.known i) (hs.counted i) (hs.root i) h hsched hcur with hw' | ⟨habs, hhold⟩
    · refine .moves (i := i) (w := w) hstage hne ?_ hwait' fun j hji hjc => ?_
      · exact view_here (P := (Leaving · w f)) hw'
      · exact absent_view (fun h => absurd h hji) fun _ => hothers j hji hjc
    · refine .waits (by change n.stage ≠ _; rw [hstage]; exact fun h => by cases h) hwait'
        (fun j hj => ?_) fun _ => hhold
      exact absent_view (fun _ => habs) fun hji => hothers j hji hj
  · -- The fiber is still EXEC, so the scheduler it has been scheduled on steps over it.
    have hrest : s'.fibers f = n.fibers f ∧ (i = n.current → Waits s' f) ∧
        (i ≠ n.current → Absent s' f) := by
      by_cases hic : i = n.current
      · subst hic
        obtain ⟨hcell, hwait' | ⟨v, -, hexec, -⟩⟩ := hwait.step (hs.known _) h hsched
        · exact ⟨hcell, fun _ => hwait', fun h => absurd rfl h⟩
        · exact absurd hw.exec hexec
      · obtain ⟨habs, hcell, -⟩ := absent_step hlt (hothers i hik hic) hsched h
        exact ⟨hcell, fun h => absurd h hic, fun _ => habs⟩
    obtain ⟨hcell, hcur, hother⟩ := hrest
    refine .moves (i := k) (w := w) hstage hne ?_ ?_ fun j hjk hjc => ?_
    · exact view_elsewhere (P := (Leaving · w f)) (Ne.symm hik) (hw.share hcell)
    · by_cases hic : n.current = i
      · change Waits ((n.advance i s' _).view n.current) f
        rw [hic]
        exact view_here (P := (Waits · f)) (hcur hic.symm)
      · exact view_elsewhere (P := (Waits · f)) hic hwait.share
    · exact absent_view (fun hji => hother (hji ▸ hjc)) fun _ => hothers j hjk hjc

theorem Inv.place_sched (hs : Inv f n) (hg : ByScopes f n (.sched i a))
    (h : Moves (n.view i) a s') : Place f (n.advance i s' (note f n i a)) := by
  have hsched (hstage : n.stage ≠ .fresh) (thread : Option WorkerId) :
      a.scheduled ≠ some ⟨.fiber f, thread⟩ := fun h => hstage (hg.1 _ h rfl)
  cases hs.place with
  | fresh _ habs => exact absent_sched habs h
  | waits hstage hw hothers hhold =>
    exact waits_sched (hs.known _) hstage hw hothers hhold (hsched hstage) h
  | held hstage hw hothers harrive =>
    exact held_sched (hs.known _) (hs.counted _) (hs.root _) hstage hw hothers harrive
      (hsched hstage) h
  | moves hstage hne hw hwait hothers =>
    exact moves_sched hs hstage hne hw hwait hothers
      (hsched (by rw [hstage]; exact fun h => by cases h)) hg.2 h
  | gone _ habs => exact absent_sched habs h

/-- Whatever one scheduler does, the schedulers stay what they are. -/
theorem Inv.views (hs : Inv f n) (h : Moves (n.view i) a s') (j : SchedId) :
    Known ((n.put i s').view j) ∧ Counted ((n.put i s').view j) ∧
      ((n.put i s').view j).mRootThread = none := by
  by_cases hj : j = i
  · subst hj
    rw [view_put]
    exact ⟨(hs.known j).step h, (hs.counted j).step h, h.threads.2.trans (hs.root j)⟩
  · rw [view_put_other hj]
    exact ⟨(hs.known j).share h.nextFiber_le, (hs.counted j).share, hs.root j⟩

theorem Inv.inCode (hs : Inv f n) (h : inCode f n i w = true) : i = n.current ∧
    n.stage = .code ∧ (∃ site, (n.view i).pcOf w = .run site f) ∧ Held (n.view i) w f ∧
      ∀ j ≠ i, Absent (n.view j) f := by
  simp only [Switching.inCode] at h
  split at h
  · rename_i site g hp
    obtain ⟨rfl, hstage, -⟩ := of_decide_eq_true h
    have hn : (n.view i).Names w g := .inl (by rw [hp]; rfl)
    cases hs.place with
    | fresh _ habs | gone _ habs => exact absurd hn ((habs i).free w)
    | waits _ hw hothers =>
      by_cases hi : i = n.current
      · subst hi
        exact absurd hn (hw.free w)
      · exact absurd hn ((hothers i hi).free w)
    | held _ hw hothers =>
      by_cases hi : i = n.current
      · subst hi
        obtain rfl := hw.only w hn
        exact ⟨rfl, hstage, ⟨site, hp⟩, hw, hothers⟩
      · exact absurd hn ((hothers i hi).free w)
    | moves hswitch =>
      rw [hstage] at hswitch
      cases hswitch
  · cases h

/-- `switchTo` leaves the fiber where it is, or gives it to the other scheduler. -/
theorem Inv.switchTo (hs : Inv f n) (hin : Switching.inCode f n i w = true)
    (callers : List SchedId)
    (h : Switching.switchTo f { n with callers := callers, current := j, entered := callers } i j =
      some n') : Inv f n' := by
  obtain ⟨rfl, hstage, ⟨site, hp⟩, hw, hothers⟩ := hs.inCode hin
  simp only [Switching.switchTo] at h
  split at h
  · rename_i hij
    cases h
    refine ⟨hs.known, hs.counted, hs.root, ?_, rfl⟩
    refine .held (w := w) (by rw [hstage]; exact fun h => by cases h) (hij ▸ hw) ?_ fun hsw => ?_
    · exact fun k hk => hothers k (hij ▸ hk)
    · cases hstage.symm.trans hsw
  · rename_i hij
    obtain ⟨s', hs', rfl⟩ := Option.map_eq_some_iff.1 h
    have hmoves : Moves (n.view j) (.schedule (.fiber f) none) s' := .schedule hs'
    have hviews := hs.views hmoves
    refine ⟨fun k => (hviews k).1, fun k => (hviews k).2.1, fun k => (hviews k).2.2, ?_, rfl⟩
    have hpush := hmoves.scheduled_eq rfl
    have hcell : s'.fibers f = n.fibers f := congrArg (Scheduler.fibers · f) hpush
    refine .moves (i := n.current) (w := w) rfl hij ?_ ?_ fun k hk hkj => ?_
    · change Leaving ((n.put j s').view n.current) w f
      rw [view_put_other hij]
      exact (Leaving.mk hw.toInHand ⟨site, .inl hp⟩ (hw.exec site (.inr hp))).share hcell
    · change Waits ((n.put j s').view j) f
      rw [view_put, hpush]
      exact (hothers j (Ne.symm hij)).push none
    · have hkj : k ≠ j := hkj
      change Absent ((n.put j s').view k) f
      rw [view_put_other hkj]
      exact (hothers k hk).share

theorem Inv.step (hs : Inv f n) (hg : ByScopes f n a) (h : step f n a = some n') : Inv f n' := by
  cases a with
  | sched i a =>
    obtain ⟨s', hs', rfl⟩ := Option.map_eq_some_iff.1 h
    have hmoves := step_moves hs'
    have hviews := hs.views hmoves
    exact ⟨fun j => (hviews j).1, fun j => (hviews j).2.1, fun j => (hviews j).2.2,
      hs.place_sched hg hmoves, hs.callers⟩
  | enter i w target =>
    simp only [Switching.step] at h
    split at h
    · rename_i hin
      obtain ⟨rfl, hstage, -, hw, hothers⟩ := hs.inCode hin
      have hcallers : n.current :: n.entered = n.current :: n.callers := by rw [hs.callers]
      rw [hcallers] at h
      cases target with
      | some j => exact hs.switchTo hin _ h
      | none =>
        cases h
        refine ⟨hs.known, hs.counted, hs.root, ?_, rfl⟩
        refine .held (w := w) (by rw [hstage]; exact fun h => by cases h) hw hothers fun hsw => ?_
        cases hstage.symm.trans hsw
    · cases h
  | leave i w =>
    simp only [Switching.step] at h
    split at h
    · rename_i hin
      split at h
      · rename_i j callers hc
        have hentered : n.entered = j :: callers := hs.callers.symm.trans hc
        rw [hentered] at h
        exact hs.switchTo hin callers h
      · cases h
    · cases h

theorem reach_inv (h : Reach (step f) (ByScopes f) (initial threads) n) : Inv f n :=
  h.invariant (initial_inv f threads) fun hs hg ht => hs.step hg ht

theorem Inv.runs_at (hs : Inv f n) (hp : (n.view i).pcOf w = .run site f)
    (hstage : n.stage = .code) : i = n.current := by
  have hn : (n.view i).Names w f := .inl (by rw [hp]; rfl)
  by_contra hi
  cases hs.place with
  | fresh _ habs | gone _ habs => exact (habs i).free w hn
  | waits _ _ hothers | held _ _ hothers => exact (hothers i hi).free w hn
  | moves hswitch =>
    rw [hstage] at hswitch
    cases hswitch

/-- When a worker picks the fiber, nobody has it any more. -/
theorem Inv.free_at_pick (hs : Inv f n) (he : (n.view i).mFibers.find? ((n.view i).eligible w) =
    some e) (ht : e.task = .fiber f) :
    (∀ j v, ¬ (n.view j).Names v f) ∧ (n.stage = .switching → (n.fibers f).mState = .hold) := by
  have hef : e.fiber? = some f := FiberAndThread.fiber_eq.2 ht
  have hq : f ∈ (n.view i).queued := queued_of_found he hef
  cases hs.place with
  | fresh _ habs | gone _ habs => exact absurd hq (habs i).out
  | waits _ hw hothers hhold =>
    refine ⟨fun j v hn => ?_, hhold⟩
    by_cases hj : j = n.current
    · subst hj
      exact hw.free v hn
    · exact (hothers j hj).free v hn
  | held _ hw hothers =>
    by_cases hi : i = n.current
    · subst hi
      exact absurd hq hw.out
    · exact absurd hq (hothers i hi).out
  | @moves k v _ _ hw _ hothers =>
    by_cases hik : i = k
    · subst hik
      exact absurd hq hw.out
    · by_cases hi : i = n.current
      · -- All schedulers see the same state of the fiber.
        have hidle : (n.view i).stateOf f ≠ .exec := idle_of_found he hef
        exact absurd hw.exec hidle
      · exact absurd hq (hothers i hik hi).out

/-- The code of a fiber runs where its scopes say, and no worker takes the fiber before the last
one has let go of it. -/
theorem scopes_are_stacked (h : Reach (step f) (ByScopes f) (initial threads) n) :
    (∀ i w site, (n.view i).pcOf w = .run site f → n.stage = .code → i = n.current) ∧
      ∀ i w n', step f n (.sched i (.work w)) = some n' → (n.view i).pcOf w = .scan →
        (n'.view i).pcOf w = .picked (.fiber f) → (∀ j v, ¬ (n.view j).Names v f) ∧
          (n.stage = .switching → (n.fibers f).mState = .hold) := by
  have hs := reach_inv h
  refine ⟨fun i w site => hs.runs_at, fun i w n' hstep hp hp' => ?_⟩
  obtain ⟨s', hs', rfl⟩ := Option.map_eq_some_iff.1 hstep
  rw [view_advance] at hp'
  rcases (step_moves hs').picked hp' with ⟨hold, -⟩ | ⟨-, -, e, he, ht⟩
  · rw [hp] at hold
    cases hold
  · exact hs.free_at_pick he ht

/-- There to the second scheduler and back again. -/
def thereAndBack : List Act :=
  [.sched 0 (.newFiber 0), .sched 0 (.schedule (.fiber 0) none), .sched 0 .start, .sched 1 .start,
    .sched 0 (.work 0), .sched 0 (.work 0), .sched 0 (.work 0), .sched 0 (.work 0),
    .enter 0 0 (some 1), .sched 0 (.body 0 .yieldToHold), .sched 0 (.work 0), .sched 0 (.work 0),
    .sched 1 (.work 0), .sched 1 (.work 0), .sched 1 (.work 0), .sched 1 (.work 0),
    .leave 1 0, .sched 1 (.body 0 .yieldToHold), .sched 1 (.work 0), .sched 1 (.work 0)]

theorem scopes_are_stacked_there_and_back :
    ∃ n, Reach (step 0) (ByScopes 0) (initial fun _ => 1) n ∧ n.stage = .switching ∧
      n.current = 0 ∧
      (∀ i w site, (n.view i).pcOf w = .run site 0 → n.stage = .code → i = n.current) ∧
      ∀ i w n', step 0 n (.sched i (.work w)) = some n' → (n.view i).pcOf w = .scan →
        (n'.view i).pcOf w = .picked (.fiber 0) → (∀ j v, ¬ (n.view j).Names v 0) ∧
          (n.stage = .switching → (n.fibers 0).mState = .hold) := by
  obtain ⟨n, hn, hp⟩ := Reach.of_exec_map (step 0) (ByScopes 0) (initial fun _ => 1) thereAndBack
    (fun n => decide (n.stage = .switching ∧ n.current = 0)) (by decide)
  obtain ⟨hstage, hcurrent⟩ := of_decide_eq_true hp
  exact ⟨n, hn, hstage, hcurrent, scopes_are_stacked hn⟩

end Switching
end SvrFrame
