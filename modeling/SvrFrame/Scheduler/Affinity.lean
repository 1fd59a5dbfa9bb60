import SvrFrame.Scheduler.Queue

namespace SvrFrame
open Library
set_option autoImplicit true

/-- A scheduler that remembers what thread its tasks were scheduled with. -/
structure Affinity where
  sched : Scheduler
  /-- The thread that the task of the fiber was scheduled with. -/
  pinned : FiberId → Option WorkerId
  /-- `ft.thread` of each worker. -/
  ftThread : WorkerId → Option WorkerId

namespace Affinity
open Scheduler

def initial (threads : Nat) (useCaller : Bool) : Affinity :=
  ⟨Scheduler.initial threads useCaller, fun _ => none, fun _ => none⟩

/-- A callback fiber takes over the thread of its callback. -/
def pinnedAt (l : Affinity) (w : WorkerId) : Pc → FiberId → Option WorkerId
  | .picked (.cb _) =>
    Function.update l.pinned ((l.sched.cbOf w).getD l.sched.nextFiber) (l.ftThread w)
  | .after .cb f =>
    if (l.sched.stateOf f).finished then Function.update l.pinned f none else l.pinned
  | _ => l.pinned

def pins (l : Affinity) : Act → FiberId → Option WorkerId
  | .newFiber _ => Function.update l.pinned l.sched.nextFiber none
  | .schedule (.fiber f) thread | .body _ (.schedule (.fiber f) thread) =>
    Function.update l.pinned f thread
  | .work w => l.pinnedAt w (l.sched.pcOf w)
  | _ => l.pinned

/-- `ft = *it`. -/
def copies (l : Affinity) : Act → WorkerId → Option WorkerId
  | .work w =>
    match l.sched.pcOf w, l.sched.mFibers.find? (l.sched.eligible w) with
    | .scan, some e => Function.update l.ftThread w e.thread
    | _, _ => l.ftThread
  | _ => l.ftThread

def after (l : Affinity) (a : Act) (s : Scheduler) : Affinity := ⟨s, l.pins a, l.copies a⟩

def step (l : Affinity) (a : Act) : Option Affinity := (l.sched.step a).map (l.after a)

/-- The fiber has no entry, and no other worker than `w` has a pointer to it. -/
def FreeBut (s : Scheduler) (w : Option WorkerId) (f : FiberId) : Prop :=
  f ∉ s.queued ∧ ∀ v < s.workerCount, some v ≠ w → ¬ s.Names v f

/-- A task with a thread is not scheduled again, and is new where it is scheduled. -/
def Fresh (l : Affinity) (f : FiberId) (thread : Option WorkerId) : Prop :=
  l.pinned f = none ∧ (thread ≠ none → FreeBut l.sched none f)

def ScheduledOnce (l : Affinity) : Act → Prop
  | .schedule (.fiber f) thread | .body _ (.schedule (.fiber f) thread) => l.Fresh f thread
  | _ => True

/-- A fiber that goes back into the queue has no thread, and a callback that has one is given to
no fiber that is in use elsewhere. -/
def KeepsThreadAt (l : Affinity) (w : WorkerId) : Pc → Prop
  | .after _ f => l.sched.stateOf f = .ready → l.pinned f = none
  | .picked (.cb _) => l.ftThread w ≠ none → ∀ f ∈ l.sched.cbOf w, FreeBut l.sched (some w) f
  | _ => True

def KeepsThread (l : Affinity) : Act → Prop
  | .work w => l.KeepsThreadAt w (l.sched.pcOf w)
  | _ => True

def AffinityGuard (l : Affinity) (a : Act) : Prop :=
  ScheduledOnce l a ∧ (l.sched.workerCount ≤ 1 ∨ KeepsThread l a)

instance (s : Scheduler) (w : Option WorkerId) (f : FiberId) : Decidable (FreeBut s w f) :=
  inferInstanceAs (Decidable (_ ∧ _))

instance (l : Affinity) (f : FiberId) (thread : Option WorkerId) : Decidable (l.Fresh f thread) :=
  inferInstanceAs (Decidable (_ ∧ _))

instance : ∀ (l : Affinity) (a : Act), Decidable (ScheduledOnce l a)
  | l, .schedule (.fiber f) thread | l, .body _ (.schedule (.fiber f) thread) =>
    inferInstanceAs (Decidable (l.Fresh f thread))
  | _, .schedule (.cb _) _ | _, .body _ (.schedule (.cb _) _) | _, .body _ .yieldToReady
  | _, .body _ .yieldToHold | _, .body _ .finish | _, .body _ .throw | _, .start
  | _, .requestStop | _, .stop | _, .callRoot | _, .newFiber _ | _, .work _ =>
    inferInstanceAs (Decidable True)

instance : ∀ (l : Affinity) (w : WorkerId) (pc : Pc), Decidable (l.KeepsThreadAt w pc)
  | l, _, .after _ f =>
    inferInstanceAs (Decidable (l.sched.stateOf f = .ready → l.pinned f = none))
  | l, w, .picked (.cb _) => inferInstanceAs (Decidable
      (l.ftThread w ≠ none → ∀ f ∈ l.sched.cbOf w, FreeBut l.sched (some w) f))
  | _, _, .picked (.fiber _) | _, _, .unborn | _, _, .scan | _, _, .resume _ _ | _, _, .enter _ _
  | _, _, .run _ _ | _, _, .leave _ _ | _, _, .back _ _ | _, _, .dropped | _, _, .missed
  | _, _, .idleEnter | _, _, .idleRun | _, _, .idleLeave | _, _, .idleBack | _, _, .idleAfter
  | _, _, .left => inferInstanceAs (Decidable True)

instance : ∀ (l : Affinity) (a : Act), Decidable (KeepsThread l a)
  | l, .work w => inferInstanceAs (Decidable (l.KeepsThreadAt w (l.sched.pcOf w)))
  | _, .start | _, .requestStop | _, .stop | _, .callRoot | _, .newFiber _ | _, .schedule _ _
  | _, .body _ _ => inferInstanceAs (Decidable True)

instance (l : Affinity) (a : Act) : Decidable (AffinityGuard l a) :=
  inferInstanceAs (Decidable (_ ∧ _))

/-- There is no other worker. -/
def Solo (s : Scheduler) (t : WorkerId) : Prop := ∀ v < s.workerCount, v = t

/-- The thread of a task is that of its worker and that of its entry. -/
structure Inv (l : Affinity) : Prop where
  counted : Counted l.sched
  known : Known l.sched
  held : ∀ w f t, (l.sched.pcOf w).fiber? = some f → l.pinned f = some t → w = t
  waiting : ∀ f thread t, ⟨.fiber f, thread⟩ ∈ l.sched.mFibers → l.pinned f = some t →
    thread = some t ∨ Solo l.sched t
  picked : ∀ w c t, l.sched.pcOf w = .picked (.cb c) → l.ftThread w = some t → w = t

variable {l : Affinity} {s' : Scheduler}

theorem initial_inv (n : Nat) (useCaller : Bool) : Inv (initial n useCaller) where
  counted := initial_counted n useCaller
  known := initial_known n useCaller
  held _ _ _ h := by cases h
  waiting _ _ _ h := by cases h
  picked _ _ _ h := by cases h

/-- A worker may take an entry with a thread only if it is that of the worker. -/
theorem eligible_thread {s : Scheduler} (h : s.eligible w ⟨task, some t⟩ = true) : w = t := by
  simp only [eligible, Bool.and_eq_true, decide_eq_true_eq] at h
  rcases h.1 with h | h
  · cases h
  · exact (Option.some.inj h).symm

theorem Inv.lt (hs : Inv l) (h : (l.sched.pcOf w).fiber? = some f) : w < l.sched.workerCount :=
  hs.counted.worker_lt fun hp => by rw [hp] at h; cases h

/-- What a step can do to the thread of a fiber: the fiber is new, or is scheduled, or gets a
callback, or its callback has ended. -/
theorem pins_cases (l : Affinity) (a : Act) (f : FiberId) : l.pins a f = l.pinned f ∨
    l.pins a f = none ∨ (∃ thread, a.scheduled = some ⟨.fiber f, thread⟩ ∧ l.pins a f = thread) ∨
    ∃ w c, a = .work w ∧ l.sched.pcOf w = .picked (.cb c) ∧ l.pins a f = l.ftThread w ∧
      f = (l.sched.cbOf w).getD l.sched.nextFiber := by
  have hupdate (g : FiberId) (o : Option WorkerId) :
      Function.update l.pinned g o f = l.pinned f ∨
        (f = g ∧ Function.update l.pinned g o f = o) := by
    by_cases hf : f = g
    · exact .inr ⟨hf, by rw [hf, Function.update_self]⟩
    · exact .inl (Function.update_of_ne hf _ _)
  cases a with
  | newFiber c => exact (hupdate _ none).imp_right fun h => .inl h.2
  | schedule t thread =>
    cases t with
    | cb c => exact .inl rfl
    | fiber g =>
      refine (hupdate g thread).imp_right fun ⟨hf, h⟩ => .inr (.inl ⟨thread, ?_, h⟩)
      rw [hf]
      rfl
  | body w b =>
    cases b with
    | schedule t thread =>
      cases t with
      | cb c => exact .inl rfl
      | fiber g =>
        refine (hupdate g thread).imp_right fun ⟨hf, h⟩ => .inr (.inl ⟨thread, ?_, h⟩)
        rw [hf]
        rfl
    | _ => exact .inl rfl
  | work w =>
    simp only [pins]
    cases hp : l.sched.pcOf w with
    | picked t =>
      cases t with
      | fiber g => exact .inl rfl
      | cb c => exact (hupdate _ _).imp_right fun ⟨hf, h⟩ => .inr (.inr ⟨w, c, rfl, hp, h, hf⟩)
    | after site g =>
      cases site with
      | own => exact .inl rfl
      | cb =>
        simp only [pinnedAt]
        split
        · exact (hupdate g none).imp_right fun h => .inl h.2
        · exact .inl rfl
    | _ => exact .inl rfl
  | _ => exact .inl rfl

theorem AffinityGuard.fresh (hg : AffinityGuard l a) (h : a.scheduled = some ⟨.fiber f, thread⟩) :
    l.Fresh f thread := by
  obtain ⟨hg, -⟩ := hg
  cases a with
  | schedule t => cases h; exact hg
  | body w b =>
    cases b with
    | schedule t => cases h; exact hg
    | _ => cases h
  | _ => cases h

/-- Where there are other workers, a fiber that gets a callback with a thread is free. -/
theorem AffinityGuard.reuse (hg : AffinityGuard l (.work w)) (hp : l.sched.pcOf w = .picked (.cb c))
    (hw : w < l.sched.workerCount) (ht : l.ftThread w = some t)
    (hf : f = (l.sched.cbOf w).getD l.sched.nextFiber) (hk : Known l.sched) :
    Solo l.sched w ∨ FreeBut l.sched (some w) f := by
  rcases hg.2 with hone | hkeep
  · refine .inl fun v hv => ?_
    have hw := Nat.lt_one_iff.1 (Nat.lt_of_lt_of_le hw hone)
    rw [hw, Nat.lt_one_iff.1 (Nat.lt_of_lt_of_le hv hone)]
  · refine .inr ?_
    cases hcb : l.sched.cbOf w with
    | some g =>
      rw [hcb] at hf
      simp only [KeepsThread, hp, KeepsThreadAt] at hkeep
      exact hf ▸ hkeep (by rw [ht]; exact fun h => by cases h) g hcb
    | none =>
      rw [hcb] at hf
      cases hf
      refine ⟨fun hq => Nat.lt_irrefl _ (hk.queued _ hq), fun v _ _ hn => ?_⟩
      exact Nat.lt_irrefl _ (hk.named v _ hn)

theorem pins_scheduled (h : a.scheduled = some ⟨.fiber f, thread⟩) : l.pins a f = thread := by
  cases a with
  | schedule t => cases h; exact Function.update_self _ _ _
  | body w b =>
    cases b with
    | schedule t => cases h; exact Function.update_self _ _ _
    | _ => cases h
  | _ => cases h

theorem Inv.held_step (hs : Inv l) (hg : AffinityGuard l a) (h : Moves l.sched a s')
    (hf : (s'.pcOf v).fiber? = some f) (ht : l.pins a f = some t) : v = t := by
  rcases h.handed hf with hold | ⟨rfl, hscan, e, he, hef⟩ | ⟨rfl, c, hp, -, hfiber⟩
  · -- The worker has the fiber already, so no other step may give it a thread.
    rcases pins_cases l a f with hpin | hpin | ⟨thread, hsched, hpin⟩ | ⟨w, c, rfl, hp, hpin, hcb⟩
    · exact hs.held v f t hold (hpin ▸ ht)
    · rw [hpin] at ht
      cases ht
    · have hfree := (hg.fresh hsched).2 (by rw [← hpin, ht]; exact fun h => by cases h)
      exact absurd (.inl hold) (hfree.2 v (hs.lt hold) fun h => by cases h)
    · have hw : w < l.sched.workerCount := hs.counted.worker_lt (by simp [hp])
      rw [hpin] at ht
      have hwt := hs.picked w c t hp ht
      rcases hg.reuse hp hw ht hcb hs.known with hsolo | hfree
      · exact (hsolo v (hs.lt hold)).trans hwt
      · by_contra hne
        refine hfree.2 v (hs.lt hold) (fun he => hne ?_) (.inl hold)
        exact (Option.some.inj he).trans hwt
  · have hpin : l.pins (.work v) f = l.pinned f := by
      simp only [pins, hscan, pinnedAt]
    obtain ⟨task, thread⟩ := e
    obtain rfl : task = .fiber f := FiberAndThread.fiber_eq.1 hef
    rcases hs.waiting f thread t (List.mem_of_find?_eq_some he) (hpin ▸ ht) with rfl | hsolo
    · exact eligible_thread (List.find?_some he)
    · exact hsolo v (hs.counted.worker_lt (by simp [hscan]))
  · have hpin : l.pins (.work v) f = l.ftThread v := by
      simp only [pins, hp, pinnedAt, hfiber, Function.update_self]
    exact hs.picked v c t hp (hpin ▸ ht)

theorem Inv.waiting_step (hs : Inv l) (hg : AffinityGuard l a) (h : Moves l.sched a s')
    (he : ⟨.fiber f, thread⟩ ∈ s'.mFibers) (ht : l.pins a f = some t) :
    thread = some t ∨ Solo l.sched t := by
  rcases h.entries he with hold | hnew | ⟨w, site, g, rfl, heq, hp, hr, -⟩
  · have hq := mem_queued.2 ⟨thread, hold⟩
    rcases pins_cases l a f with hpin | hpin | ⟨th, hsched, hpin⟩ | ⟨w, c, rfl, hp, hpin, hcb⟩
    · exact hs.waiting f thread t hold (hpin ▸ ht)
    · rw [hpin] at ht
      cases ht
    · have hfree := (hg.fresh hsched).2 (by rw [← hpin, ht]; exact fun h => by cases h)
      exact absurd hq hfree.1
    · have hw : w < l.sched.workerCount := hs.counted.worker_lt (by simp [hp])
      rw [hpin] at ht
      rcases hg.reuse hp hw ht hcb hs.known with hsolo | hfree
      · exact .inr (hs.picked w c t hp ht ▸ hsolo)
      · exact absurd hq hfree.1
  · exact .inl ((pins_scheduled hnew).symm.trans ht)
  · cases heq
    have hpin : l.pinned f = some t := by
      simp only [pins, hp] at ht
      cases site with
      | own => exact ht
      | cb => simpa [pinnedAt, hr, FiberState.finished] using ht
    have hheld : (l.sched.pcOf w).fiber? = some f := by rw [hp]; rfl
    have hwt := hs.held w f t hheld hpin
    rcases hg.2 with hone | hkeep
    · refine .inr fun v hv => ?_
      have hw := Nat.lt_one_iff.1 (Nat.lt_of_lt_of_le (hs.lt hheld) hone)
      rw [← hwt, hw, Nat.lt_one_iff.1 (Nat.lt_of_lt_of_le hv hone)]
    · simp only [KeepsThread, hp, KeepsThreadAt] at hkeep
      rw [hkeep hr] at hpin
      cases hpin

theorem copies_other (hne : a ≠ .work v) : l.copies a v = l.ftThread v := by
  cases a with
  | work w =>
    have hvw : v ≠ w := fun h => hne (by rw [h])
    simp only [copies]
    cases l.sched.pcOf w with
    | scan =>
      cases l.sched.mFibers.find? (l.sched.eligible w) with
      | none => rfl
      | some e => exact Function.update_of_ne hvw _ _
    | _ => rfl
  | _ => rfl

theorem Inv.picked_step (hs : Inv l) (h : Moves l.sched a s')
    (hp : s'.pcOf v = .picked (.cb c)) (ht : l.copies a v = some t) : v = t := by
  rcases h.picked hp with ⟨hold, hne⟩ | ⟨rfl, hscan, e, he, -⟩
  · exact hs.picked v c t hold (copies_other hne ▸ ht)
  · simp only [copies, hscan, he, Function.update_self] at ht
    obtain ⟨task, thread⟩ := e
    cases ht
    exact eligible_thread (List.find?_some he)

theorem Inv.step (hs : Inv l) (hg : AffinityGuard l a) (h : Moves l.sched a s') :
    Inv (l.after a s') where
  counted := hs.counted.step h
  known := hs.known.step h
  held _ _ _ hf ht := hs.held_step hg h hf ht
  waiting _ _ _ he ht := by
    refine (hs.waiting_step hg h he ht).imp_right fun hsolo => ?_
    simp only [Solo, after, h.workerCount]
    exact hsolo
  picked _ _ _ hp ht := hs.picked_step h hp ht

theorem reach_inv (h : Reach step AffinityGuard (initial n useCaller) l) : Inv l :=
  h.invariant (initial_inv n useCaller) fun hs hg ht => by
    obtain ⟨s', hs', rfl⟩ := Option.map_eq_some_iff.1 ht
    exact hs.step hg (step_moves hs')

/-- The code of a task with a thread runs on that thread only, as long as no fiber that has one
is put back into the queue while there is another worker. -/
theorem task_stays_on_its_thread (h : Reach step AffinityGuard (initial n useCaller) l)
    (hrun : l.sched.pcOf w = .run site f) (ht : l.pinned f = some t) : w = t :=
  (reach_inv h).held w f t (by rw [hrun]; rfl) ht

/-- The second worker runs the callback for it. -/
theorem task_stays_on_its_thread_second : ∃ l, Reach step AffinityGuard (initial 2 false) l ∧
    l.sched.pcOf 1 = .run .cb 0 ∧ l.pinned 0 = some 1 ∧
    ∀ w site, l.sched.pcOf w = .run site 0 → w = 1 := by
  obtain ⟨l, hl, hp⟩ := Reach.of_exec_map step AffinityGuard (initial 2 false)
    [.schedule (.cb 0) (some 1), .start, .work 0, .work 1, .work 1, .work 1, .work 1]
    (fun l => decide (l.sched.pcOf 1 = .run .cb 0 ∧ l.pinned 0 = some 1)) (by decide)
  obtain ⟨hrun, hpin⟩ := of_decide_eq_true hp
  exact ⟨l, hl, hrun, hpin, fun w site hw => task_stays_on_its_thread hl hw hpin⟩

/-- A callback for the first worker yields once, and the second one goes on with it. -/
theorem yielding_task_changes_thread : ∃ l, Reach step ScheduledOnce (initial 2 false) l ∧
    l.sched.pcOf 1 = .run .own 0 ∧ l.pinned 0 = some 0 := by
  obtain ⟨l, hl, hp⟩ := Reach.of_exec_map step ScheduledOnce (initial 2 false)
    [.schedule (.cb 0) (some 0), .start, .work 0, .work 0, .work 0, .work 0,
      .body 0 .yieldToReady, .work 0, .work 0, .work 0, .work 1, .work 1, .work 1, .work 1]
    (fun l => decide (l.sched.pcOf 1 = .run .own 0 ∧ l.pinned 0 = some 0)) (by decide)
  exact ⟨l, hl, of_decide_eq_true hp⟩

end Affinity
end SvrFrame
