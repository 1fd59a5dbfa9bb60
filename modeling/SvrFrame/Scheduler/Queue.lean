import SvrFrame.Scheduler.Exclusive

namespace SvrFrame
open Library
set_option autoImplicit true

/-- The entry that a thread or a task asks for. -/
def Scheduler.Act.scheduled : Scheduler.Act → Option FiberAndThread
  | .schedule t thread | .body _ (.schedule t thread) => some ⟨t, thread⟩
  | _ => none

namespace Scheduler

variable {s s' : Scheduler}

/-- What the scan takes is the earliest entry that it does not step over. -/
theorem find?_splits {l : List FiberAndThread} {p : FiberAndThread → Bool}
    (h : l.find? p = some e) : ∃ pre post, l = pre ++ e :: post ∧ l.eraseP p = pre ++ post ∧
      (∀ d ∈ pre, p d = false) ∧ p e = true := by
  obtain ⟨he, pre, post, rfl, hpre⟩ := List.find?_eq_some_iff_append.1 h
  have hpre : ∀ d ∈ pre, p d = false := fun d hd => by simpa using hpre d hd
  refine ⟨pre, post, rfl, ?_, hpre, he⟩
  rw [List.eraseP_append_right _ (fun d hd => by simp [hpre d hd]), List.eraseP_cons_of_pos he]

/-- An entry of the queue was there before, or has just been asked for, or is the one of a fiber
that yielded READY. -/
theorem Moves.entries (h : Moves s a s') (he : e ∈ s'.mFibers) :
    e ∈ s.mFibers ∨ a.scheduled = some e ∨ ∃ w site f, a = .work w ∧ e = ⟨.fiber f, none⟩ ∧
      s.pcOf w = .after site f ∧ s.stateOf f = .ready ∧ s'.fibers = s.fibers := by
  cases h with
  | schedule ht | bodySchedule _ ht =>
    obtain ⟨rfl, -⟩ := schedule_eq_push ht
    rcases List.mem_append.1 he with he | he
    · exact .inl he
    · cases List.mem_singleton.1 he
      exact .inr (.inl rfl)
  | pick => exact .inl (List.eraseP_subset he)
  | requeueOwn hp hr | requeueCb hp hr =>
    rcases List.mem_append.1 he with he | he
    · exact .inl he
    · cases List.mem_singleton.1 he
      exact .inr (.inr ⟨_, _, _, rfl, rfl, hp, hr, rfl⟩)
  | _ => exact .inl he

theorem Moves.scheduled_eq (h : Moves s a s') (ha : a.scheduled = some e) : s' = s.push e := by
  cases h with
  | schedule ht | bodySchedule _ ht =>
    cases ha
    exact (schedule_eq_push ht).1
  | _ => cases ha

/-- A step changes no fiber but a new one and those the worker has a pointer to. -/
theorem Moves.untouched (h : Moves s a s') (hlt : g < s.nextFiber)
    (hn : ∀ w, a.worker = some w → ¬ s.Names w g) : s'.fibers g = s.fibers g := by
  have hne {w : WorkerId} {f : FiberId} (ha : a.worker = some w) (hf : s.Names w f) : g ≠ f := by
    rintro rfl
    exact hn w ha hf
  have hpc {w : WorkerId} {pc : Pc} {f : FiberId} (hp : s.pcOf w = pc) (hf : pc.fiber? = some f) :
      s.Names w f := .inl (hp ▸ hf)
  cases h with
  | schedule ht | bodySchedule _ ht => obtain ⟨rfl, -⟩ := schedule_eq_push ht; rfl
  | newFiber | make => exact Function.update_of_ne (Nat.ne_of_lt hlt) _ _
  | reuse _ hcb => exact Function.update_of_ne (hne rfl (.inr hcb)) _ _
  | resume hp | holdOwn hp | doneCb hp | holdCb hp | yieldToReady hp | finish hp | throw hp =>
    exact Function.update_of_ne (hne rfl (hpc hp rfl)) _ _
  | _ => rfl

theorem mem_queued : f ∈ s.queued ↔ ∃ thread, ⟨.fiber f, thread⟩ ∈ s.mFibers := by
  simp only [queued, List.mem_filterMap]
  constructor
  · rintro ⟨⟨task, thread⟩, he, hf⟩
    obtain rfl : task = .fiber f := FiberAndThread.fiber_eq.1 hf
    exact ⟨thread, he⟩
  · rintro ⟨thread, he⟩
    exact ⟨_, he, rfl⟩

/-- A worker changes by its own steps, except that `start` and `stop` put it to work. -/
theorem Moves.worker_other (h : Moves s a s') (hv : a.worker ≠ some v) :
    s'.workers v = s.workers v ∨ s'.workers v = ⟨.scan, none, .init⟩ := by
  cases h with
  | start =>
    simp only [startAll]
    split
    · exact .inr rfl
    · exact .inl rfl
  | callRoot =>
    simp only [enterRoot, Function.update_apply]
    split
    · exact .inr rfl
    · exact .inl rfl
  | schedule ht | bodySchedule _ ht =>
    obtain ⟨rfl, -⟩ := schedule_eq_push ht
    exact .inl rfl
  | requestStop | stop | skipRoot | newFiber => exact .inl rfl
  | _ =>
    simp only [Act.worker, ne_eq, Option.some.injEq] at hv
    left
    simp [Ne.symm hv]

/-- What is true of the worker, and of a worker that `start` or `stop` puts to work, stays true. -/
theorem Moves.worker_keeps {Q : Worker → Prop} (h : Moves s a s') (hv : a.worker ≠ some v)
    (hold : Q (s.workers v)) (hborn : Q ⟨.scan, none, .init⟩) : Q (s'.workers v) := by
  rcases h.worker_other hv with hsame | hnew
  · rw [hsame]
    exact hold
  · rw [hnew]
    exact hborn

theorem Moves.pcOf_other (h : Moves s a s') (hv : a.worker ≠ some v) :
    s'.pcOf v = s.pcOf v ∨ s'.pcOf v = .scan :=
  (h.worker_other hv).imp (congrArg Worker.pc) (congrArg Worker.pc)

/-- A fiber gets into a worker's hands from the queue, or as the fiber of a callback. -/
theorem Moves.handed (h : Moves s a s') (hf : (s'.pcOf v).fiber? = some f) :
    (s.pcOf v).fiber? = some f ∨
      (a = .work v ∧ s.pcOf v = .scan ∧
        ∃ e, s.mFibers.find? (s.eligible v) = some e ∧ e.fiber? = some f) ∨
      (a = .work v ∧ ∃ c, s.pcOf v = .picked (.cb c) ∧ s'.cbOf v = some f ∧
        f = (s.cbOf v).getD s.nextFiber) := by
  by_cases hv : a.worker = some v
  · cases h with
    | start | requestStop | stop | skipRoot | callRoot | newFiber | schedule => cases hv
    | bodySchedule _ ht =>
      obtain ⟨rfl, -⟩ := schedule_eq_push ht
      exact .inl hf
    | pick hp he =>
      cases hv
      rw [pcOf_setPc, if_pos rfl, Pc.fiber_picked] at hf
      exact .inr (.inl ⟨rfl, hp, _, he, hf⟩)
    | reuse hp hcb =>
      cases hv
      simp only [pcOf_setPc, if_true, Pc.fiber?, Option.some.injEq] at hf
      subst hf
      exact .inr (.inr ⟨rfl, _, hp, by simpa using hcb, by rw [hcb]; rfl⟩)
    | make hp hcb =>
      cases hv
      simp only [pcOf_adoptCb, if_true, Pc.fiber?, Option.some.injEq] at hf
      subst hf
      exact .inr (.inr ⟨rfl, _, hp, by simp, by rw [hcb]; rfl⟩)
    | choose hp | resume hp | enter hp | leave hp | back hp | yieldToReady hp | yieldToHold hp
      | finish hp | throw hp =>
      cases hv
      simp only [pcOf_setPc, if_true] at hf
      exact .inl (hp ▸ hf)
    | _ =>
      cases hv
      simp [Pc.fiber?] at hf
  · rcases h.pcOf_other hv with hpc | hpc
    · exact .inl (hpc ▸ hf)
    · rw [hpc] at hf
      cases hf

theorem Moves.picked (h : Moves s a s') (hp : s'.pcOf v = .picked t) :
    (s.pcOf v = .picked t ∧ a ≠ .work v) ∨ (a = .work v ∧ s.pcOf v = .scan ∧
      ∃ e, s.mFibers.find? (s.eligible v) = some e ∧ e.task = t) := by
  by_cases hv : a.worker = some v
  · cases h with
    | start | requestStop | stop | skipRoot | callRoot | newFiber | schedule => cases hv
    | bodySchedule _ ht =>
      obtain ⟨rfl, -⟩ := schedule_eq_push ht
      exact .inl ⟨hp, fun h => by cases h⟩
    | pick hscan he =>
      cases hv
      simp only [pcOf_setPc, if_true, Pc.picked.injEq] at hp
      exact .inr ⟨rfl, hscan, _, he, hp⟩
    | _ =>
      cases hv
      simp at hp
  · rcases h.pcOf_other hv with hpc | hpc
    · exact .inl ⟨hpc ▸ hp, fun h => hv (by rw [h]; rfl)⟩
    · rw [hpc] at hp
      cases hp

/-- The step makes `f`, as the fiber of a callback. -/
def Makes (s : Scheduler) (a : Act) (f : FiberId) : Prop :=
  f = s.nextFiber ∧ ∃ w c, a = .work w ∧ s.pcOf w = .picked (.cb c) ∧ s.cbOf w = none

theorem Moves.cbOf (h : Moves s a s') (hf : s'.cbOf v = some f) :
    s.cbOf v = some f ∨ (Makes s a f ∧ s'.nextFiber = s.nextFiber + 1) := by
  cases h with
  | start =>
    simp only [Scheduler.cbOf, startAll] at hf ⊢
    split at hf
    · cases hf
    · exact .inl hf
  | callRoot =>
    simp only [Scheduler.cbOf, enterRoot, Function.update_apply] at hf ⊢
    split at hf
    · cases hf
    · exact .inl hf
  | schedule ht | bodySchedule _ ht =>
    obtain ⟨rfl, -⟩ := schedule_eq_push ht
    exact .inl hf
  | make hp hcb =>
    rw [cbOf_adoptCb] at hf
    split at hf
    · cases hf
      exact .inr ⟨⟨rfl, _, _, rfl, hp, hcb⟩, rfl⟩
    · exact .inl hf
  | requeueCb | holdCb =>
    rw [cbOf_releaseCb] at hf
    split at hf
    · cases hf
    · exact .inl hf
  | requestStop | stop | skipRoot | newFiber => exact .inl hf
  | _ => exact .inl (by simpa using hf)

/-- A pointer to a fiber is an old one, or comes from the queue, or is that to a new fiber. -/
theorem Moves.names (h : Moves s a s') (hf : s'.Names v f) :
    s.Names v f ∨ (a = .work v ∧ s.pcOf v = .scan ∧
      ∃ e, s.mFibers.find? (s.eligible v) = some e ∧ e.fiber? = some f) ∨ Makes s a f := by
  have hcb (hf : s'.cbOf v = some f) : s.Names v f ∨ Makes s a f :=
    (h.cbOf hf).imp .inr And.left
  rcases hf with hf | hf
  · rcases h.handed hf with hold | hpick | ⟨-, c, -, hf, -⟩
    · exact .inl (.inl hold)
    · exact .inr (.inl hpick)
    · exact (hcb hf).imp_right .inr
  · exact (hcb hf).imp_right .inr

theorem Moves.nextFiber_le (h : Moves s a s') : s.nextFiber ≤ s'.nextFiber := by
  cases h with
  | newFiber | make => exact Nat.le_succ _
  | schedule ht | bodySchedule _ ht => obtain ⟨rfl, -⟩ := schedule_eq_push ht; exact Nat.le_refl _
  | _ => exact Nat.le_refl _

/-- Whoever schedules what, there are no pointers to fibers that nobody has made. -/
structure Known (s : Scheduler) : Prop where
  queued : ∀ f ∈ s.queued, f < s.nextFiber
  named : ∀ w f, s.Names w f → f < s.nextFiber

theorem initial_known (n : Nat) (useCaller : Bool) : Known (initial n useCaller) where
  queued _ h := absurd h List.not_mem_nil
  named w f h := absurd h (not_names_initial n useCaller w f)

theorem Known.step (hs : Known s) (h : Moves s a s') : Known s' := by
  have hle := h.nextFiber_le
  have hcb {v : WorkerId} {g : FiberId} (hg : s'.cbOf v = some g) : g < s'.nextFiber := by
    rcases h.cbOf hg with hg | ⟨⟨rfl, -⟩, hnext⟩
    · exact Nat.lt_of_lt_of_le (hs.named v g (.inr hg)) hle
    · rw [hnext]
      exact Nat.lt_succ_self _
  constructor
  · intro f hf
    obtain ⟨thread, he⟩ := mem_queued.1 hf
    rcases h.entries he with hold | hnew | ⟨w, site, g, -, hready, hp, -⟩
    · exact Nat.lt_of_lt_of_le (hs.queued f (mem_queued.2 ⟨thread, hold⟩)) hle
    · cases h with
      | schedule ht | bodySchedule _ ht =>
        obtain ⟨rfl, hknown⟩ := schedule_eq_push ht
        cases hnew
        exact hknown f rfl
      | _ => cases hnew
    · cases hready
      exact Nat.lt_of_lt_of_le (hs.named w f (.inl (by rw [hp]; rfl))) hle
  · rintro v f (hf | hf)
    · rcases h.handed hf with hf | ⟨-, -, e, he, hef⟩ | ⟨-, -, -, hf, -⟩
      · exact Nat.lt_of_lt_of_le (hs.named v f (.inl hf)) hle
      · exact Nat.lt_of_lt_of_le (hs.queued f (queued_of_found he hef)) hle
      · exact hcb hf
    · exact hcb hf

end Scheduler
end SvrFrame
