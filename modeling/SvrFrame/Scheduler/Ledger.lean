import SvrFrame.Scheduler.Queue

namespace SvrFrame
open Library
set_option autoImplicit true

/-- A scheduler with the history of its callbacks. An accepted entry is known by the number of
entries that were accepted before it. -/
structure Ledger where
  sched : Scheduler
  /-- The thread each entry was scheduled with. -/
  accepted : List (Option WorkerId)
  /-- Which entries have been started, and by which worker. -/
  started : List (Callback × WorkerId)
  /-- The saved context of the fiber is where `makecontext` has put it. -/
  atEntry : FiberId → Bool

namespace Ledger
open Scheduler

def initial (threads : Nat) (useCaller : Bool) : Ledger :=
  ⟨Scheduler.initial threads useCaller, [], [], fun _ => false⟩

def accepts (a : Act) : List (Option WorkerId) :=
  match a.scheduled with
  | some ⟨.cb _, thread⟩ => [thread]
  | _ => []

/-- `MainFunc` calls `mCallback`. -/
def startsAt (l : Ledger) (w : WorkerId) : Pc → List (Callback × WorkerId)
  | .enter _ f => if l.atEntry f then (l.sched.fibers f).mCallback.toList.map (·, w) else []
  | _ => []

def starts (l : Ledger) : Act → List (Callback × WorkerId)
  | .work w => l.startsAt w (l.sched.pcOf w)
  | _ => []

/-- The constructor of a fiber and `Reset` call `makecontext`. -/
def contextsAt (l : Ledger) (w : WorkerId) : Pc → FiberId → Bool
  | .picked (.cb _) => Function.update l.atEntry ((l.sched.cbOf w).getD l.sched.nextFiber) true
  | .enter _ f => Function.update l.atEntry f false
  | .after .cb f =>
    if (l.sched.stateOf f).finished then Function.update l.atEntry f true else l.atEntry
  | _ => l.atEntry

def contexts (l : Ledger) : Act → FiberId → Bool
  | .newFiber _ => Function.update l.atEntry l.sched.nextFiber true
  | .work w => l.contextsAt w (l.sched.pcOf w)
  | _ => l.atEntry

def after (l : Ledger) (a : Act) (s : Scheduler) : Ledger :=
  ⟨s, l.accepted ++ accepts a, l.started ++ l.starts a, l.contexts a⟩

def step (l : Ledger) (a : Act) : Option Ledger := (l.sched.step a).map (l.after a)

/-- Only callbacks are scheduled, and no task yields HOLD. -/
def CallbacksOnly (l : Ledger) : Act → Prop
  | .schedule (.cb c) _ | .body _ (.schedule (.cb c) _) => c = l.accepted.length
  | .schedule (.fiber _) _ | .body _ (.schedule (.fiber _) _) | .body _ .yieldToHold => False
  | _ => True

instance : ∀ (l : Ledger) (a : Act), Decidable (CallbacksOnly l a)
  | l, .schedule (.cb c) _ | l, .body _ (.schedule (.cb c) _) =>
    inferInstanceAs (Decidable (c = l.accepted.length))
  | _, .schedule (.fiber _) _ | _, .body _ (.schedule (.fiber _) _) | _, .body _ .yieldToHold =>
    inferInstanceAs (Decidable False)
  | _, .start | _, .requestStop | _, .stop | _, .callRoot | _, .newFiber _ | _, .work _
  | _, .body _ .yieldToReady | _, .body _ .finish | _, .body _ .throw =>
    inferInstanceAs (Decidable True)

def handAt (l : Ledger) : Pc → Option Callback
  | .picked (.cb c) => some c
  | .resume _ f | .enter _ f => if l.atEntry f then (l.sched.fibers f).mCallback else none
  | _ => none

/-- The entry that the worker has picked and not started yet. -/
def inHand (l : Ledger) (w : WorkerId) : Option Callback := l.handAt (l.sched.pcOf w)

/-! ### In how many places an entry is -/

def waiting (l : Ledger) (c : Callback) : Nat := l.sched.mFibers.countP fun e => e.task = .cb c

def carried (l : Ledger) (c : Callback) : Nat :=
  tally l.sched.workerCount fun w => l.inHand w = some c

def timesStarted (l : Ledger) (c : Callback) : Nat := l.started.countP fun p => p.1 = c

/-- The entry was scheduled for the worker, or for any. -/
def Allows (l : Ledger) (c : Callback) (w : WorkerId) : Prop :=
  l.accepted[c]? = some none ∨ l.accepted[c]? = some (some w)

end Ledger

/-- The fiber of the worker whose code has been entered. -/
def Pc.begun? : Pc → Option FiberId
  | .picked (.fiber f) | .resume .own f | .enter .own f | .run _ f | .leave _ f | .back _ f
  | .after _ f => some f
  | _ => none

namespace Ledger
open Scheduler

/-- The places of an accepted entry add up to one. What makes a step keep this is that the fiber
of a worker is in the hands of no other worker and not in the queue. -/
structure Inv (l : Ledger) : Prop where
  counted : Counted l.sched
  single : Single l.sched
  ready : ∀ f ∈ l.sched.queued, l.sched.stateOf f = .ready
  begunQueued : ∀ f ∈ l.sched.queued, l.atEntry f = false
  begun : ∀ w f, (l.sched.pcOf w).begun? = some f → l.atEntry f = false
  place : ∀ c, l.waiting c + l.carried c + l.timesStarted c = if c < l.accepted.length then 1 else 0
  asked : ∀ c thread, ⟨.cb c, thread⟩ ∈ l.sched.mFibers → l.accepted[c]? = some thread
  allowed : ∀ w c, l.inHand w = some c → l.Allows c w
  ran : ∀ p ∈ l.started, l.Allows p.1 p.2

variable {l : Ledger} {s' : Scheduler}

theorem initial_inv (n : Nat) (useCaller : Bool) : Inv (initial n useCaller) where
  counted := initial_counted n useCaller
  single := initial_single n useCaller
  ready f hf := by cases hf
  begunQueued f hf := by cases hf
  begun _ _ _ := rfl
  place c := by
    change 0 + tally _ (fun _ => false) + 0 = if c < 0 then 1 else 0
    rw [tally_false, if_neg (Nat.not_lt_zero c)]
  asked c thread h := by cases h
  allowed w c h := by cases h
  ran p hp := by cases hp

theorem CallbacksOnly.scheduled (hg : CallbacksOnly l a) (h : a.scheduled = some e) :
    ∃ thread, e = ⟨.cb l.accepted.length, thread⟩ := by
  have htask {t : Task} (ht : CallbacksOnly l (.schedule t none)) :
      t = .cb l.accepted.length := by
    cases t with
    | fiber f => cases ht
    | cb c => exact congrArg Task.cb ht
  cases a with
  | schedule t thread =>
    cases h
    exact ⟨thread, congrArg (FiberAndThread.mk · thread) (htask (by cases t <;> exact hg))⟩
  | body w b =>
    cases b with
    | schedule t thread =>
      cases h
      exact ⟨thread, congrArg (FiberAndThread.mk · thread) (htask (by cases t <;> exact hg))⟩
    | _ => cases h
  | _ => cases h

/-- No worker has a pointer to a fiber of the queue. -/
theorem Inv.free (hs : Inv l) (hf : f ∈ l.sched.queued) (w : WorkerId) : ¬ l.sched.Names w f := by
  intro hn
  have hexec := hs.single.apart f w hf hn
  rw [hs.ready f hf] at hexec
  cases hexec

theorem Inv.unshared (hs : Inv l) (hg : CallbacksOnly l a) : Unshared l.sched a := by
  have hleave (w : WorkerId) : MayLeaveExec l.sched w := fun f hf hq => hs.free hq w (.inl hf)
  cases a with
  | schedule t thread =>
    cases t with
    | fiber f => cases hg
    | cb c => trivial
  | body w b =>
    cases b with
    | schedule t thread =>
      cases t with
      | fiber f => cases hg
      | cb c => trivial
    | yieldToHold => trivial
    | yieldToReady | finish | throw => exact hleave w
  | _ => trivial

/-- A step changes the contexts of the same fibers that it may change otherwise. -/
theorem contexts_untouched (hlt : g < l.sched.nextFiber)
    (hn : ∀ w, a.worker = some w → ¬ l.sched.Names w g) : l.contexts a g = l.atEntry g := by
  have hne {w : WorkerId} {f : FiberId} (ha : a.worker = some w) (hf : l.sched.Names w f) :
      g ≠ f := by
    rintro rfl
    exact hn w ha hf
  cases a with
  | newFiber c => exact Function.update_of_ne (Nat.ne_of_lt hlt) _ _
  | work w =>
    change l.contextsAt w (l.sched.pcOf w) g = _
    have hpc {pc : Pc} {f : FiberId} (hp : l.sched.pcOf w = pc) (hf : pc.fiber? = some f) :
        g ≠ f := hne rfl (.inl (hp ▸ hf))
    cases hp : l.sched.pcOf w with
    | picked t =>
      cases t with
      | fiber f => rfl
      | cb c =>
        refine Function.update_of_ne ?_ _ _
        cases hcb : l.sched.cbOf w with
        | some f => exact hne rfl (.inr hcb)
        | none => exact Nat.ne_of_lt hlt
    | enter site f => exact Function.update_of_ne (hpc hp rfl) _ _
    | after site f =>
      cases site with
      | own => rfl
      | cb =>
        simp only [contextsAt]
        split
        · exact Function.update_of_ne (hpc hp rfl) _ _
        · rfl
    | _ => rfl
  | _ => rfl

/-- What a worker has in hand is not changed by another worker. -/
theorem Inv.inHand_other (hs : Inv l) (h : Moves l.sched a s') (hpc : s'.pcOf v = l.sched.pcOf v)
    (hv : a.worker ≠ some v) : (l.after a s').inHand v = l.inHand v := by
  have hsame (f : FiberId) (hn : l.sched.Names v f) :
      s'.fibers f = l.sched.fibers f ∧ l.contexts a f = l.atEntry f := by
    have hlt := hs.single.namedKnown v f hn
    have hother : ∀ w, a.worker = some w → ¬ l.sched.Names w f := fun w hw hw' =>
      hv (hw.trans (congrArg some (hs.single.unique f w v hw' hn)))
    exact ⟨h.untouched hlt hother, contexts_untouched hlt hother⟩
  simp only [inHand, after, hpc]
  cases hp : l.sched.pcOf v with
  | resume site f | enter site f =>
    obtain ⟨hcell, hcontext⟩ := hsame f (.inl (by rw [hp]; rfl))
    simp only [handAt, hcell, hcontext]
  | picked t => cases t <;> rfl
  | _ => rfl

/-- What a worker does to the entries: it takes one from the queue, or starts the one it has in
hand, or nothing of either. -/
theorem Inv.transfers (hs : Inv l) (h : Moves l.sched a s') (ha : a.worker = some w)
    (hb : a.scheduled = none) :
    ((l.after a s').inHand w = l.inHand w ∧ l.starts a = [] ∧
        ∀ c, (l.after a s').waiting c = l.waiting c) ∨
      (∃ e, l.sched.mFibers.find? (l.sched.eligible w) = some e ∧
        s'.mFibers = l.sched.mFibers.eraseP (l.sched.eligible w) ∧ l.inHand w = none ∧
        l.starts a = [] ∧ ∀ c, (l.after a s').inHand w = some c ↔ e.task = .cb c) ∨
      ((l.after a s').inHand w = none ∧ l.starts a = (l.inHand w).toList.map (·, w) ∧
        ∀ c, (l.after a s').waiting c = l.waiting c) := by
  cases h with
  | start | requestStop | stop | skipRoot | callRoot | newFiber | schedule => cases ha
  | bodySchedule => cases hb
  | @pick w e hp he =>
    cases ha
    refine .inr (.inl ⟨e, he, rfl, by rw [inHand, hp]; rfl, by rw [starts, hp]; rfl, fun c => ?_⟩)
    simp only [inHand, after, pcOf_setPc, if_true]
    cases e.task <;> simp [handAt]
  | @choose w f hp =>
    cases ha
    have hbegun : l.atEntry f = false := hs.begun w f (by rw [hp]; rfl)
    refine .inl ?_
    simp [after, waiting, inHand, handAt, starts, startsAt, contexts, contextsAt, hp, hbegun]
  | @reuse w d f hp hcb =>
    cases ha
    refine .inl ?_
    simp [after, waiting, inHand, handAt, starts, startsAt, contexts, contextsAt, hp, hcb]
  | @make w d hp hcb =>
    cases ha
    refine .inl ?_
    simp [after, waiting, inHand, handAt, starts, startsAt, contexts, contextsAt, hp, hcb]
  | @resume w site f hp =>
    cases ha
    refine .inl ?_
    simp [after, waiting, inHand, handAt, starts, startsAt, contexts, contextsAt, hp]
  | @enter w site f hp =>
    cases ha
    refine .inr (.inr ⟨?_, ?_, fun c => rfl⟩)
    · simp [after, inHand, handAt]
    · simp only [starts, startsAt, inHand, handAt, hp]
      cases l.atEntry f <;> rfl
  | _ hp =>
    cases ha
    refine .inl ?_
    simp [after, waiting, inHand, handAt, starts, startsAt, hp]

theorem waiting_take (hq : l.sched.mFibers.find? p = some e)
    (h : s'.mFibers = l.sched.mFibers.eraseP p) :
    (l.after a s').waiting c + (if e.task = .cb c then 1 else 0) = l.waiting c := by
  obtain ⟨pre, post, hq, herase, -⟩ := find?_splits hq
  rw [herase] at h
  simp only [waiting, after, h, hq, List.countP_append, List.countP_cons, decide_eq_true_eq]
  omega

/-- The step of a worker leaves alone in how many places an entry is. -/
theorem Inv.flow (hs : Inv l) (h : Moves l.sched a s') (ha : a.worker = some w)
    (hb : a.scheduled = none) (c : Callback) :
    (l.after a s').waiting c + (if (l.after a s').inHand w = some c then 1 else 0) +
        (l.starts a).countP (fun p => p.1 = c) =
      l.waiting c + (if l.inHand w = some c then 1 else 0) := by
  rcases hs.transfers h ha hb with ⟨hhand, hstarts, hwait⟩ | ⟨e, he, hq, hhand, hstarts, htake⟩ |
    ⟨hhand, hstarts, hwait⟩
  · rw [hhand, hstarts, hwait]
    rfl
  · rw [hhand, hstarts, ← waiting_take he hq]
    simp only [htake]
    rfl
  · rw [hhand, hstarts, hwait]
    cases l.inHand w <;> simp [List.countP_cons]

theorem Inv.carried_change (hs : Inv l) (h : Moves l.sched a s') (ha : a.worker = some w)
    (c : Callback) : (l.after a s').carried c + (if l.inHand w = some c then 1 else 0) =
      l.carried c + (if (l.after a s').inHand w = some c then 1 else 0) := by
  have hframe := h.workerFrame ha
  have hchange := tally_change (p := fun v => decide ((l.after a s').inHand v = some c))
    (q := fun v => decide (l.inHand v = some c)) (hs.counted.worker_lt hframe.born) fun v hv => by
      rw [hs.inHand_other h (hframe.others v hv) fun he => hv (Option.some.inj (he ▸ ha))]
  simp only [decide_eq_true_eq] at hchange
  simp only [carried, after] at hchange ⊢
  rw [h.workerCount]
  exact hchange

/-- The steps that are no worker's put nothing into a hand. -/
theorem Inv.inHand_outside (hs : Inv l) (h : Moves l.sched a s') (ha : a.worker = none)
    (v : WorkerId) : (l.after a s').inHand v = l.inHand v := by
  have hne : a.worker ≠ some v := by
    rw [ha]
    exact fun h => by cases h
  cases h with
  | start hp =>
    have hunborn := hs.counted.fresh hp v
    simp only [pcOf] at hunborn
    simp only [inHand, after, pcOf, startAll]
    split <;> simp only [hunborn, handAt]
  | @callRoot w hr hp =>
    simp only [inHand, after, pcOf_enterRoot]
    split
    · rename_i hv
      rw [hv, hs.counted.rootUnborn w hr (by rw [hp]; decide)]
      rfl
    · rfl
  | newFiber => exact hs.inHand_other .newFiber rfl hne
  | schedule ht =>
    obtain ⟨rfl, -⟩ := schedule_eq_push ht
    rfl
  | requestStop | stop | skipRoot => rfl
  | _ => cases ha

/-- A new entry is in the queue, and the others stay where they are. -/
theorem Inv.place_scheduled (hs : Inv l) (h : Moves l.sched a s')
    (hb : a.scheduled = some ⟨.cb l.accepted.length, thread⟩) (c : Callback) :
    (l.after a s').waiting c + (l.after a s').carried c + (l.after a s').timesStarted c =
      if c < (l.after a s').accepted.length then 1 else 0 := by
  have hpush : s' = l.sched.push ⟨.cb l.accepted.length, thread⟩ ∧ l.starts a = [] ∧
      l.contexts a = l.atEntry := by
    cases h with
    | schedule ht | bodySchedule _ ht =>
      cases hb
      exact ⟨(schedule_eq_push ht).1, rfl, rfl⟩
    | _ => cases hb
  obtain ⟨rfl, hstarts, hcontexts⟩ := hpush
  have hplace := hs.place c
  have hcarried : (l.after a (l.sched.push ⟨.cb l.accepted.length, thread⟩)).carried c =
      l.carried c := by
    simp only [carried, inHand, after, hcontexts]
    rfl
  rw [hcarried]
  simp only [waiting, timesStarted, after, hstarts, accepts, hb, push_mFibers, List.countP_append,
    List.countP_singleton, List.append_nil, List.length_append, List.length_singleton] at hplace ⊢
  by_cases hc : c = l.accepted.length
  · subst hc
    simp only [Nat.lt_irrefl, if_false, decide_true, if_true, Nat.lt_succ_self] at hplace ⊢
    omega
  · have hne : ¬ Task.cb l.accepted.length = .cb c := fun he => hc (by cases he; rfl)
    have hlt : c < l.accepted.length + 1 ↔ c < l.accepted.length :=
      ⟨fun h => (Nat.lt_succ_iff_lt_or_eq.1 h).resolve_right hc, Nat.lt_succ_of_lt⟩
    simp only [hne, decide_false, Bool.false_eq_true, if_false, hlt]
    omega

theorem Inv.place_other (hs : Inv l) (h : Moves l.sched a s') (hb : a.scheduled = none)
    (c : Callback) :
    (l.after a s').waiting c + (l.after a s').carried c + (l.after a s').timesStarted c =
      if c < (l.after a s').accepted.length then 1 else 0 := by
  have hplace := hs.place c
  have haccepts : (l.after a s').accepted = l.accepted := by
    simp only [after, accepts, hb, List.append_nil]
  have hstarted : (l.after a s').timesStarted c =
      l.timesStarted c + (l.starts a).countP (fun p => p.1 = c) := List.countP_append
  rw [haccepts, hstarted]
  cases ha : a.worker with
  | some w =>
    have hflow := hs.flow h ha hb c
    have hcarried := hs.carried_change h ha c
    omega
  | none =>
    have hsame : (l.after a s').waiting c = l.waiting c ∧ l.starts a = [] := by
      cases h with
      | start | requestStop | stop | skipRoot | callRoot | newFiber => exact ⟨rfl, rfl⟩
      | schedule => cases hb
      | _ => cases ha
    have hcarried : (l.after a s').carried c = l.carried c := by
      simp only [carried, hs.inHand_outside h ha]
      exact congrArg (tally · _) h.workerCount
    rw [hsame.1, hsame.2, hcarried]
    exact hplace

theorem Allows.mono (h : l.Allows c w) : (l.after a s').Allows c w := by
  have hext {thread : Option WorkerId} (hc : l.accepted[c]? = some thread) :
      (l.accepted ++ accepts a)[c]? = some thread := by
    rw [List.getElem?_append_left (List.getElem?_eq_some_iff.1 hc).1]
    exact hc
  exact h.imp hext hext

theorem Inv.allowed_step (hs : Inv l) (h : Moves l.sched a s')
    (hc : (l.after a s').inHand v = some c) : l.Allows c v := by
  by_cases hv : a.worker = some v
  · by_cases hb : a.scheduled = none
    · rcases hs.transfers h hv hb with ⟨hhand, -⟩ | ⟨e, he, -, -, -, hhand⟩ | ⟨hhand, -⟩
      · exact hs.allowed v c (hhand ▸ hc)
      · have htask := (hhand c).1 hc
        obtain ⟨task, thread⟩ := e
        cases htask
        have hasked := hs.asked c thread (List.mem_of_find?_eq_some he)
        have helig := List.find?_some he
        simp only [eligible, Bool.and_true, decide_eq_true_eq] at helig
        rcases helig with rfl | rfl
        · exact .inl hasked
        · exact .inr hasked
      · rw [hhand] at hc
        cases hc
    · cases h with
      | bodySchedule hp ht =>
        obtain ⟨rfl, -⟩ := schedule_eq_push ht
        exact hs.allowed v c hc
      | _ => first | exact absurd rfl hb | cases hv
  · cases ha : a.worker with
    | some w =>
      have hne : v ≠ w := fun he => hv (he ▸ ha)
      rw [hs.inHand_other h ((h.workerFrame ha).others v hne) hv] at hc
      exact hs.allowed v c hc
    | none =>
      rw [hs.inHand_outside h ha] at hc
      exact hs.allowed v c hc

theorem fiber_of_begun {pc : Pc} (h : pc.begun? = some f) : pc.fiber? = some f := by
  cases pc with
  | picked t => cases t <;> exact h
  | resume site | enter site => cases site <;> first | exact h | cases h
  | run | leave | back | after => exact h
  | _ => cases h

/-- A fiber that the worker goes on with has been entered since its context was made. -/
theorem Inv.begun_worker (hs : Inv l) (h : Moves l.sched a s') (ha : a.worker = some w)
    (hf : (s'.pcOf w).begun? = some f) : l.contexts a f = false := by
  have hold {pc : Pc} (hp : l.sched.pcOf w = pc) (hb : pc.begun? = some f) : l.atEntry f = false :=
    hs.begun w f (hp ▸ hb)
  cases h with
  | start | requestStop | stop | skipRoot | callRoot | newFiber | schedule => cases ha
  | @pick w e hp he =>
    cases ha
    rw [pcOf_setPc, if_pos rfl] at hf
    have hef : e.fiber? = some f := Pc.fiber_picked e ▸ fiber_of_begun hf
    simp only [contexts, hp, contextsAt]
    exact hs.begunQueued f (queued_of_found he hef)
  | @enter w site g hp =>
    cases ha
    simp only [pcOf_setPc, if_true, Pc.begun?, Option.some.injEq] at hf
    simp only [contexts, hp, contextsAt, hf, Function.update_self]
  | bodySchedule hp ht =>
    cases ha
    obtain ⟨rfl, -⟩ := schedule_eq_push ht
    exact hs.begun w f hf
  | choose hp =>
    cases ha
    simp only [pcOf_setPc, if_true] at hf
    simp only [contexts, hp, contextsAt]
    exact hold hp hf
  | @resume w site g hp =>
    cases ha
    simp only [pcOf_setPc, if_true] at hf
    simp only [contexts, hp, contextsAt]
    exact hold hp (by cases site <;> exact hf)
  | leave hp | back hp =>
    cases ha
    simp only [pcOf_setPc, if_true] at hf
    simp only [contexts, hp, contextsAt]
    exact hold hp hf
  | yieldToReady hp | yieldToHold hp | finish hp | throw hp =>
    cases ha
    simp only [pcOf_setPc, if_true] at hf
    exact hold hp hf
  | _ =>
    cases ha
    simp [Pc.begun?] at hf

theorem Inv.begun_step (hs : Inv l) (h : Moves l.sched a s')
    (hf : (s'.pcOf v).begun? = some f) : l.contexts a f = false := by
  have hkeep (hpc : (l.sched.pcOf v).begun? = some f) (hv : a.worker ≠ some v) :
      l.contexts a f = false := by
    have hn : l.sched.Names v f := .inl (fiber_of_begun hpc)
    rw [contexts_untouched (hs.single.namedKnown v f hn) fun w hw hw' =>
      hv (hw.trans (congrArg some (hs.single.unique f w v hw' hn)))]
    exact hs.begun v f hpc
  by_cases hv : a.worker = some v
  · exact hs.begun_worker h hv hf
  · rcases h.pcOf_other hv with hpc | hpc
    · exact hkeep (hpc ▸ hf) hv
    · rw [hpc] at hf
      cases hf

/-- A queued fiber is READY and has been entered. -/
theorem Inv.queued_step (hs : Inv l) (hg : CallbacksOnly l a) (h : Moves l.sched a s')
    (hf : f ∈ s'.queued) : s'.stateOf f = .ready ∧ l.contexts a f = false := by
  obtain ⟨thread, he⟩ := mem_queued.1 hf
  rcases h.entries he with he | he | ⟨w, site, g, rfl, he, hp, hr, hfibers⟩
  · have hq := mem_queued.2 ⟨thread, he⟩
    have hlt := hs.single.queuedKnown f hq
    have hfree : ∀ w, a.worker = some w → ¬ l.sched.Names w f := fun w _ => hs.free hq w
    rw [stateOf, h.untouched hlt hfree, contexts_untouched hlt hfree]
    exact ⟨hs.ready f hq, hs.begunQueued f hq⟩
  · obtain ⟨_, he⟩ := hg.scheduled he
    cases he
  · cases he
    have hbegun : l.atEntry f = false := hs.begun w f (by rw [hp]; rfl)
    refine ⟨?_, ?_⟩
    · rw [stateOf, hfibers]
      exact hr
    · simp only [contexts, hp]
      cases site with
      | own => exact hbegun
      | cb => simpa [contextsAt, hr, FiberState.finished] using hbegun

theorem Inv.asked_step (hs : Inv l) (hg : CallbacksOnly l a) (h : Moves l.sched a s')
    (he : ⟨.cb c, thread⟩ ∈ s'.mFibers) : (l.after a s').accepted[c]? = some thread := by
  rcases h.entries he with he | he | ⟨w, site, g, rfl, he, -⟩
  · have hasked := hs.asked c thread he
    simp only [after]
    rw [List.getElem?_append_left (List.getElem?_eq_some_iff.1 hasked).1]
    exact hasked
  · obtain ⟨_, hc⟩ := hg.scheduled he
    cases hc
    simp only [after, accepts, he]
    exact List.getElem?_concat_length
  · cases he

theorem Inv.ran_step (hs : Inv l) (h : Moves l.sched a s') (hp : p ∈ (l.after a s').started) :
    l.Allows p.1 p.2 := by
  rcases List.mem_append.1 hp with hp | hp
  · exact hs.ran p hp
  · cases ha : a.worker with
    | none =>
      cases a with
      | work w => cases ha
      | _ => cases hp
    | some w =>
      by_cases hb : a.scheduled = none
      · rcases hs.transfers h ha hb with
          ⟨-, hstarts, -⟩ | ⟨e, -, -, -, hstarts, -⟩ | ⟨-, hstarts, -⟩
        · rw [hstarts] at hp; cases hp
        · rw [hstarts] at hp; cases hp
        · rw [hstarts] at hp
          obtain ⟨c, hc, rfl⟩ := List.mem_map.1 hp
          exact hs.allowed w c (Option.mem_toList.1 hc)
      · cases a with
        | work w => exact absurd rfl hb
        | _ => cases hp

theorem Inv.step (hs : Inv l) (hg : CallbacksOnly l a) (h : Moves l.sched a s') :
    Inv (l.after a s') where
  counted := hs.counted.step h
  single := hs.single.step hs.counted (hs.unshared hg) h
  ready f hf := (hs.queued_step hg h hf).1
  begunQueued f hf := (hs.queued_step hg h hf).2
  begun _ _ hf := hs.begun_step h hf
  place c := by
    cases hb : a.scheduled with
    | none => exact hs.place_other h hb c
    | some e =>
      obtain ⟨thread, rfl⟩ := hg.scheduled hb
      exact hs.place_scheduled h hb c
  asked _ _ he := hs.asked_step hg h he
  allowed _ _ hc := (hs.allowed_step h hc).mono
  ran _ hp := (hs.ran_step h hp).mono

theorem step_eq (h : step l a = some l') : ∃ s', Moves l.sched a s' ∧ l' = l.after a s' := by
  obtain ⟨s', hs', rfl⟩ := Option.map_eq_some_iff.1 h
  exact ⟨s', step_moves hs', rfl⟩

theorem reach_inv (h : Reach step CallbacksOnly (initial n useCaller) l) : Inv l :=
  h.invariant (initial_inv n useCaller) fun hs hg ht => by
    obtain ⟨s', hm, rfl⟩ := step_eq ht
    exact hs.step hg hm

/-- The scan of the worker takes the earliest entry that is eligible for it, if there is one. -/
def TakesEarliest (s : Scheduler) (w : WorkerId) (s' : Scheduler) : Prop :=
  (∃ pre e post, s.mFibers = pre ++ e :: post ∧ (∀ d ∈ pre, s.eligible w d = false) ∧
    s.eligible w e = true ∧ s'.mFibers = pre ++ post ∧ s'.pcOf w = .picked e.task) ∨
  ((∀ d ∈ s.mFibers, s.eligible w d = false) ∧ s'.mFibers = s.mFibers ∧ s'.pcOf w = .missed)

theorem takesEarliest_of_scan (hp : l.sched.pcOf w = .scan) (h : step l (.work w) = some l') :
    TakesEarliest l.sched w l'.sched := by
  obtain ⟨s', hm, rfl⟩ := step_eq h
  cases hm with
  | pick _ he =>
    obtain ⟨pre, post, hq, herase, hpre, he⟩ := find?_splits he
    exact .inl ⟨pre, _, post, hq, hpre, he, herase, by simp [after]⟩
  | miss _ he =>
    exact .inr ⟨by simpa using he, rfl, by simp [after]⟩
  | _ => simp_all

/-- An accepted entry is in the queue or in one worker's hands or has been started once, and by a
worker it was scheduled for. -/
theorem entry_in_one_place (h : Reach step CallbacksOnly (initial n useCaller) l) :
    (∀ c < l.accepted.length, l.waiting c + l.carried c + l.timesStarted c = 1) ∧
      (∀ p ∈ l.started, l.Allows p.1 p.2) ∧
      ∀ w l', l.sched.pcOf w = .scan → step l (.work w) = some l' →
        TakesEarliest l.sched w l'.sched := by
  have hs := reach_inv h
  refine ⟨fun c hc => ?_, hs.ran, fun w l' => takesEarliest_of_scan⟩
  rw [hs.place c, if_pos hc]

/-- The first worker steps over the entry for the second one. -/
def twoEntries : List Act :=
  [.schedule (.cb 0) (some 1), .start, .schedule (.cb 1) none, .work 0, .work 0, .work 0, .work 0,
    .body 0 .yieldToReady, .work 1]

theorem entry_in_one_place_two_entries : ∃ l, Reach step CallbacksOnly (initial 2 false) l ∧
    l.started = [(1, 0)] ∧ l.inHand 1 = some 0 ∧
    (∀ c < l.accepted.length, l.waiting c + l.carried c + l.timesStarted c = 1) ∧
      (∀ p ∈ l.started, l.Allows p.1 p.2) ∧
      ∀ w l', l.sched.pcOf w = .scan → step l (.work w) = some l' →
        TakesEarliest l.sched w l'.sched := by
  obtain ⟨l, hl, hp⟩ := Reach.of_exec_map step CallbacksOnly (initial 2 false) twoEntries
    (fun l => decide (l.started = [(1, 0)] ∧ l.inHand 1 = some 0)) (by decide)
  obtain ⟨hstarted, hhand⟩ := of_decide_eq_true hp
  exact ⟨l, hl, hstarted, hhand, entry_in_one_place hl⟩

end Ledger
end SvrFrame
