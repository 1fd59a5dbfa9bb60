import SvrFrame.Fiber
import SvrFrame.Scheduler.Startup

namespace SvrFrame
open Library
set_option autoImplicit true

/-- What `start` and `stop` read and write, with the members that belong to `use_caller`. -/
structure CallerStartup extends Startup where
  /-- `m_rootThread`, with `none` for -1. -/
  mRootThread : Option WorkerId
  /-- The state of `m_rootFiber`, with `none` for a null pointer. -/
  mRootFiber : Option FiberState
  deriving DecidableEq, Repr

namespace CallerStartup
open Startup (Outcome joinAll)

/-- `Scheduler::Scheduler`, called by the thread `caller`; its assertion fails for no threads. -/
def built (threads : Nat) (useCaller : Bool) (caller : WorkerId) : Option CallerStartup :=
  if threads = 0 then none
  else if useCaller then
    some ⟨⟨true, false, threads - 1, [], [caller]⟩, some caller, some .init⟩
  else some ⟨Startup.built threads, none, none⟩

def start (s : CallerStartup) (create : Nat → Option WorkerId) : Outcome × CallerStartup :=
  let r := s.toStartup.start create
  (r.1, { s with toStartup := r.2 })

/-- How the `run` that the root fiber executes comes out. It is `away` when control never comes
back behind the `call()` of `stop`. -/
inductive RootRun where
  | returns
  | throws
  | away
  deriving DecidableEq

/-- What the surroundings answer in one `stop`. -/
structure Answers where
  /-- `stopping()` in the branch for a scheduler without threads of its own. -/
  stoppingEarly : Bool
  /-- `stopping()` before the `call()` of the root fiber. -/
  stopping : Bool
  rootRun : RootRun
  joins : WorkerId → Bool

/-- `m_rootFiber->call()` for a root fiber in the state `st`. One that has ended goes on behind the
last switch of its `MainFunc`, where the assertion says that nobody gets. -/
def callRoot (s : CallerStartup) (st : FiberState) (rootRun : RootRun) :
    Option (Outcome × CallerStartup) :=
  if st.finished then some (.asserted, { s with mRootFiber := some .exec })
  else
    match rootRun with
    | .returns => some (.returned, { s with mRootFiber := some .term })
    | .throws => some (.returned, { s with mRootFiber := some .except })
    | .away => none

def joinThreads (s : CallerStartup) (joins : WorkerId → Bool) : Outcome × CallerStartup :=
  (joinAll joins s.mThreads, { s with mThreads := [] })

def stopsEarly (s : CallerStartup) : Bool :=
  s.mThreadCount = 0 && (s.mRootFiber = some .term || s.mRootFiber = some .init)

/-- `stop`, called by the thread that has built the scheduler; `none` when it never ends. -/
def stop (s : CallerStartup) (a : Answers) : Option (Outcome × CallerStartup) :=
  let s' := { s with mAutoStop := true, mStopping := true }
  if s.stopsEarly && a.stoppingEarly then some (.returned, s')
  else
    match s.mRootFiber, a.stopping with
    | some st, false =>
      match s'.callRoot st a.rootRun with
      | some (.returned, s'') => some (s''.joinThreads a.joins)
      | r => r
    | _, _ => some (s'.joinThreads a.joins)

/-- Without `use_caller` this is the `stop` of a scheduler that has workers only. -/
theorem stop_noCaller (s : CallerStartup) (a : Answers) (hroot : s.mRootFiber = none) :
    s.stop a = some ((s.toStartup.stop a.joins).1,
      { s with toStartup := (s.toStartup.stop a.joins).2 }) := by
  have hearly : s.stopsEarly = false := by simp [stopsEarly, hroot]
  simp only [stop, hearly, hroot]
  rfl

/-- A `start` and a `stop` with what they meet; what the tasks do in between shows in the answers
of `stopping()`. -/
structure Cycle extends Answers where
  create : Nat → Option WorkerId

/-- One cycle in which both calls return. -/
def cycle (s : CallerStartup) (c : Cycle) : Option CallerStartup :=
  match s.start c.create with
  | (.returned, s') =>
    match s'.stop c.toAnswers with
    | some (.returned, s'') => some s''
    | _ => none
  | _ => none

/-- The threads that execute `run`, the caller included. -/
def alive (s : CallerStartup) : List WorkerId :=
  s.mRootThread.toList ++ s.mThreads.filterMap id

/-- This `stop` gets to the `call()` of the root fiber. -/
def CallsRoot (s : CallerStartup) (a : Answers) : Prop :=
  s.mRootFiber.isSome ∧ (s.stopsEarly && a.stoppingEarly) = false ∧ a.stopping = false

instance (s : CallerStartup) (a : Answers) : Decidable (s.CallsRoot a) :=
  inferInstanceAs (Decidable (_ ∧ _))

/-- The ids of the threads that the `start` of a cycle makes. -/
def Cycle.made (n : Nat) (c : Cycle) : List WorkerId :=
  (List.range n).filterMap c.create

/-- The state `s'` after a `start` is the one that a first `start` gives, but for `m_autoStop`, on
which `stopping()` does not depend before the next `stop` sets it. -/
structure AsFirst (s₀ : CallerStartup) (create : Nat → Option WorkerId) (s' : CallerStartup) :
    Prop where
  state : { s' with mAutoStop := false } = (s₀.start create).2
  ids : s'.mThreadIds = s'.alive
  resumable : s'.mRootFiber = none ∨ s'.mRootFiber = some .init
  stops : ∀ a s'', s'.stop a ≠ some (.asserted, s'')

section Start
variable {s s' : CallerStartup} {create : Nat → Option WorkerId}

theorem start_made (hs : s.mStopping = true) (hempty : s.mThreads = [])
    (h : s.start create = (.returned, s')) :
    ∀ k ≤ s.mThreadCount, ∀ i < k, (create i).isSome := by
  intro k
  induction k with
  | zero => exact fun _ i hi => absurd hi (Nat.not_lt_zero i)
  | succ k ih =>
    intro hk
    have hbefore := ih (Nat.le_of_succ_le hk)
    have hmade : (create k).isSome := by
      rw [Option.isSome_iff_ne_none]
      intro hnone
      have hthrew := Startup.start_threw s.toStartup create hs hempty hk hbefore hnone
      rw [start, hthrew] at h
      cases h
    exact Nat.forall_lt_succ_right.2 ⟨hbefore, hmade⟩

theorem start_eq (hs : s.mStopping = true) (hempty : s.mThreads = [])
    (h : s.start create = (.returned, s')) :
    s' = { s with toStartup := s.toStartup.loopState create s.mThreadCount } := by
  have hloop := Startup.start_returned s.toStartup create hs hempty
    (start_made hs hempty h _ le_rfl)
  rw [start, hloop] at h
  cases h
  rfl

end Start

section Stop
variable {s s' u : CallerStartup} {a : Answers}

theorem callsRoot_congr (hcount : s'.mThreadCount = s.mThreadCount)
    (hroot : s'.mRootFiber = s.mRootFiber) : s'.CallsRoot a ↔ s.CallsRoot a := by
  simp only [CallsRoot, stopsEarly, hcount, hroot]

/-- What a `stop` that returns has done. -/
structure Stopped (s : CallerStartup) (a : Answers) (u : CallerStartup) : Prop where
  count : u.mThreadCount = s.mThreadCount
  ids : u.mThreadIds = s.mThreadIds
  rootThread : u.mRootThread = s.mRootThread
  stopping : u.mStopping = true
  empty : s.mThreads.length = s.mThreadCount → u.mThreads = []
  kept : ¬s.CallsRoot a → u.mRootFiber = s.mRootFiber
  called : s.CallsRoot a → (∀ st, s.mRootFiber = some st → st.finished = false) ∧
    ∃ st, u.mRootFiber = some st ∧ st.finished = true

theorem callRoot_returned (h : s.callRoot st rootRun = some (.returned, u)) :
    st.finished = false ∧
      ∃ st', st'.finished = true ∧ u = { s with mRootFiber := some st' } := by
  unfold callRoot at h
  split at h
  · cases h
  · rename_i hst
    rw [Bool.not_eq_true] at hst
    cases rootRun with
    | returns =>
      cases h
      exact ⟨hst, .term, rfl, rfl⟩
    | throws =>
      cases h
      exact ⟨hst, .except, rfl, rfl⟩
    | away => cases h

theorem stop_returned (h : s.stop a = some (.returned, u)) : Stopped s a u := by
  rw [stop] at h
  split at h
  · rename_i hearly
    cases h
    have hcount : s.mThreadCount = 0 := by
      simp only [stopsEarly, Bool.and_eq_true, decide_eq_true_eq] at hearly
      exact hearly.1.1
    exact ⟨rfl, rfl, rfl, rfl, fun hlen => List.eq_nil_of_length_eq_zero (hlen.trans hcount),
      fun _ => rfl, fun hcalls => absurd (hearly.symm.trans hcalls.2.1) (by decide)⟩
  · rename_i hearly
    rw [Bool.not_eq_true] at hearly
    split at h
    · rename_i st hst hstopping
      have hcalls : s.CallsRoot a := ⟨by rw [hst]; rfl, hearly, hstopping⟩
      split at h
      · rename_i s'' hcall
        obtain ⟨hfinished, st', hst', rfl⟩ := callRoot_returned hcall
        obtain ⟨-, rfl⟩ := Prod.mk.inj (Option.some.inj h)
        refine ⟨rfl, rfl, rfl, rfl, fun _ => rfl, fun hnot => absurd hcalls hnot, fun _ => ?_⟩
        refine ⟨fun st₁ hst₁ => ?_, st', rfl, hst'⟩
        cases hst.symm.trans hst₁
        exact hfinished
      · rename_i hnot
        exact absurd h (hnot u)
    · rename_i hnot
      obtain ⟨-, rfl⟩ := Prod.mk.inj (Option.some.inj h)
      refine ⟨rfl, rfl, rfl, rfl, fun _ => rfl, fun _ => rfl, fun hcalls => ?_⟩
      obtain ⟨st, hst⟩ := Option.isSome_iff_exists.1 hcalls.1
      exact absurd hcalls.2.2 (hnot st hst)

end Stop

theorem cycle_some {s u : CallerStartup} {c : Cycle} (h : s.cycle c = some u) :
    ∃ s', s.start c.create = (.returned, s') ∧ s'.stop c.toAnswers = some (.returned, u) := by
  rw [cycle] at h
  split at h
  · rename_i s' hstart
    split at h
    · rename_i s'' hstop
      cases h
      exact ⟨s', hstart, hstop⟩
    · cases h
  · cases h

/-- Where a scheduler that began in `s₀` stands after the cycles `cs`. -/
structure Between (s₀ : CallerStartup) (cs : List Cycle) (s : CallerStartup) : Prop where
  count : s.mThreadCount = s₀.mThreadCount
  rootThread : s.mRootThread = s₀.mRootThread
  stopping : s.mStopping = true
  empty : s.mThreads = []
  ids : s.mThreadIds = s₀.mThreadIds ++ cs.flatMap (Cycle.made s₀.mThreadCount)
  made : ∀ c ∈ cs, (c.made s₀.mThreadCount).length = s₀.mThreadCount
  kept : (∀ c ∈ cs, ¬s₀.CallsRoot c.toAnswers) → s.mRootFiber = s₀.mRootFiber
  called : ¬(∀ c ∈ cs, ¬s₀.CallsRoot c.toAnswers) →
    ∃ st, s.mRootFiber = some st ∧ st.finished = true

section Cycles
variable {s₀ s s' : CallerStartup} {create : Nat → Option WorkerId}

theorem made_length {n : Nat} (hmade : ∀ i < n, (create i).isSome) :
    ((List.range n).filterMap create).length = n := by
  induction n with
  | zero => rfl
  | succ n ih =>
    obtain ⟨t, ht⟩ := Option.isSome_iff_exists.1 (hmade n (Nat.lt_succ_self n))
    rw [List.range_succ, List.filterMap_append, List.length_append,
      ih fun i hi => hmade i (Nat.lt_succ_of_lt hi)]
    simp [ht]

theorem Between.start (hs : Between s₀ cs s) (h : s.start create = (.returned, s')) :
    s' = { s with toStartup := s.toStartup.loopState create s₀.mThreadCount } ∧
      ∀ i < s₀.mThreadCount, (create i).isSome := by
  rw [← hs.count]
  exact ⟨start_eq hs.stopping hs.empty h, start_made hs.stopping hs.empty h _ le_rfl⟩

/-- A cycle without the call of the root fiber, after others like it. -/
theorem Between.cycle_kept (hs : Between s₀ cs s) (hcount : s'.mThreadCount = s₀.mThreadCount)
    (hroot : s'.mRootFiber = s.mRootFiber) (hu : Stopped s' c.toAnswers u)
    (hnone : ∀ d ∈ cs ++ [c], ¬s₀.CallsRoot d.toAnswers) : u.mRootFiber = s₀.mRootFiber := by
  have hkept := hroot.trans (hs.kept fun d hd => hnone d (List.mem_append_left _ hd))
  have hcalls := hnone c (by simp)
  rw [← callsRoot_congr hcount hkept] at hcalls
  exact (hu.kept hcalls).trans hkept

theorem Between.cycle_called (hs : Between s₀ cs s) (hcount : s'.mThreadCount = s₀.mThreadCount)
    (hroot : s'.mRootFiber = s.mRootFiber) (hu : Stopped s' c.toAnswers u)
    (hsome : ¬∀ d ∈ cs ++ [c], ¬s₀.CallsRoot d.toAnswers) :
    ∃ st, u.mRootFiber = some st ∧ st.finished = true := by
  by_cases hbefore : ∀ d ∈ cs, ¬s₀.CallsRoot d.toAnswers
  · -- The first call of the root fiber is the one of this cycle.
    have hkept := hroot.trans (hs.kept hbefore)
    have hcalls : s'.CallsRoot c.toAnswers := by
      rw [callsRoot_congr hcount hkept]
      by_contra hcalls
      apply hsome
      intro d hd
      rcases List.mem_append.1 hd with hd | hd
      · exact hbefore d hd
      · cases List.mem_singleton.1 hd
        exact hcalls
    exact (hu.called hcalls).2
  · -- The root fiber has ended before, so that this `stop` has not called it.
    obtain ⟨st, hst, hfinished⟩ := hs.called hbefore
    have hcalls : ¬s'.CallsRoot c.toAnswers := by
      intro hcalls
      have hlive := (hu.called hcalls).1 st (hroot.trans hst)
      rw [hfinished] at hlive
      cases hlive
    exact ⟨st, (hu.kept hcalls).trans (hroot.trans hst), hfinished⟩

theorem Between.cycle (hs : Between s₀ cs s) (h : s.cycle c = some u) :
    Between s₀ (cs ++ [c]) u := by
  obtain ⟨s', hstart, hstop⟩ := cycle_some h
  obtain ⟨heq, hmade⟩ := hs.start hstart
  have hu := stop_returned hstop
  have hcount : s'.mThreadCount = s₀.mThreadCount := by
    rw [heq]
    exact hs.count
  have hroot : s'.mRootFiber = s.mRootFiber := by rw [heq]
  constructor
  · exact hu.count.trans hcount
  · rw [hu.rootThread, heq]
    exact hs.rootThread
  · exact hu.stopping
  · apply hu.empty
    rw [hcount, heq]
    simp [Startup.loopState, hs.count]
  · rw [hu.ids, heq, List.flatMap_append, List.flatMap_singleton, ← List.append_assoc, ← hs.ids]
    rfl
  · intro d hd
    rcases List.mem_append.1 hd with hd | hd
    · exact hs.made d hd
    · cases List.mem_singleton.1 hd
      exact made_length hmade
  · exact hs.cycle_kept hcount hroot hu
  · exact hs.cycle_called hcount hroot hu

theorem Between.alive (hs : Between s₀ cs s) (h : s.start create = (.returned, s')) :
    s'.alive = s₀.mRootThread.toList ++ (List.range s₀.mThreadCount).filterMap create := by
  rw [(hs.start h).1, CallerStartup.alive]
  simp [Startup.loopState, hs.count, hs.rootThread, List.filterMap_map]

theorem Between.threadIds (hs : Between s₀ cs s) (h : s.start create = (.returned, s')) :
    s'.mThreadIds = s₀.mThreadIds ++ cs.flatMap (Cycle.made s₀.mThreadCount) ++
      (List.range s₀.mThreadCount).filterMap create := by
  rw [(hs.start h).1, ← hs.ids]
  rfl

theorem Between.made_nil (hs : Between s₀ cs s) :
    cs.flatMap (Cycle.made s₀.mThreadCount) = [] ↔ cs = [] ∨ s₀.mThreadCount = 0 := by
  rw [List.flatMap_eq_nil_iff]
  constructor
  · intro hnil
    cases cs with
    | nil => exact .inl rfl
    | cons c cs =>
      right
      rw [← hs.made c List.mem_cons_self, hnil c List.mem_cons_self]
      rfl
  · rintro (rfl | hzero) c hc
    · cases hc
    · exact List.eq_nil_of_length_eq_zero ((hs.made c hc).trans hzero)

theorem joinAll_ne_asserted (joins : WorkerId → Bool) (thrs : List (Option WorkerId)) :
    joinAll joins thrs ≠ .asserted := by
  induction thrs with
  | nil => simp [joinAll]
  | cons t thrs ih =>
    cases t with
    | none => simp [joinAll]
    | some t =>
      rw [joinAll]
      split
      · exact ih
      · decide

theorem callRoot_live (hst : st.finished = false)
    (h : s.callRoot st rootRun = some (o, s')) : o = .returned := by
  unfold callRoot at h
  rw [if_neg (by rw [hst]; decide)] at h
  cases rootRun with
  | returns | throws =>
    cases h
    rfl
  | away => cases h

/-- A root fiber that is new does not fail the assertion behind its last switch. -/
theorem stop_not_asserted (hroot : s.mRootFiber = none ∨ s.mRootFiber = some .init) (a : Answers)
    (s' : CallerStartup) : s.stop a ≠ some (.asserted, s') := by
  intro h
  rw [stop] at h
  split at h
  · cases h
  · split at h
    · rename_i st hst hstopping
      have hlive : st.finished = false := by
        rcases hroot with hr | hr
        · cases hr.symm.trans hst
        · cases hr.symm.trans hst
          rfl
      split at h
      · exact joinAll_ne_asserted _ _ (Prod.mk.inj (Option.some.inj h)).1
      · cases callRoot_live hlive h
    · exact joinAll_ne_asserted _ _ (Prod.mk.inj (Option.some.inj h)).1

/-- Whoever calls a root fiber that has ended gets behind its last switch. -/
theorem stop_ended (hst : s.mRootFiber = some st) (hfinished : st.finished = true)
    (hcalls : s.CallsRoot a) : ∃ s', s.stop a = some (.asserted, s') := by
  obtain ⟨-, hearly, hstopping⟩ := hcalls
  simp only [stop, hearly, hst, hstopping, callRoot, hfinished]
  exact ⟨_, rfl⟩

theorem Between.first (hstopping : s₀.mStopping = true) (hempty : s₀.mThreads = []) :
    Between s₀ [] s₀ where
  count := rfl
  rootThread := rfl
  stopping := hstopping
  empty := hempty
  ids := (List.append_nil _).symm
  made := fun _ hc => by cases hc
  kept := fun _ => rfl
  called := fun h => absurd (fun _ hc => by cases hc) h

theorem built_between (h : built threads useCaller caller = some s₀) :
    Between s₀ [] s₀ ∧ s₀.mAutoStop = false ∧ s₀.mThreadIds = s₀.mRootThread.toList ∧
      (s₀.mRootFiber = none ∨ s₀.mRootFiber = some .init) := by
  rw [built] at h
  split at h
  · cases h
  · split at h
    · cases h
      exact ⟨.first rfl rfl, rfl, rfl, .inr rfl⟩
    · cases h
      exact ⟨.first rfl rfl, rfl, rfl, .inl rfl⟩

/-- Cycles that have left no trace in the list of ids and in the root fiber have left none. -/
theorem Between.start_same (hs : Between s₀ cs s) (hfirst : Between s₀ [] s₀)
    (hauto : s₀.mAutoStop = false) (hnil : cs.flatMap (Cycle.made s₀.mThreadCount) = [])
    (hkept : s.mRootFiber = s₀.mRootFiber) (h : s.start create = (.returned, s')) :
    { s' with mAutoStop := false } = (s₀.start create).2 := by
  obtain ⟨heq, hmade⟩ := hs.start h
  have hids := hs.ids
  rw [hnil, List.append_nil] at hids
  rw [CallerStartup.start, Startup.start_returned _ _ hfirst.stopping hfirst.empty hmade, heq]
  simp only [Startup.loopState, hs.count, hs.rootThread, hids, hkept, hauto]

/-- After any completed cycles, a `start` gives what a first one gives if and only if there has
been no cycle or there are no threads to make, and no `stop` had to call the root fiber. -/
theorem start_as_first_iff {threads : Nat} {useCaller : Bool} {caller : WorkerId}
    {s₀ s s' : CallerStartup} {cs : List Cycle} {create : Nat → Option WorkerId}
    (hbuilt : built threads useCaller caller = some s₀)
    (hcs : runAll CallerStartup.cycle s₀ cs = some s)
    (hstart : s.start create = (.returned, s')) :
    AsFirst s₀ create s' ↔
      (cs = [] ∨ s₀.mThreadCount = 0) ∧ ∀ c ∈ cs, ¬s₀.CallsRoot c.toAnswers := by
  obtain ⟨hfirst, hauto, hids, hroot⟩ := built_between hbuilt
  have hs : Between s₀ cs s := runAll_trace hcs hfirst Between.cycle
  have hroot' : s'.mRootFiber = s.mRootFiber := by rw [(hs.start hstart).1]
  constructor
  · intro h
    constructor
    · have hlists := h.ids
      rw [hs.threadIds hstart, hs.alive hstart, hids, List.append_assoc] at hlists
      rw [← hs.made_nil]
      exact List.append_left_eq_self.1 (List.append_cancel_left hlists)
    · by_contra hcalled
      obtain ⟨st, hst, hfinished⟩ := hs.called hcalled
      -- A `stop` that finds work when it is about to join the threads.
      have hcalls : s'.CallsRoot ⟨false, false, .returns, fun _ => true⟩ :=
        ⟨by rw [hroot', hst]; rfl, Bool.and_false _, rfl⟩
      obtain ⟨u, hu⟩ := stop_ended (hroot'.trans hst) hfinished hcalls
      exact h.stops _ u hu
  · rintro ⟨hmade, hnone⟩
    have hkept := hs.kept hnone
    have hnil := hs.made_nil.2 hmade
    have hresumable : s'.mRootFiber = none ∨ s'.mRootFiber = some .init := by
      rw [hroot', hkept]
      exact hroot
    constructor
    · exact hs.start_same hfirst hauto hnil hkept hstart
    · rw [hs.threadIds hstart, hs.alive hstart, hids, hnil, List.append_nil]
    · exact hresumable
    · exact stop_not_asserted hresumable

/-- The calling thread is the only worker, and there is nothing to be run in the cycle before. -/
theorem start_as_first_caller :
    ∃ s₀ s s', built 1 true 5 = some s₀ ∧
      runAll CallerStartup.cycle s₀ [⟨⟨true, false, .away, fun _ => true⟩, fun _ => none⟩] =
        some s ∧
      s.start (fun _ => none) = (.returned, s') ∧ s'.mAutoStop = true ∧
      AsFirst s₀ (fun _ => none) s' :=
  ⟨_, _, _, rfl, rfl, rfl, rfl, (@start_as_first_iff 1 true 5 _ _ _
    [⟨⟨true, false, .away, fun _ => true⟩, fun _ => none⟩] (fun _ => none) rfl rfl rfl).2
    ⟨.inr rfl, by decide⟩⟩

/-- The worker of the first cycle is still listed when the one of the second cycle runs. -/
theorem start_lists_dead :
    ∃ s₀ s s', built 1 false 5 = some s₀ ∧
      runAll CallerStartup.cycle s₀ [⟨⟨true, true, .returns, fun _ => true⟩, fun _ => some 7⟩] =
        some s ∧
      s.start (fun _ => some 8) = (.returned, s') ∧ s'.mThreadIds = [7, 8] ∧ s'.alive = [8] ∧
      ¬AsFirst s₀ (fun _ => some 8) s' :=
  ⟨_, _, _, rfl, rfl, rfl, rfl, rfl, fun h => absurd h.ids (by decide)⟩

end Cycles

end CallerStartup
end SvrFrame
