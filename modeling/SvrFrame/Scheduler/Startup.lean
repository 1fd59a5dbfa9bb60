import SvrFrame.Scheduler.Drain

namespace SvrFrame
open Library
set_option autoImplicit true

/-- What `start` and `stop` of a scheduler without `use_caller` read and write. -/
structure Startup where
  mStopping : Bool
  mAutoStop : Bool
  mThreadCount : Nat
  /-- `m_threads`, with `none` for a null `Thread::ptr`. -/
  mThreads : List (Option WorkerId)
  mThreadIds : List WorkerId
  deriving DecidableEq, Repr

namespace Startup

inductive Outcome where
  | returned
  | threw
  | asserted
  | nullThread
  deriving DecidableEq, Repr

def built (threads : Nat) : Startup := ⟨true, false, threads, [], []⟩

/-- The loop of `start` from index `i` on. `create i` is the thread that iteration `i` makes, `none`
where `pthread_create` fails and the constructor of `Thread` throws. -/
def startLoop (create : Nat → Option WorkerId) : Nat → Nat → Startup → Outcome × Startup
  | 0, _, s => (.returned, s)
  | rest + 1, i, s =>
    match create i with
    | none => (.threw, s)
    | some t =>
      startLoop create rest (i + 1)
        { s with mThreads := s.mThreads.set i (some t), mThreadIds := s.mThreadIds ++ [t] }

def start (s : Startup) (create : Nat → Option WorkerId) : Outcome × Startup :=
  if s.mStopping = false then (.returned, s)
  else if s.mThreads ≠ [] then (.asserted, { s with mStopping := false })
  else startLoop create s.mThreadCount 0
    { s with mStopping := false, mThreads := List.replicate s.mThreadCount none }

/-- The loop at the end of `stop`; `pthread_join` fails for the threads that `joins` denies. -/
def joinAll (joins : WorkerId → Bool) : List (Option WorkerId) → Outcome
  | [] => .returned
  | none :: _ => .nullThread
  | some t :: thrs => if joins t then joinAll joins thrs else .threw

/-- `stop`, called by a thread that is none of the workers. -/
def stop (s : Startup) (joins : WorkerId → Bool) : Outcome × Startup :=
  (joinAll joins s.mThreads, { s with mAutoStop := true, mStopping := true, mThreads := [] })

inductive Call where
  | start (create : Nat → Option WorkerId)
  | stop (joins : WorkerId → Bool)

/-- A call that comes back to its caller, with an exception or without. -/
def after : Outcome × Startup → Option Startup
  | (.returned, s) | (.threw, s) => some s
  | (.asserted, _) | (.nullThread, _) => none

def step (s : Startup) : Call → Option Startup
  | .start create => after (s.start create)
  | .stop joins => after (s.stop joins)

section Loop
variable (s : Startup) (create : Nat → Option WorkerId)

/-- The state in which iteration `i` of the loop in `start` begins. -/
def loopState (i : Nat) : Startup :=
  { s with
    mStopping := false
    mThreads := (List.range i).map create ++ List.replicate (s.mThreadCount - i) none
    mThreadIds := s.mThreadIds ++ (List.range i).filterMap create }

theorem startLoop_step (h : i < s.mThreadCount) (ht : create i = some t) :
    startLoop create (s.mThreadCount - i) i (s.loopState create i) =
      startLoop create (s.mThreadCount - (i + 1)) (i + 1) (s.loopState create (i + 1)) := by
  obtain ⟨rest, hrest⟩ := Nat.exists_eq_add_one_of_ne_zero (Nat.sub_ne_zero_of_lt h)
  have hrest' : s.mThreadCount - (i + 1) = rest := by omega
  rw [hrest, startLoop, ht, hrest']
  have hthreads : (s.loopState create i).mThreads.set i (some t) =
      (s.loopState create (i + 1)).mThreads := by
    simp only [loopState, hrest, hrest', List.range_succ, List.map_append, List.map_cons,
      List.map_nil, ht, List.append_assoc]
    rw [List.set_append_right _ _ (by simp)]
    simp [List.replicate_succ]
  have hids : (s.loopState create i).mThreadIds ++ [t] =
      (s.loopState create (i + 1)).mThreadIds := by
    simp [loopState, List.range_succ, ht]
  simp only [hthreads, hids]
  rfl

theorem startLoop_reaches (hk : k ≤ s.mThreadCount) (hmade : ∀ i < k, (create i).isSome) :
    startLoop create s.mThreadCount 0 (s.loopState create 0) =
      startLoop create (s.mThreadCount - k) k (s.loopState create k) := by
  induction k with
  | zero => rfl
  | succ k ih =>
    obtain ⟨t, ht⟩ := Option.isSome_iff_exists.1 (hmade k (Nat.lt_succ_self k))
    rw [ih (Nat.le_of_succ_le hk) fun i hi => hmade i (Nat.lt_succ_of_lt hi)]
    exact startLoop_step s create hk ht

theorem start_loop (hs : s.mStopping = true) (hempty : s.mThreads = []) :
    s.start create = startLoop create s.mThreadCount 0 (s.loopState create 0) := by
  simp [start, loopState, hs, hempty]

theorem start_threw (hs : s.mStopping = true) (hempty : s.mThreads = []) (hk : k < s.mThreadCount)
    (hmade : ∀ i < k, (create i).isSome) (hfail : create k = none) :
    s.start create = (.threw, s.loopState create k) := by
  obtain ⟨rest, hrest⟩ := Nat.exists_eq_add_one_of_ne_zero (Nat.sub_ne_zero_of_lt hk)
  rw [start_loop s create hs hempty, startLoop_reaches s create (Nat.le_of_lt hk) hmade, hrest,
    startLoop, hfail]

theorem start_returned (hs : s.mStopping = true) (hempty : s.mThreads = [])
    (hmade : ∀ i < s.mThreadCount, (create i).isSome) :
    s.start create = (.returned, s.loopState create s.mThreadCount) := by
  rw [start_loop s create hs hempty, startLoop_reaches s create (Nat.le_refl _) hmade,
    Nat.sub_self, startLoop]

end Loop

/-- A `start` that does not fail is the one step that the workers' model makes of it. -/
theorem start_startAll {s : Startup} {sched : Scheduler} (hs : s.mStopping = true)
    (hempty : s.mThreads = []) (hcount : s.mThreadCount = sched.mThreadCount)
    (hsched : sched.Counted) (hfresh : sched.phase = .fresh) :
    ∃ s', s.start some = (.returned, s') ∧ s'.mStopping = sched.startAll.mStopping ∧
      ∀ w, some w ∈ s'.mThreads ↔ sched.startAll.pcOf w = .scan := by
  refine ⟨_, start_returned s some hs hempty fun _ _ => rfl, rfl, fun w => ?_⟩
  have hunborn := hsched.fresh hfresh w
  simp only [loopState, Nat.sub_self, List.replicate_zero, List.append_nil, List.mem_map,
    List.mem_range, Option.some.injEq, exists_eq_right, hcount]
  simp only [Scheduler.pcOf, Scheduler.startAll] at hunborn ⊢
  split
  · rename_i hw
    simp [hw]
  · rename_i hw
    simp [hw, hunborn]

/-- Between the calls, a scheduler that may be started has no threads. -/
structure Settled (n : Nat) (s : Startup) : Prop where
  count : s.mThreadCount = n
  empty : s.mStopping = true → s.mThreads = []

theorem after_eq_some {r : Outcome × Startup} (h : after r = some s') : s' = r.2 := by
  obtain ⟨outcome, s⟩ := r
  cases outcome with
  | returned | threw => cases h; rfl
  | asserted | nullThread => cases h

theorem startLoop_fields (create : Nat → Option WorkerId) (rest i : Nat) (s : Startup) :
    (startLoop create rest i s).2.mThreadCount = s.mThreadCount ∧
      (startLoop create rest i s).2.mStopping = s.mStopping := by
  induction rest generalizing i s with
  | zero => exact ⟨rfl, rfl⟩
  | succ rest ih =>
    rw [startLoop]
    cases create i with
    | none => exact ⟨rfl, rfl⟩
    | some t => exact ih (i + 1) _

theorem Settled.start {s : Startup} (hs : Settled n s) (create : Nat → Option WorkerId) :
    Settled n (s.start create).2 := by
  simp only [Startup.start]
  split
  · exact hs
  · split
    · exact ⟨hs.count, fun h => by cases h⟩
    · obtain ⟨hcount, hstopping⟩ := startLoop_fields create s.mThreadCount 0
        { s with mStopping := false, mThreads := List.replicate s.mThreadCount none }
      exact ⟨hcount.trans hs.count, fun h => by rw [hstopping] at h; cases h⟩

theorem Settled.step {s : Startup} (hs : Settled n s) (h : s.step c = some s') :
    Settled n s' := by
  cases c with
  | start create => exact after_eq_some h ▸ hs.start create
  | stop joins => exact after_eq_some h ▸ ⟨hs.count, fun _ => rfl⟩

theorem reach_settled (h : Reach step (fun _ _ => True) (built n) s) : Settled n s :=
  h.invariant ⟨rfl, fun _ => rfl⟩ fun hs _ ht => hs.step ht

theorem joinAll_null {joins : WorkerId → Bool} {made : List (Option WorkerId)}
    (hmade : ∀ t ∈ made, ∃ w, t = some w ∧ joins w = true) :
    joinAll joins (made ++ none :: rest) = .nullThread := by
  induction made with
  | nil => rfl
  | cons t made ih =>
    obtain ⟨w, rfl, hw⟩ := hmade t List.mem_cons_self
    rw [List.cons_append, joinAll, if_pos hw]
    exact ih fun t ht => hmade t (List.mem_cons_of_mem _ ht)

/-- Whatever calls of `start` and `stop` came before, a `start` in which the constructor of thread
`k` throws leaves the scheduler started, with null pointers for the threads from `k` on: the next
`start` makes no thread, and the next `stop` has a null pointer to follow once it has joined the
threads before. -/
theorem failed_start_never_stoppable {n : Nat} {s : Startup}
    (h : Reach step (fun _ _ => True) (built n) s) (hs : s.mStopping = true)
    (create : Nat → Option WorkerId) {k : Nat} (hk : k < n)
    (hmade : ∀ i < k, (create i).isSome) (hfail : create k = none) :
    ∃ s', s.start create = (.threw, s') ∧ s'.mStopping = false ∧ none ∈ s'.mThreads ∧
      (∀ create', s'.start create' = (.returned, s')) ∧
      ∀ joins : WorkerId → Bool, (∀ i < k, ∀ w, create i = some w → joins w) →
        (s'.stop joins).1 = .nullThread := by
  have hsettled := reach_settled h
  have hlt : k < s.mThreadCount := hsettled.count ▸ hk
  obtain ⟨rest, hrest⟩ := Nat.exists_eq_add_one_of_ne_zero (Nat.sub_ne_zero_of_lt hlt)
  have hthreads : (s.loopState create k).mThreads =
      (List.range k).map create ++ none :: List.replicate rest none := by
    simp only [loopState, hrest, List.replicate_succ]
  refine ⟨_, start_threw s create hs (hsettled.empty hs) hlt hmade hfail, rfl, ?_, ?_, ?_⟩
  · rw [hthreads]
    exact List.mem_append_right _ List.mem_cons_self
  · intro create'
    exact if_pos rfl
  · intro joins hjoins
    rw [stop, hthreads]
    apply joinAll_null
    intro t ht
    obtain ⟨i, hi, rfl⟩ := List.mem_map.1 ht
    have hi := List.mem_range.1 hi
    obtain ⟨w, hw⟩ := Option.isSome_iff_exists.1 (hmade i hi)
    exact ⟨w, hw, hjoins i hi w hw⟩

/-- The second of two threads cannot be made, after a `start` and a `stop` that succeeded. -/
theorem failed_start_never_stoppable_second :
    ∃ s s', s.start (fun i => if i = 0 then some 7 else none) = (.threw, s') ∧
      s'.mThreads = [some 7, none] ∧ (s'.start some).2.mThreads = [some 7, none] ∧
      (s'.stop fun _ => true).1 = .nullThread ∧
      s = (((built 2).start some).2.stop fun _ => true).2 := by
  have h : Reach step (fun _ _ => True) (built 2)
      (((built 2).start some).2.stop fun _ => true).2 :=
    .tail (a := .stop fun _ => true) (.tail (a := .start some) .refl trivial rfl) trivial rfl
  obtain ⟨s', hstart, -, -, hagain, hstop⟩ := failed_start_never_stoppable h rfl
    (fun i => if i = 0 then some 7 else none) (k := 1) (by decide) (by decide) rfl
  have hs' : s'.mThreads = [some 7, none] := by
    cases hstart
    rfl
  refine ⟨_, s', hstart, hs', ?_, hstop _ fun _ _ _ _ => rfl, rfl⟩
  rw [hagain]
  exact hs'

/-- The first thread cannot be made: the scheduler is not as before `start`, another `start` makes
no thread either, and `stop` follows a null pointer. -/
theorem failed_start_not_stoppable :
    ∃ s', (built 1).start (fun _ => none) = (.threw, s') ∧ s' ≠ built 1 ∧
      s'.mThreads = [none] ∧ s'.start some = (.returned, s') ∧
      (s'.stop fun _ => true).1 = .nullThread :=
  ⟨_, rfl, by decide, rfl, rfl, rfl⟩

end Startup
end SvrFrame
