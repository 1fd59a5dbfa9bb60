import SvrFrame.Library.Fair
import SvrFrame.Thread
import SvrFrame.Scheduler.Startup
import Mathlib.Order.Filter.AtTopBot.Basic
import Mathlib.Order.Filter.Finite

namespace SvrFrame
open Library Filter
set_option autoImplicit true

/-- How far `Scheduler::start` has come. It holds `m_mutex` in the loop. -/
inductive StartPc where
  | before
  | loop
  | after
  deriving DecidableEq, Repr

/-- A scheduler without `use_caller` while `start` makes its threads and these begin to work. -/
structure Launch where
  mName : String
  mThreadCount : Nat
  mStopping : Bool
  /-- The entries of `m_threads` that are set; the others are null. -/
  mThreads : List Thread
  mThreadIds : List (Option Tid)
  pc : StartPc
  /-- The object whose constructor `start` is in. -/
  making : Option Thread
  /-- The threads that have got `m_mutex` in `run` for the first time. -/
  entered : List Nat
  deriving DecidableEq, Repr

/-- The steps of `Thread::run` up to and with its `notify`. -/
def ThreadPc.untilNotify : ThreadPc → Nat
  | .start => 5
  | .setId => 4
  | .setName => 3
  | .swap => 2
  | .notify => 1
  | .call | .running | .exited => 0

theorem Thread.wait_pc {t t' : Thread} (h : t.wait fails = some t') : t'.pc = t.pc := by
  simp only [wait, Option.ite_none_right_eq_some] at h
  obtain ⟨-, h⟩ := h
  split at h
  · cases h
    rfl
  · simp only [Option.ite_none_right_eq_some, Option.some.injEq] at h
    obtain ⟨-, rfl⟩ := h
    rfl

namespace Launch

def built (threads : Nat) (name : String) : Launch where
  mName := name
  mThreadCount := threads
  mStopping := true
  mThreads := []
  mThreadIds := []
  pc := .before
  making := none
  entered := []

/-- `std::bind(&Scheduler::run, this)`. -/
def runCb : Callback := 0

def begin (l : Launch) : Option Launch :=
  if l.pc = .before ∧ l.mStopping then some { l with mStopping := false, pc := .loop } else none

/-- The next iteration, as far as into the constructor of the thread. -/
def create (l : Launch) (tid : Tid) : Option Launch :=
  if l.pc = .loop ∧ l.making = none ∧ l.mThreads.length < l.mThreadCount ∧
      ∀ t ∈ l.mThreads, t.tid ≠ tid then
    some { l with
      making := some (Thread.created tid (some runCb)
        (l.mName ++ "_" ++ toString l.mThreads.length)) }
  else none

/-- The constructor returns, and the loop stores the pointer and the id. -/
def store (l : Launch) : Option Launch :=
  (l.making.bind (·.wait false)).map fun t => { l with
    mThreads := l.mThreads ++ [t]
    mThreadIds := l.mThreadIds ++ [t.mId]
    making := none }

def unlock (l : Launch) : Option Launch :=
  if l.pc = .loop ∧ l.making = none ∧ l.mThreads.length = l.mThreadCount then
    some { l with pc := .after }
  else none

/-- A step of `Thread::run` in thread `i`. -/
def thread (l : Launch) (i : Nat) : Option Launch :=
  if i = l.mThreads.length then (l.making.bind (·.run)).map fun t => { l with making := some t }
  else (l.mThreads[i]?.bind (·.run)).map fun t => { l with mThreads := l.mThreads.set i t }

/-- The callback of thread `i` is `Scheduler::run`, which first of all locks `m_mutex`. -/
def lock (l : Launch) (i : Nat) : Option Launch :=
  if l.pc ≠ .loop ∧ (l.mThreads[i]?.map (·.pc)) = some .running ∧ i ∉ l.entered then
    some { l with entered := l.entered ++ [i] }
  else none

inductive Act where
  | begin
  | create (tid : Tid)
  | store
  | unlock
  | thread (i : Nat)
  | lock (i : Nat)
  deriving DecidableEq, Repr

/-- The thread that takes the step: a new one by its number, or the one that calls `start`. -/
def Act.party : Act → Option Nat
  | .thread i | .lock i => some i
  | _ => none

def step (l : Launch) : Act → Option Launch
  | .begin => l.begin
  | .create tid => l.create tid
  | .store => l.store
  | .unlock => l.unlock
  | .thread i => l.thread i
  | .lock i => l.lock i

structure Ok (n : Nat) (l : Launch) : Prop where
  count : l.mThreadCount = n
  stopping : l.mStopping = decide (l.pc = .before)
  made : ∀ t ∈ l.mThreads, Thread.Ok t.tid (some runCb) t ∧ t.life = .made
  making : ∀ t ∈ l.making, Thread.Ok t.tid (some runCb) t ∧ t.life = .waiting ∧ l.pc = .loop ∧
    l.mThreads.length < n ∧ ∀ t' ∈ l.mThreads, t'.tid ≠ t.tid
  size : l.mThreads.length ≤ n
  ids : l.mThreadIds = l.mThreads.map fun t => some t.tid
  distinct : (l.mThreads.map (·.tid)).Nodup
  before : l.pc = .before → l.mThreads = []
  after : l.pc = .after → l.mThreads.length = n
  entered : ∀ i ∈ l.entered, l.pc = .after ∧ i < n

theorem built_ok (n : Nat) (name : String) : Ok n (built n name) where
  count := rfl
  stopping := rfl
  made _ ht := by cases ht
  making _ ht := by cases ht
  size := Nat.zero_le n
  ids := rfl
  distinct := List.nodup_nil
  before _ := rfl
  after hp := by cases hp
  entered _ hi := by cases hi

variable {l l' : Launch}

theorem Ok.begin (hs : Ok n l) (h : l.begin = some l') : Ok n l' := by
  simp only [Launch.begin, Option.ite_none_right_eq_some, Option.some.injEq] at h
  obtain ⟨⟨hp, -⟩, rfl⟩ := h
  have hmaking (t : Thread) : t ∉ l.making := fun ht => by
    have hloop := (hs.making t ht).2.2.1
    rw [hp] at hloop
    cases hloop
  exact { hs with
    stopping := rfl
    making := fun t ht => absurd ht (hmaking t)
    before := fun h => by cases h
    after := fun h => by cases h
    entered := fun i hi => by
      have hafter := (hs.entered i hi).1
      rw [hp] at hafter
      cases hafter }

theorem Ok.create (hs : Ok n l) (h : l.create tid = some l') : Ok n l' := by
  simp only [Launch.create, Option.ite_none_right_eq_some, Option.some.injEq] at h
  obtain ⟨⟨hp, -, hlt, hnew⟩, rfl⟩ := h
  rw [hs.count] at hlt
  exact { hs with
    making := fun t ht => by
      cases ht
      exact ⟨Thread.created_ok .., rfl, hp, hlt, hnew⟩ }

theorem Ok.store (hs : Ok n l) (h : l.store = some l') : Ok n l' := by
  obtain ⟨t', ht', rfl⟩ := Option.map_eq_some_iff.1 h
  obtain ⟨t, ht, hwait⟩ := Option.bind_eq_some_iff.1 ht'
  obtain ⟨hok, -, hp, hlt, hnew⟩ := hs.making t ht
  have hok' := hok.wait hwait
  have hmade := Thread.made_of_wait hwait
  have htid := hok'.number
  rw [← htid] at hok' hnew
  exact { hs with
    made := fun x hx => by
      rcases List.mem_append.1 hx with hx | hx
      · exact hs.made x hx
      · rw [List.mem_singleton.1 hx]
        exact ⟨hok', hmade⟩
    making := fun x hx => by cases hx
    size := by
      rw [List.length_append]
      exact hlt
    ids := by
      rw [hs.ids, List.map_append, (hok'.handed hmade).1]
      rfl
    distinct := by
      rw [List.map_append, List.nodup_append]
      apply And.intro hs.distinct
      apply And.intro (List.nodup_singleton _)
      intro x hx y hy
      obtain ⟨z, hz, rfl⟩ := List.mem_map.1 hx
      rw [List.map_singleton, List.mem_singleton] at hy
      rw [hy]
      exact hnew z hz
    before := fun h => by
      rw [hp] at h
      cases h
    after := fun h => by
      rw [hp] at h
      cases h }

theorem Ok.unlock (hs : Ok n l) (h : l.unlock = some l') : Ok n l' := by
  simp only [Launch.unlock, Option.ite_none_right_eq_some, Option.some.injEq] at h
  obtain ⟨⟨hp, hmaking, hlen⟩, rfl⟩ := h
  have hstopping := hs.stopping
  rw [hp] at hstopping
  exact { hs with
    stopping := hstopping
    making := fun t ht => by
      rw [hmaking] at ht
      cases ht
    before := fun h => by cases h
    after := fun _ => hlen.trans hs.count
    entered := fun i hi => ⟨rfl, (hs.entered i hi).2⟩ }

theorem map_set_same {α β : Type} {f : α → β} {as : List α} {a b : α} (ha : as[i]? = some a)
    (hf : f b = f a) : (as.set i b).map f = as.map f := by
  obtain ⟨hi, rfl⟩ := List.getElem?_eq_some_iff.1 ha
  rw [List.map_set, hf, ← List.map_set, List.set_getElem_self]

theorem Ok.thread (hs : Ok n l) (h : l.thread i = some l') : Ok n l' := by
  simp only [Launch.thread] at h
  split at h
  · obtain ⟨t', ht', rfl⟩ := Option.map_eq_some_iff.1 h
    obtain ⟨t, ht, hrun⟩ := Option.bind_eq_some_iff.1 ht'
    obtain ⟨hok, hlife, hp, hlt, hnew⟩ := hs.making t ht
    have hok' := hok.run hrun
    have htid := hok'.number
    rw [← htid] at hok' hnew
    exact { hs with
      making := fun x hx => by
        cases hx
        exact ⟨hok', (Thread.run_life hrun).trans hlife, hp, hlt, hnew⟩ }
  · obtain ⟨t', ht', rfl⟩ := Option.map_eq_some_iff.1 h
    obtain ⟨t, ht, hrun⟩ := Option.bind_eq_some_iff.1 ht'
    obtain ⟨hok, hlife⟩ := hs.made t (List.mem_of_getElem? ht)
    have hok' := hok.run hrun
    have htid := hok'.number
    have hids := map_set_same (f := Thread.tid) ht htid
    exact { hs with
      made := fun x hx => by
        rcases List.mem_or_eq_of_mem_set hx with hx | rfl
        · exact hs.made x hx
        · exact ⟨htid ▸ hok', (Thread.run_life hrun).trans hlife⟩
      making := fun x hx => by
        obtain ⟨hok, hlife, hp, hlt, hnew⟩ := hs.making x hx
        refine ⟨hok, hlife, hp, by rwa [List.length_set], fun y hy => ?_⟩
        rcases List.mem_or_eq_of_mem_set hy with hy | rfl
        · exact hnew y hy
        · rw [htid]
          exact hnew t (List.mem_of_getElem? ht)
      size := by
        rw [List.length_set]
        exact hs.size
      ids := by rw [map_set_same ht (by rw [htid]), hs.ids]
      distinct := hids ▸ hs.distinct
      before := fun hp => by rw [hs.before hp, List.set_nil]
      after := fun hp => by rw [List.length_set, hs.after hp] }

theorem Ok.lock (hs : Ok n l) (h : l.lock i = some l') : Ok n l' := by
  simp only [Launch.lock, Option.ite_none_right_eq_some, Option.some.injEq] at h
  obtain ⟨⟨hp, hrun, -⟩, rfl⟩ := h
  have hlt : i < l.mThreads.length := by
    obtain ⟨t, ht, -⟩ := Option.map_eq_some_iff.1 hrun
    exact (List.getElem?_eq_some_iff.1 ht).1
  exact { hs with
    entered := fun j hj => by
      rcases List.mem_append.1 hj with hj | hj
      · exact hs.entered j hj
      · rw [List.mem_singleton.1 hj]
        apply And.intro _ (Nat.lt_of_lt_of_le hlt hs.size)
        cases hpc : l.pc with
        | before =>
          rw [hs.before hpc] at hlt
          cases hlt
        | loop => exact absurd hpc hp
        | after => rfl }

theorem Ok.step (hs : Ok n l) (h : l.step a = some l') : Ok n l' := by
  cases a with
  | begin => exact hs.begin h
  | create tid => exact hs.create h
  | store => exact hs.store h
  | unlock => exact hs.unlock h
  | thread i => exact hs.thread h
  | lock i => exact hs.lock h

theorem reach_ok (h : Reach step g (built n name) l) : Ok n l :=
  h.invariant (built_ok n name) fun hs _ ht => hs.step ht

/-- The steps up to the `notify` that the constructor waits for. -/
def rank (l : Launch) : Nat :=
  match l.pc, l.making with
  | .before, _ => 10 * l.mThreadCount + 2
  | .loop, none => 10 * (l.mThreadCount - l.mThreads.length) + 1
  | .loop, some t => 10 * (l.mThreadCount - l.mThreads.length - 1) + 2 + t.pc.untilNotify
  | .after, _ => 0

/-- Whose turn it is: the new thread's as long as it has not called `notify`. -/
def turn (l : Launch) : Option Nat :=
  match l.making with
  | some t => if t.pc.notified then none else some l.mThreads.length
  | none => none

theorem Ok.making_none (hs : Ok n l) (hp : l.pc ≠ .loop) : l.making = none := by
  cases hm : l.making with
  | none => rfl
  | some t => exact absurd (hs.making t hm).2.2.1 hp

theorem exists_new_tid (ts : List Thread) : ∃ tid, ∀ t ∈ ts, t.tid ≠ tid := by
  obtain ⟨tid, htid⟩ := Infinite.exists_notMem_finset (ts.map (·.tid)).toFinset
  exists tid
  intro t ht heq
  apply htid
  rw [List.mem_toFinset, ← heq]
  exact List.mem_map_of_mem ht

theorem run_of_waiting {t : Thread} (hlife : t.life = .waiting) (hp : t.pc.notified = false) :
    t.run.isSome := by
  cases hpc : t.pc with
  | start | setId | setName | swap | notify => simp [Thread.run, Thread.freed, hpc, hlife]
  | call | running | exited =>
    rw [hpc] at hp
    cases hp

/-- `start` is never stuck: whoever's turn it is has a step, for which it needs no mutex. -/
theorem Ok.can_step (hs : Ok n l) (hp : l.pc ≠ .after) :
    ∃ a, a.party = l.turn ∧ (l.step a).isSome := by
  cases hm : l.making with
  | some t =>
    obtain ⟨hok, hlife, -⟩ := hs.making t hm
    by_cases hnotified : t.pc.notified
    · exists .store
      have hpermit := hok.permit
      simp only [hlife, reduceCtorEq, or_self, if_false, hnotified, if_true, Nat.add_zero]
        at hpermit
      simp [turn, Launch.step, Launch.store, Thread.wait, hm, hlife, hnotified, hpermit, Act.party]
    · exists .thread l.mThreads.length
      have hrun := run_of_waiting hlife (eq_false_of_ne_true hnotified)
      simp [turn, Launch.step, Launch.thread, hm, hnotified, hrun, Act.party]
  | none =>
    cases hpc : l.pc with
    | before =>
      exists .begin
      simp [turn, Launch.step, Launch.begin, hm, hpc, hs.stopping, Act.party]
    | loop =>
      by_cases hlt : l.mThreads.length < l.mThreadCount
      · obtain ⟨tid, htid⟩ := exists_new_tid l.mThreads
        exists .create tid
        simp only [Launch.step, Launch.create, hpc, hm, hlt, true_and]
        rw [if_pos htid]
        simp [turn, hm, Act.party]
      · exists .unlock
        have hlen : l.mThreads.length = l.mThreadCount := by
          have hsize := hs.size
          have hcount := hs.count
          omega
        simp [turn, Launch.step, Launch.unlock, hm, hpc, hlen, Act.party]
    | after => exact absurd hpc hp

/-- The callback of the new threads, `Scheduler::run`, has not returned. -/
def Inside (l : Launch) : Prop :=
  (∀ t ∈ l.mThreads, t.pc ≠ .exited) ∧ ∀ t ∈ l.making, t.pc ≠ .exited

theorem run_inside {t t' : Thread} (hok : Thread.Ok k (some c) t) (h : t.run = some t') :
    t'.pc ≠ .exited := by
  intro hexited
  cases hp : t.pc with
  | start =>
    simp only [Thread.run, hp] at h
    cases h
    cases hexited
  | setId | setName | swap | notify =>
    simp only [Thread.run, hp, Option.ite_none_left_eq_some, Option.some.injEq] at h
    obtain ⟨-, rfl⟩ := h
    cases hexited
  | call =>
    have hprogress := hok.progress
    rw [hp] at hprogress
    simp only [Thread.progress, Prod.mk.injEq] at hprogress
    simp only [Thread.run, hp, hprogress.2.2.1] at h
    cases h
    cases hexited
  | running | exited =>
    simp only [Thread.run, hp] at h
    cases h

theorem Ok.inside_step (hs : Ok n l) (hin : l.Inside) (h : l.step a = some l') : l'.Inside := by
  cases a with
  | begin | unlock | lock =>
    simp only [Launch.step, Launch.begin, Launch.unlock, Launch.lock, Option.ite_none_right_eq_some,
      Option.some.injEq] at h
    obtain ⟨-, rfl⟩ := h
    exact hin
  | create tid =>
    simp only [Launch.step, Launch.create, Option.ite_none_right_eq_some, Option.some.injEq] at h
    obtain ⟨-, rfl⟩ := h
    apply And.intro hin.1
    intro t ht
    cases ht
    exact fun h => by cases h
  | store =>
    obtain ⟨t', ht', rfl⟩ := Option.map_eq_some_iff.1 h
    obtain ⟨t, ht, hwait⟩ := Option.bind_eq_some_iff.1 ht'
    apply And.intro
    · intro x hx
      rcases List.mem_append.1 hx with hx | hx
      · exact hin.1 x hx
      · rw [List.mem_singleton.1 hx, Thread.wait_pc hwait]
        exact hin.2 t ht
    · intro x hx
      cases hx
  | thread i =>
    simp only [Launch.step, Launch.thread] at h
    split at h
    · obtain ⟨t', ht', rfl⟩ := Option.map_eq_some_iff.1 h
      obtain ⟨t, ht, hrun⟩ := Option.bind_eq_some_iff.1 ht'
      apply And.intro hin.1
      intro x hx
      cases hx
      exact run_inside (hs.making t ht).1 hrun
    · obtain ⟨t', ht', rfl⟩ := Option.map_eq_some_iff.1 h
      obtain ⟨t, ht, hrun⟩ := Option.bind_eq_some_iff.1 ht'
      apply And.intro _ hin.2
      intro x hx
      rcases List.mem_or_eq_of_mem_set hx with hx | rfl
      · exact hin.1 x hx
      · exact run_inside (hs.made t (List.mem_of_getElem? ht)).1 hrun

/-- What thread `i` has to do before it has got `m_mutex`. -/
def toEnter (l : Launch) (i : Nat) : Nat :=
  if i ∈ l.entered then 0
  else if l.mThreads[i]?.map Thread.pc = some .call then 2
  else 1

theorem run_of_made {t t' : Thread} (hok : Thread.Ok k c t) (hmade : t.life = .made)
    (h : t.run = some t') : t.pc = .call ∧ t'.pc ≠ .call := by
  have hnotified := (hok.notified (.inl hmade)).1
  cases hp : t.pc with
  | call =>
    cases hcb : t.cb with
    | none | some =>
      simp only [Thread.run, hp, hcb] at h
      cases h
      exact ⟨rfl, fun h => by cases h⟩
  | running | exited =>
    simp only [Thread.run, hp] at h
    cases h
  | start | setId | setName | swap | notify =>
    rw [hp] at hnotified
    cases hnotified

theorem Ok.enter_step (hs : Ok n l) (hp : l.pc = .after) (hnot : i ∉ l.entered)
    (h : l.step a = some l') :
    l'.toEnter i ≤ l.toEnter i ∧ (a.party = some i → l'.toEnter i < l.toEnter i) := by
  have hmaking := hs.making_none (by rw [hp]; exact fun h => by cases h)
  cases a with
  | begin | create | unlock =>
    simp [Launch.step, Launch.begin, Launch.create, Launch.unlock, hp] at h
  | store => simp [Launch.step, Launch.store, hmaking] at h
  | thread j =>
    simp only [Launch.step, Launch.thread, hmaking, Option.bind_none, Option.map_none] at h
    split at h
    · cases h
    · obtain ⟨t', ht', rfl⟩ := Option.map_eq_some_iff.1 h
      obtain ⟨t, ht, hrun⟩ := Option.bind_eq_some_iff.1 ht'
      obtain ⟨hok, hmade⟩ := hs.made t (List.mem_of_getElem? ht)
      obtain ⟨hcall, hcall'⟩ := run_of_made hok hmade hrun
      have hlt := (List.getElem?_eq_some_iff.1 ht).1
      by_cases hji : j = i
      · subst hji
        simp [toEnter, hnot, List.getElem?_set_self hlt, hcall', ht, hcall]
      · have hsame : (l.mThreads.set j t')[i]? = l.mThreads[i]? := List.getElem?_set_ne hji
        simp [toEnter, hnot, hsame, Act.party, hji]
  | lock j =>
    simp only [Launch.step, Launch.lock, Option.ite_none_right_eq_some, Option.some.injEq] at h
    obtain ⟨-, rfl⟩ := h
    by_cases hji : j = i
    · subst hji
      have hpos : 0 < l.toEnter j := by
        simp only [toEnter, if_neg hnot]
        split <;> omega
      have hzero : toEnter { l with entered := l.entered ++ [j] } j = 0 := by simp [toEnter]
      rw [hzero]
      exact ⟨Nat.zero_le _, fun _ => hpos⟩
    · have hij : i ≠ j := Ne.symm hji
      simp [toEnter, hnot, hij, Act.party, hji]

section Runs
variable {r : Run step}

/-- A run in which every thread that can go on does so. -/
structure Fair (n : Nat) (name : String) (r : Run step) : Prop where
  first : r.state 0 = built n name
  fair : ∀ c, r.Fair fun a => a.party = c

theorem Fair.ok (h : Fair n name r) (k : ℕ) : Ok n (r.state k) ∧ (r.state k).Inside := by
  have hreach := Run.reach (g := fun _ _ => True) (fun _ _ _ => trivial) k (r := r)
  rw [h.first] at hreach
  apply hreach.invariant (I := fun l => Ok n l ∧ l.Inside)
  · exact ⟨built_ok n name, (fun _ ht => by cases ht), fun _ ht => by cases ht⟩
  · exact fun hs _ ht => ⟨hs.1.step ht, hs.1.inside_step hs.2 ht⟩

end Runs

end Launch
end SvrFrame
