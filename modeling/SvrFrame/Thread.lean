import SvrFrame.Library.Machine
import SvrFrame.Scheduler.Model

namespace SvrFrame
open Library
set_option autoImplicit true

/-- A kernel thread, by the number that both `gettid` and `pthread_create` give it. -/
abbrev Tid := Nat

/-- Where the new thread stands in `Thread::run`. -/
inductive ThreadPc where
  | start
  | setId
  | setName
  | swap
  | notify
  | call
  | running
  | exited
  deriving DecidableEq, Repr

/-- How far the object has come. -/
inductive ThreadLife where
  /-- Its constructor is in `mSemaphore.wait()`. -/
  | waiting
  | made
  /-- Its constructor has thrown, and the memory is free. -/
  | threw
  | destroyed
  deriving DecidableEq, Repr

/-- What has become of the resources of the kernel thread. -/
inductive Reaped where
  | joinable
  | joined
  | detached
  deriving DecidableEq, Repr

/-- A `Thread` and the kernel thread that its constructor has created. -/
structure Thread where
  /-- `none` is the source's `-1`. -/
  mId : Option Tid
  /-- `none` is the source's `0`. -/
  mThread : Option Tid
  mCb : Option Callback
  mName : String
  mSemaphore : Nat
  life : ThreadLife
  tid : Tid
  pc : ThreadPc
  /-- `t_thread` of the kernel thread is the object. -/
  tThread : Bool
  /-- The local `cb` of `run`. -/
  cb : Option Callback
  reaped : Reaped
  /-- The callbacks that `run` has called. -/
  called : List Callback
  deriving DecidableEq, Repr

namespace Thread

/-- The constructor behind a `pthread_create` that has succeeded. -/
def created (tid : Tid) (cb : Option Callback) (name : String) : Thread where
  mId := none
  mThread := some tid
  mCb := cb
  mName := if name = "" then "UNKNOW" else name
  mSemaphore := 0
  life := .waiting
  tid := tid
  pc := .start
  tThread := false
  cb := none
  reaped := .joinable
  called := []

def freed (t : Thread) : Bool := t.life = .threw || t.life = .destroyed

/-- The next step of `Thread::run`; `none` where it would go through a pointer to a freed object,
or has none. -/
def run (t : Thread) : Option Thread :=
  match t.pc with
  | .start => some { t with tThread := true, pc := .setId }
  | .setId => if t.freed then none else some { t with mId := some t.tid, pc := .setName }
  | .setName => if t.freed then none else some { t with pc := .swap }
  | .swap => if t.freed then none else some { t with cb := t.mCb, mCb := none, pc := .notify }
  | .notify => if t.freed then none else some { t with mSemaphore := t.mSemaphore + 1, pc := .call }
  | .call =>
    match t.cb with
    | some c => some { t with called := t.called ++ [c], pc := .running }
    -- `std::bad_function_call`, which `run` catches
    | none => some { t with pc := .exited }
  | .running | .exited => none

/-- The rest of the constructor: `sem_wait` returns zero, or an error and the constructor throws,
without the destructor of the object being called. -/
def wait (t : Thread) (fails : Bool) : Option Thread :=
  if t.life = .waiting then
    if fails then some { t with life := .threw }
    else if 0 < t.mSemaphore then some { t with mSemaphore := t.mSemaphore - 1, life := .made }
    else none
  else none

/-- `none` where `pthread_join` still waits, or fails. -/
def join (t : Thread) : Option Thread :=
  if t.life = .made then
    match t.mThread with
    | none => some t
    | some _ =>
      if t.pc = .exited ∧ t.reaped = .joinable then
        some { t with mThread := none, reaped := .joined }
      else none
  else none

def destroy (t : Thread) : Option Thread :=
  if t.life = .made then
    some { t with
      life := .destroyed
      reaped := if t.mThread.isSome then .detached else t.reaped }
  else none

/-- `SetName`, called by the callback; `none` where `t_thread` points to a freed object. -/
def setName (t : Thread) (name : String) : Option Thread :=
  if t.pc = .running then
    if t.tThread then if t.freed then none else some { t with mName := name } else some t
  else none

inductive Act where
  | run
  /-- The callback returns, or throws an exception that `run` catches. -/
  | cbEnds
  | setName (name : String)
  | wait (fails : Bool)
  | join
  | destroy
  deriving DecidableEq, Repr

/-- The steps of the new thread and those of the thread that owns the object, in any order. -/
def step (t : Thread) : Act → Option Thread
  | .run => t.run
  | .cbEnds => if t.pc = .running then some { t with pc := .exited } else none
  | .setName name => t.setName name
  | .wait fails => t.wait fails
  | .join => t.join
  | .destroy => t.destroy

end Thread

/-- Behind `notify` `run` does not use its argument any more. -/
def ThreadPc.notified : ThreadPc → Bool
  | .call | .running | .exited => true
  | _ => false

/-- The callback has been called, or has turned out to be empty. -/
def ThreadPc.begun : ThreadPc → Bool
  | .running | .exited => true
  | _ => false

namespace Thread

variable {k : Tid} {c : Option Callback} {t t' : Thread}

/-- What `run` has made of `mId`, `mCb`, its local `cb` and `t_thread`. -/
def progress (k : Tid) (c : Option Callback) :
    ThreadPc → Option Tid × Option Callback × Option Callback × Bool
  | .start => (none, c, none, false)
  | .setId => (none, c, none, true)
  | .setName | .swap => (some k, c, none, true)
  | .notify | .call | .running | .exited => (some k, none, c, true)

/-- What the new thread and the owner of the object agree upon. -/
structure Ok (k : Tid) (c : Option Callback) (t : Thread) : Prop where
  number : t.tid = k
  progress : (t.mId, t.mCb, t.cb, t.tThread) = progress k c t.pc
  called : t.called = if t.pc.begun then c.toList else []
  /-- The permit of the semaphore is given once and taken once. -/
  permit : t.mSemaphore + (if t.life = .made ∨ t.life = .destroyed then 1 else 0) =
    if t.pc.notified then 1 else 0
  thread : t.mThread = if t.reaped = .joined then none else some k
  ended : t.reaped = .joined → t.pc = .exited
  detached : t.reaped = .detached → t.life = .destroyed
  left : t.life = .destroyed → t.reaped ≠ .joinable
  owned : t.reaped = .joined → t.life = .made ∨ t.life = .destroyed

theorem created_ok (k : Tid) (c : Option Callback) (name : String) :
    Ok k c (created k c name) where
  number := rfl
  progress := rfl
  called := rfl
  permit := rfl
  thread := rfl
  ended h := by cases h
  detached h := by cases h
  left h := by cases h
  owned h := by cases h

/-- The new thread takes a step: the owner's side stays as it is. -/
theorem Ok.advance (hs : Ok k c t) (hlive : t.pc ≠ .exited)
    (hprogress : (t'.mId, t'.mCb, t'.cb, t'.tThread) = Thread.progress k c t'.pc)
    (hcalled : t'.called = if t'.pc.begun then c.toList else [])
    (hpermit : t'.mSemaphore + (if t.pc.notified then 1 else 0) =
      t.mSemaphore + if t'.pc.notified then 1 else 0)
    (hframe : (t'.tid, t'.mThread, t'.reaped, t'.life) = (t.tid, t.mThread, t.reaped, t.life)) :
    Ok k c t' := by
  simp only [Prod.mk.injEq] at hframe
  obtain ⟨htid, hthread, hreaped, hlife⟩ := hframe
  have hpermit' := hs.permit
  constructor
  · rw [htid]
    exact hs.number
  · exact hprogress
  · exact hcalled
  · rw [hlife]
    omega
  · rw [hthread, hreaped]
    exact hs.thread
  · rw [hreaped]
    exact fun h => absurd (hs.ended h) hlive
  · rw [hreaped, hlife]
    exact hs.detached
  · rw [hreaped, hlife]
    exact hs.left
  · rw [hreaped, hlife]
    exact hs.owned

theorem Ok.run (hs : Ok k c t) (h : t.run = some t') : Ok k c t' := by
  have hprogress := hs.progress
  have hcalled := hs.called
  have hnumber := hs.number
  have hlive : t.pc ≠ .exited := fun hp => by
    simp only [Thread.run, hp] at h
    cases h
  cases hp : t.pc with
  | start =>
    simp only [Thread.run, hp, Option.some.injEq] at h
    subst h
    apply hs.advance hlive
    · simp_all [Thread.progress]
    · simpa [hp, ThreadPc.begun] using hcalled
    · simp [hp, ThreadPc.notified]
    · rfl
  | setId | setName | swap | notify =>
    simp only [Thread.run, hp, Option.ite_none_left_eq_some, Option.some.injEq] at h
    obtain ⟨-, rfl⟩ := h
    apply hs.advance hlive
    · simp_all [Thread.progress]
    · simpa [hp, ThreadPc.begun] using hcalled
    · simp [hp, ThreadPc.notified]
    · rfl
  | call =>
    have hcb : t.cb = c := by
      rw [hp] at hprogress
      simp only [Thread.progress, Prod.mk.injEq] at hprogress
      exact hprogress.2.2.1
    cases c with
    | none | some =>
      simp only [Thread.run, hp, hcb, Option.some.injEq] at h
      subst h
      apply hs.advance hlive
      · simp_all [Thread.progress]
      · simp [hp, hcalled, ThreadPc.begun]
      · simp [hp, ThreadPc.notified]
      · rfl
  | running | exited =>
    simp only [Thread.run, hp] at h
    cases h

theorem Ok.joinable (hs : Ok k c t) (hlife : t.life = .waiting ∨ t.life = .threw) :
    t.reaped = .joinable := by
  cases hr : t.reaped with
  | joinable => rfl
  | joined =>
    have howned := hs.owned hr
    rcases hlife with hl | hl <;> simp [hl] at howned
  | detached =>
    have hgone := hs.detached hr
    rcases hlife with hl | hl <;> simp [hl] at hgone

/-- The constructor comes to its end: the new thread's side stays as it is. -/
theorem Ok.wait (hs : Ok k c t) (h : t.wait fails = some t') : Ok k c t' := by
  simp only [Thread.wait, Option.ite_none_right_eq_some] at h
  obtain ⟨hlife, h⟩ := h
  have hpermit := hs.permit
  have hjoinable := hs.joinable (.inl hlife)
  cases fails with
  | true =>
    simp only [if_true, Option.some.injEq] at h
    subst h
    exact { hs with
      permit := by simpa [hlife] using hpermit
      detached := fun hr => by rw [hjoinable] at hr; cases hr
      left := fun hl => by cases hl
      owned := fun hr => by rw [hjoinable] at hr; cases hr }
  | false =>
    simp only [Bool.false_eq_true, if_false, Option.ite_none_right_eq_some, Option.some.injEq] at h
    obtain ⟨hpos, rfl⟩ := h
    exact { hs with
      permit := by
        simp only [hlife, reduceCtorEq, or_self, if_false] at hpermit
        simp only [true_or, if_true]
        omega
      detached := fun hr => by rw [hjoinable] at hr; cases hr
      left := fun hl => by cases hl
      owned := fun hr => by rw [hjoinable] at hr; cases hr }

theorem Ok.join (hs : Ok k c t) (h : t.join = some t') : Ok k c t' := by
  simp only [Thread.join, Option.ite_none_right_eq_some] at h
  obtain ⟨hlife, h⟩ := h
  cases hthread : t.mThread with
  | none =>
    rw [hthread] at h
    cases h
    exact hs
  | some =>
    rw [hthread] at h
    simp only [Option.ite_none_right_eq_some, Option.some.injEq] at h
    obtain ⟨⟨hexited, -⟩, rfl⟩ := h
    exact { hs with
      thread := rfl
      ended := fun _ => hexited
      detached := fun hr => by cases hr
      left := fun hl => by rw [hlife] at hl; cases hl
      owned := fun _ => .inl hlife }

theorem Ok.destroy (hs : Ok k c t) (h : t.destroy = some t') : Ok k c t' := by
  have hpermit := hs.permit
  have hthread := hs.thread
  simp only [Thread.destroy, Option.ite_none_right_eq_some, Option.some.injEq] at h
  obtain ⟨hlife, rfl⟩ := h
  by_cases hr : t.reaped = .joined
  · rw [if_pos hr] at hthread
    exact { hs with
      permit := by simpa [hlife] using hpermit
      thread := by simp [hthread, hr]
      ended := fun _ => hs.ended hr
      detached := fun _ => rfl
      left := fun _ => by simp [hthread, hr]
      owned := fun _ => .inr rfl }
  · rw [if_neg hr] at hthread
    exact { hs with
      permit := by simpa [hlife] using hpermit
      thread := by simp [hthread]
      ended := fun h => by simp [hthread] at h
      detached := fun _ => rfl
      left := fun _ => by simp [hthread]
      owned := fun _ => .inr rfl }

theorem Ok.step (hs : Ok k c t) (h : t.step a = some t') : Ok k c t' := by
  cases a with
  | run => exact hs.run h
  | wait fails => exact hs.wait h
  | join => exact hs.join h
  | destroy => exact hs.destroy h
  | cbEnds =>
    simp only [Thread.step, Option.ite_none_right_eq_some, Option.some.injEq] at h
    obtain ⟨hp, rfl⟩ := h
    have hprogress := hs.progress
    have hcalled := hs.called
    rw [hp] at hprogress hcalled
    exact hs.advance (by rw [hp]; exact fun h => by cases h) hprogress hcalled
      (by rw [hp]; rfl) rfl
  | setName name =>
    simp only [Thread.step, Thread.setName, Option.ite_none_right_eq_some] at h
    obtain ⟨-, h⟩ := h
    split at h
    · simp only [Option.ite_none_left_eq_some, Option.some.injEq] at h
      obtain ⟨-, rfl⟩ := h
      exact { hs with }
    · cases h
      exact hs

theorem reach_ok (h : Reach step g (created k c name) t) : Ok k c t :=
  h.invariant (created_ok k c name) fun hs _ ht => hs.step ht

/-- The owner has the object only when the new thread is done with it. -/
theorem Ok.notified (hs : Ok k c t) (hlife : t.life = .made ∨ t.life = .destroyed) :
    t.pc.notified ∧ t.mSemaphore = 0 := by
  have hpermit := hs.permit
  rw [if_pos hlife] at hpermit
  split at hpermit
  · exact ⟨‹_›, by omega⟩
  · omega

theorem Ok.handed (hs : Ok k c t) (hlife : t.life = .made) :
    t.mId = some k ∧ t.mCb = none ∧ t.cb = c ∧ t.tThread = true ∧ t.mSemaphore = 0 := by
  obtain ⟨hnotified, hzero⟩ := hs.notified (.inl hlife)
  have hprogress : (t.mId, t.mCb, t.cb, t.tThread) = (some k, none, c, true) := by
    rw [hs.progress]
    cases hp : t.pc with
    | call | running | exited => rfl
    | _ =>
      rw [hp] at hnotified
      cases hnotified
  simp only [Prod.mk.injEq] at hprogress
  exact ⟨hprogress.1, hprogress.2.1, hprogress.2.2.1, hprogress.2.2.2, hzero⟩

theorem made_of_wait (h : t.wait false = some t') : t'.life = .made := by
  simp only [wait, Bool.false_eq_true, if_false, Option.ite_none_right_eq_some,
    Option.some.injEq] at h
  obtain ⟨-, -, rfl⟩ := h
  rfl

theorem run_life (h : t.run = some t') : t'.life = t.life := by
  cases hp : t.pc with
  | start =>
    simp only [run, hp] at h
    cases h
    rfl
  | setId | setName | swap | notify =>
    simp only [run, hp, Option.ite_none_left_eq_some, Option.some.injEq] at h
    obtain ⟨-, rfl⟩ := h
    rfl
  | call =>
    cases hcb : t.cb with
    | none | some =>
      simp only [run, hp, hcb] at h
      cases h
      rfl
  | running | exited =>
    simp only [run, hp] at h
    cases h

/-- Where the constructor has returned, `GetId` is the number of the thread that runs the callback,
the callback has gone over to that thread, and `t_thread` there is the object. It is called once at
most, and it is over when `join` returns. -/
theorem constructor_hands_over (h : Reach step (fun _ _ => True) (created k c name) t) :
    (t.life = .made → t.mId = some k ∧ t.mCb = none ∧ t.cb = c ∧ t.tThread = true ∧
      t.mSemaphore = 0) ∧
      (t.called = [] ∨ t.called = c.toList) ∧
      ∀ t', t.join = some t' → t'.pc = .exited ∧ t'.called = c.toList ∧ t'.mThread = none := by
  have hs := reach_ok h
  apply And.intro hs.handed
  apply And.intro
  · rw [hs.called]
    split
    · exact .inr rfl
    · exact .inl rfl
  · intro t' ht'
    have hs' := hs.join ht'
    have hjoined : t'.pc = .exited ∧ t'.mThread = none := by
      simp only [Thread.join, Option.ite_none_right_eq_some] at ht'
      obtain ⟨-, ht'⟩ := ht'
      cases hthread : t.mThread with
      | none =>
        rw [hthread] at ht'
        cases ht'
        have hreaped : t.reaped = .joined := by
          by_contra hr
          have hsome := hs.thread
          rw [hthread, if_neg hr] at hsome
          cases hsome
        exact ⟨hs.ended hreaped, hthread⟩
      | some =>
        rw [hthread] at ht'
        simp only [Option.ite_none_right_eq_some, Option.some.injEq] at ht'
        obtain ⟨⟨hexited, -⟩, rfl⟩ := ht'
        exact ⟨hexited, rfl⟩
    refine ⟨hjoined.1, ?_, hjoined.2⟩
    rw [hs'.called, hjoined.1]
    rfl

/-- A thread that is joined, with an empty callback, which is not called. -/
theorem constructor_hands_over_empty : ∃ t t', Reach step (fun _ _ => True) (created 7 none "") t ∧
    t.mName = "UNKNOW" ∧ t.join = some t' ∧ t'.called = [] := by
  obtain ⟨t, ht, hp⟩ := Reach.of_exec_map step (fun _ _ => True) (created 7 none "")
    (List.replicate 5 .run ++ [.wait false, .run])
    (fun t => decide (t.mName = "UNKNOW" ∧ t.join.isSome)) (by decide)
  obtain ⟨hname, hsome⟩ := of_decide_eq_true hp
  obtain ⟨t', ht'⟩ := Option.isSome_iff_exists.1 hsome
  exact ⟨t, t', ht, hname, ht', ((constructor_hands_over ht).2.2 t' ht').2.1⟩

/-- `run` goes through its argument after the object is gone exactly where the `sem_wait` of the
constructor has failed before the `notify`; an owner cannot destroy the object too early. -/
theorem run_after_free_iff (h : Reach step (fun _ _ => True) (created k c name) t) :
    t.run = none ↔ t.pc.begun ∨ (t.life = .threw ∧ t.pc ≠ .start ∧ t.pc.notified = false) := by
  have hs := reach_ok h
  have hfreed (hp : t.pc.notified = false) : t.freed ↔ t.life = .threw := by
    have hnot : t.life ≠ .destroyed := fun hl => by
      rw [(hs.notified (.inr hl)).1] at hp
      cases hp
    simp [freed, hnot]
  cases hp : t.pc with
  | start => simp [run, hp, ThreadPc.begun]
  | setId | setName | swap | notify =>
    rw [hp] at hfreed
    simp [run, hp, hfreed rfl, ThreadPc.begun, ThreadPc.notified]
  | call => cases hcb : t.cb <;> simp [run, hp, hcb, ThreadPc.begun, ThreadPc.notified]
  | running | exited => simp [run, hp, ThreadPc.begun]

/-- A signal interrupts the `sem_wait` while the new thread is on its way. -/
theorem run_after_free_iff_interrupted :
    ∃ t, Reach step (fun _ _ => True) (created 7 (some 1) "worker") t ∧ t.life = .threw ∧
      t.run = none := by
  obtain ⟨t, ht, hp⟩ := Reach.of_exec_map step (fun _ _ => True) (created 7 (some 1) "worker")
    [.run, .wait true] (fun t => decide (t.life = .threw ∧ t.pc = .setId)) (by decide)
  obtain ⟨hlife, hpc⟩ := of_decide_eq_true hp
  apply Exists.intro t
  apply And.intro ht
  apply And.intro hlife
  apply (run_after_free_iff ht).2
  rw [hpc]
  exact .inr ⟨hlife, (fun h => by cases h), rfl⟩

end Thread
end SvrFrame
