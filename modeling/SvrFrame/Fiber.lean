import SvrFrame.Library.Machine
import Mathlib.Logic.Function.Basic

namespace SvrFrame
open Library
set_option autoImplicit true

inductive FiberState where
  | init | hold | exec | term | ready | except
  deriving DecidableEq, Repr

def FiberState.finished (st : FiberState) : Bool := st = .term || st = .except

abbrev FiberId := Nat

/-- What `swapcontext` stores: whose code it is, and the point that code has come to. -/
structure Context where
  code : FiberId
  point : Nat
  deriving DecidableEq, Repr

def Context.next (c : Context) : Context := ⟨c.code, c.point + 1⟩

@[simp] theorem Context.next_code (c : Context) : c.next.code = c.code := rfl

structure Fiber where
  mState : FiberState
  mContex : Context
  mCallback : Bool
  useCaller : Bool
  /-- The context stands behind the last switch of `MainFunc` or `CallerMainFunc`. -/
  ended : Bool
  deriving DecidableEq

/-- One thread as its fibers see it. `t_threadFiber` has been made by the first `GetThis()`. -/
structure FiberThread where
  fibers : FiberId → Fiber
  nextFiber : FiberId
  tFiber : FiberId
  tThreadFiber : FiberId
  running : Context
  /-- Ghost: the continuation right after the `Call` or `SwapIn` that last resumed a fiber. -/
  resumedAt : FiberId → Option Context

namespace FiberThread

/-- `Fiber::Fiber()`: the thread's own fiber. -/
def mainFiber : Fiber := ⟨.exec, ⟨0, 0⟩, false, false, false⟩

/-- `Fiber::Fiber(cb, ...)`. The constructor tests the member `use_caller`, which nothing has set,
instead of its parameter, so the flag is whatever the memory held. -/
def callbackFiber (f : FiberId) (useCaller : Bool) : Fiber :=
  ⟨.init, ⟨f, 0⟩, true, useCaller, false⟩

def initial : FiberThread where
  fibers := fun _ => mainFiber
  nextFiber := 1
  tFiber := 0
  tThreadFiber := 0
  running := ⟨0, 0⟩
  resumedAt := fun _ => none

def setThis (s : FiberThread) (f : FiberId) : FiberThread := { s with tFiber := f }

def getThis (s : FiberThread) : FiberId := s.tFiber

def setFiber (s : FiberThread) (f : FiberId) (x : Fiber) : FiberThread :=
  { s with fibers := Function.update s.fibers f x }

def setState (s : FiberThread) (f : FiberId) (st : FiberState) : FiberThread :=
  s.setFiber f { s.fibers f with mState := st }

/-- Store the current continuation in `a`, go on at the one stored in `b`. -/
def swapcontext (s : FiberThread) (a b : FiberId) : FiberThread :=
  let s' := s.setFiber a { s.fibers a with mContex := s.running.next }
  { s' with running := (s'.fibers b).mContex }

/-- What `Call` and `SwapIn` have in common once `SwapIn` has passed its assertion. -/
def resume (s : FiberThread) (f : FiberId) : FiberThread :=
  let s' := ((s.setThis f).setState f .exec).swapcontext s.tThreadFiber f
  { s' with resumedAt := Function.update s.resumedAt f (some s.running.next) }

def call (s : FiberThread) (f : FiberId) : Option FiberThread :=
  if f < s.nextFiber then some (s.resume f) else none

def swapIn (s : FiberThread) (f : FiberId) : Option FiberThread :=
  if f < s.nextFiber ∧ (s.fibers f).mState ≠ .exec then some (s.resume f) else none

def swapOut (s : FiberThread) (this : FiberId) : FiberThread :=
  (s.setThis s.tThreadFiber).swapcontext this s.tThreadFiber

def back (s : FiberThread) (this : FiberId) : FiberThread :=
  (s.setThis s.tThreadFiber).swapcontext this s.tThreadFiber

def yieldToReady (s : FiberThread) : Option FiberThread :=
  let cur := s.getThis
  if (s.fibers cur).mState = .exec then some ((s.setState cur .ready).swapOut cur) else none

def yieldToHold (s : FiberThread) : Option FiberThread :=
  let cur := s.getThis
  if (s.fibers cur).mState = .exec then some (s.swapOut cur) else none

/-- The end of `MainFunc` and `CallerMainFunc`. `cur` was read on entry, right after the first
resumption had made the fiber current, so it is the fiber whose code this is. -/
def finish (s : FiberThread) (thrown : Bool) : Option FiberThread :=
  let cur := s.running.code
  let x := s.fibers cur
  if cur = s.tThreadFiber ∨ (thrown = false ∧ x.mCallback = false) then none
  else
    let x' := if thrown then { x with mState := .except, ended := true }
      else { x with mState := .term, mCallback := false, ended := true }
    let s' := s.setFiber cur x'
    some (if x.useCaller then s'.back cur else s'.swapOut cur)

inductive Act where
  | create (useCaller : Bool)
  | call (f : FiberId)
  | swapIn (f : FiberId)
  | swapOut
  | back
  | yieldToReady
  | yieldToHold
  | finish (thrown : Bool)
  deriving DecidableEq

def Act.suspends : Act → Bool
  | .create _ | .call _ | .swapIn _ => false
  | .swapOut | .back | .yieldToReady | .yieldToHold | .finish _ => true

def Act.resumes : Act → Option FiberId
  | .call f | .swapIn f => some f
  | _ => none

/-- `none` is a failed assertion (the process aborts) or a call the code cannot make. -/
def step (s : FiberThread) (a : Act) : Option FiberThread :=
  if (s.fibers s.running.code).ended then none  -- "never reach"
  else match a with
  | .create useCaller =>
    some { s.setFiber s.nextFiber (callbackFiber s.nextFiber useCaller) with
      nextFiber := s.nextFiber + 1, running := s.running.next }
  | .call f => s.call f
  | .swapIn f => s.swapIn f
  | .swapOut => some (s.swapOut s.running.code)
  | .back => some (s.back s.running.code)
  | .yieldToReady => s.yieldToReady
  | .yieldToHold => s.yieldToHold
  | .finish thrown => s.finish thrown

/-- `GetThis()` denotes the fiber whose code is running. -/
def InStep (s : FiberThread) : Prop := s.getThis = s.running.code

/-- A suspension hands control to the point right after the resumption it belongs to. -/
def Returns (s : FiberThread) (a : Act) (s' : FiberThread) : Prop :=
  a.suspends → ∀ r ∈ s.resumedAt s.running.code, s'.running = r

/-- No nesting: a resumed fiber suspends or finishes only if it is not the thread's main fiber and
the main fiber resumed it, and nobody but the main fiber resumes the main fiber. -/
def OneLevel (s : FiberThread) (a : Act) : Prop :=
  (a.resumes = some s.tThreadFiber → s.running.code = s.tThreadFiber) ∧
    (a.suspends → ∀ r ∈ s.resumedAt s.running.code,
      s.running.code ≠ s.tThreadFiber ∧ r.code = s.tThreadFiber)

instance (s : FiberThread) (a : Act) : Decidable (OneLevel s a) :=
  inferInstanceAs (Decidable (_ ∧ _))

/-- What a suspension does: the suspending fiber saves its continuation, the thread's main fiber
becomes the current one and its saved continuation runs on. -/
structure Suspended (s s' : FiberThread) : Prop where
  current : s'.tFiber = s.tThreadFiber
  main : s'.tThreadFiber = s.tThreadFiber
  next : s'.nextFiber = s.nextFiber
  ghost : s'.resumedAt = s.resumedAt
  frame : ∀ f ≠ s.running.code, s'.fibers f = s.fibers f
  saved : (s'.fibers s.running.code).mContex = s.running.next
  target : s'.running = (s'.fibers s.tThreadFiber).mContex

theorem swapOut_suspended (s : FiberThread) (x : Fiber) :
    Suspended s ((s.setFiber s.running.code x).swapOut s.running.code) where
  current := rfl
  main := rfl
  next := rfl
  ghost := rfl
  frame f hf := by
    simp only [swapOut, setThis, swapcontext, setFiber, Function.update_of_ne hf]
  saved := by
    simp only [swapOut, setThis, swapcontext, setFiber, Function.update_self]
  target := rfl

theorem setFiber_self (s : FiberThread) (f : FiberId) : s.setFiber f (s.fibers f) = s := by
  simp only [setFiber, Function.update_eq_self]

theorem back_eq_swapOut (s : FiberThread) (f : FiberId) : s.back f = s.swapOut f := rfl

theorem step_suspended (hi : InStep s) (ha : a.suspends) (h : step s a = some s') :
    Suspended s s' := by
  have hcur : s.getThis = s.running.code := hi
  have hplain := swapOut_suspended s (s.fibers s.running.code)
  rw [setFiber_self] at hplain
  simp only [step] at h
  split at h
  · cases h
  cases a with
  | create | call | swapIn => cases ha
  | swapOut => cases h; exact hplain
  | back => cases h; exact hplain
  | yieldToReady =>
    simp only [yieldToReady, hcur] at h
    split at h
    · cases h; exact swapOut_suspended s _
    · cases h
  | yieldToHold =>
    simp only [yieldToHold, hcur] at h
    split at h
    · cases h; exact hplain
    · cases h
  | finish thrown =>
    simp only [finish, back_eq_swapOut, ite_self] at h
    split at h
    · cases h
    · cases h; exact swapOut_suspended s _

/-- What a resumption does: the resumer's continuation goes into the main fiber's slot and the
resumed fiber's saved continuation runs on. -/
structure Resumed (s : FiberThread) (f : FiberId) (s' : FiberThread) : Prop where
  valid : f < s.nextFiber
  current : s'.tFiber = f
  main : s'.tThreadFiber = s.tThreadFiber
  next : s'.nextFiber = s.nextFiber
  ghost : s'.resumedAt = Function.update s.resumedAt f (some s.running.next)
  contexts : ∀ g ≠ s.tThreadFiber, (s'.fibers g).mContex = (s.fibers g).mContex
  saved : (s'.fibers s.tThreadFiber).mContex = s.running.next
  target : s'.running = (s'.fibers f).mContex

theorem resume_resumed (s : FiberThread) (hv : f < s.nextFiber) : Resumed s f (s.resume f) where
  valid := hv
  current := rfl
  main := rfl
  next := rfl
  ghost := rfl
  contexts g hg := by
    simp only [resume, setThis, setState, setFiber, swapcontext, Function.update_of_ne hg]
    by_cases hgf : g = f
    · rw [hgf, Function.update_self]
    · rw [Function.update_of_ne hgf]
  saved := by simp only [resume, setThis, setState, setFiber, swapcontext, Function.update_self]
  target := rfl

theorem step_resumed (ha : a.resumes = some f) (h : step s a = some s') : Resumed s f s' := by
  simp only [step] at h
  split at h
  · cases h
  cases a with
  | call g =>
    cases ha
    simp only [call] at h
    split at h
    · rename_i hv; cases h; exact resume_resumed s hv
    · cases h
  | swapIn g =>
    cases ha
    simp only [swapIn] at h
    split at h
    · rename_i hv; cases h; exact resume_resumed s hv.1
    · cases h
  | create | swapOut | back | yieldToReady | yieldToHold | finish => cases ha

/-- While there is no nesting, the slot of the main fiber holds the continuation the running
fiber has to return to, and every other slot holds a continuation of its own fiber. -/
structure Ok (s : FiberThread) : Prop where
  inStep : InStep s
  main : s.tThreadFiber < s.nextFiber
  alive : s.running.code < s.nextFiber
  own : ∀ f < s.nextFiber, f ≠ s.tThreadFiber → (s.fibers f).mContex.code = f
  top : s.running.code ≠ s.tThreadFiber →
    s.resumedAt s.running.code = some (s.fibers s.tThreadFiber).mContex
  -- a resumption the main fiber has made of itself lies behind the point it has come to
  past : s.running.code = s.tThreadFiber →
    ∀ r ∈ s.resumedAt s.tThreadFiber, r.point ≤ s.running.point
  slot : s.running.code ≠ s.tThreadFiber →
    (s.fibers s.tThreadFiber).mContex.code = s.tThreadFiber →
    ∀ r ∈ s.resumedAt s.tThreadFiber, r.point ≤ (s.fibers s.tThreadFiber).mContex.point

theorem initial_ok : Ok initial where
  inStep := rfl
  main := Nat.zero_lt_one
  alive := Nat.zero_lt_one
  own _ hf hne := absurd (Nat.lt_one_iff.1 hf) hne
  top h := absurd rfl h
  past _ r hr := by cases hr
  slot h := absurd rfl h

theorem Ok.create (hs : Ok s) (h : step s (.create b) = some s') : Ok s' := by
  simp only [step] at h
  split at h
  · cases h
  cases h
  have hne {f : FiberId} (hf : f < s.nextFiber) : f ≠ s.nextFiber := Nat.ne_of_lt hf
  have hmain : Function.update s.fibers s.nextFiber (callbackFiber s.nextFiber b)
      s.tThreadFiber = s.fibers s.tThreadFiber := Function.update_of_ne (hne hs.main) _ _
  constructor
  · exact hs.inStep
  · exact Nat.lt_succ_of_lt hs.main
  · exact Nat.lt_succ_of_lt hs.alive
  · intro f hf hmain
    simp only [setFiber]
    rcases Nat.lt_succ_iff_lt_or_eq.1 hf with hlt | he
    · rw [Function.update_of_ne (hne hlt)]
      exact hs.own f hlt hmain
    · rw [he, Function.update_self]
      rfl
  · intro hrun
    simp only [setFiber, hmain]
    exact hs.top hrun
  · intro hrun r hr
    exact Nat.le_succ_of_le (hs.past hrun r hr)
  · intro hrun
    simp only [setFiber, hmain]
    exact hs.slot hrun

theorem Ok.resumed (hs : Ok s) (hf : f ≠ s.tThreadFiber) (h : Resumed s f s') : Ok s' := by
  have hcode : s'.running.code = f := by
    rw [h.target, h.contexts f hf]
    exact hs.own f h.valid hf
  constructor
  · exact h.current.trans hcode.symm
  · rw [h.main, h.next]; exact hs.main
  · rw [hcode, h.next]; exact h.valid
  · intro g hg hmain
    rw [h.next] at hg
    rw [h.main] at hmain
    rw [h.contexts g hmain]
    exact hs.own g hg hmain
  · intro _
    rw [hcode, h.ghost, Function.update_self, h.main, h.saved]
  · intro hrun
    rw [hcode, h.main] at hrun
    exact absurd hrun hf
  · -- the slot holds the main fiber's own continuation only if the main fiber is the resumer
    intro _ hslot r hr
    rw [h.main, h.saved, Context.next_code] at hslot
    rw [h.main, h.ghost, Function.update_of_ne hf.symm] at hr
    rw [h.main, h.saved]
    exact Nat.le_succ_of_le (hs.past hslot r hr)

/-- The main fiber resumes itself: it just runs on. -/
theorem Ok.resumedSelf (hs : Ok s) (hrun : s.running.code = s.tThreadFiber)
    (h : Resumed s s.tThreadFiber s') : Ok s' := by
  have hrun' : s'.running = s.running.next := h.target.trans h.saved
  have hcode : s'.running.code = s'.tThreadFiber := by
    rw [hrun', Context.next_code, hrun, h.main]
  constructor
  · exact h.current.trans (h.main.symm.trans hcode.symm)
  · rw [h.main, h.next]; exact hs.main
  · rw [hcode, h.main, h.next]; exact hs.main
  · intro g hg hmain
    rw [h.next] at hg
    rw [h.main] at hmain
    rw [h.contexts g hmain]
    exact hs.own g hg hmain
  · exact fun hne => absurd hcode hne
  · intro _ r hr
    rw [h.main, h.ghost, Function.update_self] at hr
    cases hr
    exact Nat.le_of_eq (congrArg Context.point hrun'.symm)
  · exact fun hne => absurd hcode hne

/-- A fiber other than the main one always comes back to the resumption it belongs to; the current
fiber is right afterwards exactly if that resumption was made by the main fiber. -/
theorem Ok.returns (hs : Ok s) (h : Suspended s s') (hne : s.running.code ≠ s.tThreadFiber)
    (hr : r ∈ s.resumedAt s.running.code) : s'.running = r := by
  rw [hs.top hne] at hr
  rw [h.target, h.frame _ hne.symm]
  exact Option.some.inj hr

theorem Ok.suspended (hs : Ok s) (h : Suspended s s')
    (hg : ∀ r ∈ s.resumedAt s.running.code,
      s.running.code ≠ s.tThreadFiber ∧ r.code = s.tThreadFiber) : Ok s' := by
  have hcode : s'.running.code = s.tThreadFiber ∧
      ∀ r ∈ s.resumedAt s.tThreadFiber, r.point ≤ s'.running.point := by
    by_cases hc : s.running.code = s.tThreadFiber
    · have hsaved := h.saved
      rw [hc] at hsaved
      rw [h.target, hsaved, Context.next_code]
      exact ⟨hc, fun r hr => Nat.le_succ_of_le (hs.past hc r hr)⟩
    · have htop := hs.top hc
      rw [h.target, h.frame _ (Ne.symm hc)]
      exact ⟨(hg _ htop).2, hs.slot hc (hg _ htop).2⟩
  have hmain : s'.running.code = s'.tThreadFiber := hcode.1.trans h.main.symm
  constructor
  · exact h.current.trans hcode.1.symm
  · rw [h.main, h.next]; exact hs.main
  · rw [hcode.1, h.next]; exact hs.main
  · intro f hf hne
    rw [h.next] at hf
    rw [h.main] at hne
    by_cases hc : f = s.running.code
    · rw [hc, h.saved, Context.next_code]
    · rw [h.frame f hc]
      exact hs.own f hf hne
  · exact fun hne => absurd hmain hne
  · rw [h.main, h.ghost]
    exact fun _ => hcode.2
  · exact fun hne => absurd hmain hne

theorem Act.kinds (a : Act) :
    (∃ b, a = .create b) ∨ (∃ f, a.resumes = some f ∧ a.suspends = false) ∨
      (a.suspends = true ∧ a.resumes = none) := by
  cases a <;> simp [Act.resumes, Act.suspends]

theorem Ok.step (hs : Ok s) (hg : OneLevel s a) (h : FiberThread.step s a = some s') : Ok s' := by
  rcases a.kinds with ⟨b, rfl⟩ | ⟨f, hf, _⟩ | ⟨ha, _⟩
  · exact hs.create h
  · have hres := step_resumed hf h
    by_cases hmain : f = s.tThreadFiber
    · subst hmain
      exact hs.resumedSelf (hg.1 hf) hres
    · exact hs.resumed hmain hres
  · exact hs.suspended (step_suspended hs.inStep ha h) (hg.2 ha)

theorem reach_ok (h : Reach step OneLevel initial s) : Ok s :=
  h.invariant initial_ok fun hs hg ht => hs.step hg ht

/-- Whoever else resumes the main fiber goes on with its own code while the main fiber is the
current one. -/
theorem Resumed.main_of_inStep (h : Resumed s s.tThreadFiber s') (hin : InStep s') :
    s.running.code = s.tThreadFiber := by
  have hcur : s'.tFiber = s'.running.code := hin
  rw [h.current, h.target, h.saved] at hcur
  exact hcur.symm

theorem Ok.oneLevel_of_returns (hs : Ok s) (ha : a.suspends) (ht : FiberThread.step s a = some s')
    (hin : InStep s') (hret : Returns s a s') (hr : r ∈ s.resumedAt s.running.code) :
    s.running.code ≠ s.tThreadFiber ∧ r.code = s.tThreadFiber := by
  have hsus := step_suspended hs.inStep ha ht
  have hrun : s'.running = r := hret ha r hr
  constructor
  · -- the main fiber would run on behind the suspension, and `r` lies before it
    intro hmain
    rw [hsus.target, ← hmain, hsus.saved] at hrun
    have hle := hs.past hmain r (hmain ▸ hr)
    rw [← hrun] at hle
    exact Nat.not_succ_le_self _ hle
  · have hcur : s'.tFiber = s'.running.code := hin
    rw [hsus.current, hrun] at hcur
    exact hcur.symm

/-- As long as no suspension belongs to a nested resumption, `GetThis()` denotes the running
fiber; the next step keeps this and returns to its resumption exactly if it is not nested. -/
theorem suspension_discipline (h : Reach step OneLevel initial s) :
    InStep s ∧ ∀ a s', step s a = some s' → (InStep s' ∧ Returns s a s' ↔ OneLevel s a) := by
  have hs := reach_ok h
  refine ⟨hs.inStep, fun a s' ht => ⟨?_, ?_⟩⟩
  · rintro ⟨hin, hret⟩
    constructor
    · intro hres
      exact (step_resumed hres ht).main_of_inStep hin
    · intro ha r hr
      exact hs.oneLevel_of_returns ha ht hin hret hr
  · intro hg
    refine ⟨(hs.step hg ht).inStep, ?_⟩
    intro ha r hr
    exact hs.returns (step_suspended hs.inStep ha ht) (hg.2 ha r hr).1 hr

theorem suspension_discipline_one_yield : ∃ s, Reach step OneLevel initial s ∧
    s.running.code = 1 ∧ InStep s ∧ ∀ a s', step s a = some s' →
      (InStep s' ∧ Returns s a s' ↔ OneLevel s a) := by
  obtain ⟨s, hs, hp⟩ := Reach.of_exec_map step OneLevel initial
    [.create false, .swapIn 1, .yieldToReady, .swapIn 1]
    (fun s => s.running.code = 1) (by decide)
  exact ⟨s, hs, of_decide_eq_true hp, suspension_discipline hs⟩

/-- `Scheduler::stop` with `use_caller`: the main fiber calls `m_rootFiber` (1), whose `run` swaps
a task (2) in. After the task has yielded the root fiber runs, but `GetThis()` is the main fiber;
and when the root fiber finishes, its own code runs on instead of the caller of `Call`. -/
theorem nested_resumption_breaks_discipline :
    ∃ s, Reach step (fun _ _ => True) initial s ∧ ¬ InStep s ∧
      ∃ s', step s (.finish false) = some s' ∧ ¬ Returns s (.finish false) s' ∧
        s'.running.code = s.running.code := by
  obtain ⟨s, hs, hp⟩ := Reach.of_exec_map step (fun _ _ => True) initial
    [.create true, .create false, .call 1, .swapIn 2, .yieldToReady]
    (fun s => s.getThis ≠ s.running.code ∧ (step s (.finish false)).any fun s' =>
      (s.resumedAt s.running.code).any (s'.running ≠ ·) ∧ s'.running.code = s.running.code)
    (by decide)
  simp only [decide_eq_true_eq, Option.any_eq_true] at hp
  obtain ⟨hcur, s', ht, ⟨r, hr, hne⟩, hcode⟩ := hp
  exact ⟨s, hs, hcur, s', ht, fun hret => hne (hret rfl r hr), hcode⟩

end FiberThread
end SvrFrame
