import SvrFrame.Fiber

namespace SvrFrame
open Library
set_option autoImplicit true

/-- The code of a callback: steps over a state that it shares with everybody else, and the calls
that suspend its fiber. -/
inductive Code (σ : Type) where
  | act (g : σ → σ) (next : σ → Code σ)
  | yieldToReady (next : Code σ)
  | yieldToHold (next : Code σ)
  | ret
  | throw

/-- How a callback gives the control back. -/
inductive Stop (σ : Type) where
  | ready (next : Code σ)
  | hold (next : Code σ)
  | returned
  | threw

/-- What a callback does from one resumption to the next. -/
structure Leg (σ : Type) where
  steps : List σ
  world : σ
  stop : Stop σ

variable {σ : Type}

def Code.run : Code σ → σ → Leg σ
  | .act g next, w =>
    let l := (next w).run (g w)
    { l with steps := g w :: l.steps }
  | .yieldToReady next, w => ⟨[], w, .ready next⟩
  | .yieldToHold next, w => ⟨[], w, .hold next⟩
  | .ret, w => ⟨[], w, .returned⟩
  | .throw, w => ⟨[], w, .threw⟩

/-- No way through the callback leads to a `YieldToHold`. -/
def Code.HoldFree : Code σ → Prop
  | .act _ next => ∀ w, (next w).HoldFree
  | .yieldToReady next => next.HoldFree
  | .yieldToHold _ => False
  | .ret | .throw => True

theorem Code.HoldFree.run {c : Code σ} (hc : c.HoldFree) (w : σ) :
    (∀ next, (c.run w).stop ≠ .hold next) ∧
      ∀ next, (c.run w).stop = .ready next → next.HoldFree := by
  induction c generalizing w with
  | act g next ih => exact ih w (hc w) (g w)
  | yieldToReady next =>
    exact ⟨fun _ h => (by cases h), fun _ h => by cases h; exact hc⟩
  | yieldToHold => exact absurd hc id
  | ret | throw => exact ⟨fun _ h => (by cases h), fun _ h => by cases h⟩

namespace Stop

def act : Stop σ → FiberThread.Act
  | .ready _ => .yieldToReady
  | .hold _ => .yieldToHold
  | .returned => .finish false
  | .threw => .finish true

/-- What is left to do behind the last switch is nothing. -/
def next : Stop σ → Code σ
  | .ready c | .hold c => c
  | .returned | .threw => .ret

/-- What becomes of the fiber. -/
def fiber (x : Fiber) : Stop σ → Fiber
  | .ready _ => { x with mState := .ready, mContex := x.mContex.next }
  | .hold _ => { x with mState := .exec, mContex := x.mContex.next }
  | .returned =>
    { x with mState := .term, mContex := x.mContex.next, mCallback := false, ended := true }
  | .threw => { x with mState := .except, mContex := x.mContex.next, ended := true }

theorem fiber_contex (stop : Stop σ) (x : Fiber) : (stop.fiber x).mContex = x.mContex.next := by
  cases stop <;> rfl

end Stop

namespace FiberThread

variable {t u : FiberThread}

/-- The context that `Reset` makes starts in `MainFunc`. Only the thread's own fiber has no
`pStack`. -/
def reset (t : FiberThread) (f : FiberId) (cb : Bool) : Option FiberThread :=
  let x := t.fibers f
  if f < t.nextFiber ∧ f ≠ t.tThreadFiber ∧
      (x.mState = .term ∨ x.mState = .except ∨ x.mState = .init) then
    some { t.setFiber f ⟨.init, ⟨f, 0⟩, cb, false, false⟩ with running := t.running.next }
  else none

/-- The thread's own fiber runs, between two `SwapIn`s. -/
structure AtMain (t : FiberThread) : Prop where
  running : t.running.code = t.tThreadFiber
  born : t.tThreadFiber < t.nextFiber
  exec : (t.fibers t.tThreadFiber).mState = .exec
  live : (t.fibers t.tThreadFiber).ended = false
  own : ∀ f < t.nextFiber, f ≠ t.tThreadFiber → (t.fibers f).mContex.code = f

theorem initial_atMain : AtMain initial where
  running := rfl
  born := Nat.zero_lt_one
  exec := rfl
  live := rfl
  own _ hf hne := absurd (Nat.lt_one_iff.1 hf) hne

/-- A fiber that the thread's own fiber can go on with. -/
structure Resumable (t : FiberThread) (f : FiberId) : Prop where
  born : f < t.nextFiber
  state : (t.fibers f).mState ≠ .exec
  live : (t.fibers f).ended = false

theorem AtMain.alive (ht : AtMain t) : (t.fibers t.running.code).ended = false := by
  rw [ht.running]
  exact ht.live

theorem AtMain.ne (ht : AtMain t) (hf : Resumable t f) : f ≠ t.tThreadFiber := by
  rintro rfl
  exact hf.state ht.exec

/-- The thread while fiber `f` runs as `x`, resumed by the thread's own fiber. -/
def inside (t : FiberThread) (f : FiberId) (x : Fiber) : FiberThread :=
  let main := { t.fibers t.tThreadFiber with mContex := t.running.next }
  { t with
    fibers := Function.update (Function.update t.fibers t.tThreadFiber main) f x
    tFiber := f
    running := (t.fibers f).mContex
    resumedAt := Function.update t.resumedAt f (some t.running.next) }

/-- The thread after fiber `f` has been resumed and has come back as `x`. -/
def afterRound (t : FiberThread) (f : FiberId) (x : Fiber) : FiberThread :=
  { t.inside f x with
    tFiber := t.tThreadFiber
    running := t.running.next }

@[simp] theorem inside_fiber (t : FiberThread) (f : FiberId) (x : Fiber) :
    (t.inside f x).fibers f = x :=
  Function.update_self _ _ _

@[simp] theorem setFiber_inside (t : FiberThread) (f : FiberId) (x y : Fiber) :
    (t.inside f x).setFiber f y = t.inside f y := by
  simp only [setFiber, inside, Function.update_idem]

theorem resume_eq_inside (t : FiberThread) (hf : f ≠ t.tThreadFiber) :
    t.resume f = t.inside f { t.fibers f with mState := .exec } := by
  simp only [resume, swapcontext, setThis, setState, setFiber, inside]
  rw [Function.update_of_ne hf.symm, Function.update_of_ne hf, Function.update_self,
    Function.update_comm hf.symm]

theorem swapOut_inside (t : FiberThread) (hf : f ≠ t.tThreadFiber) (x : Fiber) :
    (t.inside f x).swapOut f =
      t.afterRound f { x with mContex := (t.fibers f).mContex.next } := by
  simp only [swapOut, setThis, swapcontext, setFiber, afterRound, inside, Function.update_idem,
    Function.update_self, Function.update_of_ne hf.symm]

@[simp] theorem afterRound_fiber (t : FiberThread) (f : FiberId) (x : Fiber) :
    (t.afterRound f x).fibers f = x :=
  Function.update_self _ _ _

theorem afterRound_other (t : FiberThread) (x : Fiber) (hg : g ≠ f) (hmain : g ≠ t.tThreadFiber) :
    (t.afterRound f x).fibers g = t.fibers g := by
  simp only [afterRound, inside, Function.update_of_ne hg, Function.update_of_ne hmain]

theorem AtMain.afterRound (ht : AtMain t) (hf : f ≠ t.tThreadFiber)
    (hx : x.mContex.code = f) : AtMain (t.afterRound f x) where
  running := ht.running
  born := ht.born
  exec := by
    simp only [FiberThread.afterRound, inside, Function.update_of_ne hf.symm, Function.update_self]
    exact ht.exec
  live := by
    simp only [FiberThread.afterRound, inside, Function.update_of_ne hf.symm, Function.update_self]
    exact ht.live
  own g hg hmain := by
    by_cases hgf : g = f
    · rw [hgf, afterRound_fiber, hx]
    · rw [afterRound_other t x hgf hmain]
      exact ht.own g hg hmain

theorem AtMain.swapIn (ht : AtMain t) (hf : Resumable t f) :
    t.step (.swapIn f) = some (t.inside f { t.fibers f with mState := .exec }) := by
  simp only [step, ht.alive, FiberThread.swapIn, hf.born, hf.state, ne_eq, not_false_eq_true,
    and_self, if_true, resume_eq_inside t (ht.ne hf), Bool.false_eq_true, if_false]

/-- The fiber that has been resumed suspends itself or comes to its end. -/
theorem suspends_inside (t : FiberThread) (hf : f ≠ t.tThreadFiber)
    (hown : (t.fibers f).mContex.code = f) {x : Fiber} (hx : x.mState = .exec)
    (hlive : x.ended = false) (hcontex : x.mContex = (t.fibers f).mContex) (stop : Stop σ)
    (hcb : x.mCallback = false → stop.act ≠ .finish false) :
    (t.inside f x).step stop.act = some (t.afterRound f (stop.fiber x)) := by
  have hcode : (t.inside f x).running.code = f := hown
  have hmain : (t.inside f x).tThreadFiber = t.tThreadFiber := rfl
  have hcur : (t.inside f x).getThis = f := rfl
  simp only [step, hcode, inside_fiber, hlive, Bool.false_eq_true, if_false]
  cases stop with
  | ready =>
    simp only [Stop.act, yieldToReady, hcur, setState, inside_fiber, setFiber_inside, hx, if_true]
    rw [swapOut_inside t hf, ← hcontex]
    rfl
  | hold =>
    simp only [Stop.act, yieldToHold, hcur, inside_fiber, hx, if_true]
    rw [swapOut_inside t hf, ← hcontex]
    simp only [Stop.fiber, hx]
  | returned =>
    have hcall : x.mCallback ≠ false := fun h => hcb h rfl
    simp only [Stop.act, finish, hcode, hmain, inside_fiber, setFiber_inside, back_eq_swapOut,
      ite_self, hf, hcall, if_false, Bool.false_eq_true]
    rw [swapOut_inside t hf, ← hcontex]
    rfl
  | threw =>
    simp only [Stop.act, finish, hcode, hmain, inside_fiber, setFiber_inside, back_eq_swapOut,
      ite_self, hf, Bool.true_eq_false, false_and, or_self, if_false, if_true]
    rw [swapOut_inside t hf, ← hcontex]
    rfl

theorem AtMain.suspends (ht : AtMain t) (hf : Resumable t f) (stop : Stop σ)
    (hcb : (t.fibers f).mCallback = false → stop.act ≠ .finish false) :
    (t.inside f { t.fibers f with mState := .exec }).step stop.act =
      some (t.afterRound f (stop.fiber (t.fibers f))) := by
  have hne := ht.ne hf
  have h := suspends_inside t hne (ht.own f hf.born hne) (x := { t.fibers f with mState := .exec })
    rfl hf.live rfl stop hcb
  rw [h]
  cases stop <;> rfl

theorem swapIn_some (h : t.step (.swapIn f) = some u) :
    f < t.nextFiber ∧ (t.fibers f).mState ≠ .exec ∧ u = t.resume f := by
  simp only [step] at h
  split at h
  · cases h
  simp only [swapIn] at h
  split at h
  · rename_i hf
    cases h
    exact ⟨hf.1, hf.2, rfl⟩
  · cases h

theorem step_some (h : t.step a = some u) : (t.fibers t.running.code).ended = false ∧
    (a = .finish false → (t.fibers t.running.code).mCallback = true) := by
  simp only [step] at h
  split at h
  · cases h
  rename_i hlive
  refine ⟨eq_false_of_ne_true hlive, ?_⟩
  rintro rfl
  simp only [finish] at h
  split at h
  · cases h
  rename_i hfinish
  exact eq_true_of_ne_false fun hcb => hfinish (.inr ⟨trivial, hcb⟩)

theorem AtMain.step_create (ht : AtMain t) (useCaller : Bool) : t.step (.create useCaller) =
    some { t.setFiber t.nextFiber (callbackFiber t.nextFiber useCaller) with
      nextFiber := t.nextFiber + 1, running := t.running.next } := by
  simp only [step, ht.alive, Bool.false_eq_true, if_false]

theorem AtMain.create (ht : AtMain t) (h : t.step (.create useCaller) = some u) : AtMain u := by
  rw [ht.step_create] at h
  cases h
  have hne : t.tThreadFiber ≠ t.nextFiber := Nat.ne_of_lt ht.born
  constructor
  · exact ht.running
  · exact Nat.lt_succ_of_lt ht.born
  · simp only [setFiber, Function.update_of_ne hne]
    exact ht.exec
  · simp only [setFiber, Function.update_of_ne hne]
    exact ht.live
  · intro f hf hmain
    simp only [setFiber]
    rcases Nat.lt_succ_iff_lt_or_eq.1 hf with hlt | he
    · rw [Function.update_of_ne (Nat.ne_of_lt hlt)]
      exact ht.own f hlt hmain
    · rw [he, Function.update_self]
      rfl

theorem reset_eq_some (h : t.reset f cb = some u) :
    u = { t.setFiber f ⟨.init, ⟨f, 0⟩, cb, false, false⟩ with running := t.running.next } ∧
      f < t.nextFiber ∧ f ≠ t.tThreadFiber := by
  simp only [reset] at h
  split at h
  · rename_i hf
    cases h
    exact ⟨rfl, hf.1, hf.2.1⟩
  · cases h

theorem AtMain.reset (ht : AtMain t) (h : t.reset f cb = some u) : AtMain u := by
  obtain ⟨rfl, hlt, hne⟩ := reset_eq_some h
  constructor
  · exact ht.running
  · exact ht.born
  · simp only [setFiber, Function.update_of_ne hne.symm]
    exact ht.exec
  · simp only [setFiber, Function.update_of_ne hne.symm]
    exact ht.live
  · intro g hg hmain
    simp only [setFiber]
    by_cases hgf : g = f
    · rw [hgf, Function.update_self]
    · rw [Function.update_of_ne hgf]
      exact ht.own g hg hmain

end FiberThread

/-- A thread whose own fiber works with other fibers. -/
structure Drive (σ : Type) where
  thread : FiberThread
  /-- The functions in `mCallback`, of the fibers that have one. -/
  callback : FiberId → Code σ
  /-- What the callbacks have left to do that have been suspended. -/
  rest : FiberId → Code σ
  world : σ

namespace Drive

def initial (w : σ) : Drive σ := ⟨.initial, fun _ => .ret, fun _ => .ret, w⟩

def stateOf (d : Drive σ) (f : FiberId) : FiberState := (d.thread.fibers f).mState

def create (d : Drive σ) (useCaller : Bool) (c : Code σ) : Option (Drive σ) :=
  (d.thread.step (.create useCaller)).map fun t =>
    { d with thread := t, callback := Function.update d.callback d.thread.nextFiber c }

def reset (d : Drive σ) (f : FiberId) (cb : Option (Code σ)) : Option (Drive σ) :=
  (d.thread.reset f cb.isSome).map fun t =>
    match cb with
    | some c => { d with thread := t, callback := Function.update d.callback f c }
    | none => { d with thread := t }

/-- The code at a context: `MainFunc` calls `mCallback`, and an empty one throws. -/
def codeAt (d : Drive σ) (c : Context) : Code σ :=
  if c.point = 0 then if (d.thread.fibers c.code).mCallback then d.callback c.code else .throw
  else d.rest c.code

/-- `SwapIn` up to its return. -/
def round (d : Drive σ) (f : FiberId) : Option (Leg σ × Drive σ) :=
  (d.thread.step (.swapIn f)).bind fun t =>
    let leg := (d.codeAt t.running).run d.world
    (t.step leg.stop.act).bind fun u =>
      if u.running.code = u.tThreadFiber then
        some (leg, { d with
          thread := u
          rest := Function.update d.rest t.running.code leg.stop.next
          world := leg.world })
      else none

/-- What the thread's own fiber may do between two `SwapIn`s, and `SwapIn`. -/
inductive Act (σ : Type) where
  | create (useCaller : Bool) (c : Code σ)
  | reset (f : FiberId) (cb : Option (Code σ))
  | swapIn (f : FiberId)
  | own (g : σ → σ)

def step (d : Drive σ) : Act σ → Option (Drive σ)
  | .create useCaller c => d.create useCaller c
  | .reset f cb => d.reset f cb
  | .swapIn f => (d.round f).map Prod.snd
  | .own g => some { d with world := g d.world }

/-- The leg that the next `SwapIn` of `f` leads to. -/
def leg (d : Drive σ) (f : FiberId) : Leg σ :=
  (d.codeAt (d.thread.fibers f).mContex).run d.world

/-- The state after that leg. -/
def afterLeg (d : Drive σ) (f : FiberId) : Drive σ :=
  { d with
    thread := d.thread.afterRound f ((d.leg f).stop.fiber (d.thread.fibers f))
    rest := Function.update d.rest f (d.leg f).stop.next
    world := (d.leg f).world }

@[simp] theorem afterLeg_fiber (d : Drive σ) (f : FiberId) :
    (d.afterLeg f).thread.fibers f = (d.leg f).stop.fiber (d.thread.fibers f) :=
  FiberThread.afterRound_fiber _ _ _

@[simp] theorem afterLeg_stateOf (d : Drive σ) (f : FiberId) :
    (d.afterLeg f).stateOf f = ((d.leg f).stop.fiber (d.thread.fibers f)).mState := by
  rw [stateOf, afterLeg_fiber]

/-- A fiber that the next `SwapIn` goes on with; without a callback it has not begun. -/
structure Resumes (d : Drive σ) (f : FiberId) : Prop where
  resumable : d.thread.Resumable f
  callable : (d.thread.fibers f).mCallback = false → (d.thread.fibers f).mContex.point = 0

variable {d e : Drive σ} {f : FiberId}

theorem round_eq (hd : d.thread.AtMain) (hf : d.thread.Resumable f)
    (hcb : (d.thread.fibers f).mCallback = false → (d.leg f).stop.act ≠ .finish false) :
    d.round f = some (d.leg f, d.afterLeg f) := by
  have hne := hd.ne hf
  have hown := hd.own f hf.born hne
  have hmain : (d.thread.afterRound f ((d.leg f).stop.fiber (d.thread.fibers f))).running.code =
      (d.thread.afterRound f ((d.leg f).stop.fiber (d.thread.fibers f))).tThreadFiber := hd.running
  have hrun : (d.thread.inside f { d.thread.fibers f with mState := .exec }).running =
      (d.thread.fibers f).mContex := rfl
  have hleg : (d.codeAt (d.thread.fibers f).mContex).run d.world = d.leg f := rfl
  simp only [round, hd.swapIn hf, Option.bind_some, hrun, hleg, hd.suspends hf _ hcb, hown]
  rw [if_pos hmain]
  rfl

/-- An empty `mCallback` throws. -/
theorem Resumes.stop (hf : Resumes d f) (hd : d.thread.AtMain)
    (hcb : (d.thread.fibers f).mCallback = false) : (d.leg f).stop = .threw := by
  have hown := hd.own f hf.resumable.born (hd.ne hf.resumable)
  simp only [leg, codeAt, hf.callable hcb, hown, hcb, if_true, Bool.false_eq_true, if_false,
    Code.run]

theorem Resumes.round (hf : Resumes d f) (hd : d.thread.AtMain) :
    d.round f = some (d.leg f, d.afterLeg f) := by
  apply round_eq hd hf.resumable
  intro hcb
  rw [hf.stop hd hcb]
  exact fun h => by cases h

/-- After `YieldToReady` the next `SwapIn` goes on behind it. -/
theorem Resumes.ready (hf : Resumes d f) (hd : d.thread.AtMain)
    (hstop : (d.leg f).stop = .ready c) :
    Resumes (d.afterLeg f) f ∧
      (d.afterLeg f).codeAt ((d.afterLeg f).thread.fibers f).mContex = c := by
  have hfiber := afterLeg_fiber d f
  rw [hstop] at hfiber
  have hown := hd.own f hf.resumable.born (hd.ne hf.resumable)
  refine ⟨⟨⟨hf.resumable.born, ?_, ?_⟩, ?_⟩, ?_⟩
  · rw [hfiber]
    exact fun h => by cases h
  · rw [hfiber]
    exact hf.resumable.live
  · rw [hfiber]
    intro hcb
    rw [hf.stop hd hcb] at hstop
    cases hstop
  · rw [hfiber]
    simp [codeAt, Stop.fiber, Context.next, hown, afterLeg, hstop, Stop.next]

/-- What it takes for a `SwapIn` to return. -/
theorem round_some (hd : d.thread.AtMain) (h : d.round f = some (l, e)) :
    d.thread.Resumable f ∧
      ((d.thread.fibers f).mCallback = false → (d.leg f).stop.act ≠ .finish false) := by
  simp only [Drive.round, Option.bind_eq_some_iff] at h
  obtain ⟨t, ht, u, hu, -⟩ := h
  obtain ⟨hborn, hstate, rfl⟩ := FiberThread.swapIn_some ht
  have hne : f ≠ d.thread.tThreadFiber := by
    rintro rfl
    exact hstate hd.exec
  rw [FiberThread.resume_eq_inside _ hne] at hu
  have hown : (d.thread.inside f { d.thread.fibers f with mState := .exec }).running.code = f :=
    hd.own f hborn hne
  have hleg : (d.codeAt (d.thread.inside f { d.thread.fibers f with mState := .exec }).running).run
      d.world = d.leg f := rfl
  rw [hleg] at hu
  obtain ⟨hlive, hfinish⟩ := FiberThread.step_some hu
  rw [hown, FiberThread.inside_fiber] at hlive hfinish
  refine ⟨⟨hborn, hstate, hlive⟩, ?_⟩
  intro hcb hact
  have hcall := hfinish hact
  rw [hcb] at hcall
  cases hcall

theorem initial_atMain (w : σ) : (initial w).thread.AtMain := FiberThread.initial_atMain

theorem step_atMain {a : Act σ} (hd : d.thread.AtMain) (h : d.step a = some e) :
    e.thread.AtMain := by
  cases a with
  | create useCaller c =>
    obtain ⟨t, ht, rfl⟩ := Option.map_eq_some_iff.1 h
    exact hd.create ht
  | reset g cb =>
    obtain ⟨t, ht, rfl⟩ := Option.map_eq_some_iff.1 h
    cases cb <;> exact hd.reset ht
  | swapIn g =>
    obtain ⟨⟨l, e'⟩, hround, rfl⟩ := Option.map_eq_some_iff.1 h
    obtain ⟨hres, hcb⟩ := round_some hd hround
    have hne := hd.ne hres
    rw [round_eq hd hres hcb] at hround
    cases hround
    apply hd.afterRound hne
    rw [Stop.fiber_contex, Context.next_code]
    exact hd.own g hres.born hne
  | own g =>
    cases h
    exact hd

theorem reach_atMain {w : σ} (h : Reach step (fun _ _ => True) (initial w) d) :
    d.thread.AtMain :=
  h.invariant (initial_atMain w) fun hs _ ht => step_atMain hs ht

/-- Making a fiber succeeds, and the fiber can be resumed. -/
theorem create_resumes (hd : d.thread.AtMain) (useCaller : Bool) (c : Code σ) :
    ∃ e, d.create useCaller c = some e ∧ Resumes e d.thread.nextFiber ∧
      e.codeAt (e.thread.fibers d.thread.nextFiber).mContex = c ∧ e.world = d.world := by
  obtain ⟨t, ht⟩ : ∃ t, t = { d.thread.setFiber d.thread.nextFiber
      (FiberThread.callbackFiber d.thread.nextFiber useCaller) with
        nextFiber := d.thread.nextFiber + 1, running := d.thread.running.next } := ⟨_, rfl⟩
  have hfiber : t.fibers d.thread.nextFiber =
      FiberThread.callbackFiber d.thread.nextFiber useCaller := by
    rw [ht]
    exact Function.update_self _ _ _
  have hborn : d.thread.nextFiber < t.nextFiber := by
    rw [ht]
    exact Nat.lt_succ_self _
  refine ⟨{ d with thread := t, callback := Function.update d.callback d.thread.nextFiber c },
    ?_, ⟨⟨hborn, ?_, ?_⟩, ?_⟩, ?_, rfl⟩
  · rw [create, hd.step_create, ht]
    rfl
  · rw [hfiber]
    exact fun h => by cases h
  · rw [hfiber]
    rfl
  · rw [hfiber]
    exact fun _ => rfl
  · simp [codeAt, hfiber, FiberThread.callbackFiber]

/-- A step that is about another fiber leaves fiber `f` alone. -/
theorem step_frame {a : Act σ} (hd : d.thread.AtMain) (hf : f < d.thread.nextFiber)
    (hmain : f ≠ d.thread.tThreadFiber) (hreset : ∀ cb, a ≠ .reset f cb)
    (hswap : a ≠ .swapIn f) (h : d.step a = some e) :
    e.thread.fibers f = d.thread.fibers f ∧ f < e.thread.nextFiber ∧
      e.callback f = d.callback f ∧ e.rest f = d.rest f := by
  cases a with
  | create useCaller c =>
    obtain ⟨t, ht, rfl⟩ := Option.map_eq_some_iff.1 h
    rw [hd.step_create] at ht
    cases ht
    have hne := Nat.ne_of_lt hf
    exact ⟨Function.update_of_ne hne _ _, Nat.lt_succ_of_lt hf, Function.update_of_ne hne _ _, rfl⟩
  | reset g cb =>
    have hne : f ≠ g := fun hfg => hreset cb (hfg ▸ rfl)
    obtain ⟨t, ht, rfl⟩ := Option.map_eq_some_iff.1 h
    obtain ⟨rfl, -⟩ := FiberThread.reset_eq_some ht
    cases cb with
    | none => exact ⟨Function.update_of_ne hne _ _, hf, rfl, rfl⟩
    | some c => exact ⟨Function.update_of_ne hne _ _, hf, Function.update_of_ne hne _ _, rfl⟩
  | swapIn g =>
    have hne : f ≠ g := fun hfg => hswap (hfg ▸ rfl)
    obtain ⟨⟨l, e'⟩, hround, rfl⟩ := Option.map_eq_some_iff.1 h
    obtain ⟨hres, hcb⟩ := round_some hd hround
    rw [round_eq hd hres hcb] at hround
    cases hround
    exact ⟨FiberThread.afterRound_other _ _ hne hmain, hf, rfl, Function.update_of_ne hne _ _⟩
  | own g =>
    cases h
    exact ⟨rfl, hf, rfl, rfl⟩

end Drive
end SvrFrame
