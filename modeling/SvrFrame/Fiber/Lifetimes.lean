import SvrFrame.Fiber
import SvrFrame.Library.Tally

namespace SvrFrame
open Library
set_option autoImplicit true

abbrev ThreadId := Nat

/-- A `Fiber` object without its context. -/
structure FiberObject where
  mId : UInt64
  mState : FiberState
  mCallback : Bool
  /-- Whether there is a stack. -/
  pStack : Bool
  deriving DecidableEq

/-- The fibers of a process. As there are no contexts, every thread may take every step at any time,
which covers what the code does. -/
structure FiberProcess where
  objects : FiberId → Option FiberObject
  next : FiberId
  sFiberId : UInt64
  sFiberCount : UInt64
  tFiber : ThreadId → Option FiberId
  tThreadFiber : ThreadId → Option FiberId
  /-- Ghost: the stacks from `StackAllocator::Alloc` that have not gone to
  `StackAllocator::Dealloc`, which nothing calls. -/
  outstanding : Nat

namespace FiberProcess

def initial : FiberProcess := ⟨fun _ => none, 0, 0, 0, fun _ => none, fun _ => none, 0⟩

def setObject (s : FiberProcess) (f : FiberId) (x : Option FiberObject) : FiberProcess :=
  { s with objects := Function.update s.objects f x }

def setThis (s : FiberProcess) (t : ThreadId) (f : Option FiberId) : FiberProcess :=
  { s with tFiber := Function.update s.tFiber t f }

/-- `Fiber::Fiber(cb, ...)`, with a callback or an empty function. -/
def newCallback (s : FiberProcess) (cb : Bool) : FiberProcess :=
  { s.setObject s.next (some ⟨s.sFiberId + 1, .init, cb, true⟩) with
    next := s.next + 1
    sFiberId := s.sFiberId + 1
    sFiberCount := s.sFiberCount + 1
    outstanding := s.outstanding + 1 }

/-- `Fiber::Fiber()`. -/
def newMain (s : FiberProcess) (t : ThreadId) : FiberProcess :=
  { (s.setThis t (some s.next)).setObject s.next (some ⟨0, .exec, false, false⟩) with
    next := s.next + 1
    sFiberCount := s.sFiberCount + 1 }

/-- `Fiber::~Fiber`. -/
def destroy (s : FiberProcess) (t : ThreadId) (f : FiberId) : Option FiberProcess :=
  (s.objects f).bind fun x =>
    let s' := { s.setObject f none with sFiberCount := s.sFiberCount - 1 }
    if x.pStack then
      if x.mState = .init ∨ x.mState = .except ∨ x.mState = .term then some s' else none
    else if x.mCallback = false ∧ x.mState = .exec then
      some (if s.tFiber t = some f then s'.setThis t none else s')
    else none

def reset (s : FiberProcess) (f : FiberId) (cb : Bool) : Option FiberProcess :=
  (s.objects f).bind fun x =>
    if x.pStack ∧ (x.mState = .term ∨ x.mState = .except ∨ x.mState = .init) then
      some (s.setObject f (some { x with mCallback := cb, mState := .init }))
    else none

/-- `swapcontext` with the context of `t_threadFiber`, which has to be there. -/
def swapcontext (s : FiberProcess) (t : ThreadId) : Option FiberProcess :=
  ((s.tThreadFiber t).bind s.objects).map fun _ => s

/-- What `Call` and `SwapIn` have in common. -/
def resume (s : FiberProcess) (t : ThreadId) (f : FiberId) : Option FiberProcess :=
  (s.objects f).bind fun x =>
    ((s.setThis t (some f)).setObject f (some { x with mState := .exec })).swapcontext t

def call (s : FiberProcess) (t : ThreadId) (f : FiberId) : Option FiberProcess := s.resume t f

def swapIn (s : FiberProcess) (t : ThreadId) (f : FiberId) : Option FiberProcess :=
  (s.objects f).bind fun x => if x.mState ≠ .exec then s.resume t f else none

/-- The body of `Back` and of `SwapOut`. -/
def suspend (s : FiberProcess) (t : ThreadId) (f : FiberId) : Option FiberProcess :=
  (s.objects f).bind fun _ => (s.setThis t (s.tThreadFiber t)).swapcontext t

def back (s : FiberProcess) (t : ThreadId) (f : FiberId) : Option FiberProcess := s.suspend t f

def swapOut (s : FiberProcess) (t : ThreadId) (f : FiberId) : Option FiberProcess := s.suspend t f

/-- `GetThis()`, which makes a thread its own fiber where it has no current one. -/
def getThis (s : FiberProcess) (t : ThreadId) : Option (FiberProcess × FiberId) :=
  match s.tFiber t with
  | some f => (s.objects f).map fun _ => (s, f)
  | none => some ({ s.newMain t with
      tThreadFiber := Function.update s.tThreadFiber t (some s.next) }, s.next)

def yieldToReady (s : FiberProcess) (t : ThreadId) : Option FiberProcess :=
  (s.getThis t).bind fun r => (r.1.objects r.2).bind fun x =>
    if x.mState = .exec then
      (r.1.setObject r.2 (some { x with mState := .ready })).swapOut t r.2
    else none

def yieldToHold (s : FiberProcess) (t : ThreadId) : Option FiberProcess :=
  (s.getThis t).bind fun r => (r.1.objects r.2).bind fun x =>
    if x.mState = .exec then r.1.swapOut t r.2 else none

/-- The end of `MainFunc` or `CallerMainFunc` for the fiber; without an exception the callback has
returned. -/
def finish (s : FiberProcess) (t : ThreadId) (f : FiberId) (thrown useCaller : Bool) :
    Option FiberProcess :=
  (s.objects f).bind fun x =>
    if thrown = false ∧ x.mCallback = false then none
    else
      let x' := if thrown then { x with mState := .except }
        else { x with mState := .term, mCallback := false }
      let s' := s.setObject f (some x')
      if useCaller then s'.back t f else s'.swapOut t f

inductive Act where
  | newMain (t : ThreadId)
  | newCallback (cb : Bool)
  | getThis (t : ThreadId)
  | call (t : ThreadId) (f : FiberId)
  | swapIn (t : ThreadId) (f : FiberId)
  | back (t : ThreadId) (f : FiberId)
  | swapOut (t : ThreadId) (f : FiberId)
  | yieldToReady (t : ThreadId)
  | yieldToHold (t : ThreadId)
  | finish (t : ThreadId) (f : FiberId) (thrown useCaller : Bool)
  | reset (f : FiberId) (cb : Bool)
  | destroy (t : ThreadId) (f : FiberId)
  deriving DecidableEq

/-- `none` is a failed assertion, or a step with an object that does not exist. -/
def step (s : FiberProcess) : Act → Option FiberProcess
  | .newMain t => some (s.newMain t)
  | .newCallback cb => some (s.newCallback cb)
  | .getThis t => (s.getThis t).map Prod.fst
  | .call t f => s.call t f
  | .swapIn t f => s.swapIn t f
  | .back t f => s.back t f
  | .swapOut t f => s.swapOut t f
  | .yieldToReady t => s.yieldToReady t
  | .yieldToHold t => s.yieldToHold t
  | .finish t f thrown useCaller => s.finish t f thrown useCaller
  | .reset f cb => s.reset f cb
  | .destroy t f => s.destroy t f

def totalFibers (s : FiberProcess) : UInt64 := s.sFiberCount

def live (s : FiberProcess) : Nat := tally s.next fun f => (s.objects f).isSome

def liveCallbacks (s : FiberProcess) : Nat := tally s.next fun f => (s.objects f).any (·.pStack)

/-- The step destroys a callback fiber. -/
def DestroysCallback (s : FiberProcess) : Act → Prop
  | .destroy _ f => ∃ x, s.objects f = some x ∧ x.pStack = true
  | _ => False

/-! ### The books -/

/-- What the books are about: which objects there are, each with or without a stack. -/
structure Book where
  next : FiberId
  stack : FiberId → Option Bool
  count : UInt64
  outstanding : Nat

def Book.make (b : Book) (stack : Bool) : Book :=
  ⟨b.next + 1, Function.update b.stack b.next (some stack), b.count + 1,
    b.outstanding + if stack then 1 else 0⟩

def Book.remove (b : Book) (f : FiberId) : Book :=
  ⟨b.next, Function.update b.stack f none, b.count - 1, b.outstanding⟩

def book (s : FiberProcess) : Book :=
  ⟨s.next, fun f => (s.objects f).map FiberObject.pStack, s.sFiberCount, s.outstanding⟩

/-- What a step can do to the books; the flag says whether a stack is lost. -/
inductive Entry (b : Book) : Bool → Book → Prop where
  | kept : Entry b false b
  | made (stack : Bool) : Entry b false (b.make stack)
  | removed : b.stack f = some stack → Entry b stack (b.remove f)

section
variable {s u : FiberProcess}

@[simp] theorem book_setThis (s : FiberProcess) (t : ThreadId) (f : Option FiberId) :
    (s.setThis t f).book = s.book := rfl

theorem stack_update (objects : FiberId → Option FiberObject) (f : FiberId)
    (y : Option FiberObject) :
    (fun g => (Function.update objects f y g).map FiberObject.pStack) =
      Function.update (fun g => (objects g).map FiberObject.pStack) f
        (y.map FiberObject.pStack) := by
  funext g
  by_cases hg : g = f
  · rw [hg, Function.update_self, Function.update_self]
  · rw [Function.update_of_ne hg, Function.update_of_ne hg]

theorem book_setObject (h : s.objects f = some x) (hy : y.pStack = x.pStack) :
    (s.setObject f (some y)).book = s.book := by
  have hsame : (some y).map FiberObject.pStack = (s.objects f).map FiberObject.pStack := by
    rw [h, Option.map_some, Option.map_some, hy]
  rw [book, book, setObject, stack_update, hsame, Function.update_eq_self]

theorem book_make (h : u.objects = Function.update s.objects s.next (some x))
    (hnext : u.next = s.next + 1) (hcount : u.sFiberCount = s.sFiberCount + 1)
    (hstacks : u.outstanding = s.outstanding + if x.pStack then 1 else 0) :
    u.book = s.book.make x.pStack := by
  rw [book, h, stack_update, hnext, hcount, hstacks]
  rfl

theorem book_remove (s : FiberProcess) (f : FiberId) :
    { s.setObject f none with sFiberCount := s.sFiberCount - 1 }.book = s.book.remove f := by
  rw [book, setObject, stack_update]
  rfl

theorem book_swapcontext (h : s.swapcontext t = some u) : u.book = s.book := by
  obtain ⟨m, -, rfl⟩ := Option.map_eq_some_iff.1 h
  rfl

theorem book_suspend (h : s.suspend t f = some u) : u.book = s.book := by
  obtain ⟨x, -, h⟩ := Option.bind_eq_some_iff.1 h
  rw [book_swapcontext h, book_setThis]

theorem book_resume (h : s.resume t f = some u) : u.book = s.book := by
  obtain ⟨x, hx, h⟩ := Option.bind_eq_some_iff.1 h
  exact (book_swapcontext h).trans (book_setObject (s := s.setThis t (some f)) hx rfl)

theorem newMain_entry (s : FiberProcess) (t : ThreadId) : Entry s.book false (s.newMain t).book := by
  have hbook : (s.newMain t).book = s.book.make false :=
    book_make (x := ⟨0, .exec, false, false⟩) rfl rfl rfl rfl
  rw [hbook]
  exact .made false

theorem getThis_entry (h : s.getThis t = some (u, f)) : Entry s.book false u.book := by
  rw [getThis] at h
  split at h
  · obtain ⟨x, -, h⟩ := Option.map_eq_some_iff.1 h
    cases h
    exact .kept
  · cases h
    exact newMain_entry s t

theorem destroy_entry (h : s.destroy t f = some u) : ∃ x, s.objects f = some x ∧
    Entry s.book x.pStack u.book := by
  obtain ⟨x, hx, h⟩ := Option.bind_eq_some_iff.1 h
  have hstack : s.book.stack f = some x.pStack := congrArg (Option.map FiberObject.pStack) hx
  have hbook : u.book = s.book.remove f := by
    rw [← book_remove]
    split at h
    · split at h
      · cases h
        rfl
      · cases h
    · split at h
      · cases h
        split <;> rfl
      · cases h
  rw [hbook]
  exact ⟨x, hx, .removed hstack⟩

theorem step_entry (h : step s a = some u) :
    ∃ lost, Entry s.book lost u.book ∧ (lost = true ↔ DestroysCallback s a) := by
  have hkept {a : Act} (hbook : u.book = s.book) (hnot : ¬ DestroysCallback s a) :
      ∃ lost, Entry s.book lost u.book ∧ (lost = true ↔ DestroysCallback s a) := by
    rw [hbook]
    exact ⟨false, .kept, by simp [hnot]⟩
  cases a with
  | newMain t =>
    cases h
    exact ⟨false, newMain_entry s t, by simp [DestroysCallback]⟩
  | newCallback cb =>
    cases h
    have hbook : (s.newCallback cb).book = s.book.make true :=
      book_make (x := ⟨s.sFiberId + 1, .init, cb, true⟩) rfl rfl rfl rfl
    rw [hbook]
    exact ⟨false, .made true, by simp [DestroysCallback]⟩
  | getThis t =>
    obtain ⟨⟨u, f⟩, hthis, rfl⟩ := Option.map_eq_some_iff.1 h
    exact ⟨false, getThis_entry hthis, by simp [DestroysCallback]⟩
  | call t f => exact hkept (book_resume h) id
  | swapIn t f =>
    obtain ⟨x, hx, h⟩ := Option.bind_eq_some_iff.1 h
    split at h
    · exact hkept (book_resume h) id
    · cases h
  | back t f => exact hkept (book_suspend h) id
  | swapOut t f => exact hkept (book_suspend h) id
  | yieldToReady t =>
    obtain ⟨⟨v, f⟩, hthis, h⟩ := Option.bind_eq_some_iff.1 h
    obtain ⟨x, hx, h⟩ := Option.bind_eq_some_iff.1 h
    split at h
    · have hbook : u.book = v.book := (book_suspend h).trans (book_setObject hx rfl)
      rw [hbook]
      exact ⟨false, getThis_entry hthis, by simp [DestroysCallback]⟩
    · cases h
  | yieldToHold t =>
    obtain ⟨⟨v, f⟩, hthis, h⟩ := Option.bind_eq_some_iff.1 h
    obtain ⟨x, hx, h⟩ := Option.bind_eq_some_iff.1 h
    split at h
    · rw [book_suspend h]
      exact ⟨false, getThis_entry hthis, by simp [DestroysCallback]⟩
    · cases h
  | finish t f thrown useCaller =>
    obtain ⟨x, hx, h⟩ := Option.bind_eq_some_iff.1 h
    split at h
    · cases h
    · have hobject : (s.setObject f (some (if thrown then { x with mState := .except }
          else { x with mState := .term, mCallback := false }))).book = s.book := by
        apply book_setObject hx
        split <;> rfl
      cases useCaller with
      | true => exact hkept ((book_suspend h).trans hobject) id
      | false => exact hkept ((book_suspend h).trans hobject) id
  | reset f cb =>
    obtain ⟨x, hx, h⟩ := Option.bind_eq_some_iff.1 h
    split at h
    · cases h
      exact hkept (book_setObject hx rfl) id
    · cases h
  | destroy t f =>
    obtain ⟨x, hx, hentry⟩ := destroy_entry h
    exact ⟨x.pStack, hentry, by simp [DestroysCallback, hx]⟩

/-! ### What the books say -/

def Book.number (b : Book) (p : Option Bool → Bool) : Nat := tally b.next fun f => p (b.stack f)

theorem number_make (b : Book) (stack : Bool) (p : Option Bool → Bool) :
    (b.make stack).number p = b.number p + if p (some stack) then 1 else 0 := by
  have hold : (tally b.next fun f => p ((b.make stack).stack f)) = b.number p :=
    tally_congr fun f hf => congrArg p (Function.update_of_ne (Nat.ne_of_lt hf) _ _)
  have hnew : (b.make stack).stack b.next = some stack := Function.update_self ..
  have hsucc := tally_succ b.next fun f => p ((b.make stack).stack f)
  rw [hold, hnew] at hsucc
  exact hsucc

theorem number_remove {b : Book} {p : Option Bool → Bool} (hf : f < b.next)
    (hstack : b.stack f = some stack) (hp : p none = false) :
    (b.remove f).number p + (if p (some stack) then 1 else 0) = b.number p := by
  have hother : ∀ g ≠ f, p ((b.remove f).stack g) = p (b.stack g) := fun g hg =>
    congrArg p (Function.update_of_ne hg _ _)
  have hgone : (b.remove f).stack f = none := Function.update_self ..
  have hchange := tally_change hf hother
  rw [hgone, hp, hstack] at hchange
  exact hchange

/-- The counter is the number of objects, and no callback fiber is without its stack. -/
structure Book.Ok (b : Book) : Prop where
  fresh : ∀ f ≥ b.next, b.stack f = none
  count : b.count = UInt64.ofNat (b.number Option.isSome)
  owned : b.number (· = some true) ≤ b.outstanding

theorem Entry.ok {b b' : Book} (h : b.Ok) (he : Entry b lost b') : b'.Ok ∧
    (b'.outstanding ≠ b'.number (· = some true) ↔
      b.outstanding ≠ b.number (· = some true) ∨ lost = true) := by
  have howned := h.owned
  cases he with
  | kept => exact ⟨h, by simp⟩
  | made stack =>
    have hall := number_make b stack Option.isSome
    have hstacks := number_make b stack (· = some true)
    have hout : (b.make stack).outstanding = b.outstanding + if stack then 1 else 0 := rfl
    simp only [Option.isSome_some, if_true, Option.some.injEq, decide_eq_true_eq] at hall hstacks
    constructor
    · constructor
      · intro f hf
        have hne : f ≠ b.next := by
          rintro rfl
          exact absurd hf (Nat.not_succ_le_self _)
        exact (Function.update_of_ne hne _ _).trans (h.fresh f (Nat.le_of_succ_le hf))
      · rw [hall, UInt64.ofNat_add, ← h.count]
        rfl
      · rw [hstacks, hout]
        omega
    · rw [hstacks, hout]
      simp
  | @removed f _ hf =>
    have hlt : f < b.next := by
      by_contra hge
      rw [h.fresh f (Nat.le_of_not_lt hge)] at hf
      cases hf
    have hall := number_remove hlt hf (p := Option.isSome) rfl
    have hstacks := number_remove hlt hf (p := (· = some true)) rfl
    have hout : (b.remove f).outstanding = b.outstanding := rfl
    simp only [Option.isSome_some, if_true, Option.some.injEq, decide_eq_true_eq] at hall hstacks
    constructor
    · constructor
      · intro g hg
        by_cases he : g = f
        · rw [he]
          exact Function.update_self ..
        · exact (Function.update_of_ne he _ _).trans (h.fresh g hg)
      · have hcount : (b.remove f).count = b.count - 1 := rfl
        rw [hcount, h.count, ← hall, UInt64.ofNat_add]
        exact UInt64.add_sub_cancel _ _
      · rw [hout]
        omega
    · rw [hout]
      cases lost with
      | true =>
        simp only [if_true] at hstacks
        simp only [or_true, iff_true]
        omega
      | false =>
        simp only [Bool.false_eq_true, if_false, Nat.add_zero] at hstacks
        simp [hstacks]

theorem initial_ok : initial.book.Ok := by
  constructor
  · intro f _
    rfl
  · rfl
  · exact Nat.le_refl 0

theorem live_eq (s : FiberProcess) : s.live = s.book.number Option.isSome :=
  tally_congr fun _ _ => (Option.isSome_map ..).symm

theorem liveCallbacks_eq (s : FiberProcess) :
    s.liveCallbacks = s.book.number (· = some true) := by
  apply tally_congr
  intro f _
  cases hf : s.objects f with
  | none => simp [book, hf]
  | some x => simp [book, hf]

/-- After every run the counter is the number of live objects, and the stacks that have not been
given back are those of the live callback fibers if and only if no callback fiber has been
destroyed. -/
theorem books_exact_iff {acts : List Act} (h : runAll step initial acts = some s) :
    s.totalFibers = UInt64.ofNat s.live ∧
      (s.outstanding = s.liveCallbacks ↔ ¬ Occurs step DestroysCallback initial acts) := by
  obtain ⟨hok, hlatch⟩ : s.book.Ok ∧ (s.outstanding ≠ s.book.number (· = some true) ↔
      initial.outstanding ≠ initial.book.number (· = some true) ∨
        Occurs step DestroysCallback initial acts) := by
    apply runAll_latch (I := fun s => s.book.Ok)
      (J := fun s => s.outstanding ≠ s.book.number (· = some true)) h initial_ok
    intro t a u ht hstep
    obtain ⟨lost, hentry, hlost⟩ := step_entry hstep
    rw [← hlost]
    exact hentry.ok ht
  have hstart : ¬ initial.outstanding ≠ initial.book.number (· = some true) := not_not_intro rfl
  rw [or_iff_right hstart] at hlatch
  constructor
  · rw [live_eq]
    exact hok.count
  · rw [liveCallbacks_eq, ← hlatch]
    exact not_not.symm

theorem books_exact_round : ∃ s, runAll step initial
      [.getThis 0, .newCallback true, .swapIn 0 1, .yieldToReady 0, .swapIn 0 1,
        .finish 0 1 false false, .reset 1 true] = some s ∧
    s.totalFibers = UInt64.ofNat s.live ∧
    (s.outstanding = s.liveCallbacks ↔ ¬ Occurs step DestroysCallback initial
      [.getThis 0, .newCallback true, .swapIn 0 1, .yieldToReady 0, .swapIn 0 1,
        .finish 0 1 false false, .reset 1 true]) := by
  have hrun : (runAll step initial
      [.getThis 0, .newCallback true, .swapIn 0 1, .yieldToReady 0, .swapIn 0 1,
        .finish 0 1 false false, .reset 1 true]).isSome = true := by decide
  obtain ⟨s, hs⟩ := Option.isSome_iff_exists.1 hrun
  exact ⟨s, hs, books_exact_iff hs⟩

/-- A callback fiber is made and destroyed, and its stack is never given back. -/
theorem destroyed_stack_is_lost :
    (runAll step initial [.newCallback true, .destroy 0 0]).map
      (fun s => (s.totalFibers, s.live, s.outstanding, s.liveCallbacks)) = some (0, 0, 1, 0) := by
  decide

end
end FiberProcess
end SvrFrame
