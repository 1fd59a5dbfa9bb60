import SvrFrame.Library.Machine
import Mathlib.Data.Fintype.Card
import Mathlib.Data.Fintype.EquivFin
import Mathlib.Logic.Function.Basic
import Mathlib.Logic.Relation
import Mathlib.Order.WellFounded
import Mathlib.Tactic.Simps.Basic

namespace Library
set_option autoImplicit true

inductive LockMode where
  | shared | exclusive
  deriving DecidableEq, Repr

/-- A program of one thread over a state that all threads share, one atomic step after another.
A program that has come to `halt` takes no more steps and keeps its locks. -/
inductive LockProg (L σ α : Type) where
  | done (a : α)
  | halt
  | act (upd : σ → σ) (next : σ → LockProg L σ α)
  | lock (l : L) (mode : LockMode) (next : LockProg L σ α)
  | unlock (l : L) (next : LockProg L σ α)

abbrev HeldLocks (L : Type) := List (L × LockMode)

namespace LockProg
variable {L σ α β ε : Type}

def bind : LockProg L σ α → (α → LockProg L σ β) → LockProg L σ β
  | done a, f => f a
  | halt, _ => halt
  | act upd next, f => act upd fun s => (next s).bind f
  | lock l mode next, f => lock l mode (next.bind f)
  | unlock l next, f => unlock l (next.bind f)

instance : Monad (LockProg L σ) where
  pure := done
  bind := bind

def observe (g : σ → α) : LockProg L σ α := act id fun s => done (g s)

def change (upd : σ → σ) : LockProg L σ Unit := act upd fun _ => done ()

/-- Change the state and get a result, in one step. -/
def exchange (f : σ → α × σ) : LockProg L σ α := act (fun s => (f s).2) fun s => done (f s).1

def when (c : Prop) [Decidable c] (p : LockProg L σ Unit) : LockProg L σ Unit :=
  if c then p else pure ()

def ignore (p : LockProg L σ α) : LockProg L σ Unit := p >>= fun _ => pure ()

/-- A lock that is given back at the end of its scope. -/
def withLock (l : L) (mode : LockMode) (p : LockProg L σ α) : LockProg L σ α :=
  lock l mode (p >>= fun a => unlock l (done a))

/-- The lock that the next step takes. -/
def awaits : LockProg L σ α → Option L
  | lock l _ _ => some l
  | _ => none

def isDone : LockProg L σ α → Bool
  | done _ => true
  | _ => false

/-- What the program does while no other thread takes a step. -/
def alone : LockProg L σ α → σ → Option (α × σ)
  | done a, s => some (a, s)
  | halt, _ => none
  | act upd next, s => (next s).alone (upd s)
  | lock _ _ next, s => next.alone s
  | unlock _ next, s => next.alone s

section
variable (s : σ)

@[simp] theorem alone_pure (a : α) : (pure a : LockProg L σ α).alone s = some (a, s) := rfl

@[simp] theorem alone_bind (p : LockProg L σ α) (f : α → LockProg L σ β) :
    (p >>= f).alone s = (p.alone s).bind fun r => (f r.1).alone r.2 := by
  induction p generalizing s with
  | done a => rfl
  | halt => rfl
  | act upd next ih => exact ih s (upd s)
  | lock l mode next ih => exact ih s
  | unlock l next ih => exact ih s

@[simp] theorem alone_observe (g : σ → α) :
    (observe g : LockProg L σ α).alone s = some (g s, s) := rfl

@[simp] theorem alone_change (upd : σ → σ) :
    (change upd : LockProg L σ Unit).alone s = some ((), upd s) := rfl

@[simp] theorem alone_exchange (f : σ → α × σ) :
    (exchange f : LockProg L σ α).alone s = some (f s) := rfl

@[simp] theorem alone_when (c : Prop) [Decidable c] (p : LockProg L σ Unit) :
    (when c p).alone s = if c then p.alone s else some ((), s) := by
  rw [when]
  split <;> rfl

@[simp] theorem alone_withLock (l : L) (mode : LockMode) (p : LockProg L σ α) :
    (withLock l mode p).alone s = p.alone s := by
  have h : (withLock l mode p).alone s = (p.alone s).bind some := alone_bind s p _
  rw [h, Option.bind_fun_some]

/-- A loop over changes that each do what a function says. -/
theorem alone_forM {as : List β} {f : β → LockProg L σ PUnit} {g : σ → β → σ}
    (h : ∀ s a, (f a).alone s = some ((), g s a)) :
    (as.forM f).alone s = some ((), as.foldl g s) := by
  induction as generalizing s with
  | nil => rfl
  | cons a as ih =>
    have hcons : ((a :: as).forM f).alone s =
        ((f a).alone s).bind fun r => (as.forM f).alone r.2 := alone_bind s _ _
    rw [hcons, h]
    exact ih (g s a)

theorem alone_lift_bind {p : LockProg L σ α} {f : α → ExceptT ε (LockProg L σ) β} {a : α}
    (hp : p.alone s = some (a, s)) :
    (ExceptT.lift p >>= f).run.alone s = (f a).run.alone s := by
  have hlift : (ExceptT.lift p : ExceptT ε (LockProg L σ) α).run.alone s = some (.ok a, s) := by
    have h : (ExceptT.lift p : ExceptT ε (LockProg L σ) α).run.alone s =
        (p.alone s).bind fun r => some (.ok r.1, r.2) := alone_bind s p _
    rw [h, hp]
    rfl
  have h : (ExceptT.lift p >>= f).run.alone s = ((ExceptT.lift p).run.alone s).bind fun r =>
      (ExceptT.bindCont f r.1).alone r.2 := alone_bind s _ _
  rw [h, hlift]
  rfl

/-- A program with exceptions that only reads does what a computation with exceptions says. -/
theorem alone_except_bind {p : ExceptT ε (LockProg L σ) α} {x : Except ε α}
    {f : α → ExceptT ε (LockProg L σ) β} {g : α → Except ε β} (hp : p.run.alone s = some (x, s))
    (hf : ∀ a, (f a).run.alone s = some (g a, s)) :
    (p >>= f).run.alone s = some (x >>= g, s) := by
  have h : (p >>= f).run.alone s =
      (p.run.alone s).bind fun r => (ExceptT.bindCont f r.1).alone r.2 := alone_bind s _ _
  rw [h, hp]
  cases x with
  | ok a => exact hf a
  | error exn => rfl

theorem alone_foldlM {as : List β} {f : α → β → ExceptT ε (LockProg L σ) α}
    {g : α → β → Except ε α} (h : ∀ x a, (f x a).run.alone s = some (g x a, s)) (x : α) :
    (as.foldlM f x).run.alone s = some (as.foldlM g x, s) := by
  induction as generalizing x with
  | nil => rfl
  | cons a as ih =>
    rw [List.foldlM_cons, List.foldlM_cons]
    exact alone_except_bind s (h x a) ih

end

end LockProg

/-! ### Threads -/

/-- Threads in the middle of their programs, and the locks they hold. -/
structure Threads (T L σ : Type) where
  shared : σ
  held : T → HeldLocks L
  prog : T → LockProg L σ Unit

inductive ThreadAct (T Op : Type) where
  | call (t : T) (op : Op)
  | next (t : T)

namespace Threads
variable {T L σ Op : Type}

def start (s : σ) : Threads T L σ := ⟨s, fun _ => [], fun _ => .done ()⟩

/-- No holder of the lock keeps another one out. -/
def Admits (s : Threads T L σ) (l : L) (mode : LockMode) : Prop :=
  ∀ u, ∀ h ∈ s.held u, h.1 = l → mode = .shared ∧ h.2 = .shared

instance [Fintype T] [DecidableEq L] (s : Threads T L σ) (l : L) (mode : LockMode) :
    Decidable (s.Admits l mode) :=
  inferInstanceAs (Decidable (∀ u, ∀ h ∈ s.held u, h.1 = l → mode = .shared ∧ h.2 = .shared))

variable [DecidableEq T] [DecidableEq L]

def release (held : HeldLocks L) (l : L) : HeldLocks L := held.eraseP fun h => h.1 = l

def goto (s : Threads T L σ) (t : T) (p : LockProg L σ Unit) : Threads T L σ :=
  { s with prog := Function.update s.prog t p }

def setHeld (s : Threads T L σ) (t : T) (held : HeldLocks L) : Threads T L σ :=
  { s with held := Function.update s.held t held }

/-- The state where thread `t` has come to `p`. -/
@[simps] def withThread (s : Threads T L σ) (t : T) (shared : σ) (held : HeldLocks L)
    (p : LockProg L σ Unit) : Threads T L σ :=
  ⟨shared, Function.update s.held t held, Function.update s.prog t p⟩

variable [Fintype T]

/-- The next step of a thread, as long as it need not wait. -/
def next (s : Threads T L σ) (t : T) : Option (Threads T L σ) :=
  match s.prog t with
  | .done _ | .halt => none
  | .act upd next => some ({ s with shared := upd s.shared }.goto t (next s.shared))
  | .lock l mode next =>
    if s.Admits l mode then some ((s.setHeld t ((l, mode) :: s.held t)).goto t next) else none
  | .unlock l next => some ((s.setHeld t (release (s.held t) l)).goto t next)

/-- A thread that has come to the end of a program may begin another one. -/
def step (ops : Op → LockProg L σ Unit) (s : Threads T L σ) :
    ThreadAct T Op → Option (Threads T L σ)
  | .call t op => if (s.prog t).isDone then some (s.goto t (ops op)) else none
  | .next t => s.next t

omit [DecidableEq T] [DecidableEq L] [Fintype T] in
/-- Thread `t` is at a lock that `u` holds, in whatever mode; it counts as waiting even where the
modes would let it pass. -/
def WaitsOn (s : Threads T L σ) (t u : T) : Prop :=
  ∃ h ∈ s.held u, (s.prog t).awaits = some h.1

omit [DecidableEq T] [Fintype T] in
instance (s : Threads T L σ) (t u : T) : Decidable (s.WaitsOn t u) :=
  inferInstanceAs (Decidable (∃ h ∈ s.held u, (s.prog t).awaits = some h.1))

end Threads

/-! ### Locks that are taken in the order of their ranks -/

namespace LockProg
variable {L σ α β ε ρ : Type} [DecidableEq L] [Preorder ρ] {I : σ → Prop} {rank : L → ρ}
  {base mid held : HeldLocks L} {b c : ρ}

/-- While the shared state has the property `I`, a program that holds the locks `held` takes each
lock above all those it holds, gives back only what it holds, keeps `I`, and holds `base` when it
is done. -/
def Ordered (I : σ → Prop) (rank : L → ρ) (base : HeldLocks L) :
    HeldLocks L → LockProg L σ α → Prop
  | held, done _ => held = base
  | _, halt => True
  | held, act upd next => ∀ s, I s → I (upd s) ∧ Ordered I rank base held (next s)
  | held, lock l mode next =>
    (∀ h ∈ held, rank h.1 < rank l) ∧ Ordered I rank base ((l, mode) :: held) next
  | held, unlock l next =>
    (∃ h ∈ held, h.1 = l) ∧ Ordered I rank base (Threads.release held l) next

theorem Ordered.bind {p : LockProg L σ α} {f : α → LockProg L σ β}
    (hp : Ordered I rank mid held p) (hf : ∀ a, Ordered I rank base mid (f a)) :
    Ordered I rank base held (p >>= f) := by
  induction p generalizing held with
  | done a =>
    have hheld : held = mid := hp
    rw [hheld]
    exact hf a
  | halt => trivial
  | act upd next ih => exact fun s hs => ⟨(hp s hs).1, ih s (hp s hs).2⟩
  | lock l mode next ih => exact ⟨hp.1, ih hp.2⟩
  | unlock l next ih => exact ⟨hp.1, ih hp.2⟩

/-- The program is in order for a thread whose locks are all below `b`, and leaves it with the same
locks. -/
def Above (I : σ → Prop) (rank : L → ρ) (b : ρ) (p : LockProg L σ α) : Prop :=
  ∀ held : HeldLocks L, (∀ h ∈ held, rank h.1 < b) → Ordered I rank held held p

namespace Above

theorem pure (a : α) : Above I rank b (pure a : LockProg L σ α) := fun _ _ => rfl

theorem halt : Above I rank b (halt : LockProg L σ α) := fun _ _ => trivial

theorem mono {p : LockProg L σ α} (hbc : b ≤ c) (hp : Above I rank c p) : Above I rank b p :=
  fun held hheld => hp held fun h hh => (hheld h hh).trans_le hbc

theorem bind {p : LockProg L σ α} {f : α → LockProg L σ β} (hp : Above I rank b p)
    (hf : ∀ a, Above I rank b (f a)) : Above I rank b (p >>= f) :=
  fun held hheld => (hp held hheld).bind fun a => hf a held hheld

theorem ignore {p : LockProg L σ α} (hp : Above I rank b p) : Above I rank b p.ignore :=
  hp.bind fun _ => pure ()

/-- What is read from the shared state may use that it has the property `I`. -/
theorem observe_bind {g : σ → α} {f : α → LockProg L σ β}
    (hf : ∀ s, I s → Above I rank b (f (g s))) : Above I rank b (observe g >>= f) :=
  fun held hheld s hs => ⟨hs, hf s hs held hheld⟩

theorem observe (g : σ → α) : Above I rank b (observe g : LockProg L σ α) :=
  fun _ _ _ hs => ⟨hs, rfl⟩

theorem change {upd : σ → σ} (h : ∀ s, I s → I (upd s)) :
    Above I rank b (change upd : LockProg L σ Unit) := fun _ _ s hs => ⟨h s hs, rfl⟩

theorem exchange {f : σ → α × σ} (h : ∀ s, I s → I (f s).2) :
    Above I rank b (exchange f : LockProg L σ α) := fun _ _ s hs => ⟨h s hs, rfl⟩

/-- A scope takes its lock and then only locks above it. -/
theorem withLock {l : L} {mode : LockMode} {p : LockProg L σ α} (hb : b ≤ rank l)
    (hc : rank l < c) (hp : Above I rank c p) : Above I rank b (withLock l mode p) := by
  intro held hheld
  have hbelow : ∀ h ∈ held, rank h.1 < rank l := fun h hh => (hheld h hh).trans_le hb
  refine ⟨hbelow, (hp ((l, mode) :: held) ?_).bind fun a => ⟨⟨(l, mode), ?_, rfl⟩, ?_⟩⟩
  · intro h hh
    rcases List.mem_cons.1 hh with rfl | hh
    · exact hc
    · exact (hbelow h hh).trans hc
  · exact List.mem_cons_self
  · exact List.eraseP_cons_of_pos (by simp)

theorem forM {as : List β} {f : β → LockProg L σ PUnit} (hf : ∀ a, Above I rank b (f a)) :
    Above I rank b (as.forM f) := by
  induction as with
  | nil => exact pure _
  | cons a as ih => exact (hf a).bind fun _ => ih

theorem when {C : Prop} [Decidable C] {p : LockProg L σ Unit} (hp : Above I rank b p) :
    Above I rank b (when C p) := by
  rw [LockProg.when]
  split
  · exact hp
  · exact pure ()

/-- After a program that has thrown, the rest is left out. -/
theorem except_bind {p : ExceptT ε (LockProg L σ) α} {f : α → ExceptT ε (LockProg L σ) β}
    (hp : Above I rank b p.run) (hf : ∀ a, Above I rank b (f a).run) :
    Above I rank b (p >>= f).run := by
  refine Above.bind hp fun r => ?_
  cases r with
  | ok a => exact hf a
  | error e => exact pure _

theorem lift_bind {p : LockProg L σ α} {f : α → ExceptT ε (LockProg L σ) β} (hp : Above I rank b p)
    (hf : ∀ a, Above I rank b (f a).run) : Above I rank b (ExceptT.lift p >>= f).run :=
  except_bind (hp.bind fun _ => pure _) hf

theorem except_foldlM {as : List β} {f : α → β → ExceptT ε (LockProg L σ) α}
    (hf : ∀ x a, Above I rank b (f x a).run) (x : α) : Above I rank b (as.foldlM f x).run := by
  induction as generalizing x with
  | nil => exact pure _
  | cons a as ih =>
    rw [List.foldlM_cons]
    exact except_bind (hf x a) fun y => ih y

end Above
end LockProg

namespace Threads
variable {T L σ Op ρ : Type} [DecidableEq L] [Preorder ρ] {I : σ → Prop} {rank : L → ρ}
  {ops : Op → LockProg L σ Unit} {s s' : Threads T L σ} {t u : T}

/-- Every thread has the rest of an ordered program before it. -/
structure Disciplined (I : σ → Prop) (rank : L → ρ) (s : Threads T L σ) : Prop where
  shared : I s.shared
  ordered : ∀ t, (s.prog t).Ordered I rank [] (s.held t)

theorem start_disciplined {s : σ} (hs : I s) : (start s : Threads T L σ).Disciplined I rank :=
  ⟨hs, fun _ => rfl⟩

/-- A thread holds only locks below the one it is at. -/
theorem Disciplined.held_lt (hs : s.Disciplined I rank) {l : L} (hl : (s.prog t).awaits = some l)
    (hh : h ∈ s.held t) : rank h.1 < rank l := by
  have hp := hs.ordered t
  cases hprog : s.prog t <;> rw [hprog] at hl hp
  case lock l' mode next =>
    cases hl
    exact hp.1 h hh
  all_goals cases hl

/-- Along a chain of waiting threads, the locks they are at have rising ranks. -/
theorem Disciplined.rank_lt (hs : s.Disciplined I rank) (h : Relation.TransGen s.WaitsOn t u)
    {l : L} (hl : (s.prog u).awaits = some l) :
    ∃ l', (s.prog t).awaits = some l' ∧ rank l' < rank l := by
  induction h generalizing l with
  | single h =>
    obtain ⟨held, hheld, haw⟩ := h
    exact ⟨held.1, haw, hs.held_lt hl hheld⟩
  | tail _ h ih =>
    obtain ⟨held, hheld, haw⟩ := h
    obtain ⟨l', hl', hlt⟩ := ih haw
    exact ⟨l', hl', hlt.trans (hs.held_lt hl hheld)⟩

/-- No thread waits for a lock held by a thread that waits in its turn, and so on back to it. -/
theorem Disciplined.no_cycle (hs : s.Disciplined I rank) (t : T) :
    ¬ Relation.TransGen s.WaitsOn t t := by
  intro h
  obtain ⟨u, hu, -⟩ := Relation.TransGen.head'_iff.1 h
  obtain ⟨held, -, haw⟩ := hu
  obtain ⟨l', hl', hlt⟩ := hs.rank_lt h haw
  rw [haw] at hl'
  cases hl'
  exact lt_irrefl _ hlt

theorem Disciplined.held_of_isDone (hs : s.Disciplined I rank) (h : (s.prog t).isDone = true) :
    s.held t = [] := by
  have hp := hs.ordered t
  cases hprog : s.prog t <;> rw [hprog] at h hp
  case done => exact hp
  all_goals cases h

variable [DecidableEq T]

/-- What a thread does only matters to itself, apart from the shared state. -/
theorem Disciplined.update {shared : σ} {held : HeldLocks L} {p : LockProg L σ Unit}
    (hs : s.Disciplined I rank) (hshared : I shared) (hp : p.Ordered I rank [] held) :
    (s.withThread t shared held p).Disciplined I rank := by
  refine ⟨hshared, fun u => ?_⟩
  by_cases h : u = t
  · subst h
    simpa using hp
  · simpa [h] using hs.ordered u

/-- A thread goes on with the locks it has. -/
theorem Disciplined.goto {shared : σ} {p : LockProg L σ Unit} (hs : s.Disciplined I rank)
    (hshared : I shared) (hp : p.Ordered I rank [] (s.held t)) :
    ({ s with shared := shared }.goto t p).Disciplined I rank := by
  have h : (s.withThread t shared (s.held t) p).Disciplined I rank := hs.update hshared hp
  rw [withThread, Function.update_eq_self] at h
  exact h

variable [Fintype T]

theorem Disciplined.next (hs : s.Disciplined I rank) (h : s.next t = some s') :
    s'.Disciplined I rank := by
  have hp := hs.ordered t
  simp only [Threads.next] at h
  split at h
  · cases h
  · cases h
  · rename_i upd next hprog
    rw [hprog] at hp
    cases h
    exact hs.goto (hp _ hs.shared).1 (hp _ hs.shared).2
  · rename_i l mode next hprog
    rw [hprog] at hp
    split at h
    · cases h
      exact hs.update hs.shared hp.2
    · cases h
  · rename_i l next hprog
    rw [hprog] at hp
    cases h
    exact hs.update hs.shared hp.2

theorem Disciplined.step (hops : ∀ op, (ops op).Above I rank b) (hs : s.Disciplined I rank)
    (h : step ops s a = some s') : s'.Disciplined I rank := by
  cases a with
  | call t op =>
    simp only [Threads.step] at h
    split at h
    · rename_i hdone
      cases h
      refine hs.goto hs.shared ?_
      rw [hs.held_of_isDone hdone]
      exact hops op [] (by simp)
    · cases h
  | next t => exact hs.next h

/-- While no other thread holds a lock, a thread comes to the end of its program and leaves what
`alone` says. -/
theorem reach_alone (hothers : ∀ u, u ≠ t → s.held u = []) {shared shared' : σ}
    {held : HeldLocks L} {p : LockProg L σ Unit} (hp : p.Ordered I rank [] held) (hI : I shared)
    (h : p.alone shared = some ((), shared')) :
    Reach (Threads.step ops) (fun _ _ => True) (s.withThread t shared held p)
      (s.withThread t shared' [] (.done ())) := by
  -- The step at the head of the program is taken, and the rest runs from there.
  have hgo {a b c : Threads T L σ} (hnext : a.next t = some b)
      (hrest : Reach (Threads.step ops) (fun _ _ => True) b c) :
      Reach (Threads.step ops) (fun _ _ => True) a c :=
    (Reach.tail (a := .next t) .refl trivial hnext).trans hrest
  induction p generalizing shared held with
  | done a =>
    cases h
    rw [show held = [] from hp]
    exact .refl
  | halt => cases h
  | act upd next ih =>
    refine hgo ?_ (ih shared (hp shared hI).2 (hp shared hI).1 h)
    simp [Threads.next, withThread, goto]
  | lock l mode next ih =>
    refine hgo ?_ (ih hp.2 hI h)
    have hadmits : (s.withThread t shared held (.lock l mode next)).Admits l mode := by
      intro u x hx hxl
      by_cases hu : u = t
      · subst hu
        have hlt := hp.1 x (by simpa using hx)
        exact absurd hlt (hxl ▸ lt_irrefl _)
      · simp [hu, hothers u hu] at hx
    simp only [Threads.next, withThread, Function.update_self]
    refine (if_pos hadmits).trans ?_
    simp [goto, setHeld]
  | unlock l next ih =>
    refine hgo ?_ (ih hp.2 hI h)
    simp [Threads.next, withThread, goto, setHeld]

theorem Disciplined.reach {g : Threads T L σ → ThreadAct T Op → Prop}
    (hops : ∀ op, (ops op).Above I rank b) (hs : s.Disciplined I rank)
    (h : Reach (Threads.step ops) g s s') : s'.Disciplined I rank :=
  h.invariant hs fun hs _ hstep => hs.step hops hstep

end Threads
end Library
