import SvrFrame.Library.LockProg

namespace Library
set_option autoImplicit true

namespace LockProg
variable {L σ α β ε : Type} {I : σ → Prop} {Same : L → σ → σ → Prop}
  {base held K : HeldLocks L}

/-! ### Programs that change only what they have locked -/

/-- A step from `s` to `t` leaves what a lock protects as it is, unless the lock is held for
writing. -/
def Respects (Same : L → σ → σ → Prop) (held : HeldLocks L) (s t : σ) : Prop :=
  ∀ l, (l, LockMode.exclusive) ∉ held → Same l s t

theorem Respects.mono {s t : σ} (h : Respects Same K s t) (hK : K ⊆ held) :
    Respects Same held s t := fun l hl => h l fun hmem => hl (hK hmem)

variable [DecidableEq L]

/-- While the shared state has the property `I`, the program keeps it and changes only what the
locks protect that it holds, `held` at first and `base` when it is done. -/
def Obeys (I : σ → Prop) (Same : L → σ → σ → Prop) (base : HeldLocks L) :
    HeldLocks L → LockProg L σ α → Prop
  | held, done _ => held = base
  | _, halt => True
  | held, act upd next =>
    ∀ s, I s → I (upd s) ∧ Respects Same held s (upd s) ∧ Obeys I Same base held (next s)
  | held, lock l mode next => Obeys I Same base ((l, mode) :: held) next
  | held, unlock l next => Obeys I Same base (Threads.release held l) next

theorem Obeys.bind {p : LockProg L σ α} {f : α → LockProg L σ β} (hp : Obeys I Same K held p)
    (hf : ∀ a, Obeys I Same base K (f a)) : Obeys I Same base held (p >>= f) := by
  induction p generalizing held with
  | done a =>
    have hheld : held = K := hp
    rw [hheld]
    exact hf a
  | halt => trivial
  | act upd next ih =>
    intro s hs
    obtain ⟨hI, hrespects, hnext⟩ := hp s hs
    exact ⟨hI, hrespects, ih s hnext⟩
  | lock l mode next ih => exact ih hp
  | unlock l next ih => exact ih hp

/-- The program obeys in the hands of a thread that holds at least the locks `K`, and leaves it with
the same locks. -/
def Under (I : σ → Prop) (Same : L → σ → σ → Prop) (K : HeldLocks L) (p : LockProg L σ α) : Prop :=
  ∀ held, K ⊆ held → Obeys I Same held held p

namespace Under

theorem pure (a : α) : Under I Same K (pure a : LockProg L σ α) := fun _ _ => rfl

theorem halt : Under I Same K (halt : LockProg L σ α) := fun _ _ => trivial

theorem bind {p : LockProg L σ α} {f : α → LockProg L σ β} (hp : Under I Same K p)
    (hf : ∀ a, Under I Same K (f a)) : Under I Same K (p >>= f) :=
  fun held hheld => (hp held hheld).bind fun a => hf a held hheld

theorem ignore {p : LockProg L σ α} (hp : Under I Same K p) : Under I Same K p.ignore :=
  hp.bind fun _ => pure ()

theorem exchange {f : σ → α × σ} (h : ∀ s, I s → I (f s).2 ∧ Respects Same K s (f s).2) :
    Under I Same K (exchange f : LockProg L σ α) :=
  fun _ hheld s hs => ⟨(h s hs).1, (h s hs).2.mono hheld, rfl⟩

theorem change {upd : σ → σ} (h : ∀ s, I s → I (upd s) ∧ Respects Same K s (upd s)) :
    Under I Same K (change upd : LockProg L σ Unit) :=
  fun _ hheld s hs => ⟨(h s hs).1, (h s hs).2.mono hheld, rfl⟩

theorem withLock {l : L} {mode : LockMode} {p : LockProg L σ α}
    (hp : Under I Same ((l, mode) :: K) p) : Under I Same K (withLock l mode p) := by
  intro held hheld
  have hinner : (l, mode) :: K ⊆ (l, mode) :: held := List.cons_subset_cons _ hheld
  apply Obeys.bind (hp ((l, mode) :: held) hinner)
  intro a
  have hrelease : Threads.release ((l, mode) :: held) l = held :=
    List.eraseP_cons_of_pos (by simp)
  exact hrelease

theorem forM {as : List β} {f : β → LockProg L σ PUnit} (hf : ∀ a, Under I Same K (f a)) :
    Under I Same K (as.forM f) := by
  induction as with
  | nil => exact pure _
  | cons a as ih => exact (hf a).bind fun _ => ih

theorem when {c : Prop} [Decidable c] {p : LockProg L σ Unit} (hp : Under I Same K p) :
    Under I Same K (when c p) := by
  rw [LockProg.when]
  split
  · exact hp
  · exact pure ()

theorem except_bind {p : ExceptT ε (LockProg L σ) α} {f : α → ExceptT ε (LockProg L σ) β}
    (hp : Under I Same K p.run) (hf : ∀ a, Under I Same K (f a).run) :
    Under I Same K (p >>= f).run := by
  apply Under.bind hp
  intro r
  cases r with
  | ok a => exact hf a
  | error e => exact pure _

theorem lift_bind {p : LockProg L σ α} {f : α → ExceptT ε (LockProg L σ) β}
    (hp : Under I Same K p) (hf : ∀ a, Under I Same K (f a).run) :
    Under I Same K (ExceptT.lift p >>= f).run :=
  except_bind (hp.bind fun _ => pure _) hf

theorem except_foldlM {as : List β} {f : α → β → ExceptT ε (LockProg L σ) α}
    (hf : ∀ x a, Under I Same K (f x a).run) (x : α) : Under I Same K (as.foldlM f x).run := by
  induction as generalizing x with
  | nil => exact pure _
  | cons a as ih =>
    rw [List.foldlM_cons]
    exact except_bind (hf x a) fun y => ih y

section
variable [∀ l, Std.Refl (Same l)]

theorem observe_bind {g : σ → α} {f : α → LockProg L σ β} (hf : ∀ a, Under I Same K (f a)) :
    Under I Same K (observe g >>= f) :=
  fun held hheld s hs => ⟨hs, fun l _ => refl_of (Same l) s, hf (g s) held hheld⟩

theorem observe (g : σ → α) : Under I Same K (observe g : LockProg L σ α) :=
  fun _ _ s hs => ⟨hs, fun l _ => refl_of (Same l) s, rfl⟩

end
end Under
end LockProg

/-! ### Threads of such programs -/

namespace Threads
open LockProg
variable {T L σ Op : Type} [DecidableEq L] {I : σ → Prop} {Same : L → σ → σ → Prop}
  {ops : Op → LockProg L σ Unit} {s s' : Threads T L σ} {t u : T}

/-- Every thread has the rest of such a program before it, and a lock that two threads hold is one
that both have for reading. -/
structure Careful (I : σ → Prop) (Same : L → σ → σ → Prop) (s : Threads T L σ) : Prop where
  shared : I s.shared
  obeys : ∀ t, (s.prog t).Obeys I Same [] (s.held t)
  exclusion : ∀ t u, t ≠ u → ∀ h ∈ s.held t, ∀ h' ∈ s.held u, h.1 = h'.1 →
    h.2 = .shared ∧ h'.2 = .shared

theorem Careful.held_of_isDone (hs : s.Careful I Same) (h : (s.prog t).isDone = true) :
    s.held t = [] := by
  have hp := hs.obeys t
  cases hprog : s.prog t <;> rw [hprog] at h hp
  case done => exact hp
  all_goals cases h

variable [DecidableEq T]

instance (t : T) : ∀ a : ThreadAct T Op, Decidable (a ≠ .next t)
  | .call _ _ => isTrue (fun h => by cases h)
  | .next u => decidable_of_iff (u ≠ t) (by simp)

/-- A thread that takes no lock which another one keeps it out of leaves the threads careful. -/
theorem Careful.update {shared : σ} {held : HeldLocks L} {p : LockProg L σ Unit}
    (hs : s.Careful I Same) (hI : I shared) (hp : p.Obeys I Same [] held)
    (hheld : ∀ h ∈ held, h ∈ s.held t ∨ s.Admits h.1 h.2) :
    (s.withThread t shared held p).Careful I Same := by
  have hshares (u : T) (hu : u ≠ t) {h h' : L × LockMode} (hh : h ∈ held) (hh' : h' ∈ s.held u)
      (heq : h'.1 = h.1) : h.2 = .shared ∧ h'.2 = .shared := by
    rcases hheld h hh with hold | hnew
    · exact hs.exclusion t u hu.symm h hold h' hh' heq.symm
    · exact hnew u h' hh' heq
  refine ⟨hI, fun u => ?_, fun v w hvw h hh h' hh' heq => ?_⟩
  · by_cases hu : u = t
    · subst hu
      simpa using hp
    · simpa [hu] using hs.obeys u
  · by_cases hv : v = t
    · subst hv
      have hw : w ≠ v := hvw.symm
      simp only [withThread_held, Function.update_self] at hh
      simp only [withThread_held, Function.update_of_ne hw] at hh'
      exact hshares w hw hh hh' heq.symm
    · simp only [withThread_held, Function.update_of_ne hv] at hh
      by_cases hw : w = t
      · subst hw
        simp only [withThread_held, Function.update_self] at hh'
        exact (hshares v hv hh' hh heq).symm
      · simp only [withThread_held, Function.update_of_ne hw] at hh'
        exact hs.exclusion v w hvw h hh h' hh' heq

theorem Careful.goto {shared : σ} {p : LockProg L σ Unit} (hs : s.Careful I Same) (hI : I shared)
    (hp : p.Obeys I Same [] (s.held t)) :
    ({ s with shared := shared }.goto t p).Careful I Same := by
  have h : (s.withThread t shared (s.held t) p).Careful I Same :=
    hs.update hI hp fun _ hh => .inl hh
  rw [withThread, Function.update_eq_self] at h
  exact h

variable [Fintype T]

theorem Careful.next (hs : s.Careful I Same) (h : s.next t = some s') : s'.Careful I Same := by
  have hp := hs.obeys t
  simp only [Threads.next] at h
  split at h
  · cases h
  · cases h
  · rename_i upd next hprog
    rw [hprog] at hp
    cases h
    obtain ⟨hI, -, hnext⟩ := hp _ hs.shared
    exact hs.goto hI hnext
  · rename_i l mode next hprog
    rw [hprog] at hp
    split at h
    · rename_i hadmits
      cases h
      have hnext : next.Obeys I Same [] ((l, mode) :: s.held t) := hp
      apply hs.update hs.shared hnext
      intro h hh
      rcases List.mem_cons.1 hh with rfl | hh
      · exact .inr hadmits
      · exact .inl hh
    · cases h
  · rename_i l next hprog
    rw [hprog] at hp
    cases h
    exact hs.update hs.shared hp fun h hh => .inl (List.mem_of_mem_eraseP hh)

theorem Careful.step (hops : ∀ op, Under I Same [] (ops op)) (hs : s.Careful I Same)
    (h : step ops s a = some s') : s'.Careful I Same := by
  cases a with
  | call t op =>
    simp only [Threads.step] at h
    split at h
    · rename_i hdone
      cases h
      apply hs.goto hs.shared
      rw [hs.held_of_isDone hdone]
      exact hops op [] (List.Subset.refl [])
    · cases h
  | next t => exact hs.next h

end Threads
end Library
