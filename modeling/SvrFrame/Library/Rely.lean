import SvrFrame.Library.Fair
import SvrFrame.Library.LockProg
import Mathlib.Data.DFinsupp.WellFounded
import Mathlib.SetTheory.Cardinal.Order

namespace Library
set_option autoImplicit true

namespace LockProg
variable {L σ α β ε : Type} [Preorder σ] {I : σ → Prop} {s t : σ}

/-! ### Programs that never halt -/

/-- From the state `s` on, the program never comes to `halt` and leaves a result with the property
`Q`. In between, the other threads keep `I` and let the state grow, and so does the program. -/
def Safe (I : σ → Prop) (Q : α → σ → Prop) : σ → LockProg L σ α → Prop
  | s, done a => Q a s
  | _, halt => False
  | s, act upd next => ∀ t, s ≤ t → I t → I (upd t) ∧ t ≤ upd t ∧ Safe I Q (upd t) (next t)
  | s, lock _ _ next => Safe I Q s next
  | s, unlock _ next => Safe I Q s next

/-- The program is safe and its result does not matter. -/
abbrev Sure (I : σ → Prop) (s : σ) (p : LockProg L σ α) : Prop := p.Safe I (fun _ _ => True) s

/-- In a state that has grown, a program is as safe as before. -/
theorem Sure.mono {p : LockProg L σ α} (hp : p.Sure I s) (hst : s ≤ t) : p.Sure I t := by
  induction p with
  | done a => trivial
  | halt => exact hp
  | act upd next ih => exact fun u hu => hp u (hst.trans hu)
  | lock l mode next ih => exact ih hp
  | unlock l next ih => exact ih hp

namespace Safe
variable {Q : α → σ → Prop} {Q' : β → σ → Prop}

theorem post {Q' : α → σ → Prop} {p : LockProg L σ α} (hp : p.Safe I Q s)
    (hQ : ∀ a t, Q a t → Q' a t) : p.Safe I Q' s := by
  induction p generalizing s with
  | done a => exact hQ a s hp
  | halt => exact hp
  | act upd next ih =>
    intro t hst hI
    obtain ⟨hI', hle, hnext⟩ := hp t hst hI
    exact ⟨hI', hle, ih t hnext⟩
  | lock l mode next ih => exact ih hp
  | unlock l next ih => exact ih hp

theorem sure {p : LockProg L σ α} (hp : p.Safe I Q s) : p.Sure I s := hp.post fun _ _ _ => trivial

theorem pure {a : α} (h : Q a s) : (pure a : LockProg L σ α).Safe I Q s := h

/-- The rest begins in a state that has grown, with what the first program has left. -/
theorem bind {p : LockProg L σ α} {f : α → LockProg L σ β} (hp : p.Safe I Q s)
    (hf : ∀ a t, s ≤ t → Q a t → (f a).Safe I Q' t) : (p >>= f).Safe I Q' s := by
  induction p generalizing s with
  | done a => exact hf a s le_rfl hp
  | halt => exact hp
  | act upd next ih =>
    intro t hst hI
    obtain ⟨hI', hle, hnext⟩ := hp t hst hI
    exact ⟨hI', hle, ih t hnext fun a u hu => hf a u ((hst.trans hle).trans hu)⟩
  | lock l mode next ih => exact ih hp hf
  | unlock l next ih => exact ih hp hf

theorem ignore {p : LockProg L σ α} (hp : p.Sure I s) : p.ignore.Sure I s :=
  hp.bind fun _ _ _ _ => trivial

/-- What is read from the shared state is that of a later state. -/
theorem observe_bind {g : σ → α} {f : α → LockProg L σ β}
    (hf : ∀ t, s ≤ t → I t → (f (g t)).Safe I Q' t) : (observe g >>= f).Safe I Q' s :=
  fun t hst hI => ⟨hI, le_rfl, hf t hst hI⟩

theorem observe {g : σ → α} (h : ∀ t, s ≤ t → I t → Q (g t) t) :
    (observe g : LockProg L σ α).Safe I Q s := fun t hst hI => ⟨hI, le_rfl, h t hst hI⟩

theorem exchange {f : σ → α × σ} (h : ∀ t, s ≤ t → I t → I (f t).2 ∧ t ≤ (f t).2)
    (hQ : ∀ t, s ≤ t → I t → Q (f t).1 (f t).2) : (exchange f : LockProg L σ α).Safe I Q s :=
  fun t hst hI => ⟨(h t hst hI).1, (h t hst hI).2, hQ t hst hI⟩

theorem change {upd : σ → σ} {Q : Unit → σ → Prop} (h : ∀ t, s ≤ t → I t → I (upd t) ∧ t ≤ upd t)
    (hQ : ∀ t, s ≤ t → I t → Q () (upd t)) : (change upd : LockProg L σ Unit).Safe I Q s :=
  fun t hst hI => ⟨(h t hst hI).1, (h t hst hI).2, hQ t hst hI⟩

theorem withLock {l : L} {mode : LockMode} {p : LockProg L σ α} (hp : p.Safe I Q s) :
    (withLock l mode p).Safe I Q s := hp.bind fun _ _ _ h => h

theorem forM {as : List β} {f : β → LockProg L σ PUnit}
    (hf : ∀ a ∈ as, ∀ t, s ≤ t → (f a).Sure I t) : (as.forM f).Sure I s := by
  induction as generalizing s with
  | nil => trivial
  | cons a as ih =>
    apply bind (hf a List.mem_cons_self s le_rfl)
    intro _ t hst _
    exact ih fun b hb u hu => hf b (List.mem_cons_of_mem a hb) u (hst.trans hu)

theorem when {c : Prop} [Decidable c] {p : LockProg L σ Unit} {Q : Unit → σ → Prop}
    (hp : c → p.Safe I Q s) (hQ : ¬ c → Q () s) : (when c p).Safe I Q s := by
  rw [LockProg.when]
  split
  · exact hp ‹c›
  · exact hQ ‹¬ c›

theorem except_bind {p : ExceptT ε (LockProg L σ) α} {f : α → ExceptT ε (LockProg L σ) β}
    (hp : p.run.Sure I s) (hf : ∀ a t, s ≤ t → (f a).run.Sure I t) : (p >>= f).run.Sure I s := by
  apply bind hp
  intro r t hst _
  cases r with
  | ok a => exact hf a t hst
  | error e => trivial

theorem lift_bind {p : LockProg L σ α} {f : α → ExceptT ε (LockProg L σ) β} (hp : p.Sure I s)
    (hf : ∀ a t, s ≤ t → (f a).run.Sure I t) : (ExceptT.lift p >>= f).run.Sure I s :=
  except_bind (hp.bind fun _ _ _ _ => trivial) hf

theorem except_foldlM {as : List β} {f : α → β → ExceptT ε (LockProg L σ) α}
    (hf : ∀ x a t, s ≤ t → (f x a).run.Sure I t) (x : α) : (as.foldlM f x).run.Sure I s := by
  induction as generalizing x s with
  | nil => trivial
  | cons a as ih =>
    rw [List.foldlM_cons]
    apply except_bind (hf x a s le_rfl)
    intro y t hst
    exact ih (fun x a u hu => hf x a u (hst.trans hu)) y

end Safe
end LockProg

/-! ### Programs come to an end -/

namespace LockProg
variable {L σ α : Type}

end LockProg

namespace Threads
open LockProg
variable {T L σ Op : Type} [DecidableEq T] [DecidableEq L] [Fintype T] {s s' : Threads T L σ}
  {t : T}

section
variable [Preorder σ] {I : σ → Prop} {ops : Op → LockProg L σ Unit}
  {g : Threads T L σ → ThreadAct T Op → Prop}

/-- No thread comes to `halt`, whatever the threads do. -/
structure Sure (I : σ → Prop) (s : Threads T L σ) : Prop where
  shared : I s.shared
  sure : ∀ t, (s.prog t).Sure I s.shared

omit [DecidableEq T] [DecidableEq L] [Fintype T] in
theorem start_sure {s : σ} (hs : I s) : (start s : Threads T L σ).Sure I := ⟨hs, fun _ => trivial⟩

omit [DecidableEq L] [Fintype T] in
/-- One thread goes on to another program and lets the shared state grow. -/
theorem Sure.update {p : LockProg L σ Unit} (hs : s.Sure I) (hI : I s'.shared)
    (hle : s.shared ≤ s'.shared) (hprog : s'.prog = Function.update s.prog t p)
    (hp : p.Sure I s'.shared) : s'.Sure I := by
  refine ⟨hI, fun u => ?_⟩
  rw [hprog]
  by_cases hu : u = t
  · subst hu
    rw [Function.update_self]
    exact hp
  · rw [Function.update_of_ne hu]
    exact (hs.sure u).mono hle

theorem Sure.next (hs : s.Sure I) (h : s.next t = some s') : s'.Sure I := by
  have ht := hs.sure t
  simp only [Threads.next] at h
  split at h
  · cases h
  · cases h
  · rename_i upd next hprog
    cases h
    rw [hprog] at ht
    obtain ⟨hI, hle, hnext⟩ := ht s.shared le_rfl hs.shared
    exact hs.update hI hle rfl hnext
  · rename_i l mode next hprog
    split at h
    · cases h
      rw [hprog] at ht
      exact hs.update hs.shared le_rfl rfl ht
    · cases h
  · rename_i l next hprog
    cases h
    rw [hprog] at ht
    exact hs.update hs.shared le_rfl rfl ht

/-- Threads whose calls are safe where they are made never halt. -/
theorem Sure.step (hg : ∀ s t op, I s.shared → g s (.call t op) → (ops op).Sure I s.shared)
    (hs : s.Sure I) (ha : g s a) (h : Threads.step ops s a = some s') : s'.Sure I := by
  cases a with
  | call t op =>
    simp only [Threads.step] at h
    split at h
    · cases h
      exact hs.update hs.shared le_rfl rfl (hg s t op hs.shared ha)
    · cases h
  | next t => exact hs.next h

/-! ### Calls that return -/

variable {ρ : Type} [Preorder ρ] {I' : σ → Prop} {rank : L → ρ} {i : ℕ}
  {r : Run (Threads.step (T := T) ops)}

end
end Threads
end Library
