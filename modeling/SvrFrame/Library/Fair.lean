import SvrFrame.Library.Machine
import Mathlib.Algebra.BigOperators.Group.Finset.Basic
import Mathlib.Order.OrderIsoNat

namespace Library
set_option autoImplicit true

/-- An infinite run. At a time without an action nothing happens. -/
structure Run {σ α : Type*} (step : σ → α → Option σ) where
  state : ℕ → σ
  act : ℕ → Option α
  next : ∀ i, ((act i).elim (some (state i)) (step (state i))) = some (state (i + 1))

namespace Run

variable {σ α : Type*} {step : σ → α → Option σ} {g : σ → α → Prop} {A : α → Prop} {P : σ → Prop}
  {μ : σ → ℕ} {r : Run step} {i j : ℕ}

/-- Every action of the run meets the guard. -/
def Keeps (r : Run step) (g : σ → α → Prop) : Prop := ∀ i, ∀ a ∈ r.act i, g (r.state i) a

/-- Some action of the class can be taken in the state. -/
def Enabled (step : σ → α → Option σ) (A : α → Prop) (s : σ) : Prop := ∃ a, A a ∧ (step s a).isSome

/-- An action of the class is taken at the time. -/
def Takes (r : Run step) (A : α → Prop) (i : ℕ) : Prop := ∃ a ∈ r.act i, A a

/-- Weak fairness: a class of actions that from some time on can always be taken is taken. -/
def Fair (r : Run step) (A : α → Prop) : Prop :=
  ∀ i, (∀ j, i ≤ j → Enabled step A (r.state j)) → ∃ j, i ≤ j ∧ r.Takes A j

theorem step_eq (h : a ∈ r.act i) : step (r.state i) a = some (r.state (i + 1)) := by
  have hnext := r.next i
  rw [Option.mem_def.1 h] at hnext
  exact hnext

theorem state_eq (h : r.act i = none) : r.state (i + 1) = r.state i := by
  have hnext := r.next i
  rw [h] at hnext
  exact (Option.some.inj hnext).symm

/-- What the steps of a time keep, nothing happening included. -/
theorem next_of (h0 : P (r.state i))
    (hs : ∀ a ∈ r.act i, step (r.state i) a = some (r.state (i + 1)) → P (r.state (i + 1))) :
    P (r.state (i + 1)) := by
  cases ha : r.act i with
  | none => rw [state_eq ha]; exact h0
  | some a => exact hs a ha (step_eq ha)

/-- The states of a run are reached from its first one. -/
theorem reach (h : r.Keeps g) (i : ℕ) : Reach step g (r.state 0) (r.state i) := by
  induction i with
  | zero => exact .refl
  | succ i ih => exact next_of ih fun a ha hstep => .tail ih (h i a ha) hstep

/-- What every later step keeps holds from then on. -/
theorem stays (h0 : P (r.state i)) (hs : ∀ j, i ≤ j → P (r.state j) → ∀ a ∈ r.act j,
    step (r.state j) a = some (r.state (j + 1)) → P (r.state (j + 1))) :
    ∀ j, i ≤ j → P (r.state j) := by
  intro j hj
  induction j, hj using Nat.le_induction with
  | base => exact h0
  | succ j hj ih => exact next_of ih (hs j hj ih)

/-- A measure that never grows is constant in the end. -/
theorem eventually_const (μ : σ → ℕ)
    (hle : ∀ j, i ≤ j → μ (r.state (j + 1)) ≤ μ (r.state j)) :
    ∃ k, i ≤ k ∧ ∀ j, k ≤ j → μ (r.state j) = μ (r.state k) := by
  have hanti : Antitone fun n => μ (r.state (i + n)) := by
    apply antitone_nat_of_succ_le
    intro n
    exact hle (i + n) (Nat.le_add_right i n)
  obtain ⟨n, hn⟩ := WellFoundedLT.antitone_chain_condition hanti
  have hle : i ≤ i + n := Nat.le_add_right i n
  refine ⟨i + n, hle, fun j hj => ?_⟩
  have hsum : i + (j - i) = j := Nat.add_sub_cancel' (Nat.le_trans hle hj)
  have h := hn (j - i) (Nat.le_sub_of_add_le' hj)
  simp only [hsum] at h
  exact h.symm

/-- The ranking rule. As long as `P` does not hold, a state names a fair class of actions that can
be taken; a step lowers the measure, or leaves it and the named class as they are and is not one
of that class. -/
theorem reaches_helpful {ι : Type*} {B : ι → α → Prop} (μ : σ → ℕ) (help : σ → ι)
    (hfair : ∀ c, r.Fair (B c))
    (hen : ∀ j, i ≤ j → ¬ P (r.state j) → Enabled step (B (help (r.state j))) (r.state j))
    (hstep : ∀ j, i ≤ j → ¬ P (r.state j) → μ (r.state (j + 1)) < μ (r.state j) ∨
      (μ (r.state (j + 1)) = μ (r.state j) ∧ help (r.state (j + 1)) = help (r.state j) ∧
        ¬ r.Takes (B (help (r.state j))) j)) :
    ∃ j, i ≤ j ∧ P (r.state j) := by
  by_contra hnever
  have hnot (j : ℕ) (hj : i ≤ j) : ¬ P (r.state j) := fun hP => hnever ⟨j, hj, hP⟩
  obtain ⟨k, hik, hconst⟩ := eventually_const μ fun j hj => by
    rcases hstep j hj (hnot j hj) with hlt | ⟨heq, -⟩
    · exact Nat.le_of_lt hlt
    · exact Nat.le_of_eq heq
  have hkeep (j : ℕ) (hkj : k ≤ j) : help (r.state (j + 1)) = help (r.state j) ∧
      ¬ r.Takes (B (help (r.state j))) j := by
    have hij := Nat.le_trans hik hkj
    rcases hstep j hij (hnot j hij) with hlt | ⟨-, hkeep⟩
    · rw [hconst j hkj, hconst (j + 1) (Nat.le_succ_of_le hkj)] at hlt
      exact absurd hlt (Nat.lt_irrefl _)
    · exact hkeep
  have hsame (j : ℕ) (hkj : k ≤ j) : help (r.state j) = help (r.state k) := by
    induction j, hkj using Nat.le_induction with
    | base => rfl
    | succ j hkj ih => exact (hkeep j hkj).1.trans ih
  obtain ⟨j, hkj, htakes⟩ := hfair (help (r.state k)) k fun j hkj => by
    have hij := Nat.le_trans hik hkj
    rw [← hsame j hkj]
    exact hen j hij (hnot j hij)
  rw [← hsame j hkj] at htakes
  exact (hkeep j hkj).2 htakes

/-- The same with one class of actions, which lowers a measure that nothing else raises. -/
theorem Fair.reaches (μ : σ → ℕ) (hfair : r.Fair A)
    (hen : ∀ j, i ≤ j → ¬ P (r.state j) → Enabled step A (r.state j))
    (hle : ∀ j, i ≤ j → ¬ P (r.state j) → μ (r.state (j + 1)) ≤ μ (r.state j))
    (hlt : ∀ j, i ≤ j → ¬ P (r.state j) → r.Takes A j → μ (r.state (j + 1)) < μ (r.state j)) :
    ∃ j, i ≤ j ∧ P (r.state j) := by
  apply reaches_helpful (B := fun _ : Unit => A) μ (fun _ => ()) (fun _ => hfair) hen
  intro j hj hnot
  by_cases htakes : r.Takes A j
  · exact .inl (hlt j hj hnot htakes)
  · rcases Nat.lt_or_eq_of_le (hle j hj hnot) with hless | heq
    · exact .inl hless
    · exact .inr ⟨heq, rfl, htakes⟩

section Finite
variable [∀ s a, Decidable (g s a)] {s t : σ} {as : List α}

end Finite

end Run
end Library
