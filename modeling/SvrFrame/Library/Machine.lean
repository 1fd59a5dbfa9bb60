import Mathlib.Data.List.Induction

namespace Library
set_option autoImplicit true

variable {σ α : Type*} {step : σ → α → Option σ} {g : σ → α → Prop} {s t u : σ}

/-- The states a partial step function reaches from `s` when every step meets the guard `g`. -/
inductive Reach (step : σ → α → Option σ) (g : σ → α → Prop) (s : σ) : σ → Prop where
  | refl : Reach step g s s
  | tail {t u : σ} {a : α} : Reach step g s t → g t a → step t a = some u → Reach step g s u

theorem Reach.invariant {I : σ → Prop} (h : Reach step g s t) (h0 : I s)
    (hs : ∀ {t a u}, I t → g t a → step t a = some u → I u) : I t := by
  induction h with
  | refl => exact h0
  | tail hr hg ht ih => exact hs ih hg ht

theorem Reach.trans (h : Reach step g s t) (h' : Reach step g t u) : Reach step g s u := by
  induction h' with
  | refl => exact h
  | tail hr hg ht ih => exact .tail ih hg ht

/-- A run is also one of another step function that can make each of its steps. -/
theorem Reach.simulate {β : Type*} {step' : σ → β → Option σ} {g' : σ → β → Prop}
    (h : Reach step g s t)
    (hs : ∀ {t a u}, Reach step g s t → Reach step' g' s t → g t a → step t a = some u →
      ∃ b, g' t b ∧ step' t b = some u) : Reach step' g' s t := by
  induction h with
  | refl => exact .refl
  | tail hr hg ht ih =>
    obtain ⟨b, hg', ht'⟩ := hs hr ih hg ht
    exact .tail ih hg' ht'

/-- Take the actions of a list one after another; `none` as soon as one is refused. -/
def exec (step : σ → α → Option σ) (g : σ → α → Prop) [∀ s a, Decidable (g s a)] :
    σ → List α → Option σ
  | s, [] => some s
  | s, a :: as => if g s a then (step s a).bind (exec step g · as) else none

theorem Reach.of_exec [∀ s a, Decidable (g s a)] {as : List α}
    (h : exec step g s as = some t) : Reach step g s t := by
  induction as generalizing s with
  | nil =>
    simp only [exec, Option.some.injEq] at h
    exact h ▸ .refl
  | cons a as ih =>
    simp only [exec] at h
    split at h
    · rename_i hg
      obtain ⟨u, hu, hr⟩ := Option.bind_eq_some_iff.1 h
      exact (Reach.tail .refl hg hu).trans (ih hr)
    · cases h

/-- A list of actions that ends in a state with a decidable property reaches such a state. -/
theorem Reach.of_exec_map (step : σ → α → Option σ) (g : σ → α → Prop)
    [∀ s a, Decidable (g s a)] (s : σ) (as : List α) (p : σ → Bool)
    (h : (exec step g s as).map p = some true) : ∃ t, Reach step g s t ∧ p t = true := by
  cases hx : exec step g s as with
  | none => rw [hx] at h; cases h
  | some t =>
    simp only [hx, Option.map_some, Option.some.injEq] at h
    exact ⟨t, .of_exec hx, h⟩

def runAll (step : σ → α → Option σ) : σ → List α → Option σ
  | s, [] => some s
  | s, a :: as => (step s a).bind (runAll step · as)

theorem runAll_append (step : σ → α → Option σ) (s : σ) (as bs : List α) :
    runAll step s (as ++ bs) = (runAll step s as).bind (runAll step · bs) := by
  induction as generalizing s with
  | nil => rfl
  | cons a as ih =>
    simp only [List.cons_append, runAll, Option.bind_assoc]
    congr 1
    funext t
    exact ih t

/-- The rule for invariants of a loop that has run to its end. -/
theorem foldlM_invariant {I : σ → Prop} {as : List α} (h : as.foldlM step s = some t) (h0 : I s)
    (hs : ∀ {t a u}, a ∈ as → I t → step t a = some u → I u) : I t := by
  induction as generalizing s with
  | nil =>
    cases h
    exact h0
  | cons a as ih =>
    rw [List.foldlM_cons] at h
    obtain ⟨u, hu, h⟩ := Option.bind_eq_some_iff.1 h
    exact ih h (hs List.mem_cons_self h0 hu) fun ha => hs (List.mem_cons_of_mem a ha)

/-- The rule for invariants that mention the inputs consumed so far: a step that is defined and
extends the invariant by its own input makes every run defined and the invariant hold of it. -/
theorem runAll_history {I : List α → σ → Prop} {ok : α → Prop} (h0 : I [] s)
    (hs : ∀ {as t a}, I as t → ok a → ∃ u, step t a = some u ∧ I (as ++ [a]) u)
    (as : List α) (ha : ∀ a ∈ as, ok a) : ∃ t, runAll step s as = some t ∧ I as t := by
  induction as using List.reverseRecOn with
  | nil => exact ⟨s, rfl, h0⟩
  | append_singleton as a ih =>
    obtain ⟨t, ht, hi⟩ := ih fun b hb => ha b (List.mem_append_left _ hb)
    obtain ⟨u, hu, hi'⟩ := hs hi (ha a (by simp))
    refine ⟨u, ?_, hi'⟩
    rw [runAll_append, ht]
    simp only [Option.bind_some, runAll, hu]

/-- The same for a run that has been made: every step extends the invariant by its own input. -/
theorem runAll_trace {I : List α → σ → Prop} {as : List α} (h : runAll step s as = some t)
    (h0 : I [] s) (hs : ∀ {as t a u}, I as t → step t a = some u → I (as ++ [a]) u) :
    I as t := by
  induction as using List.reverseRecOn generalizing t with
  | nil =>
    cases h
    exact h0
  | append_singleton as a ih =>
    rw [runAll_append] at h
    obtain ⟨t', ht', h⟩ := Option.bind_eq_some_iff.1 h
    obtain ⟨u, hu, h⟩ := Option.bind_eq_some_iff.1 h
    cases h
    exact hs (ih ht') hu

/-- A run in which no step is ever refused. -/
theorem runAll_total {I : σ → Prop} (h0 : I s)
    (hs : ∀ {t} a, I t → ∃ u, step t a = some u ∧ I u) (as : List α) :
    ∃ t, runAll step s as = some t := by
  induction as generalizing s with
  | nil => exact ⟨s, rfl⟩
  | cons a as ih =>
    obtain ⟨u, hu, hI⟩ := hs a h0
    obtain ⟨t, ht⟩ := ih hI
    apply Exists.intro t
    rw [runAll, hu]
    exact ht

/-- A step with the property `bad` is taken in the run. -/
def Occurs (step : σ → α → Option σ) (bad : σ → α → Prop) : σ → List α → Prop
  | _, [] => False
  | s, a :: as => bad s a ∨ ∃ t, step s a = some t ∧ Occurs step bad t as

/-- The rule for what is never undone: where the property `J` holds after a step just when it held
before or the step is `bad`, it holds after a run just when it held before or a bad step was
taken. -/
theorem runAll_latch {I J : σ → Prop} {bad : σ → α → Prop} {as : List α}
    (h : runAll step s as = some t) (h0 : I s)
    (hs : ∀ {t a u}, I t → step t a = some u → I u ∧ (J u ↔ J t ∨ bad t a)) :
    I t ∧ (J t ↔ J s ∨ Occurs step bad s as) := by
  induction as generalizing s with
  | nil =>
    cases h
    exact ⟨h0, by simp [Occurs]⟩
  | cons a as ih =>
    obtain ⟨u, hu, h⟩ := Option.bind_eq_some_iff.1 h
    obtain ⟨hI, hJ⟩ := hs h0 hu
    obtain ⟨hI', hJ'⟩ := ih h hI
    have hrest : (∃ t, step s a = some t ∧ Occurs step bad t as) ↔ Occurs step bad u as := by
      constructor
      · rintro ⟨t', ht', h⟩
        cases hu.symm.trans ht'
        exact h
      · intro h
        exact ⟨u, hu, h⟩
    constructor
    · exact hI'
    · rw [Occurs, hrest, hJ', hJ, or_assoc]

end Library
