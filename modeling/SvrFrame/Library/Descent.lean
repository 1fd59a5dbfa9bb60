import Mathlib.Data.Fintype.Card
import Mathlib.Logic.Relation

namespace Library
open Relation
set_option autoImplicit true

/-! ### Recursions with a bound on their depth -/

section
variable {α β : Type*} {f : Nat → α → Option β}

/-- A result that a recursion of depth `k` has is also that of a deeper one. -/
def Grows (f : Nat → α → Option β) : Prop := ∀ k a b, f k a = some b → f (k + 1) a = some b

theorem Grows.le (hf : Grows f) (hk : k ≤ m) (h : f k a = some b) : f m a = some b := by
  induction hk with
  | refl => exact h
  | step _ ih => exact hf _ a b ih

theorem mapM_cons_eq_some {g : α → Option β} {a : α} {l : List α} {bs : List β} :
    (a :: l).mapM g = some bs ↔ ∃ b bs', g a = some b ∧ l.mapM g = some bs' ∧ bs = b :: bs' := by
  rw [List.mapM_cons]
  simp only [Option.bind_eq_bind, Option.bind_eq_some_iff, Option.pure_def, Option.some.injEq]
  constructor
  · rintro ⟨b, hb, bs', hbs, rfl⟩
    exact ⟨b, bs', hb, hbs, rfl⟩
  · rintro ⟨b, bs', hb, hbs, rfl⟩
    exact ⟨b, hb, bs', hbs, rfl⟩

theorem mapM_exists_of_mem {g : α → Option β} {l : List α} {bs : List β}
    (h : l.mapM g = some bs) (ha : a ∈ l) : ∃ b, g a = some b := by
  induction l generalizing bs with
  | nil => cases ha
  | cons c l ih =>
    obtain ⟨b, bs', hb, hbs, -⟩ := mapM_cons_eq_some.1 h
    rcases List.mem_cons.1 ha with rfl | ha
    · exact ⟨b, hb⟩
    · exact ih hbs ha

theorem mapM_of_imp {g g' : α → Option β} (hg : ∀ a b, g a = some b → g' a = some b)
    {l : List α} {bs : List β} (h : l.mapM g = some bs) : l.mapM g' = some bs := by
  induction l generalizing bs with
  | nil => exact h
  | cons a l ih =>
    obtain ⟨b, bs', hb, hbs, rfl⟩ := mapM_cons_eq_some.1 h
    exact mapM_cons_eq_some.2 ⟨b, bs', hg a b hb, ih hbs, rfl⟩

theorem Grows.mapM (hf : Grows f) : Grows fun k (l : List α) => l.mapM (f k) :=
  fun k _ _ h => mapM_of_imp (hf k) h

/-- Finitely many results have a depth in common. -/
theorem Grows.mapM_exists (hf : Grows f) {l : List α} (h : ∀ a ∈ l, ∃ k b, f k a = some b) :
    ∃ k bs, l.mapM (f k) = some bs := by
  induction l with
  | nil => exact ⟨0, [], rfl⟩
  | cons a l ih =>
    obtain ⟨k, b, hb⟩ := h a List.mem_cons_self
    obtain ⟨m, bs, hbs⟩ := ih fun c hc => h c (List.mem_cons_of_mem a hc)
    apply Exists.intro (max k m)
    apply Exists.intro (b :: bs)
    rw [mapM_cons_eq_some]
    exact ⟨b, bs, hf.le (Nat.le_max_left k m) hb, hf.mapM.le (Nat.le_max_right k m) hbs, rfl⟩

end

/-! ### Descending along the edges of a finite graph -/

section
variable {α : Type*} {r : α → α → Prop} {a b : α}

theorem acc_of_reflTransGen (h : Acc (fun b a => r a b) a) (hab : ReflTransGen r a b) :
    Acc (fun b a => r a b) b := by
  induction hab with
  | refl => exact h
  | tail _ hbc ih => exact ih.inv hbc

theorem not_transGen_of_acc (h : Acc (fun b a => r a b) a) : ¬ TransGen r a a := by
  induction h with
  | intro a _ ih =>
    intro haa
    obtain ⟨b, hab, hba⟩ := TransGen.head'_iff.1 haa
    exact ih b hab (TransGen.tail' hba hab)

/-- The edges out of what can be reached from `a`, turned round. -/
def Below (r : α → α → Prop) (a c b : α) : Prop := ReflTransGen r a b ∧ r b c

theorem transGen_of_below (h : TransGen (Below r a) b c) : ReflTransGen r a c ∧ TransGen r c b := by
  induction h with
  | single h => exact ⟨h.1, .single h.2⟩
  | tail _ h ih => exact ⟨h.1, .head h.2 ih.2⟩

/-- In a finite graph every descent from `a` ends if and only if no node below `a` is below
itself. -/
theorem acc_iff_no_cycle [Finite α] :
    Acc (fun b a => r a b) a ↔ ¬ ∃ b, ReflTransGen r a b ∧ TransGen r b b := by
  constructor
  · rintro h ⟨b, hab, hbb⟩
    exact not_transGen_of_acc (acc_of_reflTransGen h hab) hbb
  · intro hnone
    have hirrefl : Std.Irrefl (TransGen (Below r a)) := by
      constructor
      intro b hbb
      exact hnone ⟨b, transGen_of_below hbb⟩
    have hwf : WellFounded (TransGen (Below r a)) := Finite.wellFounded_of_trans_of_irrefl _
    have hacc (b : α) (hab : ReflTransGen r a b) : Acc (fun b a => r a b) b := by
      induction b using hwf.induction with
      | h b ih =>
        constructor
        intro c hbc
        exact ih c (.single ⟨hab, hbc⟩) (hab.tail hbc)
    exact hacc a .refl

end
end Library
