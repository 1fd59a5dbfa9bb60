import SvrFrame.Config.Listeners

namespace SvrFrame
namespace Config
open Library
set_option autoImplicit true

namespace ListenedVar
variable {W T : Type} {es : List (ListenerId × Option (OnChangeCallback W T))} {oldValue newValue : T}

/-! ### The result of `FromString` -/

section
variable [BEq T] {fromStr : String → Except Exn T} {s : ListenedVar W T}

/-- If the text converts, then to another value, and a listener that is told it throws. -/
def Refuses (fromStr : String → Except Exn T) (s : ListenedVar W T) (text : String) (w : W) : Prop :=
  ∀ val, fromStr text = .ok val →
    (s.mVal == val) = false ∧ (notify s.mVal val s.mCbs.elems w).thrown.isSome

/-- The result of `FromString` tells whether the text has been taken over. -/
structure Tells (fromStr : String → Except Exn T) (s : ListenedVar W T) (text : String) (w : W) :
    Prop where
  accepted : (s.fromString fromStr text w).1 = true ↔ ¬ s.Refuses fromStr text w
  stored : (s.fromString fromStr text w).1 = true → ∀ val, fromStr text = .ok val →
    (s.fromString fromStr text w).2.1.mVal = val ∨
      ((s.fromString fromStr text w).2.1.mVal == val) = true
  rejected : (s.fromString fromStr text w).1 = false ↔ s.Refuses fromStr text w
  kept : (s.fromString fromStr text w).1 = false → (s.fromString fromStr text w).2.1.mVal = s.mVal

theorem setValue_mVal (s : ListenedVar W T) (val : T) (w : W) :
    (s.setValue val w).1.mVal =
      if (s.mVal == val) = true ∨ (notify s.mVal val s.mCbs.elems w).thrown.isSome then s.mVal
      else val := by
  by_cases heq : (s.mVal == val) = true
  · rw [setValue, if_pos heq, if_pos (.inl heq)]
  · by_cases hthrown : (notify s.mVal val s.mCbs.elems w).thrown.isSome = true
    · simp only [setValue, if_neg heq, if_pos hthrown, if_pos (Or.inr hthrown)]
    · simp only [setValue, if_neg heq, if_neg hthrown, if_neg (not_or_intro heq hthrown)]

theorem fromString_ok {text : String} {val : T} (h : fromStr text = .ok val) (w : W) :
    (s.fromString fromStr text w).2 = s.setValue val w := by
  rw [fromString, h]

theorem fromString_error {text : String} {e : Exn} (h : fromStr text = .error e) (w : W) :
    (s.fromString fromStr text w).2 = (s, .none w) := by
  rw [fromString, h]

/-- A text that is refused leaves the value. -/
theorem Refuses.kept {text : String} {w : W} (h : s.Refuses fromStr text w) :
    (s.fromString fromStr text w).2.1.mVal = s.mVal := by
  cases hconv : fromStr text with
  | error e => rw [fromString_error hconv]
  | ok val => rw [fromString_ok hconv, setValue_mVal, if_pos (.inr (h val hconv).2)]

/-- A text that is not refused is taken over, up to the `operator==` of the type. -/
theorem stored_of_not_refuses {text : String} {w : W} (h : ¬ s.Refuses fromStr text w) :
    ∃ val, fromStr text = .ok val ∧ ((s.fromString fromStr text w).2.1.mVal = val ∨
      ((s.fromString fromStr text w).2.1.mVal == val) = true) := by
  simp only [Refuses, not_forall] at h
  obtain ⟨val, hconv, hnot⟩ := h
  apply Exists.intro val
  constructor
  · exact hconv
  · rw [fromString_ok hconv, setValue_mVal]
    by_cases heq : (s.mVal == val) = true
    · rw [if_pos (.inl heq)]
      exact .inr heq
    · have hthrown : ¬ (notify s.mVal val s.mCbs.elems w).thrown.isSome = true :=
        fun hthrown => hnot ⟨Bool.eq_false_of_not_eq_true heq, hthrown⟩
      rw [if_neg (not_or_intro heq hthrown)]
      exact .inl rfl

/-- `FromString` takes over what it should and returns false: its result is right just where it
refuses the text. -/
theorem fromString_tells_iff (fromStr : String → Except Exn T) (s : ListenedVar W T)
    (text : String) (w : W) :
    (s.Tells fromStr text w ↔ s.Refuses fromStr text w) ∧
    (s.Refuses fromStr text w → (s.fromString fromStr text w).2.1.mVal = s.mVal) ∧
    (¬ s.Refuses fromStr text w → ∃ val, fromStr text = .ok val ∧
      ((s.fromString fromStr text w).2.1.mVal = val ∨
        ((s.fromString fromStr text w).2.1.mVal == val) = true)) := by
  have hfalse : (s.fromString fromStr text w).1 = false := rfl
  constructor
  · constructor
    · intro h
      exact h.rejected.1 hfalse
    · intro h
      constructor
      · exact iff_of_false (by rw [hfalse]; decide) (fun hnot => hnot h)
      · intro htrue
        cases hfalse.symm.trans htrue
      · exact iff_of_true hfalse h
      · exact fun _ => h.kept
  · exact ⟨Refuses.kept, stored_of_not_refuses⟩

end

/-- A text that does not convert. -/
theorem fromString_tells_unreadable : let s : ListenedVar Unit Nat := .new 0 0
    (s.fromString (fun _ => .error .badLexicalCast) "x" ()).2.1.mVal = 0 :=
  (fromString_tells_iff _ _ "x" ()).2.1 fun _ h => by cases h

/-- A text that converts, and no listener. -/
theorem fromString_denies_success : let s : ListenedVar Unit Nat := .new 0 0
    ¬ s.Tells (fun _ => .ok 5) "5" () ∧
      s.fromString (fun _ => .ok 5) "5" () = (false, .new 5 0, .none ()) := by
  constructor
  · intro h
    exact absurd (h.rejected.1 rfl 5 rfl).2 (by decide)
  · rfl

/-! ### Updates that fail -/

end ListenedVar

/-- One call of `SetValue` of a sequence, with the value before and after it; the caller has caught
what it throws. -/
structure SetCall (W T : Type) where
  before : T
  announcement : Announcement W T
  after : T

namespace SetCall
variable {W T : Type}

/-- The value that a listener has taken for the new one becomes the value of the variable. -/
def Kept (c : SetCall W T) : Prop :=
  ∀ t ∈ c.announcement.told, t.oldValue = c.before ∧ (t.completed = true → c.after = t.newValue)

end SetCall

namespace ListenedVar
variable {W T : Type}

variable [BEq T]

end ListenedVar

end Config
end SvrFrame
