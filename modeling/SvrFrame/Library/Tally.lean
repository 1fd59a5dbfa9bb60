import Mathlib.Data.List.Range

namespace Library

/-- How many of the indices below `n` satisfy `p`. -/
def tally (n : Nat) (p : Nat → Bool) : Nat := (List.range n).countP p

theorem tally_succ (n : Nat) (p : Nat → Bool) :
    tally (n + 1) p = tally n p + if p n then 1 else 0 := by
  simp only [tally, List.range_succ, List.countP_append, List.countP_singleton]

theorem tally_congr {n : Nat} {p q : Nat → Bool} (h : ∀ w < n, p w = q w) :
    tally n p = tally n q := by
  apply List.countP_congr
  intro w hw
  rw [h w (List.mem_range.1 hw)]

/-- Changing the value at one index changes the tally by what that index contributes. -/
theorem tally_change {n w : Nat} {p q : Nat → Bool} (hw : w < n) (h : ∀ v ≠ w, p v = q v) :
    tally n p + (if q w then 1 else 0) = tally n q + (if p w then 1 else 0) := by
  induction n with
  | zero => exact absurd hw (Nat.not_lt_zero w)
  | succ n ih =>
    rw [tally_succ, tally_succ]
    by_cases hn : n = w
    · subst hn
      rw [tally_congr fun v hv => h v (Nat.ne_of_lt hv)]
      omega
    · have hlt : w < n := by omega
      have := ih hlt
      rw [h n hn]
      omega

/-- A counter that follows the value at the one index that changes stays the tally. -/
theorem tally_step {n w : Nat} {p q : Nat → Bool} {c d : Int} (hw : w < n)
    (h : ∀ v ≠ w, p v = q v) (hc : c = tally n q)
    (hd : d + (if q w then 1 else 0) = c + (if p w then 1 else 0)) : d = tally n p := by
  have hsum := tally_change hw h
  cases hp : p w <;> cases hq : q w <;>
    simp only [hp, hq, Bool.false_eq_true, if_true, if_false] at hsum hd <;> omega

theorem tally_eq_zero {n : Nat} {p : Nat → Bool} (h : tally n p = 0) : ∀ w < n, p w = false := by
  intro w hw
  have hnot := List.countP_eq_zero.1 h w (List.mem_range.2 hw)
  exact Bool.not_eq_true _ ▸ hnot

theorem tally_false (n : Nat) : tally n (fun _ => false) = 0 :=
  List.countP_eq_zero.2 fun _ _ => Bool.false_ne_true

end Library
