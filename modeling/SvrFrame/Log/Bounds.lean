import SvrFrame.Log.Formatter

namespace SvrFrame
namespace LogFormatter
set_option autoImplicit true

/-! ### The scan with its checks -/

/-- `mPattern[k]`, below the size. -/
def checkedGet (p : List Char) (k : Nat) : Option Char := p[k]?

/-- A difference in `size_t` that does not wrap around. -/
def checkedSub (m n : Nat) : Option Nat := if n ≤ m then some (m - n) else none

/-- `substr(pos, len)`, which throws where `pos` is behind the end. -/
def checkedSubstr (p : List Char) (pos len : Nat) : Option String :=
  if pos ≤ p.length then some (substr p pos len) else none

/-- `substr(pos)`. -/
def checkedSuffix (p : List Char) (pos : Nat) : Option String :=
  if pos ≤ p.length then some (String.ofList (p.drop pos)) else none

/-- The length in `substr(m + 1, n - m - 1)`, and the text. -/
def checkedBetween (p : List Char) (m n : Nat) : Option String :=
  (checkedSub n m).bind fun d => (checkedSub d 1).bind fun len => checkedSubstr p (m + 1) len

def checkedDirectiveStep (p : List Char) (i : Nat) (k : Directive) :
    Option (Directive × Bool) :=
  (checkedGet p k.n).bind fun c =>
    if k.fmtStatus = 0 ∧ !c.isAlpha ∧ c ≠ '{' ∧ c ≠ '}' then
      (checkedBetween p i k.n).map fun str => ({ k with str := str }, false)
    else if k.fmtStatus = 0 ∧ c = '{' then
      (checkedBetween p i k.n).map fun str =>
        ({ k with str := str, fmtStatus := 1, fmtBegin := k.n, n := k.n + 1 }, true)
    else if k.fmtStatus = 1 ∧ c = '}' then
      (checkedBetween p k.fmtBegin k.n).map fun fmt =>
        ({ k with fmt := fmt, fmtStatus := 0, n := k.n + 1 }, false)
    else if k.n + 1 = p.length ∧ k.str = "" then
      (checkedSuffix p (i + 1)).map fun str => ({ k with n := k.n + 1, str := str }, true)
    else some ({ k with n := k.n + 1 }, true)

/-- The inner loop; `none` also where it has not ended when the fuel is spent. -/
def checkedDirectiveLoop (p : List Char) (i : Nat) : Nat → Directive → Option Directive
  | 0, _ => none
  | fuel + 1, k =>
    if k.n < p.length then
      (checkedDirectiveStep p i k).bind fun r =>
        if r.2 then checkedDirectiveLoop p i fuel r.1 else some r.1
    else some k

def checkedScanStep (p : List Char) (s : Scan) : Option Scan :=
  (checkedGet p s.i).bind fun c =>
    if c ≠ '%' then some { s with i := s.i + 1, nstr := s.nstr.push c }
    else (if s.i + 1 < p.length then checkedGet p (s.i + 1) else some '\x00').bind fun next =>
      if next = '%' then some { s with i := s.i + 1, nstr := s.nstr.push '%' }
      else (checkedDirectiveLoop p s.i p.length ⟨s.i + 1, 0, 0, "", ""⟩).bind fun k =>
        if k.fmtStatus = 0 then
          (checkedSub k.n 1).map fun i =>
            { s with i := i + 1, nstr := "", vec := flush s.vec s.nstr ++ [⟨k.str, k.fmt, 1⟩] }
        else
          -- the text is for the message on `std::cout`
          (checkedSuffix p s.i).map fun _ =>
            { s with
              i := s.i + 1
              bError := true
              vec := s.vec ++ [⟨"<<pattern_error>>", k.fmt, 0⟩] }

/-- The outer loop, with the values of `i` in its turns. -/
def checkedScanLoop (p : List Char) : Nat → Scan → Option (List Nat × Scan)
  | 0, _ => none
  | fuel + 1, s =>
    if s.i < p.length then
      (checkedScanStep p s).bind fun s' =>
        (checkedScanLoop p fuel s').map fun r => (s.i :: r.1, r.2)
    else some ([], s)

section
variable {p : List Char}

theorem checkedGet_eq (h : k < p.length) : checkedGet p k = some (p.getD k '\x00') := by
  rw [checkedGet, List.getD_eq_getElem?_getD, List.getElem?_eq_getElem h]
  rfl

theorem checkedSub_eq (h : n ≤ m) : checkedSub m n = some (m - n) := if_pos h

theorem checkedSuffix_eq (h : m ≤ p.length) :
    checkedSuffix p m = some (String.ofList (p.drop m)) := if_pos h

theorem checkedBetween_eq (h : m < n) (hn : n ≤ p.length) :
    checkedBetween p m n = some (substr p (m + 1) (n - m - 1)) := by
  have hstart : m + 1 ≤ p.length := by omega
  have hlen : 1 ≤ n - m := by omega
  rw [checkedBetween, checkedSub_eq (Nat.le_of_lt h), Option.bind_some, checkedSub_eq hlen, Option.bind_some,
    checkedSubstr, if_pos hstart]

/-- What holds of the inner loop for the `%` at `i`: `n` is behind it and not past the end, and so
is the brace that has been opened. -/
structure Directive.Within (p : List Char) (i : Nat) (k : Directive) : Prop where
  lower : i < k.n
  upper : k.n ≤ p.length
  brace : k.fmtStatus = 1 → k.fmtBegin < k.n

theorem directiveStep_checked (h : k.Within p i) (hlt : k.n < p.length) :
    checkedDirectiveStep p i k = some (directiveStep p i k) ∧
      (directiveStep p i k).1.Within p i ∧
      ((directiveStep p i k).2 = true → k.n < (directiveStep p i k).1.n) := by
  obtain ⟨hlower, hupper, hbrace⟩ := h
  simp only [checkedDirectiveStep, checkedGet_eq hlt, Option.bind_some, directiveStep]
  generalize p.getD k.n '\x00' = c
  by_cases hstop : k.fmtStatus = 0 ∧ (!c.isAlpha) = true ∧ c ≠ '{' ∧ c ≠ '}'
  · rw [if_pos hstop, if_pos hstop, checkedBetween_eq hlower hupper]
    exact ⟨rfl, ⟨hlower, hupper, hbrace⟩, nofun⟩
  rw [if_neg hstop, if_neg hstop]
  by_cases hopen : k.fmtStatus = 0 ∧ c = '{'
  · rw [if_pos hopen, if_pos hopen, checkedBetween_eq hlower hupper]
    exact ⟨rfl, ⟨Nat.lt_succ_of_lt hlower, hlt, fun _ => Nat.lt_succ_self _⟩,
      fun _ => Nat.lt_succ_self _⟩
  rw [if_neg hopen, if_neg hopen]
  by_cases hclose : k.fmtStatus = 1 ∧ c = '}'
  · rw [if_pos hclose, if_pos hclose, checkedBetween_eq (hbrace hclose.1) hupper]
    exact ⟨rfl, ⟨Nat.lt_succ_of_lt hlower, hlt, nofun⟩, nofun⟩
  rw [if_neg hclose, if_neg hclose]
  have hnext (str : String) : Directive.Within p i { k with n := k.n + 1, str := str } :=
    ⟨Nat.lt_succ_of_lt hlower, hlt, fun hstatus => Nat.lt_succ_of_lt (hbrace hstatus)⟩
  by_cases hlast : k.n + 1 = p.length ∧ k.str = ""
  · rw [if_pos hlast, if_pos hlast, checkedSuffix_eq (Nat.le_trans hlower hupper)]
    exact ⟨rfl, hnext _, fun _ => Nat.lt_succ_self _⟩
  · rw [if_neg hlast, if_neg hlast]
    exact ⟨rfl, hnext _, fun _ => Nat.lt_succ_self _⟩

theorem directiveLoop_checked (h : k.Within p i) (hfuel : p.length < k.n + fuel) :
    checkedDirectiveLoop p i fuel k = some (directiveLoop p i fuel k) ∧
      (directiveLoop p i fuel k).Within p i := by
  induction fuel generalizing k with
  | zero => exact absurd h.upper (Nat.not_le.2 hfuel)
  | succ fuel ih =>
    rw [checkedDirectiveLoop, directiveLoop]
    split
    · rename_i hlt
      obtain ⟨hstep, hwithin, hmove⟩ := directiveStep_checked h hlt
      rw [hstep, Option.bind_some]
      generalize directiveStep p i k = r at hwithin hmove ⊢
      obtain ⟨k', go⟩ := r
      cases go with
      | true =>
        have hn : k.n < k'.n := hmove rfl
        have hrest : p.length < k'.n + fuel := by omega
        exact ih hwithin hrest
      | false => exact ⟨rfl, hwithin⟩
    · exact ⟨rfl, h⟩

theorem scanStep_checked {s : Scan} (h : s.i < p.length) :
    checkedScanStep p s = some (scanStep p s) ∧ s.i < (scanStep p s).i ∧
      (scanStep p s).i ≤ p.length := by
  have hstart : (⟨s.i + 1, 0, 0, "", ""⟩ : Directive).Within p s.i :=
    ⟨Nat.lt_succ_self _, h, nofun⟩
  have hfuel : p.length < s.i + 1 + p.length := Nat.lt_add_of_pos_left (Nat.succ_pos _)
  obtain ⟨hloop, hwithin⟩ := directiveLoop_checked hstart hfuel
  simp only [checkedScanStep, checkedGet_eq h, Option.bind_some, scanStep]
  by_cases hlit : p.getD s.i '\x00' ≠ '%'
  · rw [if_pos hlit, if_pos hlit]
    exact ⟨rfl, Nat.lt_succ_self _, h⟩
  rw [if_neg hlit, if_neg hlit]
  by_cases hnext : s.i + 1 < p.length ∧ p.getD (s.i + 1) '\x00' = '%'
  · rw [if_pos hnext, if_pos hnext.1, checkedGet_eq hnext.1, Option.bind_some, if_pos hnext.2]
    exact ⟨rfl, Nat.lt_succ_self _, h⟩
  have hother : ∃ c, (if s.i + 1 < p.length then checkedGet p (s.i + 1) else some '\x00') =
      some c ∧ c ≠ '%' := by
    by_cases hlt : s.i + 1 < p.length
    · rw [if_pos hlt, checkedGet_eq hlt]
      exact ⟨_, rfl, fun hc => hnext ⟨hlt, hc⟩⟩
    · rw [if_neg hlt]
      exact ⟨_, rfl, by decide⟩
  obtain ⟨c, hc, hne⟩ := hother
  rw [if_neg hnext, hc, Option.bind_some, if_neg hne, hloop, Option.bind_some]
  generalize directiveLoop p s.i p.length ⟨s.i + 1, 0, 0, "", ""⟩ = k at hwithin
  have hlower := hwithin.lower
  have hupper := hwithin.upper
  by_cases hstatus : k.fmtStatus = 0
  · have hpos : 1 ≤ k.n := Nat.le_trans (Nat.succ_le_succ (Nat.zero_le _)) hlower
    rw [if_pos hstatus, if_pos hstatus, checkedSub_eq hpos, Option.map_some]
    have hi : k.n - 1 + 1 = k.n := Nat.sub_add_cancel hpos
    refine ⟨rfl, ?_, ?_⟩
    · rw [hi]
      exact hlower
    · rw [hi]
      exact hupper
  · rw [if_neg hstatus, if_neg hstatus, checkedSuffix_eq (Nat.le_of_lt h), Option.map_some]
    exact ⟨rfl, Nat.lt_succ_self _, h⟩

/-- The loop ends within as many turns as the pattern has characters. -/
theorem scanLoop_checked {s : Scan} (hfuel : p.length ≤ s.i + fuel) :
    ∃ visited, checkedScanLoop p (fuel + 1) s = some (visited, scanLoop p fuel s) ∧
      visited.Pairwise (· < ·) ∧ ∀ i ∈ visited, s.i ≤ i := by
  induction fuel generalizing s with
  | zero =>
    have hend : ¬ s.i < p.length := Nat.not_lt.2 hfuel
    apply Exists.intro []
    rw [checkedScanLoop, if_neg hend]
    exact ⟨rfl, .nil, nofun⟩
  | succ fuel ih =>
    rw [checkedScanLoop, scanLoop]
    split
    · rename_i hlt
      obtain ⟨hstep, hmove, hle⟩ := scanStep_checked hlt
      obtain ⟨visited, hrun, hsorted, hlower⟩ := ih (s := scanStep p s) (by omega)
      apply Exists.intro (s.i :: visited)
      rw [hstep, Option.bind_some, hrun]
      refine ⟨rfl, List.pairwise_cons.2 ⟨?_, hsorted⟩, ?_⟩
      · intro i hi
        exact Nat.lt_of_lt_of_le hmove (hlower i hi)
      · intro i hi
        rcases List.mem_cons.1 hi with rfl | hi
        · exact Nat.le_refl _
        · exact Nat.le_trans (Nat.le_of_lt hmove) (hlower i hi)
    · exact ⟨[], rfl, .nil, nofun⟩

/-- For every pattern the scan of `Init` ends without an index out of range and without a difference
that wraps around, and the index grows from one turn to the next. -/
theorem scan_checked (pattern : String) :
    ∃ visited, checkedScanLoop pattern.toList (pattern.toList.length + 1) ⟨0, "", [], false⟩ =
        some (visited, scanLoop pattern.toList pattern.toList.length ⟨0, "", [], false⟩) ∧
      visited.Pairwise (· < ·) := by
  obtain ⟨visited, hrun, hsorted, -⟩ := scanLoop_checked (p := pattern.toList)
    (s := ⟨0, "", [], false⟩) (Nat.le_add_left _ _)
  exact ⟨visited, hrun, hsorted⟩

end
end LogFormatter
end SvrFrame
