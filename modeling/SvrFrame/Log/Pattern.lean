import SvrFrame.Log.Formatter
import Mathlib.Data.List.Infix
import Mathlib.Data.List.TakeWhile

namespace SvrFrame
namespace LogFormatter
set_option autoImplicit true

/-- A literal character, or a directive with the text between its braces. -/
inductive Token where
  | lit (c : Char)
  | directive (x : Char) (arg : Option String)
  deriving DecidableEq, Repr

def directives : List Char := ['m', 'p', 'r', 'c', 't', 'n', 'd', 'f', 'l', 'T', 'F', 'N']

/-- A directive without an argument ends here. -/
def ends (p : List Char) : Prop := ∀ c ∈ p.head?, c.isAlpha = false ∧ c ≠ '{' ∧ c ≠ '}'

instance (p : List Char) : Decidable (ends p) := Option.decidableForallMem p.head?

/-- The grammar of patterns. -/
inductive Grammar : List Char → List Token → Prop where
  | nil : Grammar [] []
  | lit : c ≠ '%' → Grammar p ts → Grammar (c :: p) (.lit c :: ts)
  | plain : x ∈ directives → ends p → Grammar p ts →
      Grammar ('%' :: x :: p) (.directive x none :: ts)
  | arg : x ∈ directives → '}' ∉ a → Grammar p ts →
      Grammar ('%' :: x :: '{' :: (a ++ '}' :: p)) (.directive x (some (String.ofList a)) :: ts)

/-- What `Init` accepts: a `%` before another one is a literal, and the other one is read anew. -/
inductive Tokens : List Char → List Token → Prop where
  | nil : Tokens [] []
  | lit : c ≠ '%' → Tokens p ts → Tokens (c :: p) (.lit c :: ts)
  | escape : Tokens ('%' :: p) ts → Tokens ('%' :: '%' :: p) (.lit '%' :: ts)
  | plain : x ∈ directives → ends p → Tokens p ts →
      Tokens ('%' :: x :: p) (.directive x none :: ts)
  | arg : x ∈ directives → '}' ∉ a → Tokens p ts →
      Tokens ('%' :: x :: '{' :: (a ++ '}' :: p)) (.directive x (some (String.ofList a)) :: ts)

/-- The class of each directive. -/
def itemOf (x : Char) (arg : String) : FormatItem :=
  match x with
  | 'm' => .message
  | 'p' => .level
  | 'r' => .elapse
  | 'c' => .name
  | 't' => .threadId
  | 'n' => .newLine
  | 'd' => .newDateTime arg
  | 'f' => .filename
  | 'l' => .line
  | 'T' => .tab
  | 'F' => .fiberId
  | _ => .threadName

def literal (nstr : String) : List FormatItem := if nstr = "" then [] else [.string nstr]

/-- One item for each directive and for each maximal run of literal characters, of which `nstr` is
the part that has been read. -/
def tokenItems : String → List Token → List FormatItem
  | nstr, [] => literal nstr
  | nstr, .lit c :: ts => tokenItems (nstr.push c) ts
  | nstr, .directive x arg :: ts =>
    literal nstr ++ itemOf x (arg.getD "") :: tokenItems "" ts

theorem find_directive (h : x ∈ directives) (arg : String) :
    FormatItem.find (String.ofList [x]) arg = some (itemOf x arg) := by
  simp only [directives, List.mem_cons, List.not_mem_nil, or_false] at h
  rcases h with rfl | rfl | rfl | rfl | rfl | rfl | rfl | rfl | rfl | rfl | rfl | rfl <;> rfl

theorem directive_of_find (h : FormatItem.find str arg = some item) :
    ∃ x ∈ directives, str = String.ofList [x] := by
  have hname : ∀ name ∈ ["m", "p", "r", "c", "t", "n", "d", "f", "l", "T", "F", "N"],
      name ∈ directives.map fun x => String.ofList [x] := by decide
  by_contra hnot
  have hne : str ∉ ["m", "p", "r", "c", "t", "n", "d", "f", "l", "T", "F", "N"] :=
    fun hmem => hnot <| by
      obtain ⟨x, hx, hstr⟩ := List.mem_map.1 (hname str hmem)
      exact ⟨x, hx, hstr.symm⟩
  simp only [List.mem_cons, List.not_mem_nil, or_false, not_or] at hne
  simp only [FormatItem.find, hne, if_false, reduceCtorEq] at h

/-! ### The inner loop -/

/-- The characters the inner loop takes for the name of a directive. -/
def nameChar (c : Char) : Bool := c.isAlpha || c = '}'

theorem getD_of_drop {p : List Char} (h : p.drop n = c :: l) :
    p.getD n '\x00' = c ∧ n < p.length ∧ p.drop (n + 1) = l := by
  have hlt : n < p.length := by
    by_contra hge
    rw [List.drop_eq_nil_of_le (Nat.le_of_not_lt hge)] at h
    cases h
  rw [List.drop_eq_getElem_cons hlt] at h
  injection h with hc hl
  exact ⟨by rw [List.getD_eq_getElem?_getD, List.getElem?_eq_getElem hlt, hc]; rfl, hlt, hl⟩

theorem length_of_drop {p : List Char} (h : p.drop n = l) (hn : n ≤ p.length) :
    p.length = n + l.length := by
  rw [← h, List.length_drop]
  omega

theorem substr_of_drop {p : List Char} (h : p.drop n = l ++ q) :
    substr p n l.length = String.ofList l := by
  rw [substr, h, List.take_left]

variable {p : List Char}

theorem directiveStep_name (h : p.drop n = x :: l) (hx : nameChar x) :
    directiveStep p i ⟨n, 0, 0, "", ""⟩ =
      (⟨n + 1, 0, 0, if l = [] then String.ofList (p.drop (i + 1)) else "", ""⟩, true) := by
  obtain ⟨hget, hlt, hdrop⟩ := getD_of_drop h
  have hlen := length_of_drop h hlt.le
  have hopen : x ≠ '{' := by rintro rfl; cases hx
  have hstop : ¬ ((!x.isAlpha) = true ∧ x ≠ '{' ∧ x ≠ '}') := by
    rintro ⟨halpha, -, hclose⟩
    simp only [nameChar, Bool.or_eq_true, decide_eq_true_eq] at hx
    rcases hx with hx | hx
    · rw [hx] at halpha; cases halpha
    · exact hclose hx
  have hlast : n + 1 = p.length ↔ l = [] := by
    rw [hlen, List.length_cons, ← List.length_eq_zero_iff]
    omega
  simp only [directiveStep, hget, true_and, hstop, hopen, if_false, Nat.zero_ne_one, false_and,
    hlast, and_true]
  split <;> rfl

theorem directiveStep_arg (hget : p.getD n '\x00' = x) (hx : x ≠ '}') :
    directiveStep p i ⟨n, 1, b, str, fmt⟩ = (⟨n + 1, 1, b,
      if n + 1 = p.length ∧ str = "" then String.ofList (p.drop (i + 1)) else str, fmt⟩, true) := by
  simp only [directiveStep, hget, hx, Nat.one_ne_zero, false_and, and_false, if_false]
  split <;> rfl

theorem directiveLoop_go (hlt : k.n < p.length) (h : directiveStep p i k = (k', true)) :
    directiveLoop p i (fuel + 1) k = directiveLoop p i fuel k' := by
  rw [directiveLoop, if_pos hlt, h]

theorem directiveLoop_break (hlt : k.n < p.length) (h : directiveStep p i k = (k', false)) :
    directiveLoop p i (fuel + 1) k = k' := by
  rw [directiveLoop, if_pos hlt, h]

theorem directiveLoop_done (hn : p.length ≤ k.n) : directiveLoop p i fuel k = k := by
  cases fuel with
  | zero => rfl
  | succ fuel => rw [directiveLoop, if_neg (Nat.not_lt.2 hn)]

/-- A name that some other character ends. -/
theorem directiveLoop_stop (h : p.drop n = name ++ c :: q) (hname : ∀ x ∈ name, nameChar x)
    (hc : nameChar c = false) (hopen : c ≠ '{') (hfuel : name.length < fuel) :
    directiveLoop p i fuel ⟨n, 0, 0, "", ""⟩ =
      ⟨n + name.length, 0, 0, substr p (i + 1) (n + name.length - i - 1), ""⟩ := by
  induction name generalizing n fuel with
  | nil =>
    obtain ⟨fuel, rfl⟩ := Nat.exists_eq_add_one_of_ne_zero (Nat.ne_zero_of_lt hfuel)
    obtain ⟨hget, hlt, -⟩ := getD_of_drop h
    simp only [nameChar, Bool.or_eq_false_iff, decide_eq_false_iff_not] at hc
    apply directiveLoop_break hlt
    simp only [directiveStep, hget, hc.1, hc.2, hopen, Bool.not_false, ne_eq, not_false_eq_true,
      and_self, if_true, List.length_nil, Nat.add_zero]
  | cons x name ih =>
    obtain ⟨fuel, rfl⟩ := Nat.exists_eq_add_one_of_ne_zero (Nat.ne_zero_of_lt hfuel)
    obtain ⟨-, hlt, hdrop⟩ := getD_of_drop h
    have hmore : name.append (c :: q) ≠ [] := by simp
    have hstep := directiveStep_name (i := i) h (hname x List.mem_cons_self)
    rw [if_neg hmore] at hstep
    rw [directiveLoop_go hlt hstep]
    simp only [List.length_cons, Nat.add_lt_add_iff_right] at hfuel ⊢
    rw [ih hdrop (fun y hy => hname y (List.mem_cons_of_mem x hy)) hfuel, Nat.add_assoc,
      Nat.add_comm 1]

/-- A name at the end of the pattern. -/
theorem directiveLoop_end (h : p.drop n = name) (hn : n ≤ p.length)
    (hname : ∀ x ∈ name, nameChar x) (hfuel : name.length ≤ fuel) (hnil : name = [] → n = i + 1) :
    directiveLoop p i fuel ⟨n, 0, 0, "", ""⟩ =
      ⟨p.length, 0, 0, String.ofList (p.drop (i + 1)), ""⟩ := by
  induction name generalizing n fuel with
  | nil =>
    have hlen := length_of_drop h hn
    rw [directiveLoop_done (Nat.le_of_eq hlen), ← hnil rfl, h, hlen]
    rfl
  | cons x name ih =>
    obtain ⟨fuel, rfl⟩ := Nat.exists_eq_add_one_of_ne_zero (Nat.ne_zero_of_lt hfuel)
    obtain ⟨-, hlt, hdrop⟩ := getD_of_drop h
    have hlen := length_of_drop h hn
    have hstep := directiveStep_name (i := i) h (hname x List.mem_cons_self)
    rw [directiveLoop_go hlt hstep]
    by_cases hlast : name = []
    · subst hlast
      rw [if_pos rfl, directiveLoop_done (Nat.le_of_eq hlen), hlen]
      rfl
    · rw [if_neg hlast]
      exact ih hdrop hlt (fun y hy => hname y (List.mem_cons_of_mem x hy))
        (Nat.le_of_succ_le_succ hfuel) fun hnil => absurd hnil hlast

/-- An argument up to its closing brace. -/
theorem directiveLoop_close (h : p.drop n = a ++ '}' :: q) (ha : '}' ∉ a)
    (hb : b < n) (hfuel : a.length < fuel) :
    directiveLoop p i fuel ⟨n, 1, b, str, fmt⟩ =
      ⟨n + a.length + 1, 0, b, str, substr p (b + 1) (n + a.length - b - 1)⟩ := by
  induction a generalizing n fuel with
  | nil =>
    obtain ⟨fuel, rfl⟩ := Nat.exists_eq_add_one_of_ne_zero (Nat.ne_zero_of_lt hfuel)
    obtain ⟨hget, hlt, -⟩ := getD_of_drop h
    apply directiveLoop_break hlt
    simp only [directiveStep, hget, Nat.one_ne_zero, false_and, if_false, and_self, if_true,
      List.length_nil, Nat.add_zero]
  | cons x a ih =>
    obtain ⟨fuel, rfl⟩ := Nat.exists_eq_add_one_of_ne_zero (Nat.ne_zero_of_lt hfuel)
    obtain ⟨hget, hlt, hdrop⟩ := getD_of_drop h
    rw [List.mem_cons, not_or] at ha
    have hlen := length_of_drop h hlt.le
    have hlast : ¬ n + 1 = p.length := by
      simp only [List.cons_append, List.length_cons, List.length_append] at hlen
      omega
    rw [directiveLoop_go hlt (directiveStep_arg hget (Ne.symm ha.1)), if_neg fun h => hlast h.1]
    simp only [List.length_cons, Nat.add_lt_add_iff_right] at hfuel ⊢
    rw [ih hdrop ha.2 (Nat.lt_succ_of_lt hb) hfuel, Nat.add_assoc n, Nat.add_comm 1]

/-- An argument that nothing closes. -/
theorem directiveLoop_open (h : p.drop n = a) (ha : '}' ∉ a) :
    (directiveLoop p i fuel ⟨n, 1, b, str, fmt⟩).fmtStatus = 1 ∧
      (directiveLoop p i fuel ⟨n, 1, b, str, fmt⟩).fmt = fmt := by
  induction fuel generalizing n a str with
  | zero => exact ⟨rfl, rfl⟩
  | succ fuel ih =>
    cases a with
    | nil =>
      have hn : p.length ≤ n := List.drop_eq_nil_iff.1 h
      rw [directiveLoop_done hn]
      exact ⟨rfl, rfl⟩
    | cons x a =>
      obtain ⟨hget, hlt, hdrop⟩ := getD_of_drop h
      rw [List.mem_cons, not_or] at ha
      rw [directiveLoop_go hlt (directiveStep_arg hget (Ne.symm ha.1))]
      exact ih hdrop ha.2

/-- A name that an argument follows. -/
theorem directiveLoop_brace (h : p.drop n = name ++ '{' :: q) (hname : ∀ x ∈ name, nameChar x) :
    directiveLoop p i (name.length + 1 + fuel) ⟨n, 0, 0, "", ""⟩ =
      directiveLoop p i fuel ⟨n + name.length + 1, 1, n + name.length,
        substr p (i + 1) (n + name.length - i - 1), ""⟩ := by
  induction name generalizing n with
  | nil =>
    obtain ⟨hget, hlt, -⟩ := getD_of_drop h
    have hstep : directiveStep p i ⟨n, 0, 0, "", ""⟩ =
        (⟨n + 1, 1, n, substr p (i + 1) (n - i - 1), ""⟩, true) := by
      simp only [directiveStep, hget, ne_eq, not_true_eq_false, false_and, and_false, if_false,
        and_self, if_true]
    rw [List.length_nil, Nat.zero_add, Nat.add_comm 1]
    exact directiveLoop_go hlt hstep
  | cons x name ih =>
    obtain ⟨-, hlt, hdrop⟩ := getD_of_drop h
    have hmore : name.append ('{' :: q) ≠ [] := by simp
    have hstep := directiveStep_name (i := i) h (hname x List.mem_cons_self)
    rw [if_neg hmore] at hstep
    have hlen : (x :: name).length + 1 + fuel = name.length + 1 + fuel + 1 := by
      rw [List.length_cons]; omega
    have hpos : n + (x :: name).length = n + 1 + name.length := by
      rw [List.length_cons]; omega
    rw [hlen, directiveLoop_go hlt hstep, hpos]
    exact ih hdrop fun y hy => hname y (List.mem_cons_of_mem x hy)

/-- What the inner loop starts with for the `%` at `i`. -/
def directiveAt (p : List Char) (i : Nat) : Directive :=
  directiveLoop p i p.length ⟨i + 1, 0, 0, "", ""⟩

theorem directiveAt_plain (h : p.drop (i + 1) = name ++ q) (hi : i < p.length)
    (hname : ∀ x ∈ name, nameChar x) (hq : ∀ c ∈ q.head?, nameChar c = false ∧ c ≠ '{') :
    directiveAt p i = ⟨i + 1 + name.length, 0, 0, String.ofList name, ""⟩ := by
  have hlen := length_of_drop h hi
  rw [List.length_append] at hlen
  cases q with
  | nil =>
    rw [List.append_nil] at h
    rw [directiveAt, directiveLoop_end h hi hname (by omega) fun _ => rfl, h, hlen]
    rfl
  | cons c q =>
    obtain ⟨hc, hopen⟩ := hq c rfl
    rw [List.length_cons] at hlen
    have hsub : i + 1 + name.length - i - 1 = name.length := by omega
    rw [directiveAt, directiveLoop_stop h hname hc hopen (by omega), hsub, substr_of_drop h]

theorem directiveAt_arg (h : p.drop (i + 1) = name ++ '{' :: (a ++ '}' :: q)) (hi : i < p.length)
    (hname : ∀ x ∈ name, nameChar x) (ha : '}' ∉ a) :
    directiveAt p i = ⟨i + 1 + name.length + 1 + a.length + 1, 0, i + 1 + name.length,
      String.ofList name, String.ofList a⟩ := by
  have hlen := length_of_drop h hi
  simp only [List.length_append, List.length_cons] at hlen
  obtain ⟨fuel, hfuel⟩ : ∃ fuel, p.length = name.length + 1 + fuel :=
    Nat.exists_eq_add_of_le (by omega)
  have hbrace : p.drop (i + 1 + name.length + 1) = a ++ '}' :: q := by
    rw [Nat.add_assoc (i + 1), ← List.drop_drop, h, ← List.drop_drop, List.drop_left]
    rfl
  have hsub : i + 1 + name.length - i - 1 = name.length := by omega
  have hsub' : i + 1 + name.length + 1 + a.length - (i + 1 + name.length) - 1 = a.length := by omega
  rw [directiveAt, hfuel, directiveLoop_brace h hname,
    directiveLoop_close hbrace ha (Nat.lt_succ_self _) (by omega), hsub, substr_of_drop h, hsub',
    substr_of_drop hbrace]

theorem directiveAt_open (h : p.drop (i + 1) = name ++ '{' :: a) (hi : i < p.length)
    (hname : ∀ x ∈ name, nameChar x) (ha : '}' ∉ a) :
    (directiveAt p i).fmtStatus = 1 ∧ (directiveAt p i).fmt = "" := by
  have hlen := length_of_drop h hi
  simp only [List.length_append, List.length_cons] at hlen
  obtain ⟨fuel, hfuel⟩ : ∃ fuel, p.length = name.length + 1 + fuel :=
    Nat.exists_eq_add_of_le (by omega)
  have hbrace : p.drop (i + 1 + name.length + 1) = a := by
    rw [Nat.add_assoc (i + 1), ← List.drop_drop, h, ← List.drop_drop, List.drop_left]
    rfl
  rw [directiveAt, hfuel, directiveLoop_brace h hname]
  exact directiveLoop_open hbrace ha

/-- What may stand behind a `%`: a name, which an argument follows, or a brace that nothing
closes, or neither. -/
theorem behind_cases (r : List Char) : ∃ name q, r = name ++ q ∧ (∀ x ∈ name, nameChar x) ∧
    ((∀ c ∈ q.head?, nameChar c = false ∧ c ≠ '{') ∨
      (∃ a q', q = '{' :: (a ++ '}' :: q') ∧ '}' ∉ a) ∨ ∃ a, q = '{' :: a ∧ '}' ∉ a) := by
  refine ⟨r.takeWhile nameChar, r.dropWhile nameChar, List.takeWhile_append_dropWhile.symm,
    fun x hx => List.mem_takeWhile_imp hx, ?_⟩
  have hhead (c : Char) (hc : c ∈ (r.dropWhile nameChar).head?) : nameChar c = false := by
    have := List.head?_dropWhile_not nameChar r
    rw [Option.mem_def.1 hc] at this
    simpa using this
  cases hq : r.dropWhile nameChar with
  | nil => exact .inl fun c hc => by cases hc
  | cons c q =>
    rw [hq] at hhead
    by_cases hc : c = '{'
    · subst hc
      by_cases hclose : '}' ∈ q
      · obtain ⟨a, q', rfl, ha⟩ := List.eq_append_cons_of_mem hclose
        exact .inr (.inl ⟨a, q', rfl, ha⟩)
      · exact .inr (.inr ⟨q, rfl, hclose⟩)
    · refine .inl fun d hd => ?_
      cases hd
      exact ⟨hhead c rfl, hc⟩

/-! ### The outer loop -/

theorem scanStep_lit {s : Scan} (h : p.drop s.i = c :: q) (hc : c ≠ '%') :
    scanStep p s = { s with i := s.i + 1, nstr := s.nstr.push c } := by
  obtain ⟨hget, -, -⟩ := getD_of_drop h
  simp only [scanStep, hget, ne_eq, hc, not_false_eq_true, if_true]

theorem scanStep_escape {s : Scan} (h : p.drop s.i = '%' :: '%' :: q) :
    scanStep p s = { s with i := s.i + 1, nstr := s.nstr.push '%' } := by
  obtain ⟨hget, -, hdrop⟩ := getD_of_drop h
  obtain ⟨hget', hlt', -⟩ := getD_of_drop hdrop
  simp only [scanStep, hget, hget', hlt', ne_eq, not_true_eq_false, if_false, and_self, if_true]

theorem scanStep_directive {s : Scan} (h : p.drop s.i = '%' :: r) (hr : ∀ c ∈ r.head?, c ≠ '%') :
    scanStep p s =
      if (directiveAt p s.i).fmtStatus = 0 then
        { s with
          i := (directiveAt p s.i).n - 1 + 1
          nstr := ""
          vec := flush s.vec s.nstr ++ [⟨(directiveAt p s.i).str, (directiveAt p s.i).fmt, 1⟩] }
      else { s with
        i := s.i + 1
        bError := true
        vec := s.vec ++ [⟨"<<pattern_error>>", (directiveAt p s.i).fmt, 0⟩] } := by
  obtain ⟨hget, -, hdrop⟩ := getD_of_drop h
  have hnot : ¬ (s.i + 1 < p.length ∧ p.getD (s.i + 1) '\x00' = '%') := by
    rintro ⟨hlt, hget'⟩
    cases r with
    | nil => exact absurd hlt (Nat.not_lt.2 (List.drop_eq_nil_iff.1 hdrop))
    | cons c r =>
      obtain ⟨hc, -, -⟩ := getD_of_drop hdrop
      exact hr c rfl (hc.symm.trans hget')
  simp only [scanStep, hget, hnot, ne_eq, not_true_eq_false, if_false, directiveAt]
  rfl

/-- The elements of `vec`, and the text after the last of them, once some tokens have been read. -/
def gather : List Piece × String → List Token → List Piece × String
  | a, [] => a
  | (vec, nstr), .lit c :: ts => gather (vec, nstr.push c) ts
  | (vec, nstr), .directive x arg :: ts =>
    gather (flush vec nstr ++ [⟨String.ofList [x], arg.getD "", 1⟩], "") ts

theorem alpha_of_directive (h : x ∈ directives) : x.isAlpha ∧ x ≠ '%' := by
  have hall : directives.all (fun x => x.isAlpha ∧ x ≠ '%') = true := by decide
  exact of_decide_eq_true (List.all_eq_true.1 hall x h)

theorem nameChar_of_directive (h : x ∈ directives) : ∀ y ∈ [x], nameChar y := by
  intro y hy
  rw [List.mem_singleton.1 hy, nameChar, (alpha_of_directive h).1]
  rfl

theorem ends_iff : ends q ↔ ∀ c ∈ q.head?, nameChar c = false ∧ c ≠ '{' := by
  simp only [ends, nameChar, Bool.or_eq_false_iff, decide_eq_false_iff_not]
  exact forall₂_congr fun c _ => by tauto

theorem drop_arg (h : p.drop (i + 1) = x :: '{' :: (a ++ '}' :: q)) (hi : i < p.length) :
    i + 1 + 1 + 1 + a.length + 1 ≤ p.length ∧ p.drop (i + 1 + 1 + 1 + a.length + 1) = q := by
  have hlen := length_of_drop h hi
  simp only [List.length_cons, List.length_append] at hlen
  refine ⟨by omega, ?_⟩
  have hpos : i + 1 + 1 + 1 + a.length + 1 = i + 1 + (a.length + 3) := by omega
  rw [hpos, ← List.drop_drop, h]
  simp [List.drop_append]

/-- The loop reads the tokens of an accepted pattern. -/
theorem scanLoop_tokens (h : Tokens q ts) {s : Scan} (hi : s.i ≤ p.length) (hq : p.drop s.i = q)
    (hfuel : q.length ≤ fuel) : ∃ j, scanLoop p fuel s =
      ⟨j, (gather (s.vec, s.nstr) ts).2, (gather (s.vec, s.nstr) ts).1, s.bError⟩ := by
  induction h generalizing s fuel with
  | nil =>
    refine ⟨s.i, ?_⟩
    have hn : ¬ s.i < p.length := Nat.not_lt.2 (List.drop_eq_nil_iff.1 hq)
    cases fuel with
    | zero => rfl
    | succ fuel => rw [scanLoop, if_neg hn]; rfl
  | @lit c q ts hc _ ih =>
    obtain ⟨fuel, rfl⟩ := Nat.exists_eq_add_one_of_ne_zero (Nat.ne_zero_of_lt hfuel)
    obtain ⟨-, hlt, hdrop⟩ := getD_of_drop hq
    rw [scanLoop, if_pos hlt, scanStep_lit hq hc]
    exact ih hlt hdrop (Nat.le_of_succ_le_succ hfuel)
  | @escape q ts _ ih =>
    obtain ⟨fuel, rfl⟩ := Nat.exists_eq_add_one_of_ne_zero (Nat.ne_zero_of_lt hfuel)
    obtain ⟨-, hlt, hdrop⟩ := getD_of_drop hq
    rw [scanLoop, if_pos hlt, scanStep_escape hq]
    exact ih hlt hdrop (Nat.le_of_succ_le_succ hfuel)
  | @plain x q ts hx hq' _ ih =>
    obtain ⟨fuel, rfl⟩ := Nat.exists_eq_add_one_of_ne_zero (Nat.ne_zero_of_lt hfuel)
    obtain ⟨-, hlt, hdrop⟩ := getD_of_drop hq
    obtain ⟨-, hlt', hrest⟩ := getD_of_drop hdrop
    have hname : p.drop (s.i + 1) = [x] ++ q := hdrop
    have hat := directiveAt_plain hname hlt (nameChar_of_directive hx) (ends_iff.1 hq')
    rw [scanLoop, if_pos hlt, scanStep_directive hq fun c hc => by
      cases hc; exact (alpha_of_directive hx).2]
    simp only [hat, if_true, List.length_singleton, Nat.add_sub_cancel]
    refine ih hlt' hrest ?_
    simp only [List.length_cons, Nat.add_le_add_iff_right] at hfuel
    exact Nat.le_of_succ_le hfuel
  | @arg x a q ts hx ha _ ih =>
    obtain ⟨fuel, rfl⟩ := Nat.exists_eq_add_one_of_ne_zero (Nat.ne_zero_of_lt hfuel)
    obtain ⟨-, hlt, hdrop⟩ := getD_of_drop hq
    have hname : p.drop (s.i + 1) = [x] ++ '{' :: (a ++ '}' :: q) := hdrop
    have hat := directiveAt_arg hname hlt (nameChar_of_directive hx) ha
    obtain ⟨hle, hrest⟩ := drop_arg hdrop hlt
    simp only [List.length_cons, List.length_append] at hfuel
    rw [scanLoop, if_pos hlt, scanStep_directive hq fun c hc => by
      cases hc; exact (alpha_of_directive hx).2]
    simp only [hat, if_true, List.length_singleton, Nat.add_sub_cancel]
    exact ih hle hrest (by omega)

/-- What the loop has put into `vec` stays there, and an error is not taken back. -/
theorem scanLoop_keeps (p : List Char) (fuel : Nat) (s : Scan) :
    s.vec ⊆ (scanLoop p fuel s).vec ∧ (s.bError → (scanLoop p fuel s).bError) := by
  induction fuel generalizing s with
  | zero => exact ⟨List.Subset.refl _, id⟩
  | succ fuel ih =>
    rw [scanLoop]
    split
    · have hstep : s.vec ⊆ (scanStep p s).vec ∧ (s.bError → (scanStep p s).bError) := by
        simp only [scanStep]
        split
        · exact ⟨List.Subset.refl _, id⟩
        · split
          · exact ⟨List.Subset.refl _, id⟩
          · split
            · refine ⟨fun x hx => List.mem_append_left _ ?_, id⟩
              rw [flush]
              split
              · exact hx
              · exact List.mem_append_left _ hx
            · exact ⟨fun x hx => List.mem_append_left _ hx, fun _ => rfl⟩
      obtain ⟨hvec, herr⟩ := ih (scanStep p s)
      exact ⟨List.Subset.trans hstep.1 hvec, fun h => herr (hstep.2 h)⟩
    · exact ⟨List.Subset.refl _, id⟩

/-- No error has been found: `bError` is not set, and every directive has a class. -/
def Clean (s : Scan) : Prop := s.bError = false ∧ ∀ x ∈ s.vec, (makeItem x).2 = false

theorem makeItem_directive (h : (makeItem ⟨str, fmt, 1⟩).2 = false) :
    ∃ x ∈ directives, str = String.ofList [x] := by
  simp only [makeItem, Nat.one_ne_zero, if_false] at h
  split at h
  · cases h
  · rename_i hfind
    exact directive_of_find hfind

/-- A directive that has been pushed has a name of its own. -/
theorem Clean.directive {fuel : Nat} {s : Scan} (h : Clean (scanLoop p fuel s))
    (hx : ⟨String.ofList name, fmt, 1⟩ ∈ s.vec) : ∃ x ∈ directives, name = [x] := by
  obtain ⟨x, hx, heq⟩ := makeItem_directive (h.2 _ ((scanLoop_keeps p fuel s).1 hx))
  exact ⟨x, hx, String.ofList_injective heq⟩

/-- A pattern in which the loop finds no error consists of tokens. -/
theorem tokens_of_scanLoop {s : Scan} (hi : s.i ≤ p.length) (hq : p.drop s.i = q)
    (hfuel : q.length ≤ fuel) (h : Clean (scanLoop p fuel s)) : ∃ ts, Tokens q ts := by
  induction fuel generalizing s q with
  | zero =>
    rw [List.length_eq_zero_iff.1 (Nat.le_zero.1 hfuel)]
    exact ⟨[], .nil⟩
  | succ fuel ih =>
    cases q with
    | nil => exact ⟨[], .nil⟩
    | cons c r =>
      obtain ⟨-, hlt, hdrop⟩ := getD_of_drop hq
      rw [List.length_cons] at hfuel
      rw [scanLoop, if_pos hlt] at h
      by_cases hc : c = '%'
      · subst hc
        by_cases hesc : r.head? = some '%'
        · cases r with
          | nil => cases hesc
          | cons d r =>
            cases hesc
            rw [scanStep_escape hq] at h
            obtain ⟨ts, hts⟩ := ih (by exact hlt) hdrop (by omega) h
            exact ⟨_, .escape hts⟩
        · have hr : ∀ c ∈ r.head?, c ≠ '%' := fun c hc he => hesc (he ▸ hc)
          rw [scanStep_directive hq hr] at h
          obtain ⟨name, q, rfl, hname, hq' | ⟨a, q', rfl, ha⟩ | ⟨a, rfl, ha⟩⟩ := behind_cases r
          · rw [directiveAt_plain hdrop hlt hname hq'] at h
            simp only [if_true] at h
            obtain ⟨x, hx, rfl⟩ := h.directive (List.mem_append_right _ List.mem_cons_self)
            obtain ⟨-, hlt', hrest⟩ := getD_of_drop hdrop
            rw [List.singleton_append, List.length_cons] at hfuel
            have hfuel' := Nat.le_of_succ_le (Nat.le_of_succ_le_succ hfuel)
            obtain ⟨ts, hts⟩ := ih (by exact hlt') hrest hfuel' h
            exact ⟨_, .plain hx (ends_iff.2 hq') hts⟩
          · rw [directiveAt_arg hdrop hlt hname ha] at h
            simp only [if_true] at h
            obtain ⟨x, hx, rfl⟩ := h.directive (List.mem_append_right _ List.mem_cons_self)
            obtain ⟨hle, hrest⟩ := drop_arg hdrop hlt
            simp only [List.singleton_append, List.length_cons, List.length_append] at hfuel
            obtain ⟨ts, hts⟩ := ih (by exact hle) hrest (by omega) h
            exact ⟨_, .arg hx ha hts⟩
          · rw [if_neg (by rw [(directiveAt_open hdrop hlt hname ha).1]; decide)] at h
            have herr := h.1
            rw [(scanLoop_keeps p fuel _).2 rfl] at herr
            cases herr
      · rw [scanStep_lit hq hc] at h
        obtain ⟨ts, hts⟩ := ih (by exact hlt) hdrop (by omega) h
        exact ⟨_, .lit hc hts⟩

theorem flush_makeItem (vec : List Piece) (nstr : String) :
    ((flush vec nstr).map makeItem).map Prod.fst =
        (vec.map makeItem).map Prod.fst ++ literal nstr ∧
      ((flush vec nstr).map makeItem).any Prod.snd = (vec.map makeItem).any Prod.snd := by
  simp only [flush, literal]
  split <;> simp [makeItem]

/-- The items of the elements that the tokens put into `vec`, none of which is an error. -/
theorem gather_items (h : Tokens q ts) (vec : List Piece) (nstr : String) :
    ((flush (gather (vec, nstr) ts).1 (gather (vec, nstr) ts).2).map makeItem).map Prod.fst =
        (vec.map makeItem).map Prod.fst ++ tokenItems nstr ts ∧
      ((flush (gather (vec, nstr) ts).1 (gather (vec, nstr) ts).2).map makeItem).any Prod.snd =
        (vec.map makeItem).any Prod.snd := by
  have hdirective {x : Char} (hx : x ∈ directives) (arg : String) :
      makeItem ⟨String.ofList [x], arg, 1⟩ = (itemOf x arg, false) := by
    simp only [makeItem, Nat.one_ne_zero, if_false, find_directive hx]
  induction h generalizing vec nstr with
  | nil => exact flush_makeItem vec nstr
  | lit _ _ ih | escape _ ih => exact ih vec (nstr.push _)
  | plain hx _ _ ih | arg hx _ _ ih =>
    obtain ⟨hitems, herr⟩ := ih (flush vec nstr ++ [⟨String.ofList [_], _, 1⟩]) ""
    obtain ⟨hflush, hflusherr⟩ := flush_makeItem vec nstr
    rw [gather, tokenItems, hitems, herr]
    simp only [List.map_append, List.any_append, hflush, hflusherr, List.map_cons, List.map_nil,
      hdirective hx, List.any_cons, List.any_nil, Bool.or_false, List.append_assoc,
      List.cons_append, List.nil_append, and_self]

/-- `Init` builds the items of the tokens. -/
theorem new_of_tokens (h : Tokens pattern.toList ts) :
    (new pattern).isError = false ∧ (new pattern).mItems = tokenItems "" ts := by
  obtain ⟨j, hscan⟩ : ∃ j, scanLoop pattern.toList pattern.toList.length ⟨0, "", [], false⟩ =
      ⟨j, (gather ([], "") ts).2, (gather ([], "") ts).1, false⟩ :=
    scanLoop_tokens h (Nat.zero_le _) rfl (Nat.le_refl _)
  obtain ⟨hitems, herr⟩ := gather_items h [] ""
  simp only [new, isError, hscan]
  exact ⟨herr, hitems⟩

theorem new_isError_iff (pattern : String) :
    (new pattern).isError = false ↔ ∃ ts, Tokens pattern.toList ts := by
  constructor
  · intro h
    simp only [new, isError, Bool.or_eq_false_iff, (flush_makeItem _ _).2, List.any_eq_false] at h
    refine tokens_of_scanLoop (Nat.zero_le _) rfl (Nat.le_refl _) ⟨h.1, fun x hx => ?_⟩
    simpa using h.2 _ (List.mem_map_of_mem hx)
  · rintro ⟨ts, h⟩
    exact (new_of_tokens h).1

/-! ### Patterns without escapes -/

theorem Grammar.tokens (h : Grammar q ts) : Tokens q ts := by
  induction h with
  | nil => exact .nil
  | lit hc _ ih => exact .lit hc ih
  | plain hx hq _ ih => exact .plain hx hq ih
  | arg hx ha _ ih => exact .arg hx ha ih

theorem Tokens.grammar (h : Tokens q ts) (hq : ¬ ['%', '%'] <:+: q) : Grammar q ts := by
  induction h with
  | nil => exact .nil
  | lit hc _ ih => exact .lit hc (ih fun h => hq (h.trans (List.suffix_cons _ _).isInfix))
  | escape => exact absurd ⟨[], _, rfl⟩ hq
  | plain hx hq' _ ih =>
    refine .plain hx hq' (ih fun h => hq (h.trans ?_))
    exact (List.suffix_append ['%', _] _).isInfix
  | @arg x a p ts hx ha _ ih =>
    refine .arg hx ha (ih fun h => hq (h.trans ?_))
    refine List.IsSuffix.isInfix ⟨'%' :: x :: '{' :: (a ++ ['}']), ?_⟩
    simp

/-- A pattern without two adjacent percent signs is accepted if and only if the grammar derives
it, and its items are those of its tokens. -/
theorem accepts_grammar (hpattern : ¬ ['%', '%'] <:+: pattern.toList) :
    ((new pattern).isError = false ↔ ∃ ts, Grammar pattern.toList ts) ∧
      ∀ ts, Grammar pattern.toList ts → (new pattern).mItems = tokenItems "" ts := by
  constructor
  · rw [new_isError_iff]
    exact exists_congr fun ts => ⟨fun h => h.grammar hpattern, Grammar.tokens⟩
  · intro ts h
    exact (new_of_tokens h.tokens).2

theorem accepts_grammar_date : (new "[%p] %d{%H}%n").isError = false ∧
    (new "[%p] %d{%H}%n").mItems =
      [.string "[", .level, .string "] ", .dateTime "%H", .newLine] := by
  have htext : "[%p] %d{%H}%n".toList =
      ['[', '%', 'p', ']', ' ', '%', 'd', '{', '%', 'H', '}', '%', 'n'] := by decide
  have h : Grammar "[%p] %d{%H}%n".toList
      [.lit '[', .directive 'p' none, .lit ']', .lit ' ', .directive 'd' (some "%H"),
        .directive 'n' none] := by
    rw [htext]
    refine .lit (by decide) (.plain (by decide) (by decide) ?_)
    refine .lit (by decide) (.lit (by decide) ?_)
    exact .arg (a := ['%', 'H']) (by decide) (by decide) (.plain (by decide) (by decide) .nil)
  have hapart : ¬ ['%', '%'] <:+: "[%p] %d{%H}%n".toList := by
    rw [htext]
    decide
  obtain ⟨hiff, hitems⟩ := accepts_grammar hapart
  exact ⟨hiff.2 ⟨_, h⟩, hitems _ h⟩

end LogFormatter
end SvrFrame
