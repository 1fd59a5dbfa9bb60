import SvrFrame.Log.Pattern

namespace SvrFrame
namespace LogFormatter
set_option autoImplicit true

/-- What a pattern consists of, be it accepted or not: literal characters, directives of any name,
and percent signs before a brace that nothing closes. -/
inductive Element where
  | lit (c : Char)
  | directive (name : String) (arg : Option String)
  | unclosed
  deriving DecidableEq, Repr

/-- How `Init` reads a pattern. What follows the percent sign of a brace that nothing closes is read
anew. -/
inductive Reading : List Char → List Element → Prop where
  | nil : Reading [] []
  | lit : c ≠ '%' → Reading q es → Reading (c :: q) (.lit c :: es)
  | escape : Reading ('%' :: q) es → Reading ('%' :: '%' :: q) (.lit '%' :: es)
  | plain : (∀ x ∈ name, nameChar x) → (∀ c ∈ q.head?, nameChar c = false ∧ c ≠ '{') →
      (name ++ q).head? ≠ some '%' → Reading q es →
      Reading ('%' :: (name ++ q)) (.directive (String.ofList name) none :: es)
  | arg : (∀ x ∈ name, nameChar x) → '}' ∉ a → Reading q es →
      Reading ('%' :: (name ++ '{' :: (a ++ '}' :: q)))
        (.directive (String.ofList name) (some (String.ofList a)) :: es)
  | unclosed : (∀ x ∈ name, nameChar x) → '}' ∉ a → Reading (name ++ '{' :: a) es →
      Reading ('%' :: (name ++ '{' :: a)) (.unclosed :: es)

/-- Every pattern can be read. -/
theorem reading_total (q : List Char) : ∃ es, Reading q es := by
  induction hn : q.length using Nat.strong_induction_on generalizing q with
  | _ n ih =>
    have hrest (q' : List Char) (hlen : q'.length < q.length) : ∃ es, Reading q' es :=
      ih q'.length (hn ▸ hlen) q' rfl
    cases q with
    | nil => exact ⟨[], .nil⟩
    | cons c r =>
      by_cases hc : c = '%'
      · subst hc
        by_cases hesc : r.head? = some '%'
        · cases r with
          | nil => cases hesc
          | cons d r =>
            cases hesc
            obtain ⟨es, hes⟩ := hrest ('%' :: r) (Nat.lt_succ_self _)
            exact ⟨_, .escape hes⟩
        · obtain ⟨name, q, rfl, hname, hq | ⟨a, q, rfl, ha⟩ | ⟨a, rfl, ha⟩⟩ := behind_cases r
          · have hlen : q.length < ('%' :: (name ++ q)).length := by
              rw [List.length_cons, List.length_append]
              omega
            obtain ⟨es, hes⟩ := hrest q hlen
            exact ⟨_, .plain hname hq hesc hes⟩
          · have hlen : q.length < ('%' :: (name ++ '{' :: (a ++ '}' :: q))).length := by
              simp only [List.length_cons, List.length_append]
              omega
            obtain ⟨es, hes⟩ := hrest q hlen
            exact ⟨_, .arg hname ha hes⟩
          · obtain ⟨es, hes⟩ := hrest (name ++ '{' :: a) (Nat.lt_succ_self _)
            exact ⟨_, .unclosed hname ha hes⟩
      · obtain ⟨es, hes⟩ := hrest r (Nat.lt_succ_self _)
        exact ⟨_, .lit hc hes⟩

/-! ### One turn of the outer loop -/

/-- The ways through the body of the outer loop. -/
inductive Branch where
  | literal
  | complete
  | error
  deriving DecidableEq, Repr

def branchAt (p : List Char) (i : Nat) : Branch :=
  if p.getD i '\x00' ≠ '%' then .literal
  else if i + 1 < p.length ∧ p.getD (i + 1) '\x00' = '%' then .literal
  else if (directiveAt p i).fmtStatus = 0 then .complete
  else .error

def Element.branch : Element → Branch
  | .lit _ => .literal
  | .directive _ _ => .complete
  | .unclosed => .error

/-- What the turn for an element makes of `nstr` and `vec`. -/
def Element.add (a : String × List Piece) : Element → String × List Piece
  | .lit c => (a.1.push c, a.2)
  | .directive name arg => ("", flush a.2 a.1 ++ [⟨name, arg.getD "", 1⟩])
  | .unclosed => (a.1, a.2 ++ [⟨"<<pattern_error>>", "", 0⟩])

section
variable {p : List Char} {s : Scan}

theorem branchAt_lit (h : p.drop i = c :: q) (hc : c ≠ '%') : branchAt p i = .literal := by
  obtain ⟨hget, -, -⟩ := getD_of_drop h
  rw [branchAt, hget, if_pos hc]

theorem branchAt_escape (h : p.drop i = '%' :: '%' :: q) : branchAt p i = .literal := by
  obtain ⟨hget, -, hdrop⟩ := getD_of_drop h
  obtain ⟨hget', hlt', -⟩ := getD_of_drop hdrop
  rw [branchAt, hget, if_neg (not_not_intro rfl), if_pos ⟨hlt', hget'⟩]

theorem branchAt_directive (h : p.drop i = '%' :: r) (hr : r.head? ≠ some '%') :
    branchAt p i = if (directiveAt p i).fmtStatus = 0 then .complete else .error := by
  obtain ⟨hget, -, hdrop⟩ := getD_of_drop h
  have hnot : ¬ (i + 1 < p.length ∧ p.getD (i + 1) '\x00' = '%') := by
    rintro ⟨hlt, hget'⟩
    cases r with
    | nil => exact absurd hlt (Nat.not_lt.2 (List.drop_eq_nil_iff.1 hdrop))
    | cons c r =>
      obtain ⟨hc, -, -⟩ := getD_of_drop hdrop
      exact hr (congrArg some (hc.symm.trans hget'))
  rw [branchAt, hget, if_neg (not_not_intro rfl), if_neg hnot]

theorem head_name (hname : ∀ x ∈ name, nameChar x) (q : List Char) :
    (name ++ '{' :: q).head? ≠ some '%' := by
  cases name with
  | nil =>
    rw [List.nil_append, List.head?_cons]
    decide
  | cons x name =>
    intro h
    cases h
    exact absurd (hname '%' List.mem_cons_self) (by decide)

/-- The loop reads one element in each turn. -/
theorem Reading.turn (h : Reading q es) (hq : p.drop s.i = q) (hlt : s.i < p.length) :
    ∃ u es', es = u :: es' ∧ branchAt p s.i = u.branch ∧
      Reading (p.drop (scanStep p s).i) es' ∧ s.i < (scanStep p s).i ∧
      (scanStep p s).i ≤ p.length ∧
      ((scanStep p s).nstr, (scanStep p s).vec) = u.add (s.nstr, s.vec) := by
  cases h with
  | nil => exact absurd hlt (Nat.not_lt.2 (List.drop_eq_nil_iff.1 hq))
  | lit hc h =>
    obtain ⟨-, -, hdrop⟩ := getD_of_drop hq
    rw [scanStep_lit hq hc]
    exact ⟨_, _, rfl, branchAt_lit hq hc, hdrop ▸ h, Nat.lt_succ_self _, hlt, rfl⟩
  | escape h =>
    obtain ⟨-, -, hdrop⟩ := getD_of_drop hq
    rw [scanStep_escape hq]
    exact ⟨_, _, rfl, branchAt_escape hq, hdrop ▸ h, Nat.lt_succ_self _, hlt, rfl⟩
  | @plain name q _ hname hends hhead h =>
    obtain ⟨-, -, hdrop⟩ := getD_of_drop hq
    have hat := directiveAt_plain hdrop hlt hname hends
    have hpos : s.i + 1 + name.length - 1 + 1 = s.i + 1 + name.length := by omega
    have hlen := length_of_drop hdrop hlt
    rw [List.length_append] at hlen
    have hrest : p.drop (s.i + 1 + name.length) = q := by
      rw [← List.drop_drop, hdrop, List.drop_left]
    rw [branchAt_directive hq hhead, scanStep_directive hq fun c hc he => hhead (he ▸ hc)]
    simp only [hat, if_true, hpos, hrest]
    exact ⟨_, _, rfl, rfl, h, by omega, by omega, rfl⟩
  | @arg name a q _ hname ha h =>
    obtain ⟨-, -, hdrop⟩ := getD_of_drop hq
    have hat := directiveAt_arg hdrop hlt hname ha
    have hpos : s.i + 1 + name.length + 1 + a.length + 1 - 1 + 1 =
        s.i + 1 + (name.length + (a.length + 2)) := by omega
    have hlen := length_of_drop hdrop hlt
    simp only [List.length_append, List.length_cons] at hlen
    have hrest : p.drop (s.i + 1 + (name.length + (a.length + 2))) = q := by
      rw [← List.drop_drop, hdrop, ← List.drop_drop, List.drop_left]
      simp [List.drop_append]
    have hhead := head_name hname (a ++ '}' :: q)
    rw [branchAt_directive hq hhead, scanStep_directive hq fun c hc he => hhead (he ▸ hc)]
    simp only [hat, if_true, hpos, hrest]
    exact ⟨_, _, rfl, rfl, h, by omega, by omega, rfl⟩
  | @unclosed name a _ hname ha h =>
    obtain ⟨-, -, hdrop⟩ := getD_of_drop hq
    obtain ⟨hstatus, hfmt⟩ := directiveAt_open hdrop hlt hname ha
    have hopen : ¬ (directiveAt p s.i).fmtStatus = 0 := by
      rw [hstatus]
      exact Nat.one_ne_zero
    have hhead := head_name hname a
    rw [branchAt_directive hq hhead, scanStep_directive hq fun c hc he => hhead (he ▸ hc),
      if_neg hopen, if_neg hopen, hfmt]
    exact ⟨_, _, rfl, rfl, hdrop ▸ h, Nat.lt_succ_self _, hlt, rfl⟩

end

/-! ### The items of a reading -/

/-- The elements of `vec` for what has been read, the text after the last of them included. -/
def pieces (es : List Element) : List Piece :=
  let a := es.foldl Element.add ("", [])
  flush a.2 a.1

theorem flush_append (vec vec' : List Piece) (nstr : String) :
    flush (vec ++ vec') nstr = vec ++ flush vec' nstr := by
  rw [flush, flush]
  split
  · rfl
  · exact List.append_assoc ..

theorem add_append (vec : List Piece) (a : String × List Piece) (u : Element) :
    Element.add (a.1, vec ++ a.2) u = ((Element.add a u).1, vec ++ (Element.add a u).2) := by
  cases u with
  | lit c => rfl
  | directive name arg =>
    rw [Element.add, Element.add, flush_append, List.append_assoc]
  | unclosed => rw [Element.add, Element.add, List.append_assoc]

theorem foldl_add_append (vec : List Piece) (a : String × List Piece) (es : List Element) :
    es.foldl Element.add (a.1, vec ++ a.2) =
      ((es.foldl Element.add a).1, vec ++ (es.foldl Element.add a).2) := by
  induction es generalizing a with
  | nil => rfl
  | cons u es ih =>
    rw [List.foldl_cons, add_append, List.foldl_cons]
    exact ih _

/-- A directive divides the elements of `vec` into those from before it and those from behind. -/
theorem pieces_directive (es es' : List Element) :
    pieces (es ++ .directive name arg :: es') =
      pieces es ++ ⟨name, arg.getD "", 1⟩ :: pieces es' := by
  have hpast := foldl_add_append (pieces es ++ [⟨name, arg.getD "", 1⟩]) ("", []) es'
  rw [List.append_nil] at hpast
  have hall : (es ++ .directive name arg :: es').foldl Element.add ("", []) =
      es'.foldl Element.add ("", pieces es ++ [⟨name, arg.getD "", 1⟩]) := by
    rw [List.foldl_append, List.foldl_cons]
    rfl
  rw [pieces, hall, hpast, flush_append, List.append_assoc]
  rfl

/-- The loop puts together what the elements give, whatever the pattern. -/
theorem scanLoop_reading (h : Reading q es) {s : Scan} (hq : p.drop s.i = q)
    (hfuel : q.length ≤ fuel) :
    ((scanLoop p fuel s).nstr, (scanLoop p fuel s).vec) = es.foldl Element.add (s.nstr, s.vec) := by
  induction fuel generalizing s q es with
  | zero =>
    rw [List.length_eq_zero_iff.1 (Nat.le_zero.1 hfuel)] at h
    cases h
    rfl
  | succ fuel ih =>
    rw [scanLoop]
    split
    · rename_i hlt
      obtain ⟨u, es', rfl, -, hrest, hmove, hle, hadd⟩ := h.turn hq hlt
      rw [List.foldl_cons, ← hadd]
      apply ih hrest rfl
      rw [List.length_drop]
      have hlen := length_of_drop hq hlt.le
      omega
    · rename_i hlt
      rw [← hq, List.drop_eq_nil_of_le (Nat.not_lt.1 hlt)] at h
      cases h
      rfl

def elementItems (es : List Element) : List FormatItem := (pieces es).map fun x => (makeItem x).1

theorem elementItems_directive (es es' : List Element) :
    elementItems (es ++ .directive name arg :: es') =
      elementItems es ++ (makeItem ⟨name, arg.getD "", 1⟩).1 :: elementItems es' := by
  rw [elementItems, pieces_directive, List.map_append, List.map_cons]
  rfl

/-- `Init` builds the items of the elements. -/
theorem new_reading (h : Reading pattern.toList es) :
    (new pattern).mItems = elementItems es := by
  have hscan := scanLoop_reading h (s := ⟨0, "", [], false⟩) rfl (Nat.le_refl _)
  simp only [Prod.ext_iff] at hscan
  rw [new, elementItems, pieces, ← hscan.1, ← hscan.2, List.map_map]
  rfl

end LogFormatter
end SvrFrame
