import SvrFrame.Log.Reading
import Mathlib.Data.List.Forall2

namespace SvrFrame
namespace LogFormatter
set_option autoImplicit true

/-! ### Where the items stem from -/

/-- The scan, with the positions in the pattern that `nstr` and the elements of `vec` stem from. -/
structure Trace where
  scan : Scan
  nstrAt : List Nat
  vecAt : List (List Nat)

def flushAt (vecAt : List (List Nat)) (nstrAt : List Nat) : List (List Nat) :=
  if nstrAt = [] then vecAt else vecAt ++ [nstrAt]

def traceStep (p : List Char) (t : Trace) : Trace :=
  match branchAt p t.scan.i with
  | .literal => ⟨scanStep p t.scan, t.nstrAt ++ [t.scan.i], t.vecAt⟩
  | .complete => ⟨scanStep p t.scan, [], flushAt t.vecAt t.nstrAt ++ [[t.scan.i]]⟩
  | .error => ⟨scanStep p t.scan, t.nstrAt, t.vecAt ++ [[t.scan.i]]⟩

def traceLoop (p : List Char) : Nat → Trace → Trace
  | 0, t => t
  | fuel + 1, t => if t.scan.i < p.length then traceLoop p fuel (traceStep p t) else t

/-- The positions that the items stem from, item by item. -/
def origins (pattern : String) : List (List Nat) :=
  let p := pattern.toList
  let t := traceLoop p p.length ⟨⟨0, "", [], false⟩, [], []⟩
  flushAt t.vecAt t.nstrAt

/-- A text is made of the characters at its positions; a directive or an error marker stems from its
percent sign. -/
inductive Stems (p : List Char) : Piece → List Nat → Prop where
  | literal : ks ≠ [] → Stems p ⟨String.ofList (ks.map fun k => p.getD k '\x00'), "", 0⟩ ks
  | directive : branchAt p i = .complete →
      Stems p ⟨(directiveAt p i).str, (directiveAt p i).fmt, 1⟩ [i]
  | marker : branchAt p i = .error →
      Stems p ⟨"<<pattern_error>>", (directiveAt p i).fmt, 0⟩ [i]

section
variable {p : List Char} {t : Trace}

/-- The positions are in order. -/
def Trace.Ordered (t : Trace) : Prop := (t.vecAt.flatten ++ t.nstrAt).Pairwise (· < ·)

def Trace.Below (t : Trace) : Prop := ∀ k ∈ t.vecAt.flatten ++ t.nstrAt, k < t.scan.i

structure Trace.Stem (p : List Char) (t : Trace) : Prop where
  nstr : t.scan.nstr = String.ofList (t.nstrAt.map fun k => p.getD k '\x00')
  vec : List.Forall₂ (Stems p) t.scan.vec t.vecAt

@[simp] theorem traceStep_scan (p : List Char) (t : Trace) :
    (traceStep p t).scan = scanStep p t.scan := by
  rw [traceStep]
  split <;> rfl

theorem traceLoop_scan (p : List Char) (fuel : Nat) (t : Trace) :
    (traceLoop p fuel t).scan = scanLoop p fuel t.scan := by
  induction fuel generalizing t with
  | zero => rfl
  | succ fuel ih =>
    rw [traceLoop, scanLoop]
    split
    · rw [ih, traceStep_scan]
    · rfl

theorem flatten_flushAt (vecAt : List (List Nat)) (nstrAt : List Nat) :
    (flushAt vecAt nstrAt).flatten = vecAt.flatten ++ nstrAt := by
  rw [flushAt]
  split
  · rename_i h
    rw [h, List.append_nil]
  · rw [List.flatten_append, List.flatten_singleton]

theorem pairwise_concat {l : List Nat} (h : ∀ k ∈ l, k < i) :
    (l ++ [i]).Pairwise (· < ·) ↔ l.Pairwise (· < ·) := by
  rw [List.pairwise_append]
  constructor
  · intro hl
    exact hl.1
  · intro hl
    refine ⟨hl, List.pairwise_singleton _ _, ?_⟩
    intro k hk j hj
    rw [List.mem_singleton.1 hj]
    exact h k hk

theorem pairwise_insert {l r : List Nat} (hl : ∀ k ∈ l, k < i) (hr : ∀ k ∈ r, k < i) :
    (l ++ [i] ++ r).Pairwise (· < ·) ↔ (l ++ r).Pairwise (· < ·) ∧ r = [] := by
  cases r with
  | nil => simp [pairwise_concat hl]
  | cons k r =>
    have hk := hr k List.mem_cons_self
    constructor
    · intro h
      have hik : i < k := (List.pairwise_append.1 h).2.2 i (by simp) k List.mem_cons_self
      omega
    · rintro ⟨-, hnil⟩
      cases hnil

/-- An error with literal characters pending puts its marker before them, and nothing else disturbs
the order. -/
theorem traceStep_ordered (h : t.Below) :
    (traceStep p t).Ordered ↔
      t.Ordered ∧ ¬ (branchAt p t.scan.i = .error ∧ t.nstrAt ≠ []) := by
  have hvec : ∀ k ∈ t.vecAt.flatten, k < t.scan.i := fun k hk => h k (List.mem_append_left _ hk)
  have hnstr : ∀ k ∈ t.nstrAt, k < t.scan.i := fun k hk => h k (List.mem_append_right _ hk)
  cases hbranch : branchAt p t.scan.i with
  | literal =>
    simp only [traceStep, hbranch, Trace.Ordered, ← List.append_assoc, pairwise_concat h]
    simp
  | complete =>
    simp only [traceStep, hbranch, Trace.Ordered, List.flatten_append, flatten_flushAt,
      List.flatten_singleton, List.append_nil, pairwise_concat h]
    simp
  | error =>
    simp only [traceStep, hbranch, Trace.Ordered, List.flatten_append, List.flatten_singleton,
      pairwise_insert hvec hnstr]
    simp

theorem traceStep_below (h : t.Below) (hmove : t.scan.i < (scanStep p t.scan).i) :
    (traceStep p t).Below := by
  have hold : ∀ k ∈ t.vecAt.flatten ++ t.nstrAt, k < (scanStep p t.scan).i := fun k hk =>
    (h k hk).trans hmove
  intro k hk
  rw [traceStep_scan]
  have hmem : k ∈ t.vecAt.flatten ++ t.nstrAt ∨ k = t.scan.i := by
    cases hbranch : branchAt p t.scan.i with
    | literal | complete | error =>
      simp only [traceStep, hbranch, List.flatten_append, flatten_flushAt, List.flatten_singleton,
        List.mem_append, List.mem_singleton, List.not_mem_nil, or_false] at hk ⊢
      tauto
  rcases hmem with hmem | rfl
  · exact hold k hmem
  · exact hmove

theorem scanStep_literal (h : branchAt p s.i = .literal) :
    scanStep p s = { s with i := s.i + 1, nstr := s.nstr.push (p.getD s.i '\x00') } := by
  by_cases hc : p.getD s.i '\x00' = '%'
  · rw [branchAt, if_neg (not_not_intro hc)] at h
    by_cases hesc : s.i + 1 < p.length ∧ p.getD (s.i + 1) '\x00' = '%'
    · simp only [scanStep, ne_eq, hc, not_true_eq_false, if_false, if_pos hesc]
    · rw [if_neg hesc] at h
      split at h <;> cases h
  · simp only [scanStep, ne_eq, hc, not_false_eq_true, if_true]

/-- A percent sign that no other one follows. -/
theorem drop_of_branch (hb : branchAt p i = b) (hne : b ≠ .literal) :
    ∃ r, p.drop i = '%' :: r ∧ r.head? ≠ some '%' := by
  have h : branchAt p i ≠ .literal := hb ▸ hne
  have hc : p.getD i '\x00' = '%' := by
    by_contra hc
    exact h (if_pos hc)
  have hlt : i < p.length := by
    by_contra hge
    rw [List.getD_eq_getElem?_getD, List.getElem?_eq_none (Nat.le_of_not_lt hge)] at hc
    exact absurd hc (by decide)
  have hdrop : p.drop i = '%' :: p.drop (i + 1) := by
    rw [List.getD_eq_getElem?_getD, List.getElem?_eq_getElem hlt, Option.getD_some] at hc
    rw [List.drop_eq_getElem_cons hlt, hc]
  apply Exists.intro (p.drop (i + 1))
  constructor
  · exact hdrop
  · intro hhead
    cases hrest : p.drop (i + 1) with
    | nil =>
      rw [hrest] at hhead
      cases hhead
    | cons c r =>
      rw [hrest] at hhead
      cases hhead
      rw [hrest] at hdrop
      exact h (branchAt_escape hdrop)

theorem scanStep_complete (h : branchAt p s.i = .complete) :
    scanStep p s = { s with
      i := (directiveAt p s.i).n - 1 + 1
      nstr := ""
      vec := flush s.vec s.nstr ++ [⟨(directiveAt p s.i).str, (directiveAt p s.i).fmt, 1⟩] } := by
  obtain ⟨r, hdrop, hr⟩ := drop_of_branch h nofun
  rw [branchAt_directive hdrop hr] at h
  rw [scanStep_directive hdrop fun c hc he => hr (he ▸ hc)]
  split at h
  · rename_i hstatus
    rw [if_pos hstatus]
  · cases h

theorem scanStep_error (h : branchAt p s.i = .error) :
    scanStep p s = { s with
      i := s.i + 1
      bError := true
      vec := s.vec ++ [⟨"<<pattern_error>>", (directiveAt p s.i).fmt, 0⟩] } := by
  obtain ⟨r, hdrop, hr⟩ := drop_of_branch h nofun
  rw [branchAt_directive hdrop hr] at h
  rw [scanStep_directive hdrop fun c hc he => hr (he ▸ hc)]
  split at h
  · cases h
  · rename_i hstatus
    rw [if_neg hstatus]

theorem flush_stems (h : t.Stem p) :
    List.Forall₂ (Stems p) (flush t.scan.vec t.scan.nstr) (flushAt t.vecAt t.nstrAt) := by
  rw [flush, flushAt, h.nstr]
  by_cases hnil : t.nstrAt = []
  · have hempty : String.ofList [] = "" := rfl
    rw [hnil, List.map_nil, if_pos hempty, if_pos rfl]
    exact h.vec
  · have hne : String.ofList (t.nstrAt.map fun k => p.getD k '\x00') ≠ "" := by
      intro hempty
      exact hnil (List.map_eq_nil_iff.1 (String.ofList_injective hempty))
    rw [if_neg hne, if_neg hnil]
    exact List.rel_append h.vec (.cons (.literal hnil) .nil)

/-- The positions are those that the texts stem from. -/
theorem traceStep_stem (h : t.Stem p) : (traceStep p t).Stem p := by
  cases hbranch : branchAt p t.scan.i with
  | literal =>
    rw [traceStep, hbranch]
    constructor
    · simp only [scanStep_literal hbranch, h.nstr, List.map_append, List.map_singleton,
        String.ofList_append]
      rfl
    · rw [scanStep_literal hbranch]
      exact h.vec
  | complete =>
    rw [traceStep, hbranch]
    constructor
    · rw [scanStep_complete hbranch]
      rfl
    · rw [scanStep_complete hbranch]
      exact List.rel_append (flush_stems h) (.cons (.directive hbranch) .nil)
  | error =>
    rw [traceStep, hbranch]
    constructor
    · rw [scanStep_error hbranch]
      exact h.nstr
    · rw [scanStep_error hbranch]
      exact List.rel_append h.vec (.cons (.marker hbranch) .nil)

theorem traceLoop_stem (h : t.Stem p) (fuel : Nat) : (traceLoop p fuel t).Stem p := by
  induction fuel generalizing t with
  | zero => exact h
  | succ fuel ih =>
    rw [traceLoop]
    split
    · exact ih (traceStep_stem h)
    · exact h

/-- An error comes while literal characters are pending. -/
def Displaces : Bool → List Element → Prop
  | _, [] => False
  | _, .lit _ :: es => Displaces true es
  | _, .directive _ _ :: es => Displaces false es
  | lits, .unclosed :: es => lits = true ∨ Displaces lits es

theorem displaces_iff (lits : Bool) (es : List Element) :
    Displaces lits es ↔
      (lits = true ∧ es.head? = some .unclosed) ∨ ∃ c, [.lit c, .unclosed] <:+: es := by
  induction es generalizing lits with
  | nil => simp [Displaces]
  | cons u es ih =>
    cases u with
    | lit c =>
      have hhead : (∃ c', [Element.lit c', .unclosed] <+: .lit c :: es) ↔
          es.head? = some .unclosed := by
        cases es <;> simp [eq_comm]
      simp only [Displaces, ih, List.infix_cons_iff, exists_or, hhead]
      simp
    | directive name arg => simp [Displaces, ih, List.infix_cons_iff]
    | unclosed =>
      cases lits <;> simp [Displaces, ih, List.infix_cons_iff]

theorem traceLoop_ordered (h : Reading q es) {t : Trace} (hq : p.drop t.scan.i = q)
    (hfuel : q.length ≤ fuel) (hbelow : t.Below) :
    (traceLoop p fuel t).Ordered ↔ t.Ordered ∧ ¬ Displaces (!t.nstrAt.isEmpty) es := by
  induction fuel generalizing t q es with
  | zero =>
    rw [List.length_eq_zero_iff.1 (Nat.le_zero.1 hfuel)] at h
    cases h
    simp [traceLoop, Displaces]
  | succ fuel ih =>
    rw [traceLoop]
    split
    · rename_i hlt
      obtain ⟨u, es', rfl, hbranch, hrest, hmove, hle, -⟩ := h.turn hq hlt
      rw [← traceStep_scan] at hrest hmove
      have hlen := length_of_drop hq hlt.le
      rw [ih hrest rfl (by rw [List.length_drop]; omega)
        (traceStep_below hbelow (traceStep_scan p t ▸ hmove)), traceStep_ordered hbelow, hbranch]
      cases u with
      | lit c =>
        have hpending : (t.nstrAt ++ [t.scan.i]).isEmpty = false := by simp
        simp [traceStep, hbranch, Element.branch, Displaces, hpending]
      | directive name arg => simp [traceStep, hbranch, Element.branch, Displaces]
      | unclosed =>
        simp [traceStep, hbranch, Element.branch, Displaces, and_assoc]
    · rename_i hlt
      rw [← hq, List.drop_eq_nil_of_le (Nat.not_lt.1 hlt)] at h
      cases h
      simp [Displaces]

/-- Every item stems from its positions in the pattern, and the positions of the items that
`format` goes through one after another are in order if and only if no literal character stands
directly before the percent sign of a brace that nothing closes. -/
theorem origins_in_order_iff (pattern : String) :
    List.Forall₂ (fun item ks => ∃ x, Stems pattern.toList x ks ∧ item = (makeItem x).1)
      (new pattern).mItems (origins pattern) ∧
    (∀ env level event, (new pattern).format env level event =
      String.join ((new pattern).mItems.map fun item => item.format env level event)) ∧
    ((origins pattern).flatten.Pairwise (· < ·) ↔
      ∀ es, Reading pattern.toList es → ∀ c, ¬ [.lit c, .unclosed] <:+: es) := by
  have hstem : Trace.Stem pattern.toList ⟨⟨0, "", [], false⟩, [], []⟩ := ⟨rfl, .nil⟩
  constructor
  · have hpieces := flush_stems (traceLoop_stem hstem pattern.toList.length)
    rw [traceLoop_scan] at hpieces
    rw [new, List.map_map, List.forall₂_map_left_iff]
    exact hpieces.imp fun x ks h => ⟨x, h, rfl⟩
  constructor
  · intro env level event
    rw [format, String.join, List.foldl_map]
  · have hbelow : Trace.Below ⟨⟨0, "", [], false⟩, [], []⟩ := fun k hk => by cases hk
    have hiff {es : List Element} (h : Reading pattern.toList es) :
        (origins pattern).flatten.Pairwise (· < ·) ↔ ∀ c, ¬ [.lit c, .unclosed] <:+: es := by
      have hordered := traceLoop_ordered (p := pattern.toList)
        (t := ⟨⟨0, "", [], false⟩, [], []⟩) h rfl (Nat.le_refl _) hbelow
      rw [origins, flatten_flushAt]
      rw [Trace.Ordered, Trace.Ordered, displaces_iff] at hordered
      rw [hordered]
      simp
    constructor
    · intro hin es h
      exact (hiff h).1 hin
    · intro h
      obtain ⟨es, hes⟩ := reading_total pattern.toList
      exact (hiff hes).2 (h es hes)

/-- The marker of an error comes before the text that it stands behind, and this text goes on with
the text from behind it. -/
theorem error_overtakes : origins "a%d\x7bx" = [[1], [0, 2, 3, 4]] ∧
    (new "a%d\x7bx").mItems = [.string "<<pattern_error>>", .string "ad\x7bx"] := by
  decide

end
end LogFormatter
end SvrFrame
