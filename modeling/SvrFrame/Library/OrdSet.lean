import Mathlib.Order.Lattice
import Mathlib.Data.List.Pairwise

namespace Library
set_option autoImplicit true

/-- A set ordered by a key: two elements with one key are equivalent to it. -/
structure OrdSet {α : Type u} {κ : Type v} [LinearOrder κ] (key : α → κ) where
  elems : List α
  sorted : elems.Pairwise fun a b => key a < key b

namespace OrdSet

variable {α : Type u} {κ : Type v} [LinearOrder κ] {key : α → κ}

theorem eq_of_elems {s t : OrdSet key} (h : s.elems = t.elems) : s = t := by
  cases s
  cases t
  cases h
  rfl

instance [DecidableEq α] : DecidableEq (OrdSet key) := fun s t =>
  decidable_of_iff (s.elems = t.elems)
    ⟨fun h => by cases s; cases t; cases h; rfl, fun h => h ▸ rfl⟩

def empty : OrdSet key := ⟨[], .nil⟩

def find? (s : OrdSet key) (k : κ) : Option α := s.elems.find? fun a => key a = k

/-- An element that is equivalent to one of the set is not inserted. -/
def insertList (key : α → κ) (a : α) : List α → List α
  | [] => [a]
  | b :: l =>
    if key a < key b then a :: b :: l
    else if key b < key a then b :: insertList key a l
    else b :: l

theorem mem_insertList {l : List α} (h : c ∈ insertList key a l) : c = a ∨ c ∈ l := by
  induction l with
  | nil => exact .inl (List.mem_singleton.1 h)
  | cons b l ih =>
    simp only [insertList] at h
    split at h
    · exact List.mem_cons.1 h
    · split at h
      · rcases List.mem_cons.1 h with rfl | h
        · exact .inr List.mem_cons_self
        · exact (ih h).imp_right (List.mem_cons_of_mem b)
      · exact .inr h

theorem insertList_sorted {l : List α} (h : l.Pairwise fun a b => key a < key b) (a : α) :
    (insertList key a l).Pairwise fun a b => key a < key b := by
  induction l with
  | nil => exact List.pairwise_singleton _ a
  | cons b l ih =>
    have ⟨hb, hl⟩ := List.pairwise_cons.1 h
    simp only [insertList]
    split
    · rename_i hab
      refine List.pairwise_cons.2 ⟨fun c hc => ?_, h⟩
      rcases List.mem_cons.1 hc with rfl | hc
      · exact hab
      · exact lt_trans hab (hb c hc)
    · split
      · rename_i hba
        refine List.pairwise_cons.2 ⟨fun c hc => ?_, ih hl⟩
        rcases mem_insertList hc with rfl | hc
        · exact hba
        · exact hb c hc
      · exact h

def insert (s : OrdSet key) (a : α) : OrdSet key :=
  ⟨insertList key a s.elems, insertList_sorted s.sorted a⟩

/-- The set without the element that has the key. -/
def erase (s : OrdSet key) (k : κ) : OrdSet key :=
  ⟨s.elems.filter fun a => key a ≠ k, s.sorted.filter _⟩

theorem find?_eq_some {s : OrdSet key} : s.find? k = some a ↔ a ∈ s.elems ∧ key a = k := by
  constructor
  · intro h
    have hk := List.find?_some h
    exact ⟨List.mem_of_find?_eq_some h, of_decide_eq_true hk⟩
  · rintro ⟨hmem, hkey⟩
    obtain ⟨l, hs⟩ := s
    simp only [find?] at hmem ⊢
    induction l with
    | nil => cases hmem
    | cons b l ih =>
      have ⟨hb, hl⟩ := List.pairwise_cons.1 hs
      rcases List.mem_cons.1 hmem with rfl | hmem
      · exact List.find?_cons_of_pos (decide_eq_true hkey)
      · have hne : key b ≠ k := fun h => ne_of_lt (hb a hmem) (h.trans hkey.symm)
        rw [List.find?_cons_of_neg (by simpa using hne)]
        exact ih hl hmem

theorem find?_eq_none {s : OrdSet key} : s.find? k = none ↔ ∀ a ∈ s.elems, key a ≠ k := by
  simp only [find?, List.find?_eq_none, decide_eq_true_eq, ne_eq]

theorem find?_isSome {s : OrdSet key} (h : a ∈ s.elems) : s.find? (key a) = some a :=
  find?_eq_some.2 ⟨h, rfl⟩

theorem mem_insert {s : OrdSet key} :
    c ∈ (s.insert a).elems ↔ c ∈ s.elems ∨ (c = a ∧ s.find? (key a) = none) := by
  rw [find?_eq_none]
  obtain ⟨l, hs⟩ := s
  simp only [insert]
  induction l with
  | nil => simp [insertList]
  | cons b l ih =>
    have ⟨hb, hl⟩ := List.pairwise_cons.1 hs
    have ih := ih hl
    simp only [insertList]
    split
    · rename_i hab
      have hne : ∀ x ∈ b :: l, key x ≠ key a := by
        intro x hx
        rcases List.mem_cons.1 hx with rfl | hx
        · exact ne_of_gt hab
        · exact ne_of_gt (lt_trans hab (hb x hx))
      rw [List.mem_cons]
      constructor
      · rintro (rfl | h)
        · exact .inr ⟨rfl, hne⟩
        · exact .inl h
      · rintro (h | ⟨rfl, -⟩)
        · exact .inr h
        · exact .inl rfl
    · split
      · rename_i hba
        rw [List.mem_cons, ih, List.mem_cons, or_assoc]
        have hcons : (∀ x ∈ b :: l, key x ≠ key a) ↔ ∀ x ∈ l, key x ≠ key a := by
          rw [List.forall_mem_cons]
          exact and_iff_right (ne_of_lt hba)
        rw [hcons]
      · rename_i hab hba
        have heq : key b = key a := le_antisymm (not_lt.1 hab) (not_lt.1 hba)
        constructor
        · exact .inl
        · rintro (h | ⟨-, h⟩)
          · exact h
          · exact absurd heq (h b List.mem_cons_self)

theorem mem_erase {s : OrdSet key} : a ∈ (s.erase k).elems ↔ a ∈ s.elems ∧ key a ≠ k := by
  rw [erase, List.mem_filter, decide_eq_true_eq]

theorem find?_insert_same {s : OrdSet key} (h : s.find? (key a) = none) :
    (s.insert a).find? (key a) = some a :=
  find?_eq_some.2 ⟨mem_insert.2 (.inr ⟨rfl, h⟩), rfl⟩

theorem find?_insert_other {s : OrdSet key} (h : key a ≠ k) :
    (s.insert a).find? k = s.find? k := by
  cases hf : s.find? k with
  | none =>
    refine find?_eq_none.2 fun c hc => ?_
    rcases mem_insert.1 hc with hc | ⟨rfl, -⟩
    · exact find?_eq_none.1 hf c hc
    · exact h
  | some b =>
    obtain ⟨hb, hk⟩ := find?_eq_some.1 hf
    exact find?_eq_some.2 ⟨mem_insert.2 (.inl hb), hk⟩

/-- Of the elements with one key the first that is inserted stays. -/
theorem find?_foldl_insert (s : OrdSet key) (l : List α) (k : κ) :
    (l.foldl insert s).find? k = (s.find? k).or (l.find? fun a => key a = k) := by
  induction l generalizing s with
  | nil => exact (Option.or_none).symm
  | cons a l ih =>
    rw [List.foldl_cons, ih]
    by_cases hk : key a = k
    · subst hk
      rw [List.find?_cons_of_pos (by simp)]
      cases hs : s.find? (key a) with
      | none => rw [find?_insert_same hs]; rfl
      | some b =>
        have hb : (s.insert a).find? (key a) = some b := by
          obtain ⟨hmem, hkey⟩ := find?_eq_some.1 hs
          exact find?_eq_some.2 ⟨mem_insert.2 (.inl hmem), hkey⟩
        rw [hb]
        rfl
    · rw [find?_insert_other hk, List.find?_cons_of_neg (by simpa using hk)]

theorem insertList_last {l : List α} (h : ∀ b ∈ l, key b < key a) :
    insertList key a l = l ++ [a] := by
  induction l with
  | nil => rfl
  | cons b l ih =>
    have hb := h b List.mem_cons_self
    rw [insertList, if_neg (not_lt.2 hb.le), if_pos hb,
      ih fun c hc => h c (List.mem_cons_of_mem b hc), List.cons_append]

/-- Inserting elements that are in order already. -/
theorem elems_foldl_insert (s : OrdSet key) (l : List α)
    (h : (s.elems ++ l).Pairwise fun a b => key a < key b) :
    (l.foldl insert s).elems = s.elems ++ l := by
  induction l generalizing s with
  | nil => exact (List.append_nil _).symm
  | cons a l ih =>
    have hlast : (s.insert a).elems = s.elems ++ [a] :=
      insertList_last fun b hb =>
        (List.pairwise_append.1 h).2.2 b hb a List.mem_cons_self
    rw [List.foldl_cons, ih (s.insert a) (by rw [hlast]; simpa using h), hlast]
    simp

/-- A list that is in order fills a set with just its elements. -/
theorem elems_ofList {l : List α} (h : l.Pairwise fun a b => key a < key b) :
    (l.foldl insert (empty : OrdSet key)).elems = l :=
  elems_foldl_insert empty l h

theorem foldl_insert_elems (s : OrdSet key) : s.elems.foldl insert empty = s :=
  eq_of_elems (elems_ofList s.sorted)

theorem nodup_keys (s : OrdSet key) : (s.elems.map key).Nodup :=
  List.pairwise_map.2 (s.sorted.imp ne_of_lt)

theorem mem_foldl_insert {α : Type u} [LinearOrder α] {s : OrdSet fun a : α => a} {l : List α}
    {c : α} :
    c ∈ (l.foldl insert s).elems ↔ c ∈ s.elems ∨ c ∈ l := by
  induction l generalizing s with
  | nil => simp
  | cons a l ih =>
    have hinsert : c ∈ (s.insert a).elems ↔ c ∈ s.elems ∨ c = a := by
      rw [mem_insert, find?_eq_none]
      constructor
      · exact fun h => h.imp_right And.left
      · rintro (h | rfl)
        · exact .inl h
        · by_cases hc : c ∈ s.elems
          · exact .inl hc
          · exact .inr ⟨rfl, fun a ha he => hc (he ▸ ha)⟩
    rw [List.foldl_cons, ih, hinsert, List.mem_cons, or_assoc]

/-- A loop over elements in order, where a turn edits only what is seen under the key of its
element, edits what is seen under each key at most once. -/
theorem foldlM_edits {σ ω : Type*} (step : σ → α → Option σ) (I : σ → Prop) (ok : α → Prop)
    (see : σ → κ → ω) (f : α → ω → ω) {s : σ}
    (hstep : ∀ {s a}, I s → ok a → ∃ t, step s a = some t ∧ I t ∧
      ∀ k, see t k = if k = key a then f a (see s k) else see s k)
    {l : List α} (hl : l.Pairwise fun a b => key a < key b) (hok : ∀ a ∈ l, ok a) (hs : I s) :
    ∃ t, l.foldlM step s = some t ∧ I t ∧
      ∀ k, see t k = ((l.find? fun a => key a = k).elim id f) (see s k) := by
  induction l generalizing s with
  | nil => exact ⟨s, rfl, hs, fun _ => rfl⟩
  | cons a l ih =>
    have ⟨ha, hl⟩ := List.pairwise_cons.1 hl
    obtain ⟨t, ht, hi, hsee⟩ := hstep hs (hok a List.mem_cons_self)
    obtain ⟨u, hu, hi, hsee'⟩ := ih hl (fun b hb => hok b (List.mem_cons_of_mem a hb)) hi
    refine ⟨u, by rw [List.foldlM_cons, ht]; exact hu, hi, ?_⟩
    intro k
    rw [hsee', hsee]
    by_cases hk : k = key a
    · -- No later element has the key of `a`.
      have hnone : l.find? (fun b => key b = k) = none := by
        simp only [List.find?_eq_none, decide_eq_true_eq]
        exact fun b hb h => ne_of_lt (ha b hb) (hk.symm.trans h.symm)
      rw [hnone, if_pos hk, List.find?_cons_of_pos (by simp [hk])]
      rfl
    · rw [if_neg hk, List.find?_cons_of_neg (by simpa using fun h => hk h.symm)]

end OrdSet
end Library
