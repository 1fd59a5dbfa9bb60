import Mathlib.Data.List.Nodup

namespace Library
set_option autoImplicit true

/-- Elements told apart by a key, in the order of one iteration over them. -/
structure KeySet {α : Type u} {κ : Type v} (key : α → κ) where
  elems : List α
  nodup : (elems.map key).Nodup

namespace KeySet

variable {α : Type u} {κ : Type v} [DecidableEq κ] {key : α → κ}

def empty : KeySet key := ⟨[], .nil⟩

/-- An element whose key is in use is not inserted. -/
def insert (s : KeySet key) (a : α) : KeySet key :=
  if h : key a ∈ s.elems.map key then s
  else ⟨s.elems ++ [a], by
    rw [List.map_append]
    refine List.nodup_append.2 ⟨s.nodup, List.nodup_singleton _, fun k hk k' hk' he => h ?_⟩
    rw [List.map_singleton, List.mem_singleton] at hk'
    rw [← hk', ← he]
    exact hk⟩

/-- The sets have one size, and each element of the first has one like it in the second. -/
def Same (eq : α → α → Prop) (s t : KeySet key) : Prop :=
  s.elems.length = t.elems.length ∧ ∀ a ∈ s.elems, ∃ b ∈ t.elems, key a = key b ∧ eq a b

/-- Inserting elements with new keys. -/
theorem elems_foldl_insert (s : KeySet key) (l : List α) (h : ((s.elems ++ l).map key).Nodup) :
    (l.foldl insert s).elems = s.elems ++ l := by
  induction l generalizing s with
  | nil => exact (List.append_nil _).symm
  | cons a l ih =>
    have hnew : key a ∉ s.elems.map key := by
      rw [List.map_append, List.nodup_append] at h
      exact fun ha => h.2.2 _ ha _ List.mem_cons_self rfl
    have hlast : (s.insert a).elems = s.elems ++ [a] := by
      rw [insert, dif_neg hnew]
    rw [List.foldl_cons, ih (s.insert a) (by rw [hlast]; simpa using h), hlast]
    simp

theorem elems_ofList {l : List α} (h : (l.map key).Nodup) :
    (l.foldl insert (empty : KeySet key)).elems = l :=
  elems_foldl_insert empty l h

end KeySet
end Library
