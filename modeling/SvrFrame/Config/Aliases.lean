import SvrFrame.Config.Registry
import SvrFrame.Yaml.Graph
import Mathlib.Data.Fintype.EquivFin

namespace SvrFrame
namespace Config
open Library Relation
set_option autoImplicit true

/-! ### The flattening of a document with aliases -/

section
variable {n : Nat}

/-- `ListAllMember` on the nodes of a document, with a bound on the depth of its recursion; `none`
where it goes deeper. -/
def listGraphMember (g : NodeGraph n) : Nat → String × Fin n → Option (List (String × Fin n))
  | 0, _ => none
  | fuel + 1, m =>
    if validName m.1 then
      ((g.entries m.2).mapM fun e =>
        listGraphMember g fuel (memberName m.1 (g.key e.1), e.2)).map fun ms => m :: ms.flatten
    else some []

/-- The recursion comes to an end. -/
def Terminates (g : NodeGraph n) (name : String) (v : Fin n) : Prop :=
  ∃ fuel ms, listGraphMember g fuel (name, v) = some ms

/-- A key of legal characters leads from the one node to the other. -/
def Leads (g : NodeGraph n) (u v : Fin n) : Prop :=
  ∃ e ∈ g.entries u, validName (scalarText (g.key e.1)) = true ∧ e.2 = v

variable {g : NodeGraph n} {u v : Fin n} {name : String}

theorem validName_child (h : validName name = true) (key : Node) :
    validName (memberName name key) = validName (scalarText key) := by
  have hdot : validName "." = true := by decide
  rw [memberName]
  split
  · rfl
  · rw [validName_append, validName_append, h, hdot, Bool.true_and, Bool.true_and]

theorem listGraphMember_invalid (h : validName name = false) (v : Fin n) :
    listGraphMember g 1 (name, v) = some [] := by
  rw [listGraphMember, h]
  rfl

theorem listGraphMember_grows (g : NodeGraph n) : Grows (listGraphMember g) := by
  intro fuel
  induction fuel with
  | zero => exact fun m ms h => by cases h
  | succ fuel ih =>
    intro m ms h
    rw [listGraphMember] at h ⊢
    split at h
    · rename_i hvalid
      rw [if_pos hvalid]
      obtain ⟨mss, hmss, rfl⟩ := Option.map_eq_some_iff.1 h
      rw [mapM_of_imp (fun e ms => ih _ ms) hmss]
      rfl
    · rename_i hvalid
      rw [if_neg hvalid]
      exact h

/-- A call with a legal name ends just when the descent along legal keys does. -/
theorem terminates_iff_acc (hname : validName name = true) :
    Terminates g name v ↔ Acc (fun v u => Leads g u v) v := by
  constructor
  · rintro ⟨fuel, ms, h⟩
    induction fuel generalizing name v ms with
    | zero => cases h
    | succ fuel ih =>
      constructor
      rintro u ⟨e, he, hkey, rfl⟩
      rw [listGraphMember, if_pos hname] at h
      obtain ⟨mss, hmss, -⟩ := Option.map_eq_some_iff.1 h
      obtain ⟨ms', hms'⟩ := mapM_exists_of_mem hmss he
      exact ih ((validName_child hname _).trans hkey) _ hms'
  · intro h
    induction h generalizing name with
    | intro v _ ih =>
      have hcalls : ∀ e ∈ g.entries v, ∃ fuel ms,
          listGraphMember g fuel (memberName name (g.key e.1), e.2) = some ms := by
        intro e he
        cases hkey : validName (scalarText (g.key e.1)) with
        | true => exact ih e.2 ⟨e, he, hkey, rfl⟩ ((validName_child hname _).trans hkey)
        | false => exact ⟨1, [], listGraphMember_invalid ((validName_child hname _).trans hkey) _⟩
      have hgrows : Grows fun fuel (e : Fin n × Fin n) =>
          listGraphMember g fuel (memberName name (g.key e.1), e.2) :=
        fun fuel _ ms h => listGraphMember_grows g fuel _ ms h
      obtain ⟨fuel, mss, hmss⟩ := hgrows.mapM_exists hcalls
      apply Exists.intro (fuel + 1)
      rw [listGraphMember, if_pos hname, hmss]
      exact ⟨_, rfl⟩

/-! ### Documents that are trees -/

theorem scalarText_unfold {k : Fin n} {key : Node} (h : g.unfold fuel k = some key) :
    scalarText (g.key k) = scalarText key := by
  cases fuel with
  | zero => cases h
  | succ fuel =>
    rw [NodeGraph.unfold] at h
    rw [NodeGraph.key]
    cases hk : g k with
    | null | scalar text =>
      rw [hk] at h
      cases h
      rfl
    | seq items | map es =>
      rw [hk] at h
      obtain ⟨_, -, rfl⟩ := Option.map_eq_some_iff.1 h
      rfl

theorem memberName_unfold {k : Fin n} {key : Node} (h : g.unfold fuel k = some key)
    (name : String) : memberName name (g.key k) = memberName name key := by
  rw [memberName, memberName, scalarText_unfold h]

/-- The two listings have the same names, each with a node and the tree that it stands for. -/
def SameMembers (g : NodeGraph n) (ms : List (String × Fin n)) (is : List (String × Node)) :
    Prop :=
  List.Forall₂ (fun m i => m.1 = i.1 ∧ ∃ fuel, g.unfold fuel m.2 = some i.2) ms is

theorem listGraphMember_entries {es : List (Fin n × Fin n)} {ts : List (Node × Node)}
    (hone : ∀ v t, g.unfold fuel v = some t → ∀ name,
      ∃ ms, listGraphMember g fuel (name, v) = some ms ∧ SameMembers g ms (listAllMember name t))
    (h : es.mapM (fun e =>
      (g.unfold fuel e.1).bind fun k => (g.unfold fuel e.2).map fun v => (k, v)) = some ts)
    (name : String) :
    ∃ mss, es.mapM (fun e => listGraphMember g fuel (memberName name (g.key e.1), e.2)) =
      some mss ∧ SameMembers g mss.flatten (listEntries name ts) := by
  induction es generalizing ts with
  | nil =>
    cases h
    exact ⟨[], rfl, .nil⟩
  | cons e es ih =>
    obtain ⟨x, ts', hx, hts, rfl⟩ := mapM_cons_eq_some.1 h
    obtain ⟨k, hk, hx⟩ := Option.bind_eq_some_iff.1 hx
    obtain ⟨t, ht, rfl⟩ := Option.map_eq_some_iff.1 hx
    obtain ⟨ms, hms, hsame⟩ := hone e.2 t ht (memberName name (g.key e.1))
    obtain ⟨mss, hmss, hrest⟩ := ih hts
    apply Exists.intro (ms :: mss)
    constructor
    · exact mapM_cons_eq_some.2 ⟨ms, mss, hms, hmss, rfl⟩
    · rw [memberName_unfold hk] at hsame
      exact List.rel_append hsame hrest

/-- Where a document is a tree, its flattening is that of the tree. -/
theorem listGraphMember_unfold {t : Node} (h : g.unfold fuel v = some t) (name : String) :
    ∃ ms, listGraphMember g fuel (name, v) = some ms ∧ SameMembers g ms (listAllMember name t) := by
  induction fuel generalizing v t name with
  | zero => cases h
  | succ fuel ih =>
    have hroot := h
    rw [NodeGraph.unfold] at h
    rw [listGraphMember]
    cases hvalid : validName name with
    | false =>
      apply Exists.intro []
      constructor
      · rfl
      · cases t <;> simp [listAllMember, hvalid, SameMembers]
    | true =>
      cases hv : g v with
      | map es =>
        rw [hv] at h
        obtain ⟨ts, hts, rfl⟩ := Option.map_eq_some_iff.1 h
        obtain ⟨mss, hmss, hsame⟩ := listGraphMember_entries (fun v t h => ih h) hts name
        have hentries : g.entries v = es := by rw [NodeGraph.entries, hv]
        rw [if_pos rfl, hentries, hmss, listAllMember, if_pos hvalid]
        exact ⟨_, rfl, .cons ⟨rfl, _, hroot⟩ hsame⟩
      | _ =>
        have hentries : g.entries v = [] := by rw [NodeGraph.entries, hv]
        have hlist : listAllMember name t = [(name, t)] := by
          cases t with
          | map es =>
            rw [hv] at h
            simp at h
          | _ => simp [listAllMember, hvalid]
        rw [if_pos rfl, hentries, hlist]
        exact ⟨_, rfl, .cons ⟨rfl, _, hroot⟩ .nil⟩

/-! ### Documents that refer to themselves -/

/-- The flattening of a document comes to an end if and only if no node that keys of legal
characters lead to is led back to by such keys. -/
theorem listGraphMember_terminates_iff {n : Nat} (g : NodeGraph n) (root : Fin n) :
    Terminates g "" root ↔
      ¬ ∃ v, ReflTransGen (Leads g) root v ∧ TransGen (Leads g) v v := by
  rw [terminates_iff_acc (by decide)]
  exact acc_iff_no_cycle

/-- The document `a: &x {b: *x}`, with its keys as the nodes 1 and 3. -/
def selfReference : NodeGraph 4
  | 0 => .map [(1, 2)]
  | 1 => .scalar "a"
  | 2 => .map [(3, 2)]
  | 3 => .scalar "b"

theorem self_reference_never_ends : ¬ Terminates selfReference "" 0 := by
  have hname : validName "" = true := by decide
  have hroot : Leads selfReference 0 2 := ⟨(1, 2), List.mem_singleton_self _, by decide, rfl⟩
  have hself : Leads selfReference 2 2 := ⟨(3, 2), List.mem_singleton_self _, by decide, rfl⟩
  intro hterm
  have hacc := (terminates_iff_acc hname).1 hterm
  exact not_transGen_of_acc (hacc.inv hroot) (.single hself)

end
end Config
end SvrFrame
