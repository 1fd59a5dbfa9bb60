import SvrFrame.Config.Registry

namespace SvrFrame
namespace Config
set_option autoImplicit true

/-! ### Documents with their keys in lower case -/

def lowerKey : Node → Node
  | .scalar text => .scalar (toLower text)
  | key => key

mutual
def lowerKeys : Node → Node
  | .map es => .map (lowerEntries es)
  | .seq items => .seq (lowerItems items)
  | node => node

def lowerEntries : List (Node × Node) → List (Node × Node)
  | [] => []
  | (k, v) :: es => (lowerKey k, lowerKeys v) :: lowerEntries es

def lowerItems : List Node → List Node
  | [] => []
  | n :: items => lowerKeys n :: lowerItems items
end

mutual
/-- What `ListAllMember` would list if it took every name. -/
def allMembers (name : String) : Node → List (String × Node)
  | .map es => (name, .map es) :: allEntries name es
  | node => [(name, node)]

def allEntries (name : String) : List (Node × Node) → List (String × Node)
  | [] => []
  | (k, v) :: es => allMembers (memberName name k) v ++ allEntries name es
end

/-- The nodes that `LoadFromYaml` hands to the variable of a name, in order. -/
def applied (root : Node) (name : String) : List Node :=
  (listAllMember "" root).filterMap fun i =>
    if i.1 ≠ "" ∧ toLower i.1 = name then some i.2 else none

theorem toLower_append (a b : String) : toLower (a ++ b) = toLower a ++ toLower b := by
  simp only [toLower, String.toList_append, List.map_append, String.ofList_append]

theorem toLower_eq_empty (name : String) : toLower name = "" ↔ name = "" := by
  constructor
  · intro h
    have hlist := congrArg String.toList h
    rw [toLower, String.toList_ofList] at hlist
    exact String.toList_inj.1 (List.map_eq_nil_iff.1 hlist)
  · rintro rfl
    rfl

theorem scalarText_lowerKey (key : Node) : scalarText (lowerKey key) = toLower (scalarText key) := by
  cases key <;> rfl

theorem memberName_lower (name : String) (key : Node) :
    memberName (toLower name) (lowerKey key) = toLower (memberName name key) := by
  have hdot : toLower "." = "." := by decide
  simp only [memberName, toLower_eq_empty, scalarText_lowerKey]
  split
  · rfl
  · rw [toLower_append, toLower_append, hdot]

mutual
/-- Lower-casing the keys keeps the tree and lower-cases the names. -/
theorem allMembers_lower (n : Node) (name : String) :
    allMembers (toLower name) (lowerKeys n) =
      (allMembers name n).map fun i => (toLower i.1, lowerKeys i.2) := by
  cases n with
  | map es =>
    rw [lowerKeys, allMembers, allMembers, allEntries_lower es name, List.map_cons, lowerKeys]
  | null | scalar text | seq items => rfl

theorem allEntries_lower (es : List (Node × Node)) (name : String) :
    allEntries (toLower name) (lowerEntries es) =
      (allEntries name es).map fun i => (toLower i.1, lowerKeys i.2) := by
  cases es with
  | nil => rfl
  | cons e es =>
    obtain ⟨k, v⟩ := e
    rw [lowerEntries, allEntries, allEntries, memberName_lower, allMembers_lower v _,
      allEntries_lower es name, List.map_append]
end

/-- Below a name that is not legal there is no legal name. -/
theorem validName_memberName (h : validName (memberName name key) = true) :
    validName name = true := by
  rw [memberName] at h
  split at h
  · rename_i hempty
    rw [hempty]
    rfl
  · rw [validName_append, validName_append] at h
    simp only [Bool.and_eq_true] at h
    exact h.1.1

mutual
theorem allMembers_invalid (n : Node) (name : String) (h : validName name = false) :
    (allMembers name n).filter (fun i => validName i.1) = [] := by
  cases n with
  | map es => simp [allMembers, h, allEntries_invalid es name h]
  | _ => simp [allMembers, h]

theorem allEntries_invalid (es : List (Node × Node)) (name : String) (h : validName name = false) :
    (allEntries name es).filter (fun i => validName i.1) = [] := by
  cases es with
  | nil => rfl
  | cons e es =>
    obtain ⟨k, v⟩ := e
    have hkey : validName (memberName name k) = false := by
      apply Bool.eq_false_iff.2
      intro hvalid
      rw [validName_memberName hvalid] at h
      cases h
    rw [allEntries, List.filter_append, allMembers_invalid v _ hkey, allEntries_invalid es name h]
    rfl
end

mutual
/-- `ListAllMember` lists the members with a legal name. -/
theorem listAllMember_filter (n : Node) (name : String) :
    listAllMember name n = (allMembers name n).filter fun i => validName i.1 := by
  cases hvalid : validName name with
  | false =>
    rw [allMembers_invalid n name hvalid]
    cases n <;> simp [listAllMember, hvalid]
  | true =>
    cases n with
    | map es => simp [listAllMember, allMembers, hvalid, listEntries_filter es name]
    | _ => simp [listAllMember, allMembers, hvalid]

theorem listEntries_filter (es : List (Node × Node)) (name : String) :
    listEntries name es = (allEntries name es).filter fun i => validName i.1 := by
  cases es with
  | nil => rfl
  | cons e es =>
    obtain ⟨k, v⟩ := e
    rw [listEntries, allEntries, List.filter_append, listAllMember_filter v _,
      listEntries_filter es name]
end

/-! ### Which nodes a variable gets -/

section
variable {W : Type}

/-- The value after `FromString`. -/
def CfgVar.take (v : CfgVar W) (x : v.T) (text : String) : v.T :=
  match v.fromStr text with
  | .ok val => if v.eq x val then x else val
  | .error _ => x

theorem CfgVar.fromString_take (v : CfgVar W) (x : v.T) (text : String) (w : W) :
    ((v.setVal x).fromString text w).1 = v.setVal (v.take x text) := by
  have hconv : (v.setVal x).fromStr text = v.fromStr text := rfl
  rw [fromString, take, hconv]
  cases v.fromStr text with
  | error e => rfl
  | ok val =>
    have heq : (v.setVal x).eq (v.setVal x).mVal val = v.eq x val := rfl
    simp only [setValue, heq]
    split <;> rfl

theorem loadMember_take {y : YamlCpp} {c₀ c : Registry W} {v : CfgVar W} {x : v.T}
    (h₀ : (c₀.datas name).isSome) (h : c.datas name = some (v.setVal x)) (i : String × Node) :
    ∃ c', loadMember y c₀ c i = some c' ∧ c'.datas name = some (v.setVal
      (if i.1 ≠ "" ∧ toLower i.1 = name then v.take x (memberText y i.2) else x)) := by
  rw [loadMember]
  by_cases hempty : i.1 = ""
  · apply Exists.intro c
    constructor
    · exact if_pos hempty
    · rw [if_neg fun h => h.1 hempty]
      exact h
  · rw [if_neg hempty]
    by_cases hname : toLower i.1 = name
    · obtain ⟨v₀, hv₀⟩ := Option.isSome_iff_exists.1 h₀
      rw [Registry.lookUpBase, hname, hv₀, if_pos ⟨hempty, rfl⟩]
      simp only [Option.map_some, Registry.fromString, h]
      apply Exists.intro
      constructor
      · rfl
      · simp only [if_true, CfgVar.fromString_take]
    · rw [Registry.lookUpBase, if_neg fun h => hname h.2]
      cases c₀.datas (toLower i.1) with
      | none => exact ⟨c, rfl, h⟩
      | some v₀ =>
        simp only [Option.map_some, Registry.fromString]
        split
        · apply Exists.intro
          constructor
          · rfl
          · simp only [if_neg (Ne.symm hname)]
            exact h
        · exact ⟨c, rfl, h⟩

/-- Loading a document is, for each variable, one `FromString` after another on the nodes that are
applied to it. -/
theorem load_takes (y : YamlCpp) (root : Node) {c : Registry W} {v : CfgVar W}
    (h : c.datas name = some v) :
    ∃ c', c.loadFromYaml y root = some c' ∧ c'.datas name = some (v.setVal
      ((applied root name).foldl (fun x n => v.take x (memberText y n)) v.mVal)) := by
  have hsome : (c.datas name).isSome := by rw [h]; rfl
  have hrun (is : List (String × Node)) (c₁ : Registry W) (x : v.T)
      (h₁ : c₁.datas name = some (v.setVal x)) :
      ∃ c', is.foldlM (loadMember y c) c₁ = some c' ∧ c'.datas name = some (v.setVal
        ((is.filterMap fun i => if i.1 ≠ "" ∧ toLower i.1 = name then some i.2 else none).foldl
          (fun x n => v.take x (memberText y n)) x)) := by
    induction is generalizing c₁ x with
    | nil => exact ⟨c₁, rfl, h₁⟩
    | cons i is ih =>
      obtain ⟨c₂, hone, h₂⟩ := loadMember_take (y := y) hsome h₁ i
      obtain ⟨c₃, hall, h₃⟩ := ih c₂ _ h₂
      apply Exists.intro c₃
      constructor
      · rw [List.foldlM_cons, hone]
        exact hall
      · rw [h₃, List.filterMap_cons]
        by_cases hi : i.1 ≠ "" ∧ toLower i.1 = name
        · simp only [if_pos hi, List.foldl_cons]
        · simp only [if_neg hi]
  rw [loadFromYaml_members]
  exact hrun _ c v.mVal h

end

end Config
end SvrFrame
