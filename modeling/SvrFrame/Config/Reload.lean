import SvrFrame.Config.Registry

namespace SvrFrame
namespace Config
set_option autoImplicit true

variable {W : Type} {y : YamlCpp}

/-- The `operator==` of the type tells any two values apart. -/
def CfgVar.Exact (v : CfgVar W) : Prop := ∀ a b, v.eq a b = true ↔ a = b

theorem CfgVar.Exact.holds {v : CfgVar W} (hv : v.Exact) {x : v.T} {o : Option v.T}
    (h : v.Holds x o) : x = o.getD v.mVal := by
  cases o with
  | none => exact h
  | some val =>
    rcases h with h | h
    · exact h
    · exact (hv x val).1 h

theorem valuesAt_concat (y : YamlCpp) (is : List (String × Node)) (i : String × Node)
    (name : String) (fromStr : String → Except Exn T) :
    valuesAt y (is ++ [i]) name fromStr = valuesAt y is name fromStr ++
      if i.1 = name then (fromStr (memberText y i.2)).toOption.toList else [] := by
  simp only [valuesAt, List.filterMap_append, List.filterMap_cons, List.filterMap_nil]
  split <;> rename_i hv <;> split at hv <;> simp_all

/-! ### A document whose values are there already -/

/-- Whatever the members mean, the variables hold it. -/
def Steady (y : YamlCpp) (is : List (String × Node)) (c : Registry W) : Prop :=
  ∀ name ≠ "", ∀ v, c.datas name = some v → ∀ val ∈ valuesAt y is name v.fromStr, val = v.mVal

/-- Setting a variable to the value that it holds is no change. -/
theorem CfgVar.fromString_same {v : CfgVar W} (hv : v.Exact) {text : String}
    (h : ∀ val, v.fromStr text = .ok val → val = v.mVal) (w : W) :
    v.fromString text w = (v, w) := by
  simp only [fromString]
  split
  · rename_i val hval
    rw [h val hval, setValue, if_pos ((hv _ _).2 rfl)]
  · rfl

theorem loadMember_same {c : Registry W} (hexact : ∀ name v, c.datas name = some v → v.Exact)
    {i : String × Node} (hi : validName i.1 = true) (h : Steady y [i] c) :
    loadMember y c c i = some c := by
  rw [loadMember, toLower_of_validName hi]
  split
  · rfl
  · rename_i hempty
    cases hfound : c.datas i.1 with
    | none => simp [Registry.lookUpBase, hfound]
    | some v =>
      have hheld (val : v.T) (hval : v.fromStr (memberText y i.2) = .ok val) : val = v.mVal :=
        h i.1 hempty v hfound val (by simp [valuesAt, hval, Except.toOption])
      have hsame := CfgVar.fromString_same (hexact i.1 v hfound) hheld c.world
      simp only [Registry.lookUpBase, hfound, Option.map_some, Registry.fromString, hsame,
        Option.some.injEq]
      have hdatas : (fun name => if name = i.1 then some v else c.datas name) = c.datas := by
        funext name
        split
        · rename_i hname
          rw [hname, hfound]
        · rfl
      rw [hdatas]

/-- Loading it does nothing at all. -/
theorem Steady.load {c : Registry W} (hexact : ∀ name v, c.datas name = some v → v.Exact)
    {is : List (String × Node)} (his : ∀ i ∈ is, validName i.1 = true) (h : Steady y is c) :
    is.foldlM (loadMember y c) c = some c := by
  induction is with
  | nil => rfl
  | cons i is ih =>
    have hfirst : Steady y [i] c := by
      intro name hname v hv val hval
      apply h name hname v hv val
      simp only [valuesAt, List.mem_filterMap] at hval ⊢
      obtain ⟨j, hj, hval⟩ := hval
      exact ⟨j, List.mem_cons.2 (.inl (List.mem_singleton.1 hj)), hval⟩
    have hrest : Steady y is c := by
      intro name hname v hv val hval
      apply h name hname v hv val
      simp only [valuesAt, List.mem_filterMap] at hval ⊢
      obtain ⟨j, hj, hval⟩ := hval
      exact ⟨j, List.mem_cons_of_mem i hj, hval⟩
    rw [List.foldlM_cons, loadMember_same hexact (his i List.mem_cons_self) hfirst]
    exact ih (fun j hj => his j (List.mem_cons_of_mem i hj)) hrest

/-! ### Listeners that note who has changed -/

/-- Every variable has one listener, which notes its name. -/
def Registry.Watched (c : Registry (List String)) : Prop :=
  ∀ name v, c.datas name = some v → v.mCbs = [fun _ _ w => w ++ [name]]

/-- A variable that has been loaded is still the same one, with another value. -/
theorem Loaded.setVal {c c' : Registry W} (h : Loaded y is c c') {w : CfgVar W}
    (hw : c'.datas name = some w) : ∃ v x, c.datas name = some v ∧ w = v.setVal x := by
  cases hv : c.datas name with
  | none =>
    rw [h.absent name hv] at hw
    cases hw
  | some v =>
    by_cases hname : name = ""
    · subst hname
      rw [h.unnamed, hv] at hw
      cases hw
      exact ⟨w, w.mVal, rfl, rfl⟩
    · obtain ⟨x, hx, -⟩ := h.holds name hname v hv
      cases hx.symm.trans hw
      exact ⟨v, x, rfl, rfl⟩

/-- The world after some members: it has grown, unless they mean what the variables have held from
the beginning. -/
structure Noted (y : YamlCpp) (is : List (String × Node)) (c c' : Registry (List String)) :
    Prop where
  loaded : Loaded y is c c'
  grown : ∃ names, c'.world = c.world ++ names ∧ (names = [] → Steady y is c)

/-- A text either means the value of the variable, or its listener notes the name. -/
theorem CfgVar.fromString_noted {v : CfgVar (List String)} (hv : v.Exact)
    (hcb : v.mCbs = [fun _ _ w => w ++ [name]]) (text : String) (w : List String) :
    (∀ val, v.fromStr text = .ok val → val = v.mVal) ∧ (v.fromString text w).2 = w ∨
      (v.fromString text w).2 = w ++ [name] := by
  simp only [fromString]
  cases hval : v.fromStr text with
  | error e =>
    left
    refine ⟨fun val h => ?_, rfl⟩
    cases h
  | ok val =>
    simp only [setValue]
    split
    · rename_i heq
      exact .inl ⟨fun val' h => by cases h; exact ((hv _ _).1 heq).symm, rfl⟩
    · right
      rw [hcb]
      rfl

theorem Steady.concat {c : Registry W} (h : Steady y is c) {i : String × Node}
    (hi : i.1 ≠ "" → ∀ v, c.datas i.1 = some v →
      ∀ val, v.fromStr (memberText y i.2) = .ok val → val = v.mVal) : Steady y (is ++ [i]) c := by
  intro name hname v hv val hval
  rw [valuesAt_concat, List.mem_append] at hval
  rcases hval with hold | hnew
  · exact h name hname v hv val hold
  · split at hnew
    · rename_i heq
      subst heq
      apply hi hname v hv
      cases hconv : v.fromStr (memberText y i.2) <;> simp_all [Except.toOption]
    · cases hnew

/-- Where the members mean what a variable held from the beginning, it still holds it. -/
theorem Steady.holds {c : Registry W} (h : Steady y is c) (hname : name ≠ "") {v : CfgVar W}
    (hv : c.datas name = some v) (hexact : v.Exact) {x : v.T}
    (hx : v.Holds x (valuesAt y is name v.fromStr).getLast?) : x = v.mVal := by
  rw [hexact.holds hx]
  cases hlast : (valuesAt y is name v.fromStr).getLast? with
  | none => rfl
  | some val => exact h name hname v hv val (List.mem_of_getLast? hlast)

theorem Noted.member {c c' : Registry (List String)}
    (hexact : ∀ name v, c.datas name = some v → v.Exact) (hwatched : c.Watched)
    (h : Noted y is c c') {i : String × Node} (hi : validName i.1 = true) :
    ∃ c'', loadMember y c c' i = some c'' ∧ Noted y (is ++ [i]) c c'' := by
  obtain ⟨c'', hmember, hloaded⟩ := h.loaded.member hi
  refine ⟨c'', hmember, hloaded, ?_⟩
  obtain ⟨names, hworld, hsteady⟩ := h.grown
  rw [loadMember, toLower_of_validName hi] at hmember
  split at hmember
  · -- a node without a name
    rename_i hempty
    cases hmember
    exact ⟨names, hworld, fun hnil => (hsteady hnil).concat fun hne => absurd hempty hne⟩
  · rename_i hempty
    cases hfound : c.datas i.1 with
    | none =>
      simp only [Registry.lookUpBase, hfound, Option.map_none, Option.some.injEq] at hmember
      cases hmember
      refine ⟨names, hworld, fun hnil => (hsteady hnil).concat fun _ v hv => ?_⟩
      rw [hfound] at hv
      cases hv
    | some v₀ =>
      obtain ⟨x, hx, hholds⟩ := h.loaded.holds i.1 hempty v₀ hfound
      simp only [Registry.lookUpBase, hfound, Option.map_some, Registry.fromString, hx,
        Option.some.injEq] at hmember
      have hworld' : c''.world = ((v₀.setVal x).fromString (memberText y i.2) c'.world).2 := by
        rw [← hmember]
      have hexact₀ := hexact i.1 v₀ hfound
      rcases CfgVar.fromString_noted (v := v₀.setVal x) hexact₀ (hwatched i.1 v₀ hfound)
        (memberText y i.2) c'.world with ⟨hsame, hquiet⟩ | hnoted
      · refine ⟨names, by rw [hworld', hquiet, hworld], fun hnil => ?_⟩
        apply (hsteady hnil).concat
        intro _ v hv val hconv
        cases hfound.symm.trans hv
        -- so far, the variable has held its first value
        exact (hsame val hconv).trans ((hsteady hnil).holds hempty hfound hexact₀ hholds)
      · refine ⟨names ++ [i.1], by rw [hworld', hnoted, hworld, List.append_assoc], fun hnil => ?_⟩
        simp at hnil

theorem Loaded.exact {c c' : Registry W} (hexact : ∀ name v, c.datas name = some v → v.Exact)
    (h : Loaded y is c c') : ∀ name v, c'.datas name = some v → v.Exact := by
  intro name w hw
  obtain ⟨v, x, hv, rfl⟩ := h.setVal hw
  exact hexact name v hv

end Config
end SvrFrame
