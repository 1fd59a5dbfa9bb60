import SvrFrame.Config.Load
import SvrFrame.Yaml.Flow
import Mathlib.Data.List.Basic

namespace SvrFrame
namespace Config
set_option autoImplicit true

/-- A `CfgVar<T, FromStr>` of any type `T`, with the `operator==` of `T`. The listeners act on a
world of their own. -/
structure CfgVar (W : Type) where
  T : Type
  eq : T → T → Bool
  fromStr : String → Except Exn T
  mVal : T
  mCbs : List (T → T → W → W)

/-- The variables by their names, and the world of their listeners. -/
structure Registry (W : Type) where
  datas : String → Option (CfgVar W)
  world : W

namespace CfgVar
variable {W : Type}

def setVal (v : CfgVar W) (val : v.T) : CfgVar W := { v with mVal := val }

/-- `SetValue` in one thread. -/
def setValue (v : CfgVar W) (val : v.T) (w : W) : CfgVar W × W :=
  if v.eq v.mVal val then (v, w)
  else (v.setVal val, v.mCbs.foldl (fun w cb => cb v.mVal val w) w)

/-- `FromString`, which catches what the conversion throws. -/
def fromString (v : CfgVar W) (val : String) (w : W) : CfgVar W × W :=
  match v.fromStr val with
  | .ok val => v.setValue val w
  | .error _ => (v, w)

end CfgVar

namespace Registry
variable {W : Type}

def fromString (name : String) (val : String) (c : Registry W) : Option (Registry W) :=
  match c.datas name with
  | some v =>
    let (v', w) := v.fromString val c.world
    some ⟨fun name' => if name' = name then some v' else c.datas name', w⟩
  | none => some c

/-- The pointer that `LookUpBase` returns leads to the variable. -/
def lookUpBase (c : Registry W) (name : String) :
    Option (String → Registry W → Option (Registry W)) :=
  (c.datas name).map fun _ => fromString name

def loadFromYaml (y : YamlCpp) (root : Node) (c : Registry W) : Option (Registry W) :=
  Config.loadFromYaml y c.lookUpBase root c

end Registry

/-! ### What a document means -/

mutual
/-- Every key of the maps is a non-empty scalar. -/
def keyed : Node → Bool
  | .map es => keyedEntries es
  | _ => true

def keyedEntries : List (Node × Node) → Bool
  | [] => true
  | (k, v) :: es => scalarText k ≠ "" && keyed v && keyedEntries es
end

mutual
/-- The nodes that keys lead to, in pre-order, each with the keys on its path. -/
def nodes (path : List String) : Node → List (List String × Node)
  | .map es => (path, .map es) :: entryNodes path es
  | node => [(path, node)]

def entryNodes (path : List String) : List (Node × Node) → List (List String × Node)
  | [] => []
  | (k, v) :: es => nodes (path ++ [scalarText k]) v ++ entryNodes path es
end

def dotJoined (path : List String) : String := ".".intercalate path

/-- What the nodes of one name convert to, as far as they do. -/
def meanings (y : YamlCpp) (root : Node) (name : String) (fromStr : String → Except Exn T) :
    List T :=
  (nodes [] root).filterMap fun p =>
    if p.1.all validName ∧ dotJoined p.1 = name then (fromStr (memberText y p.2)).toOption else none

theorem dotJoined_concat (h : path ≠ []) (k : String) :
    dotJoined (path ++ [k]) = dotJoined path ++ "." ++ k := by
  rw [dotJoined, String.intercalate_append_of_ne_nil h (List.cons_ne_nil k []),
    String.intercalate_singleton]
  rfl

theorem dotJoined_eq_empty (h : dotJoined path = "") : path = [] ∨ path = [""] := by
  induction path using List.reverseRecOn with
  | nil => exact .inl rfl
  | append_singleton path k _ =>
    by_cases hnil : path = []
    · subst hnil
      right
      simpa [dotJoined] using h
    · rw [dotJoined_concat hnil] at h
      have hlen := congrArg String.length h
      simp only [String.length_append] at hlen
      have hdot : ".".length = 1 := rfl
      have hzero : "".length = 0 := rfl
      omega

/-- `ListAllMember` takes an empty prefix for that of the root, so that empty keys at the beginning
of a path leave no trace in the name. -/
def stripped (path : List String) : List String := path.dropWhile (· = "")

theorem stripped_concat (path : List String) (k : String) :
    stripped (path ++ [k]) = if stripped path = [] then stripped [k] else stripped path ++ [k] := by
  rw [stripped, List.dropWhile_append]
  simp only [List.isEmpty_iff]
  rfl

theorem stripped_eq_self (h : path.head? ≠ some "") : stripped path = path := by
  cases path with
  | nil => rfl
  | cons k path =>
    have hk : k ≠ "" := by
      intro hk
      exact h (congrArg some hk)
    simp [stripped, hk]

theorem dotJoined_stripped_single (k : String) : dotJoined (stripped [k]) = k := by
  by_cases hk : k = ""
  · subst hk
    rfl
  · simp [stripped, hk, dotJoined]

theorem dotJoined_stripped_ne_empty (h : stripped path ≠ []) : dotJoined (stripped path) ≠ "" := by
  intro hempty
  have hone := (dotJoined_eq_empty hempty).resolve_left h
  have hhead := List.head?_dropWhile_not (· = "") path
  rw [← stripped, hone] at hhead
  simp at hhead

theorem memberName_stripped (path : List String) (key : Node) :
    memberName (dotJoined (stripped path)) key =
      dotJoined (stripped (path ++ [scalarText key])) := by
  rw [stripped_concat]
  by_cases h : stripped path = []
  · rw [if_pos h, dotJoined_stripped_single, h]
    rfl
  · rw [if_neg h, dotJoined_concat h, memberName, if_neg (dotJoined_stripped_ne_empty h)]

theorem validName_append (a b : String) : validName (a ++ b) = (validName a && validName b) := by
  simp only [validName, String.toList_append, List.all_append]

theorem validName_dotJoined (path : List String) :
    validName (dotJoined path) = path.all validName := by
  have hdot : validName "." = true := by decide
  induction path using List.reverseRecOn with
  | nil => decide
  | append_singleton path k ih =>
    by_cases h : path = []
    · subst h
      simp [dotJoined]
    · rw [dotJoined_concat h, validName_append, validName_append, ih, hdot, List.all_append]
      simp

theorem validName_stripped (path : List String) :
    validName (dotJoined (stripped path)) = path.all validName := by
  have hempty : validName "" = true := by decide
  rw [validName_dotJoined]
  induction path with
  | nil => rfl
  | cons k path ih =>
    by_cases hk : k = ""
    · subst hk
      rw [List.all_cons, hempty, Bool.true_and]
      exact ih
    · simp [stripped, hk]

/-- A valid name has no capital letter. -/
theorem toLower_of_validName (h : validName name = true) : toLower name = name := by
  have hlower : "abcdefghijklmnopqrstuvwxyz_.0123456789".toList.all (fun c => c.toLower = c) =
      true := by decide
  have hmap : name.toList.map Char.toLower = name.toList.map id := by
    refine List.map_congr_left fun c hc =>
      of_decide_eq_true (List.all_eq_true.1 hlower c ?_)
    have hvalid := List.all_eq_true.1 h c hc
    exact List.contains_iff_mem.1 hvalid
  rw [toLower, hmap, List.map_id, String.ofList_toList]

mutual
theorem prefix_of_mem_nodes {p : List String × Node} (n : Node) (path : List String)
    (h : p ∈ nodes path n) : path <+: p.1 := by
  cases n with
  | map es =>
    rcases List.mem_cons.1 h with rfl | h
    · exact List.prefix_rfl
    · exact prefix_of_mem_entryNodes es path h
  | _ =>
    cases List.mem_singleton.1 h
    exact List.prefix_rfl

theorem prefix_of_mem_entryNodes {p : List String × Node} (es : List (Node × Node))
    (path : List String) (h : p ∈ entryNodes path es) : path <+: p.1 := by
  cases es with
  | nil => cases h
  | cons e es =>
    rcases List.mem_append.1 h with h | h
    · exact (List.prefix_append path _).trans (prefix_of_mem_nodes e.2 _ h)
    · exact prefix_of_mem_entryNodes es path h
end

/-- The nodes whose path is legal, with its name. -/
def named (ps : List (List String × Node)) : List (String × Node) :=
  (ps.filter fun p => p.1.all validName).map fun p => (dotJoined p.1, p.2)

/-- The nodes whose path is legal, with the name that the flattening gives it. -/
def listed (ps : List (List String × Node)) : List (String × Node) :=
  (ps.filter fun p => p.1.all validName).map fun p => (dotJoined (stripped p.1), p.2)

theorem listed_append (ps qs : List (List String × Node)) :
    listed (ps ++ qs) = listed ps ++ listed qs := by
  simp only [listed, List.filter_append, List.map_append]

theorem listed_eq_nil (h : ∀ p ∈ ps, path <+: p.1) (hpath : path.all validName = false) :
    listed ps = [] := by
  rw [listed, List.map_eq_nil_iff, List.filter_eq_nil_iff]
  intro p hp hall
  obtain ⟨l, hl⟩ := h p hp
  rw [← hl, List.all_append, hpath] at hall
  cases hall

mutual
/-- The flattening lists the nodes with a legal path, in pre-order. -/
theorem listAllMember_listed (n : Node) (path : List String) :
    listAllMember (dotJoined (stripped path)) n = listed (nodes path n) := by
  have hnil (hvalid : path.all validName = false) : listed (nodes path n) = [] :=
    listed_eq_nil (fun p => prefix_of_mem_nodes n path) hvalid
  cases hvalid : path.all validName with
  | false =>
    rw [hnil hvalid]
    cases n <;> simp [listAllMember, validName_stripped, hvalid]
  | true =>
    cases n with
    | map es =>
      rw [listAllMember, if_pos (validName_stripped path ▸ hvalid), listEntries_listed es path]
      simp [listed, nodes, hvalid]
    | _ => simp [listAllMember, listed, nodes, validName_stripped, hvalid]

theorem listEntries_listed (es : List (Node × Node)) (path : List String) :
    listEntries (dotJoined (stripped path)) es = listed (entryNodes path es) := by
  cases es with
  | nil => rfl
  | cons e es =>
    obtain ⟨k, v⟩ := e
    rw [listEntries, memberName_stripped, listAllMember_listed v _, listEntries_listed es path,
      entryNodes, listed_append]
end

mutual
theorem keys_ne_empty {p : List String × Node} (n : Node) (path : List String)
    (hpath : ∀ k ∈ path, k ≠ "") (h : keyed n = true) (hp : p ∈ nodes path n) :
    ∀ k ∈ p.1, k ≠ "" := by
  cases n with
  | map es =>
    rcases List.mem_cons.1 hp with rfl | hp
    · exact hpath
    · exact entryKeys_ne_empty es path hpath h hp
  | _ =>
    cases List.mem_singleton.1 hp
    exact hpath

theorem entryKeys_ne_empty {p : List String × Node} (es : List (Node × Node)) (path : List String)
    (hpath : ∀ k ∈ path, k ≠ "") (h : keyedEntries es = true) (hp : p ∈ entryNodes path es) :
    ∀ k ∈ p.1, k ≠ "" := by
  cases es with
  | nil => cases hp
  | cons e es =>
    obtain ⟨k, v⟩ := e
    simp only [keyedEntries, Bool.and_eq_true, decide_eq_true_eq] at h
    obtain ⟨⟨hkey, hv⟩, hes⟩ := h
    rcases List.mem_append.1 hp with hp | hp
    · have hpath' : ∀ k' ∈ path ++ [scalarText k], k' ≠ "" := by
        intro k' hk'
        rcases List.mem_append.1 hk' with hk' | hk'
        · exact hpath k' hk'
        · rw [List.mem_singleton.1 hk']
          exact hkey
      exact keys_ne_empty v _ hpath' hv hp
    · exact entryKeys_ne_empty es path hpath hes hp
end

/-- Where no key is empty, the names are the whole paths. -/
theorem listAllMember_eq (root : Node) (h : keyed root = true) :
    listAllMember "" root = named (nodes [] root) := by
  have hlisted : listAllMember "" root = listed (nodes [] root) := listAllMember_listed root []
  rw [hlisted, listed, named]
  apply List.map_congr_left
  intro p hp
  have hkeys := keys_ne_empty root [] (fun _ hk => by cases hk) h (List.mem_filter.1 hp).1
  have hhead : p.1.head? ≠ some "" := by
    intro hhead
    exact hkeys "" (List.mem_of_mem_head? hhead) rfl
  rw [stripped_eq_self hhead]

/-! ### What the variables hold -/

/-- The variable holds the value, or one that its type does not tell from it, or has kept its
own. -/
def CfgVar.Holds {W : Type} (v : CfgVar W) (x : v.T) : Option v.T → Prop
  | some val => x = val ∨ v.eq x val = true
  | none => x = v.mVal

theorem CfgVar.fromString_holds {W : Type} {v : CfgVar W} {x : v.T} {vals : List v.T}
    (hx : v.Holds x vals.getLast?) (text : String) (w : W) :
    ∃ x', ((v.setVal x).fromString text w).1 = v.setVal x' ∧
      v.Holds x' (vals ++ (v.fromStr text).toOption.toList).getLast? := by
  simp only [fromString]
  cases hval : v.fromStr text with
  | error e =>
    have hkept : (v.setVal x).fromStr text = .error e := hval
    rw [hkept]
    refine ⟨x, rfl, ?_⟩
    simpa [Except.toOption] using hx
  | ok val =>
    have hset : (v.setVal x).fromStr text = .ok val := hval
    have hlast :
        (vals ++ (Except.ok val : Except Exn v.T).toOption.toList).getLast? = some val := by
      simp [Except.toOption]
    rw [hset, hlast]
    change ∃ x', ((v.setVal x).setValue val w).1 = _ ∧ _
    simp only [setValue]
    split
    · rename_i heq
      exact ⟨x, rfl, .inr heq⟩
    · exact ⟨val, rfl, .inl rfl⟩

def valuesAt (y : YamlCpp) (is : List (String × Node)) (name : String)
    (fromStr : String → Except Exn T) : List T :=
  is.filterMap fun i => if i.1 = name then (fromStr (memberText y i.2)).toOption else none

theorem meanings_eq (y : YamlCpp) (root : Node) (name : String) (fromStr : String → Except Exn T) :
    meanings y root name fromStr = valuesAt y (named (nodes [] root)) name fromStr := by
  simp only [meanings, valuesAt, named, List.filterMap_map, List.filterMap_filter]
  refine List.filterMap_congr fun p _ => ?_
  by_cases hvalid : p.1.all validName = true <;> simp [hvalid]

/-- What loading the members `is` has made of the registry. -/
structure Loaded (y : YamlCpp) (is : List (String × Node)) (c c' : Registry W) : Prop where
  unnamed : c'.datas "" = c.datas ""
  absent : ∀ name, c.datas name = none → c'.datas name = none
  holds : ∀ name ≠ "", ∀ v, c.datas name = some v → ∃ x, c'.datas name = some (v.setVal x) ∧
    v.Holds x (valuesAt y is name v.fromStr).getLast?

theorem Loaded.refl (y : YamlCpp) (c : Registry W) : Loaded y [] c c :=
  ⟨rfl, fun _ h => h, fun _ _ v hv => ⟨v.mVal, hv, rfl⟩⟩

/-- One turn of the loop of `LoadFromYaml`. -/
def loadMember (y : YamlCpp) (c₀ : Registry W) (c : Registry W) (i : String × Node) :
    Option (Registry W) :=
  if i.1 = "" then some c
  else match c₀.lookUpBase (toLower i.1) with
    | some fromString => fromString (memberText y i.2) c
    | none => some c

theorem loadFromYaml_members (y : YamlCpp) (root : Node) (c : Registry W) :
    c.loadFromYaml y root = (listAllMember "" root).foldlM (loadMember y c) c := by
  refine congrArg (fun f => List.foldlM f c _) (funext fun s => funext fun i => ?_)
  simp only [loadMember]
  cases c.lookUpBase (toLower i.1) <;> rfl

/-- One more member. -/
theorem Loaded.member {c c' : Registry W} (h : Loaded y is c c') (hi : validName i.1 = true) :
    ∃ c'', loadMember y c c' i = some c'' ∧ Loaded y (is ++ [i]) c c'' := by
  have hvalues (name : String) {T : Type} (fromStr : String → Except Exn T) :
      valuesAt y (is ++ [i]) name fromStr = valuesAt y is name fromStr ++
        if i.1 = name then (fromStr (memberText y i.2)).toOption.toList else [] := by
    simp only [valuesAt, List.filterMap_append, List.filterMap_cons, List.filterMap_nil]
    split <;> rename_i hv <;> split at hv <;> simp_all
  rw [loadMember, toLower_of_validName hi]
  by_cases hempty : i.1 = ""
  · refine ⟨c', if_pos hempty, h.unnamed, h.absent, fun name hname v hv => ?_⟩
    rw [hvalues, if_neg fun he => hname (he.symm.trans hempty), List.append_nil]
    exact h.holds name hname v hv
  · rw [if_neg hempty, Registry.lookUpBase]
    cases hfound : c.datas i.1 with
    | none =>
      refine ⟨c', rfl, h.unnamed, h.absent, fun name hname v hv => ?_⟩
      have hne : i.1 ≠ name := fun he => by rw [← he, hfound] at hv; cases hv
      rw [hvalues, if_neg hne, List.append_nil]
      exact h.holds name hname v hv
    | some v₀ =>
      obtain ⟨x₀, hx₀, hholds⟩ := h.holds i.1 hempty v₀ hfound
      obtain ⟨x', hset, hx'⟩ := CfgVar.fromString_holds hholds (memberText y i.2) c'.world
      simp only [Option.map_some, Registry.fromString, hx₀, hset]
      refine ⟨_, rfl, ?_, ?_, ?_⟩
      · exact (if_neg (Ne.symm hempty)).trans h.unnamed
      · intro name hnone
        have hne : name ≠ i.1 := fun he => by rw [he, hfound] at hnone; cases hnone
        exact (if_neg hne).trans (h.absent name hnone)
      · intro name hname v hv
        rw [hvalues]
        by_cases he : name = i.1
        · subst he
          cases hfound.symm.trans hv
          rw [if_pos rfl]
          exact ⟨x', if_pos rfl, hx'⟩
        · obtain ⟨x, hx, hholds⟩ := h.holds name hname v hv
          rw [if_neg (Ne.symm he), List.append_nil]
          exact ⟨x, (if_neg he).trans hx, hholds⟩

theorem load_run (y : YamlCpp) (c : Registry W) (is : List (String × Node))
    (his : ∀ i ∈ is, validName i.1 = true) :
    ∃ c', is.foldlM (loadMember y c) c = some c' ∧ Loaded y is c c' := by
  induction is using List.reverseRecOn with
  | nil => exact ⟨c, rfl, .refl y c⟩
  | append_singleton is i ih =>
    obtain ⟨c₁, hrun, h⟩ := ih fun j hj => his j (List.mem_append_left _ hj)
    obtain ⟨c₂, hmember, h⟩ := h.member (his i (by simp))
    refine ⟨c₂, ?_, h⟩
    rw [List.foldlM_append, hrun]
    simp only [Option.bind_eq_bind, Option.bind_some, List.foldlM_cons, List.foldlM_nil, hmember]
    rfl

/-- Loading a document never fails, and each variable with a name then holds what the last node of
its name that converts means, or what it held before. A variable whose name is empty stays. -/
theorem load_means (y : YamlCpp) (root : Node) (hkeys : keyed root = true) (c : Registry W) :
    ∃ c', c.loadFromYaml y root = some c' ∧ c'.datas "" = c.datas "" ∧
      (∀ name, c.datas name = none → c'.datas name = none) ∧
      ∀ name ≠ "", ∀ v, c.datas name = some v → ∃ x, c'.datas name = some (v.setVal x) ∧
        v.Holds x (meanings y root name v.fromStr).getLast? := by
  have hmembers : listAllMember "" root = named (nodes [] root) :=
    listAllMember_eq root hkeys
  obtain ⟨c', hrun, h⟩ := load_run y c (named (nodes [] root)) fun i hi => by
      obtain ⟨p, hp, rfl⟩ := List.mem_map.1 hi
      rw [validName_dotJoined]
      exact (List.mem_filter.1 hp).2
  refine ⟨c', ?_, h.unnamed, h.absent, fun name hname v hv => ?_⟩
  · rw [loadFromYaml_members, hmembers]
    exact hrun
  · rw [meanings_eq]
    exact h.holds name hname v hv

/-- A variable that takes any text for its value. -/
abbrev textVar (text : String) : CfgVar Unit := ⟨String, fun s t => s = t, .ok, text, []⟩

def oneVar (name text : String) : Registry Unit :=
  ⟨fun name' => if name' = name then some (textVar text) else none, ()⟩

def dottedDocument : Node :=
  .map [(.scalar "a", .map [(.scalar "b", .scalar "1")]), (.scalar "a.b", .scalar "2"),
    (.scalar "A", .map [(.scalar "b", .scalar "3")])]

theorem load_means_dotted : ∃ c', (oneVar "a.b" "0").loadFromYaml Flow.yaml dottedDocument = some c' ∧
    c'.datas "a.b" = some (textVar "2") := by
  obtain ⟨c', hload, -, -, hmeans⟩ := load_means Flow.yaml dottedDocument (by decide) (oneVar "a.b" "0")
  obtain ⟨x, hx, hholds⟩ := hmeans "a.b" (by decide) (textVar "0") rfl
  have hlast : (meanings Flow.yaml dottedDocument "a.b" (textVar "0").fromStr).getLast? =
      some "2" := by decide
  rw [hlast] at hholds
  have hval : x = "2" := hholds.elim id of_decide_eq_true
  exact ⟨c', hload, by rw [hx, hval]; rfl⟩

/-- A variable with an empty name is registered, and the root node has its name, but it is left
alone. -/
theorem empty_name_is_skipped :
    meanings Flow.yaml (.scalar "new") "" (textVar "old").fromStr = ["new"] ∧
    ∃ c', (oneVar "" "old").loadFromYaml Flow.yaml (.scalar "new") = some c' ∧
      c'.datas "" = some (textVar "old") ∧
      ¬ (textVar "old").Holds "old" (some "new") := by
  refine ⟨by decide, _, rfl, rfl, ?_⟩
  rintro (h | h)
  · exact absurd h (by decide)
  · exact absurd h (by decide)

end Config
end SvrFrame
