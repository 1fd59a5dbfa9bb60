import SvrFrame.Config.Lowercase

namespace SvrFrame
namespace Config
set_option autoImplicit true

/-! ### Paths that begin with empty keys -/

theorem self_mem_nodes (path : List String) (n : Node) : (path, n) ∈ nodes path n := by
  cases n with
  | map es => exact List.mem_cons_self
  | null | scalar text | seq items => exact List.mem_singleton_self _

/-- The nodes that a variable gets are those with a legal path whose keys, the empty ones at the
beginning left out, make up its name. -/
theorem mem_applied (root : Node) (name : String) (n : Node) :
    n ∈ applied root name ↔ name ≠ "" ∧ ∃ p ∈ nodes [] root,
      p.1.all validName = true ∧ dotJoined (stripped p.1) = name ∧ p.2 = n := by
  have hlisted : listAllMember "" root = listed (nodes [] root) := listAllMember_listed root []
  have hlower {p : List String × Node} (hvalid : p.1.all validName = true) :
      toLower (dotJoined (stripped p.1)) = dotJoined (stripped p.1) :=
    toLower_of_validName ((validName_stripped p.1).trans hvalid)
  rw [applied, hlisted, listed, List.filterMap_map, List.filterMap_filter, List.mem_filterMap]
  constructor
  · rintro ⟨p, hp, hn⟩
    rw [Option.ite_none_right_eq_some] at hn
    obtain ⟨hvalid, hn⟩ := hn
    simp only [Function.comp_apply, hlower hvalid, Option.ite_none_right_eq_some,
      Option.some.injEq] at hn
    obtain ⟨⟨hne, hname⟩, hn⟩ := hn
    constructor
    · exact hname ▸ hne
    · exact ⟨p, hp, hvalid, hname, hn⟩
  · rintro ⟨hne, p, hp, hvalid, hname, hn⟩
    apply Exists.intro p
    constructor
    · exact hp
    · have hself : toLower name = name := hname ▸ hlower hvalid
      simp only [hvalid, if_true, Function.comp_apply, hname, hn]
      exact if_pos ⟨hne, hself⟩

/-- The document leads to the name by a path that begins with an empty key. -/
def Strays (root : Node) (name : String) : Prop :=
  ∃ p ∈ nodes [] root, p.1.all validName = true ∧ p.1.head? = some "" ∧
    dotJoined (stripped p.1) = name

section
variable {W : Type}

theorem applied_of_changed {y : YamlCpp} {root : Node} {c c' : Registry W} {v : CfgVar W}
    (hv : c.datas name = some v) (hload : c.loadFromYaml y root = some c')
    (hchanged : c'.datas name ≠ some v) : ∃ n, n ∈ applied root name := by
  obtain ⟨c₁, hload₁, h₁⟩ := load_takes y root hv
  cases hload.symm.trans hload₁
  cases happlied : applied root name with
  | nil =>
    rw [happlied] at h₁
    exact (hchanged h₁).elim
  | cons n ns => exact ⟨n, List.mem_cons_self⟩

end

theorem textVar_inj (h : textVar s = textVar t) : s = t := by
  simpa [textVar] using h

theorem textVar_take (text x val : String) : (textVar text).take x val = val := by
  change (if decide (x = val) = true then x else val) = val
  split
  · rename_i heq
    exact of_decide_eq_true heq
  · rfl

/-- Of what is applied to a variable that takes any text, the last remains. -/
theorem textVar_changed (y : YamlCpp) (root : Node) (h : n ∈ applied root name) :
    ∃ text c', (oneVar name text).loadFromYaml y root = some c' ∧
      c'.datas name ≠ some (textVar text) := by
  obtain ⟨ns, last, hlast⟩ : ∃ ns last, applied root name = ns ++ [last] := by
    have hne : applied root name ≠ [] := List.ne_nil_of_mem h
    exact ⟨_, _, (List.dropLast_append_getLast hne).symm⟩
  have hfound (text : String) : (oneVar name text).datas name = some (textVar text) := if_pos rfl
  obtain ⟨c', hload, hdatas⟩ := load_takes y root (hfound (memberText y last ++ "x"))
  apply Exists.intro (memberText y last ++ "x")
  apply Exists.intro c'
  constructor
  · exact hload
  · rw [hlast, List.foldl_concat, textVar_take] at hdatas
    rw [hdatas]
    intro heq
    have hval : memberText y last = memberText y last ++ "x" := textVar_inj (Option.some.inj heq)
    have hlen := congrArg String.length hval
    rw [String.length_append] at hlen
    have hone : "x".length = 1 := rfl
    omega

/-- Only a node at its full path changes a variable, just when there is such a node or no path with
an empty key at its beginning leads to its name. -/
theorem changed_by_path_iff (y : YamlCpp) (root : Node) (name : String) :
    (∀ {W : Type} (c c' : Registry W) (v : CfgVar W), c.datas name = some v →
      c.loadFromYaml y root = some c' → c'.datas name ≠ some v →
      ∃ p ∈ nodes [] root, dotJoined p.1 = name) ↔
    (∃ p ∈ nodes [] root, dotJoined p.1 = name) ∨ ¬ Strays root name := by
  constructor
  · intro h
    by_cases hstrays : Strays root name
    · left
      by_cases hname : name = ""
      · exact ⟨([], root), self_mem_nodes [] root, hname.symm⟩
      · obtain ⟨p, hp, hvalid, -, hjoined⟩ := hstrays
        have happlied : p.2 ∈ applied root name := by
          rw [mem_applied]
          exact ⟨hname, p, hp, hvalid, hjoined, rfl⟩
        obtain ⟨text, c', hload, hchanged⟩ := textVar_changed y root happlied
        exact h (oneVar name text) c' (textVar text) (if_pos rfl) hload hchanged
    · exact .inr hstrays
  · intro h W c c' v hv hload hchanged
    rcases h with hpath | hstrays
    · exact hpath
    · obtain ⟨n, hn⟩ := applied_of_changed hv hload hchanged
      obtain ⟨-, p, hp, hvalid, hjoined, -⟩ := (mem_applied root name n).1 hn
      have hhead : p.1.head? ≠ some "" := by
        intro hhead
        exact hstrays ⟨p, hp, hvalid, hhead, hjoined⟩
      rw [stripped_eq_self hhead] at hjoined
      exact ⟨p, hp, hjoined⟩

def strayDocument : Node := .map [(.scalar "", .map [(.scalar "a", .scalar "1")])]

/-- The full path of the inner node is ".a", but the variable `a` takes its value. -/
theorem empty_key_changes : ∃ c',
    (oneVar "a" "0").loadFromYaml Flow.yaml strayDocument = some c' ∧
    c'.datas "a" = some (textVar "1") ∧ textVar "1" ≠ textVar "0" ∧
    ∀ p ∈ nodes [] strayDocument, dotJoined p.1 ≠ "a" := by
  apply Exists.intro
  constructor
  · rfl
  constructor
  · rfl
  constructor
  · intro heq
    exact absurd (textVar_inj heq) (by decide)
  · decide

end Config
end SvrFrame
