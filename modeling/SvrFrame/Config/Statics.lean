import SvrFrame.Config.LookUp

namespace SvrFrame
namespace Config
namespace Datas
open Library
set_option autoImplicit true

variable {τ : Type} {El : τ → Type} {s t : Datas El}

def var (s : Datas El) (name : String) : Option (NamedVar El) :=
  (s.datas name).bind fun v => s.vars[v]?

theorem empty_named : Named (empty : Datas El) :=
  ⟨fun _ _ h => (by cases h), fun _ _ h => by cases h⟩

theorem Named.var_eq_none (hs : Named s) (name : String) :
    s.var name = none ↔ s.datas name = none := by
  rw [var]
  cases hv : s.datas name with
  | none => exact iff_of_true rfl rfl
  | some v =>
    obtain ⟨x, hx, -⟩ := hs.name name v hv
    simp [hx]

theorem Named.var_register (hs : Named s) (name : String) (x : NamedVar El) (name' : String) :
    (s.register name x).var name' = if name' = name then some x else s.var name' := by
  by_cases heq : name' = name
  · rw [if_pos heq, heq, var, register_datas, Function.update_self, Option.bind_some,
      register_var_new]
  · rw [if_neg heq, var, var, register_datas, Function.update_of_ne heq]
    cases hv : s.datas name' with
    | none => rfl
    | some v =>
      obtain ⟨y, hy, -⟩ := hs.name name' v hv
      rw [Option.bind_some, Option.bind_some, hy, s.register_var_old hy]

variable [DecidableEq τ] {c : Call El} {cs : List (Call El)}

/-- The initialisers of the static variables, in the order in which they run. What one of them
throws, nobody catches. -/
def initialise (s : Datas El) : List (Call El) → Except String (Datas El)
  | [] => .ok s
  | c :: cs =>
    match s.call c with
    | (.invalidArgument name, _) => .error name
    | (.ptr _, s) => s.initialise cs

/-- The name under which the call registers a variable, if there is none. -/
def Call.creates : Call El → Option String
  | .lookUp _ name _ _ => some name
  | .find _ _ | .lookUpBase _ => none

/-- The variable that the call makes where there is none of the name. -/
def Call.made : Call El → Option (NamedVar El)
  | .lookUp T name defaultValue desc => some ⟨T, name, desc, defaultValue⟩
  | .find _ _ | .lookUpBase _ => none

theorem Named.call (hs : Named s) (c : Call El) : Named (s.call c).2 := hs.step (c := c) rfl

theorem Named.call_throws_iff (hs : Named s) (c : Call El) (text : String) :
    (s.call c).1 = .invalidArgument text ↔ c.creates = some text ∧ validName text = false := by
  cases c with
  | find T name =>
    simp only [Datas.call, Datas.find]
    cases s.datas name <;> simp [Call.creates]
  | lookUpBase name => simp [Datas.call, Datas.lookUpBase, Call.creates]
  | lookUp T name defaultValue desc =>
    simp only [Datas.call, lookUp, Call.creates, Option.some.injEq]
    cases hname : s.datas name with
    | none =>
      cases hvalid : validName name with
      | false =>
        simp only [if_true, Found.invalidArgument.injEq]
        exact ⟨fun h => ⟨h, h ▸ hvalid⟩, fun h => h.1⟩
      | true =>
        simp only [Bool.true_eq_false, if_false, reduceCtorEq, false_iff]
        rintro ⟨rfl, hnot⟩
        rw [hvalid] at hnot
        cases hnot
    | some v =>
      simp only [reduceCtorEq, false_iff]
      rintro ⟨rfl, hnot⟩
      rw [hs.valid name v hname] at hnot
      cases hnot

/-- A call that does not throw adds the variable that it makes, where there is none yet. -/
theorem Named.call_var (hs : Named s) (h : s.call c = (.ptr v, t)) (name : String) :
    t.var name = (s.var name).or (if c.creates = some name then c.made else none) := by
  have ht : t = (s.call c).2 := (congrArg Prod.snd h).symm
  cases c with
  | find T _ | lookUpBase _ =>
    rw [ht]
    exact (Option.or_none).symm
  | lookUp T name' defaultValue desc =>
    simp only [Call.creates, Call.made, Option.some.injEq]
    simp only [Datas.call, lookUp] at h ht
    cases hv : s.datas name' with
    | some v =>
      rw [hv] at ht
      rw [ht]
      by_cases heq : name' = name
      · have hsome : s.var name ≠ none := fun hnone => by
          rw [hs.var_eq_none, ← heq, hv] at hnone
          cases hnone
        obtain ⟨x, hx⟩ := Option.ne_none_iff_exists'.1 hsome
        rw [hx, Option.some_or]
      · rw [if_neg heq, Option.or_none]
    | none =>
      rw [hv] at h ht
      cases hvalid : validName name' with
      | false => simp [hvalid] at h
      | true =>
        simp only [hvalid, Bool.true_eq_false, if_false] at ht
        rw [ht, hs.var_register, newVar, toLower_of_validName hvalid]
        by_cases heq : name = name'
        · subst heq
          rw [if_pos rfl, if_pos rfl, (hs.var_eq_none name).2 hv, Option.none_or]
        · rw [if_neg heq, if_neg (Ne.symm heq), Option.or_none]

theorem Named.initialise_throws_iff (hs : Named s) (cs : List (Call El)) (text : String) :
    s.initialise cs = .error text ↔
      (cs.filterMap Call.creates).find? (fun name => !validName name) = some text := by
  induction cs generalizing s with
  | nil => simp [initialise]
  | cons c cs ih =>
    have hnext := ih (hs.call c)
    rw [initialise]
    split
    · rename_i name t hcall
      obtain ⟨hcreates, hvalid⟩ := (hs.call_throws_iff c name).1 (congrArg Prod.fst hcall)
      simp [hcreates, hvalid]
    · rename_i v t hcall
      rw [hcall] at hnext
      rw [hnext]
      cases hcreates : c.creates with
      | none => rw [List.filterMap_cons_none hcreates]
      | some name =>
        have hvalid : validName name = true := by
          by_contra hnot
          have hthrows := (hs.call_throws_iff c name).2 ⟨hcreates, eq_false_of_ne_true hnot⟩
          rw [hcall] at hthrows
          cases hthrows
        rw [List.filterMap_cons_some hcreates]
        simp [hvalid]

theorem Named.initialise_var (hs : Named s) (h : s.initialise cs = .ok t) (name : String) :
    t.var name = (s.var name).or
      ((cs.find? fun c => c.creates = some name).bind Call.made) := by
  induction cs generalizing s with
  | nil =>
    cases h
    exact Option.or_none.symm
  | cons c cs ih =>
    rw [initialise] at h
    split at h
    · cases h
    · rename_i v u hcall
      have hu : Named u := by
        have hnext := hs.call c
        rw [hcall] at hnext
        exact hnext
      rw [ih hu h, hs.call_var hcall name, Option.or_assoc, List.find?_cons]
      by_cases hc : c.creates = some name
      · have hmade : ∃ x, c.made = some x := by
          cases c with
          | lookUp T name defaultValue desc => exact ⟨_, rfl⟩
          | find | lookUpBase => cases hc
        obtain ⟨x, hx⟩ := hmade
        simp [hc, hx]
      · simp [hc]

/-- The initialisers throw the first illegal name among those that they create variables of, and
where there is none, every name has the variable of the first initialiser that creates it. -/
theorem initialise_law (cs : List (Call El)) :
    (∀ text, (empty : Datas El).initialise cs = .error text ↔
      (cs.filterMap Call.creates).find? (fun name => !validName name) = some text) ∧
    ∀ s, (empty : Datas El).initialise cs = .ok s → ∀ name,
      s.var name = (cs.find? fun c => c.creates = some name).bind Call.made :=
  ⟨fun text => empty_named.initialise_throws_iff cs text,
    fun _ hs name => empty_named.initialise_var hs name⟩

/-- The second initialiser of a name leaves the variable of the first one. -/
theorem initialise_law_port : ∃ s : Datas (fun b : Bool => if b then Int else String),
    empty.initialise [.lookUp true "system.port" (8080 : Int) "port",
      .lookUp true "system.port" (80 : Int) ""] = .ok s ∧
      s.var "system.port" = some ⟨true, "system.port", "port", (8080 : Int)⟩ := by
  obtain ⟨s, hs⟩ : ∃ s : Datas (fun b : Bool => if b then Int else String),
      empty.initialise [.lookUp true "system.port" (8080 : Int) "port",
        .lookUp true "system.port" (80 : Int) ""] = .ok s := ⟨_, rfl⟩
  exact ⟨s, hs, (initialise_law _).2 s hs "system.port"⟩

/-- The variable that `fiber.cpp` makes for the size of the stacks. -/
def gFiberStackSize (T : τ) (defaultValue : El T) : Call El :=
  .lookUp T "fiber stack size" defaultValue "fiber stack size"

/-- In whatever order the initialisers run, a program with that of `fiber.cpp` does not get to
`main`, for its name has blanks. -/
theorem initialise_fiber_throws {T : τ} {defaultValue : El T}
    (h : gFiberStackSize T defaultValue ∈ cs) :
    ∃ text, (empty : Datas El).initialise cs = .error text := by
  have hmem : "fiber stack size" ∈ cs.filterMap Call.creates :=
    List.mem_filterMap.2 ⟨_, h, rfl⟩
  have hinvalid : (!validName "fiber stack size") = true := by decide
  obtain ⟨text, htext⟩ := Option.isSome_iff_exists.1
    (List.find?_isSome (p := fun name => !validName name) |>.2
      ⟨"fiber stack size", hmem, hinvalid⟩)
  exact ⟨text, (empty_named.initialise_throws_iff cs text).2 htext⟩

end Datas
end Config
end SvrFrame
