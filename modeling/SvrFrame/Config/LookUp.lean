import SvrFrame.Config.Registry
import SvrFrame.Library.Machine
import Mathlib.Logic.Function.Basic

namespace SvrFrame
namespace Config
open Library
set_option autoImplicit true

variable {τ : Type} {El : τ → Type}

/-- The members of a `CfgVar<T>` that its constructor sets, for the types `τ` that `LookUp` is
instantiated with. -/
structure NamedVar (El : τ → Type) where
  T : τ
  mName : String
  mDesc : String
  mVal : El T

/-- What a `CfgVar<T>::ptr` points to. -/
abbrev VarPtr := Nat

/-- `GetDatas()`, and the variables that have been made, in order. -/
structure Datas (El : τ → Type) where
  datas : String → Option VarPtr
  vars : List (NamedVar El)

/-- What a call returns, with `none` for `nullptr`, or throws. -/
inductive Found where
  | ptr (v : Option VarPtr)
  | invalidArgument (name : String)
  deriving DecidableEq, Repr

namespace Datas

def empty : Datas El := ⟨fun _ => none, []⟩

/-- `std::dynamic_pointer_cast<CfgVar<T>>`. -/
def cast [DecidableEq τ] (s : Datas El) (T : τ) (v : VarPtr) : Option VarPtr :=
  match s.vars[v]? with
  | some x => if x.T = T then some v else none
  | none => none

/-- `new CfgVar<T>(name, default_value, desc)`; `CfgVarBase` puts the name into lower case. -/
def newVar (T : τ) (name : String) (defaultValue : El T) (desc : String) : NamedVar El :=
  ⟨T, toLower name, desc, defaultValue⟩

@[simps] def register (s : Datas El) (name : String) (x : NamedVar El) : Datas El where
  datas := Function.update s.datas name (some s.vars.length)
  vars := s.vars ++ [x]

theorem register_var_old (s : Datas El) {v : VarPtr} (h : s.vars[v]? = some y) :
    (s.register name x).vars[v]? = some y := by
  rw [register_vars, List.getElem?_append_left (List.getElem?_eq_some_iff.1 h).1, h]

theorem register_var_new (s : Datas El) : (s.register name x).vars[s.vars.length]? = some x := by
  rw [register_vars, List.getElem?_concat_length]

def lookUp [DecidableEq τ] (s : Datas El) (T : τ) (name : String) (defaultValue : El T)
    (desc : String) : Found × Datas El :=
  match s.datas name with
  | some v => (.ptr (s.cast T v), s)
  | none =>
    if validName name = false then (.invalidArgument name, s)
    else (.ptr (some s.vars.length), s.register name (newVar T name defaultValue desc))

/-- `LookUp` without a default value. -/
def find [DecidableEq τ] (s : Datas El) (T : τ) (name : String) : Found :=
  match s.datas name with
  | some v => .ptr (s.cast T v)
  | none => .ptr none

def lookUpBase (s : Datas El) (name : String) : Found := .ptr (s.datas name)

/-- The calls, each under the lock of the registry. -/
inductive Call (El : τ → Type) where
  | lookUp (T : τ) (name : String) (defaultValue : El T) (desc : String)
  | find (T : τ) (name : String)
  | lookUpBase (name : String)

section Calls
variable [DecidableEq τ]

def call (s : Datas El) : Call El → Found × Datas El
  | .lookUp T name defaultValue desc => s.lookUp T name defaultValue desc
  | .find T name => (s.find T name, s)
  | .lookUpBase name => (s.lookUpBase name, s)

/-- The registry after a call, whoever makes it. -/
def step (s : Datas El) (c : Call El) : Option (Datas El) := some (s.call c).2

variable {s s' t : Datas El}

/-- A call either leaves the registry alone or registers a new variable. -/
theorem call_cases (s : Datas El) (c : Call El) : (s.call c).2 = s ∨
    ∃ T name defaultValue desc, c = .lookUp T name defaultValue desc ∧ s.datas name = none ∧
      validName name = true ∧ s.call c =
        (.ptr (some s.vars.length), s.register name (newVar T name defaultValue desc)) := by
  cases c with
  | lookUp T name defaultValue desc =>
    simp only [call, lookUp]
    cases hname : s.datas name with
    | some v => exact .inl rfl
    | none =>
      cases hvalid : validName name with
      | false => exact .inl rfl
      | true => exact .inr ⟨T, name, defaultValue, desc, rfl, hname, hvalid, rfl⟩
  | find | lookUpBase => exact .inl rfl

/-- Every key is a legal name, and is the name of its variable. -/
structure Named (s : Datas El) : Prop where
  valid : ∀ name v, s.datas name = some v → validName name = true
  name : ∀ name v, s.datas name = some v → ∃ x, s.vars[v]? = some x ∧ x.mName = name

theorem Named.step (hs : Named s) (h : s.step c = some s') : Named s' := by
  cases h
  rcases s.call_cases c with hsame | ⟨T, name, defaultValue, desc, -, -, hvalid, heq⟩
  · rw [hsame]
    exact hs
  · rw [heq]
    constructor
    · intro name' v hv
      rw [register_datas, Function.update_apply] at hv
      split at hv
      · rename_i hn
        rw [hn]
        exact hvalid
      · exact hs.valid name' v hv
    · intro name' v hv
      rw [register_datas, Function.update_apply] at hv
      split at hv
      · rename_i hn
        cases hv
        refine ⟨newVar T name defaultValue desc, s.register_var_new, ?_⟩
        rw [hn]
        exact toLower_of_validName hvalid
      · obtain ⟨x, hx, hxn⟩ := hs.name name' v hv
        exact ⟨x, s.register_var_old hx, hxn⟩

/-- The name is registered, with this object. -/
structure Fixed (s : Datas El) (name : String) (v : VarPtr) (x : NamedVar El) : Prop where
  ptr : s.datas name = some v
  var : s.vars[v]? = some x

theorem Fixed.step (hs : Fixed s name v x) (h : s.step c = some s') : Fixed s' name v x := by
  cases h
  rcases s.call_cases c with hsame | ⟨T, name', defaultValue, desc, -, hnone, -, heq⟩
  · rw [hsame]
    exact hs
  · rw [heq]
    have hne : name ≠ name' := by
      rintro rfl
      rw [hs.ptr] at hnone
      cases hnone
    constructor
    · exact (Function.update_of_ne hne _ _).trans hs.ptr
    · exact s.register_var_old hs.var

theorem Fixed.reach (hs : Fixed s name v x) (h : Reach Datas.step (fun _ _ => True) s t) :
    Fixed t name v x :=
  h.invariant (I := fun s => Fixed s name v x) hs fun hs _ ht => hs.step ht

/-- What the calls for a registered name return. -/
theorem Fixed.calls (hs : Fixed s name v x) (T : τ) (defaultValue : El T) (desc : String) :
    s.call (.lookUp T name defaultValue desc) = (.ptr (if x.T = T then some v else none), s) ∧
      s.call (.find T name) = (.ptr (if x.T = T then some v else none), s) ∧
      s.call (.lookUpBase name) = (.ptr (some v), s) := by
  have hcast : s.cast T v = if x.T = T then some v else none := by rw [cast, hs.var]
  simp only [call, lookUp, find, lookUpBase, hs.ptr, hcast, and_self]

theorem lookUp_throws_iff (s : Datas El) (T : τ) (name : String) (defaultValue : El T)
    (desc : String) : (∃ text, (s.call (.lookUp T name defaultValue desc)).1 =
      .invalidArgument text) ↔ s.datas name = none ∧ validName name = false := by
  simp only [call, lookUp]
  cases hname : s.datas name with
  | some v => simp
  | none =>
    cases hvalid : validName name <;> simp

/-- The registry in every state that calls can lead to: the keys are legal and the names of their
variables, the first creating `LookUp` of a name fixes its variable for ever, and the others find
this variable or throw for an illegal name that is not registered. -/
theorem registry_law (h : Reach step (fun _ _ => True) (empty : Datas El) s) :
    (∀ name v, s.datas name = some v →
      validName name = true ∧ ∃ x, s.vars[v]? = some x ∧ x.mName = name) ∧
    (∀ T name defaultValue desc v s', s.datas name = none →
      s.call (.lookUp T name defaultValue desc) = (.ptr (some v), s') →
      ∀ t, Reach step (fun _ _ => True) s' t →
        t.datas name = some v ∧ t.vars[v]? = some ⟨T, name, desc, defaultValue⟩ ∧
        ∀ T' defaultValue' desc',
          t.call (.lookUp T' name defaultValue' desc') =
            (.ptr (if T = T' then some v else none), t) ∧
          t.call (.find T' name) = (.ptr (if T = T' then some v else none), t) ∧
          t.call (.lookUpBase name) = (.ptr (some v), t)) ∧
    ∀ T name defaultValue desc,
      ((∃ text, (s.call (.lookUp T name defaultValue desc)).1 = .invalidArgument text) ↔
        s.datas name = none ∧ validName name = false) ∧
      (validName name = false → (s.call (.lookUp T name defaultValue desc)).2 = s) := by
  have hnamed : Named s := h.invariant ⟨fun _ _ h => (by cases h), fun _ _ h => by cases h⟩
    fun hs _ ht => hs.step ht
  refine ⟨?_, ?_, ?_⟩
  · intro name v hv
    exact ⟨hnamed.valid name v hv, hnamed.name name v hv⟩
  · intro T name defaultValue desc v s' hnone hcall t ht
    have hfixed : Fixed s' name v ⟨T, name, desc, defaultValue⟩ := by
      simp only [call, lookUp, hnone] at hcall
      split at hcall
      · cases hcall
      · rename_i hvalid
        cases hcall
        refine ⟨Function.update_self _ _ _, ?_⟩
        rw [register_var_new, newVar, toLower_of_validName (eq_true_of_ne_false hvalid)]
    have hfixed := hfixed.reach ht
    exact ⟨hfixed.ptr, hfixed.var, hfixed.calls⟩
  · intro T name defaultValue desc
    refine ⟨lookUp_throws_iff s T name defaultValue desc, ?_⟩
    intro hvalid
    rcases s.call_cases (.lookUp T name defaultValue desc) with
      hsame | ⟨_, _, _, _, heq, -, hvalid', -⟩
    · exact hsame
    · cases heq
      rw [hvalid] at hvalid'
      cases hvalid'

/-- `system.port` is made an `int`, asked for as a string, and stays what it was. -/
theorem registry_law_port : ∃ s : Datas (fun b : Bool => if b then Int else String),
    Reach step (fun _ _ => True) empty s ∧ s.datas "system.port" = some 0 ∧
      s.vars[0]? = some ⟨true, "system.port", "port", (8080 : Int)⟩ ∧
      s.call (.lookUp false "system.port" "none" "") = (.ptr none, s) := by
  have h : Reach step (fun _ _ => True) (empty : Datas fun b : Bool => if b then Int else String)
      empty := .refl
  obtain ⟨hptr, hvar, hcalls⟩ := (registry_law h).2.1 true "system.port" (8080 : Int) "port" 0 _ rfl
    rfl _ (.tail (a := .lookUp false "system.port" "none" "") .refl trivial rfl)
  exact ⟨_, .tail (a := .lookUp false "system.port" "none" "")
    (.tail (a := .lookUp true "system.port" (8080 : Int) "port") .refl trivial rfl) trivial rfl,
    hptr, hvar, (hcalls false "none" "").1⟩

end Calls

end Datas
end Config
end SvrFrame
