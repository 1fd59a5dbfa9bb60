import Mathlib.Data.List.Induction

namespace SvrFrame
set_option autoImplicit true

/-- A defined `YAML::Node`; an undefined one is no node. -/
inductive Node where
  | null
  | scalar (text : String)
  | seq (items : List Node)
  | map (entries : List (Node × Node))

/-- What the codecs, yaml-cpp and `boost::lexical_cast` throw; each of them is a
`std::exception`. -/
inductive Exn where
  | parserException
  | badSubscript
  | typedBadConversion
  | invalidNode
  | badLexicalCast
  | logicError (what : String)
  deriving DecidableEq, Repr

/-- A computation that does not throw has not thrown in its first part. -/
theorem bind_eq_ok {x : Except ε α} {f : α → Except ε β} :
    (x >>= f) = .ok b ↔ ∃ a, x = .ok a ∧ f a = .ok b := by
  cases x with
  | error e => simp [bind, Except.bind]
  | ok a => simp [bind, Except.bind]

/-- yaml-cpp: `Load`, the emitter, the conversion of a scalar to `size_t`, and what
`as<std::string>` makes of a null node, which depends on its version. -/
structure YamlCpp where
  load : String → Except Exn Node
  emit : Node → String
  asIndex : String → Option Nat
  nullText : Option String

/-- `Load` of an emitted node gives back the same node. -/
def YamlCpp.Faithful (y : YamlCpp) : Prop := ∀ n, y.load (y.emit n) = .ok n

namespace Node

def isKey (key : String) : Node → Bool
  | scalar text => text = key
  | _ => false

def findEntry (key : String) : List (Node × Node) → Option Node
  | [] => none
  | (k, v) :: es => if k.isKey key then some v else findEntry key es

def setEntry (key : String) (v : Node) : List (Node × Node) → List (Node × Node)
  | [] => [(scalar key, v)]
  | (k, x) :: es => if k.isKey key then (k, v) :: es else (k, x) :: setEntry key v es

/-- The value of a key. A sequence has none: the program asks for no numerals. -/
def find (key : String) : Node → Option Node
  | map es => findEntry key es
  | _ => none

/-- `n[key]`, where it is not assigned to. -/
def get (n : Node) (key : String) : Except Exn (Option Node) :=
  match n with
  | scalar _ => .error .badSubscript
  | n => .ok (n.find key)

/-- `n[key] = v` for a map, or for a null node, which becomes one. -/
def set (n : Node) (key : String) (v : Node) : Node :=
  match n with
  | map es => map (setEntry key v es)
  | _ => map [(scalar key, v)]

/-- `n[key] = v` if there is something to assign. -/
def setOpt (n : Node) (key : String) : Option String → Node
  | some v => n.set key (scalar v)
  | none => n

/-- `push_back` on a sequence, or on a node that becomes one. -/
def pushBack (n : Option Node) (v : Node) : Node :=
  match n with
  | some (seq items) => seq (items ++ [v])
  | _ => seq [v]

def size : Node → Nat
  | seq items => items.length
  | map es => es.length
  | _ => 0

theorem findEntry_setEntry (key key' : String) (v : Node) (es : List (Node × Node)) :
    findEntry key' (setEntry key v es) = if key' = key then some v else findEntry key' es := by
  induction es with
  | nil => simp [setEntry, findEntry, isKey, eq_comm]
  | cons e es ih =>
    obtain ⟨k, x⟩ := e
    simp only [setEntry]
    split
    · rename_i hk
      simp only [findEntry]
      by_cases h : key' = key
      · rw [if_pos h, h, if_pos hk]
      · have hk' : k.isKey key' = false := by
          cases k with
          | scalar text =>
            simp only [isKey, decide_eq_true_eq, decide_eq_false_iff_not] at hk ⊢
            exact fun h' => h (h'.symm.trans hk)
          | _ => rfl
        rw [if_neg h, hk']
        rfl
    · rename_i hk
      simp only [findEntry, ih]
      split
      · rename_i hk'
        have h : key' ≠ key := fun h => hk (h ▸ hk')
        rw [if_neg h]
      · rfl

@[simp] theorem find_set (n : Node) (key key' : String) (v : Node) :
    (n.set key v).find key' = if key' = key then some v else n.find key' := by
  cases n with
  | map es => exact findEntry_setEntry key key' v es
  | _ => simp [set, find, findEntry, isKey, eq_comm]

@[simp] theorem find_null (key : String) : null.find key = none := rfl

/-- Reading a key of the node does not throw. -/
def Open (n : Node) : Prop := ∀ key, n.get key = .ok (n.find key)

theorem open_null : null.Open := fun _ => rfl

theorem open_set (n : Node) (key : String) (v : Node) : (n.set key v).Open := by
  intro key'
  cases n <;> rfl

@[simp] theorem find_setOpt (n : Node) (key key' : String) (o : Option String) :
    (n.setOpt key o).find key' =
      if key' = key then (o.map scalar).or (n.find key) else n.find key' := by
  cases o with
  | none => by_cases h : key' = key <;> simp [setOpt, h]
  | some v => simp [setOpt]

theorem open_setOpt {n : Node} (hn : n.Open) (key : String) (o : Option String) :
    (n.setOpt key o).Open := by
  cases o with
  | none => exact hn
  | some v => exact open_set n key _

theorem foldl_pushBack (key : String) (f : α → Node) (n : Node) (l : List α)
    (hn : n.find key = none) :
    (l.foldl (fun n a => n.set key (pushBack (n.find key) (f a))) n).find key =
        (if l.isEmpty then none else some (seq (l.map f))) ∧
      ∀ key' ≠ key, (l.foldl (fun n a => n.set key (pushBack (n.find key) (f a))) n).find key' =
        n.find key' := by
  induction l using List.reverseRecOn with
  | nil => exact ⟨hn, fun _ _ => rfl⟩
  | append_singleton l a ih =>
    obtain ⟨ih, ihother⟩ := ih
    simp only [List.foldl_append, List.foldl_cons, List.foldl_nil, find_set, if_true]
    refine ⟨?_, fun key' hkey => by rw [if_neg hkey]; exact ihother key' hkey⟩
    rw [ih]
    cases l with
    | nil => rfl
    | cons b l => simp [pushBack]

theorem open_foldl_pushBack (key : String) (f : α → Node) (n : Node) (l : List α) (hn : n.Open) :
    (l.foldl (fun n a => n.set key (pushBack (n.find key) (f a))) n).Open := by
  induction l using List.reverseRecOn with
  | nil => exact hn
  | append_singleton l a =>
    rw [List.foldl_append]
    exact open_set _ _ _

end Node

namespace YamlCpp
variable (y : YamlCpp)

/-- `n[key]` of a node that may be undefined; an undefined one turns into an empty map. -/
def get (n : Option Node) (key : String) : Except Exn (Option Node) :=
  match n with
  | some n => n.get key
  | none => .ok none

/-- `as<std::string>()`. -/
def asString : Node → Except Exn String
  | .scalar text => .ok text
  | .null => match y.nullText with
    | some text => .ok text
    | none => .error .typedBadConversion
  | _ => .error .typedBadConversion

/-- `n[key].as<std::string>()` where `n[key]` is defined. -/
def field (n : Option Node) (key : String) : Except Exn (Option String) := do
  match ← get n key with
  | some v => return some (← y.asString v)
  | none => return none

def index (n : Node) (i : Nat) : Option Node :=
  match n with
  | .seq items => items[i]?
  | .map es => (es.find? fun e => match e.1 with
      | .scalar text => y.asIndex text = some i
      | _ => false).map Prod.snd
  | _ => none

/-- What a loop `for (i = 0; i < n.size(); ++i)` finds in `n[i]`. -/
def children (n : Node) : List (Option Node) := (List.range n.size).map (y.index n)

/-- `ss << n`; nothing is written for an undefined node. -/
def write (n : Option Node) : String :=
  match n with
  | some n => y.emit n
  | none => ""

@[simp] theorem children_seq (items : List Node) : y.children (.seq items) = items.map some := by
  apply List.ext_getElem
  · simp [children, Node.size]
  · intro i h h'
    simp only [List.length_map] at h'
    simp [children, index, h']

theorem field_eq {n : Node} (hn : n.Open) (key : String) (o : Option String)
    (h : n.find key = o.map .scalar) : y.field (some n) key = .ok o := by
  simp only [field, get, hn key, h]
  cases o <;> rfl

end YamlCpp
end SvrFrame
