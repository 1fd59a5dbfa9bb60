import SvrFrame.Yaml.Node

namespace SvrFrame
namespace Flow
set_option autoImplicit true

def escape (c : Char) : List Char :=
  if c = '"' then ['\\', '"']
  else if c = '\\' then ['\\', '\\']
  else if c = '\n' then ['\\', 'n']
  else [c]

mutual
/-- The flow style of YAML, every scalar in double quotes. -/
def emit : Node → List Char
  | .null => ['~']
  | .scalar text => '"' :: (text.toList.flatMap escape ++ ['"'])
  | .seq items => '[' :: emitItems items
  | .map es => '{' :: emitEntries es

def emitItems : List Node → List Char
  | [] => [']']
  | n :: ns => emit n ++ ',' :: ' ' :: emitItems ns

def emitEntries : List (Node × Node) → List Char
  | [] => ['}']
  | (k, v) :: es => emit k ++ ':' :: ' ' :: (emit v ++ ',' :: ' ' :: emitEntries es)
end

/-- The rest of a double-quoted scalar, and what follows it. -/
def quoted : List Char → Option (List Char × List Char)
  | [] => none
  | '"' :: r => some ([], r)
  | '\\' :: 'n' :: r => (quoted r).map fun p => ('\n' :: p.1, p.2)
  | '\\' :: c :: r => (quoted r).map fun p => (c :: p.1, p.2)
  | c :: r => (quoted r).map fun p => (c :: p.1, p.2)

mutual
def parse : Nat → List Char → Option (Node × List Char)
  | 0, _ => none
  | fuel + 1, text =>
    match text with
    | '~' :: r => some (.null, r)
    | '"' :: r => (quoted r).map fun p => (.scalar (String.ofList p.1), p.2)
    | '[' :: r => (parseItems fuel r).map fun p => (.seq p.1, p.2)
    | '{' :: r => (parseEntries fuel r).map fun p => (.map p.1, p.2)
    | _ => none

def parseItems : Nat → List Char → Option (List Node × List Char)
  | 0, _ => none
  | fuel + 1, text =>
    match text with
    | ']' :: r => some ([], r)
    | text =>
      match parse fuel text with
      | some (n, ',' :: ' ' :: r) => (parseItems fuel r).map fun p => (n :: p.1, p.2)
      | _ => none

def parseEntries : Nat → List Char → Option (List (Node × Node) × List Char)
  | 0, _ => none
  | fuel + 1, text =>
    match text with
    | '}' :: r => some ([], r)
    | text =>
      match parse fuel text with
      | some (k, ':' :: ' ' :: r) =>
        match parse fuel r with
        | some (v, ',' :: ' ' :: r) => (parseEntries fuel r).map fun p => ((k, v) :: p.1, p.2)
        | _ => none
      | _ => none
end

theorem quoted_escape (c : Char) (r : List Char) :
    quoted (escape c ++ r) = (quoted r).map fun p => (c :: p.1, p.2) := by
  simp only [escape]
  split
  · rename_i h; subst h; rfl
  · split
    · rename_i h; subst h; rfl
    · split
      · rename_i h; subst h; rfl
      · rename_i h1 h2 h3
        rw [List.singleton_append, quoted.eq_def]
        split <;> simp_all

theorem quoted_emit (text r : List Char) :
    quoted (text.flatMap escape ++ '"' :: r) = some (text, r) := by
  induction text with
  | nil => rfl
  | cons c text ih =>
    rw [List.flatMap_cons, List.append_assoc, quoted_escape, ih]
    rfl

/-- The first character of a node closes neither a sequence nor a map. -/
theorem emit_cons (n : Node) : ∃ c l, emit n = c :: l ∧ c ≠ ']' ∧ c ≠ '}' := by
  cases n <;> exact ⟨_, _, by rw [emit], by decide, by decide⟩

mutual
theorem parse_emit (n : Node) (fuel : Nat) (r : List Char) (h : (emit n).length ≤ fuel) :
    parse fuel (emit n ++ r) = some (n, r) := by
  cases fuel with
  | zero =>
    obtain ⟨c, l, hc, -⟩ := emit_cons n
    rw [hc] at h
    cases h
  | succ fuel =>
    match n with
    | .null => simp [emit, parse]
    | .scalar text =>
      simp [emit, parse, quoted_emit]
    | .seq items =>
      simp only [emit, List.length_cons, Nat.add_le_add_iff_right] at h
      simp [emit, parse, parseItems_emit items fuel r h]
    | .map es =>
      simp only [emit, List.length_cons, Nat.add_le_add_iff_right] at h
      simp [emit, parse, parseEntries_emit es fuel r h]

theorem parseItems_emit (ns : List Node) (fuel : Nat) (r : List Char)
    (h : (emitItems ns).length ≤ fuel) :
    parseItems fuel (emitItems ns ++ r) = some (ns, r) := by
  cases fuel with
  | zero => cases ns <;> simp [emitItems] at h
  | succ fuel =>
    match ns with
    | [] => simp [emitItems, parseItems]
    | n :: ns =>
      simp only [emitItems, List.length_append, List.length_cons] at h
      have hn := parse_emit n fuel (',' :: ' ' :: (emitItems ns ++ r)) (by omega)
      have hns := parseItems_emit ns fuel r (by omega)
      obtain ⟨c, l, hc, hne, -⟩ := emit_cons n
      simp only [emitItems, List.append_assoc, List.cons_append]
      rw [hc, List.cons_append] at hn ⊢
      rw [parseItems]
      · rw [hn]
        simp [hns]
      · intro _ heq
        cases heq
        exact hne rfl

theorem parseEntries_emit (es : List (Node × Node)) (fuel : Nat) (r : List Char)
    (h : (emitEntries es).length ≤ fuel) :
    parseEntries fuel (emitEntries es ++ r) = some (es, r) := by
  cases fuel with
  | zero => cases es <;> simp [emitEntries] at h
  | succ fuel =>
    match es with
    | [] => simp [emitEntries, parseEntries]
    | (k, v) :: es =>
      simp only [emitEntries, List.length_append, List.length_cons] at h
      have hv := parse_emit v fuel (',' :: ' ' :: (emitEntries es ++ r)) (by omega)
      have hk := parse_emit k fuel
        (':' :: ' ' :: (emit v ++ ',' :: ' ' :: (emitEntries es ++ r))) (by omega)
      have hes := parseEntries_emit es fuel r (by omega)
      obtain ⟨c, l, hc, -, hne⟩ := emit_cons k
      simp only [emitEntries, List.append_assoc, List.cons_append]
      rw [hc, List.cons_append] at hk ⊢
      rw [parseEntries]
      · rw [hk]
        simp [hv, hes]
      · intro _ heq
        cases heq
        exact hne rfl
end

def load (text : String) : Except Exn Node :=
  match parse text.length text.toList with
  | some (n, []) => .ok n
  | _ => .error .parserException

def asIndex (text : String) : Option Nat :=
  if text ≠ "" ∧ text.toList.all Char.isDigit then
    some (text.toList.foldl (fun k c => 10 * k + (c.toNat - '0'.toNat)) 0)
  else none

/-- A reader and a writer of YAML that know the flow style only. -/
def yaml : YamlCpp where
  load := load
  emit := fun n => String.ofList (emit n)
  asIndex := asIndex
  nullText := some "null"

theorem yaml_faithful : yaml.Faithful := by
  intro n
  have h := parse_emit n (emit n).length [] (Nat.le_refl _)
  rw [List.append_nil] at h
  simp [yaml, load, h]

end Flow
end SvrFrame
