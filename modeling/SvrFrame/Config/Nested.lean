import SvrFrame.Config.Containers
import SvrFrame.Yaml.Plain
import Mathlib.Algebra.Ring.Int.Defs
import Mathlib.Tactic.Choose

namespace SvrFrame
open Library
set_option autoImplicit true

/-- Made of sequences, of maps with texts for keys, and of scalars. -/
inductive Node.Plain : Node → Prop where
  | scalar (text : String) : Plain (.scalar text)
  | seq : (∀ n ∈ items, Plain n) → Plain (.seq items)
  | map : (∀ e ∈ es, ∃ key, e.1 = .scalar key) → (∀ e ∈ es, Plain e.2) → Plain (.map es)

/-- `Load` of an emitted plain node gives back the same node, and a decimal is emitted as it is. -/
structure YamlCpp.PlainFaithful (y : YamlCpp) : Prop where
  load_emit : ∀ n : Node, n.Plain → y.load (y.emit n) = .ok n
  emit_decimal : ∀ k : Int, y.emit (.scalar (toString k)) = toString k

namespace Config

/-- An integer type that is wider than `char`. -/
structure IntType where
  signed : Bool
  bits : Nat
  wide : 8 < bits

namespace IntType

def lo (i : IntType) : Int := if i.signed then -2 ^ (i.bits - 1) else 0

def hi (i : IntType) : Int := if i.signed then 2 ^ (i.bits - 1) else 2 ^ i.bits

abbrev Val (i : IntType) : Type := { k : Int // i.lo ≤ k ∧ k < i.hi }

end IntType

def sign : List Char → Bool × List Char
  | '-' :: r => (true, r)
  | '+' :: r => (false, r)
  | r => (false, r)

/-- `boost::lexical_cast` to an integer type; a minus wraps around in an unsigned one. -/
def parseInt (i : IntType) (v : String) : Except Exn i.Val :=
  let (minus, digits) := sign v.toList
  let m := Nat.ofDigitChars 10 digits 0
  let k : Int :=
    if minus then if i.signed then -m else ((2 ^ i.bits - m) % 2 ^ i.bits : Nat) else m
  if h : (digits ≠ [] ∧ digits.all Char.isDigit ∧ m < 2 ^ i.bits) ∧ i.lo ≤ k ∧ k < i.hi then
    .ok ⟨k, h.2⟩
  else .error .badLexicalCast

def LexicalCast.int (i : IntType) : LexicalCast i.Val where
  toStr k := .ok (toString k.val)
  fromStr := parseInt i

/-- The types that are nested from the integer types; the index says whether they are ordered. -/
inductive Nested : Bool → Type → Type 1 where
  | int (i : IntType) : Nested true i.Val
  | vector : Nested o T → Nested o (List T)
  | list : Nested o T → Nested o (List T)
  | set [LinearOrder T] : Nested true T → Nested true (OrdSet fun k : T => k)
  | unorderedSet (i : IntType) : Nested false (KeySet fun k : i.Val => k)
  | map : Nested o T → Nested o (OrdMap T)
  | unorderedMap : Nested o T → Nested false (KeyMap T)

namespace Nested

def cast (y : YamlCpp) : Nested o T → LexicalCast T
  | int i => .int i
  | vector t => .vector y (cast y t)
  | list t => .list y (cast y t)
  | set t => .set y (cast y t)
  | unorderedSet i => .unorderedSet y (.int i)
  | map t => .map y (cast y t)
  | unorderedMap t => .unorderedMap y (cast y t)

/-- `operator==`. -/
def eqv : Nested o T → T → T → Prop
  | int _ => fun a b => a = b
  | vector t | list t => List.Forall₂ t.eqv
  | set t => fun a b => List.Forall₂ t.eqv a.elems b.elems
  | unorderedSet _ => KeySet.Same fun a b => a = b
  | map t => fun a b => List.Forall₂ (fun d e => d.1 = e.1 ∧ t.eqv d.2 e.2) a.elems b.elems
  | unorderedMap t => KeySet.Same fun d e => t.eqv d.2 e.2

end Nested

theorem sign_digits {l : List Char} (h : ∀ c ∈ l, c.isDigit) : sign l = (false, l) := by
  unfold sign
  split
  · exact absurd (h '-' List.mem_cons_self) (by decide)
  · exact absurd (h '+' List.mem_cons_self) (by decide)
  · rfl

theorem isDigit_toDigits (m : Nat) : ∀ c ∈ Nat.toDigits 10 m, c.isDigit :=
  fun _ hc => Nat.isDigit_of_mem_toDigits (by decide) (by decide) hc

theorem parseInt_digits {i : IntType} {v : String} {minus : Bool} {m : Nat} (k : i.Val)
    (hsign : sign v.toList = (minus, Nat.toDigits 10 m)) (hm : m < 2 ^ i.bits)
    (hk : (if minus then if i.signed then -(m : Int) else ((2 ^ i.bits - m) % 2 ^ i.bits : Nat)
      else m) = k.val) : parseInt i v = .ok k := by
  have hdigits :
      Nat.toDigits 10 m ≠ [] ∧ (Nat.toDigits 10 m).all Char.isDigit ∧ m < 2 ^ i.bits :=
    ⟨Nat.toDigits_ne_nil, List.all_eq_true.2 (isDigit_toDigits m), hm⟩
  simp only [parseInt, hsign, Nat.ofDigitChars_ten_toDigits, hk]
  rw [dif_pos ⟨hdigits, k.property⟩]

theorem toList_decimal (k : Int) : (toString k).toList =
    if 0 ≤ k then Nat.toDigits 10 k.toNat else '-' :: Nat.toDigits 10 (-k).toNat := by
  rw [Int.toString_eq_repr, Int.repr_eq_if]
  split
  · exact Nat.toList_repr
  · rw [String.toList_append, Nat.toList_repr]
    rfl

/-- A number is read back from its decimal. -/
theorem parseInt_toString (i : IntType) (k : i.Val) : parseInt i (toString k.val) = .ok k := by
  obtain ⟨k, hlo, hhi⟩ := k
  have hpow : 2 ^ i.bits = 2 * 2 ^ (i.bits - 1) := by
    rw [← Nat.pow_succ', Nat.succ_eq_add_one, Nat.sub_add_cancel (Nat.zero_lt_of_lt i.wide)]
  have hpos : 0 < 2 ^ (i.bits - 1) := Nat.two_pow_pos _
  have hbits : ((2 ^ i.bits : Nat) : Int) = 2 ^ i.bits := by push_cast; rfl
  have hhalf : ((2 ^ (i.bits - 1) : Nat) : Int) = 2 ^ (i.bits - 1) := by push_cast; rfl
  have hbound : k < (2 ^ i.bits : Nat) ∧ -((2 ^ (i.bits - 1) : Nat) : Int) ≤ k := by
    simp only [IntType.lo, IntType.hi, ← hbits, ← hhalf] at hlo hhi
    split at hlo <;> split at hhi <;> omega
  by_cases hneg : 0 ≤ k
  · have hsign : sign (toString k).toList = (false, Nat.toDigits 10 k.toNat) := by
      rw [toList_decimal, if_pos hneg]
      exact sign_digits (isDigit_toDigits _)
    refine parseInt_digits _ hsign ?_ ?_
    · omega
    · exact Int.toNat_of_nonneg hneg
  · have hsigned : i.signed = true := by
      by_contra hunsigned
      rw [IntType.lo, if_neg hunsigned] at hlo
      exact hneg hlo
    have hsign : sign (toString k).toList = (true, Nat.toDigits 10 (-k).toNat) := by
      rw [toList_decimal, if_neg hneg]
      rfl
    refine parseInt_digits _ hsign ?_ ?_
    · omega
    · simp only [hsigned, if_true]
      omega

/-! ### Round trips -/

/-- A value is written as a plain node, and comes back from the text of that node. -/
def Nested.Carries (y : YamlCpp) (t : Nested o T) (v : T) (n : Node) (v' : T) : Prop :=
  n.Plain ∧ (t.cast y).toStr v = .ok (y.emit n) ∧ (t.cast y).fromStr (y.emit n) = .ok v' ∧
    t.eqv v' v ∧ (o = true → v' = v)

namespace Nested
variable {y : YamlCpp} {t : Nested o T} {f : T → Node} {g : T → T}

theorem seq_round (hy : y.PlainFaithful) (h : ∀ v, t.Carries y v (f v) (g v)) (put : σ → T → σ)
    (empty : σ) (v : List T) : (Node.seq (v.map f)).Plain ∧
      encodeSeq y (t.cast y).toStr v = .ok (y.emit (.seq (v.map f))) ∧
      decodeSeq y put empty (t.cast y).fromStr (y.emit (.seq (v.map f))) =
        .ok ((v.map g).foldl put empty) := by
  have hplain : (Node.seq (v.map f)).Plain := by
    refine .seq fun n hn => ?_
    obtain ⟨i, -, rfl⟩ := List.mem_map.1 hn
    exact (h i).1
  refine ⟨hplain, encodeSeq_eq fun i _ => ?_, ?_⟩
  · exact bind_eq_ok.2 ⟨_, (h i).2.1, hy.load_emit _ (h i).1⟩
  · exact decodeSeq_emit (hy.load_emit _ hplain) (fun i _ => (h i).2.2.1) empty

theorem map_round (hy : y.PlainFaithful) (h : ∀ v, t.Carries y v (f v) (g v))
    (put : σ → String × T → σ) (empty : σ) {v : List (String × T)} (hv : (v.map Prod.fst).Nodup) :
    (Node.map (v.map (entryNode f))).Plain ∧
      encodeMap y (t.cast y).toStr v = .ok (y.emit (.map (v.map (entryNode f)))) ∧
      decodeMap y put empty (t.cast y).fromStr (y.emit (.map (v.map (entryNode f)))) =
        .ok ((v.map fun e => (e.1, g e.2)).foldl put empty) := by
  have hplain : (Node.map (v.map (entryNode f))).Plain := by
    refine .map (fun e he => ?_) fun e he => ?_
    all_goals obtain ⟨d, -, rfl⟩ := List.mem_map.1 he
    · exact ⟨d.1, rfl⟩
    · exact (h d.2).1
  refine ⟨hplain, encodeMap_eq hv fun e _ => ?_, ?_⟩
  · exact bind_eq_ok.2 ⟨_, (h e.2).2.1, hy.load_emit _ (h e.2).1⟩
  · exact decodeMap_eq (hy.load_emit _ hplain) (fun e _ => (h e.2).2.2.1) empty

theorem carries_int (hy : y.PlainFaithful) (i : IntType) (v : i.Val) :
    (int i).Carries y v (.scalar (toString v.val)) v := by
  have hemit := hy.emit_decimal v.val
  refine ⟨.scalar _, congrArg Except.ok hemit.symm, ?_, rfl, fun _ => rfl⟩
  rw [hemit]
  exact parseInt_toString i v

theorem carries_seq (hy : y.PlainFaithful) (h : ∀ v, t.Carries y v (f v) (g v)) (v : List T) :
    (vector t).Carries y v (.seq (v.map f)) (v.map g) := by
  obtain ⟨hplain, hencode, hdecode⟩ := seq_round hy h (fun vec i => vec ++ [i]) [] v
  rw [push_back_all, List.nil_append] at hdecode
  refine ⟨hplain, hencode, hdecode, ?_, fun ho => ?_⟩
  · exact List.forall₂_map_left_iff.2 (List.forall₂_same.2 fun i _ => (h i).2.2.2.1)
  · exact List.map_id'' (fun i => (h i).2.2.2.2 ho) v

theorem carries_set [LinearOrder T] {t : Nested true T} (hy : y.PlainFaithful)
    (h : ∀ v, t.Carries y v (f v) (g v)) (v : OrdSet fun k : T => k) :
    (set t).Carries y v (.seq (v.elems.map f)) v := by
  obtain ⟨hplain, hencode, hdecode⟩ := seq_round hy h OrdSet.insert
    (OrdSet.empty : OrdSet fun k : T => k) v.elems
  have hsame : v.elems.map g = v.elems := List.map_id'' (fun i => (h i).2.2.2.2 rfl) v.elems
  rw [hsame, OrdSet.foldl_insert_elems] at hdecode
  refine ⟨hplain, hencode, hdecode, List.forall₂_same.2 fun i _ => ?_, fun _ => rfl⟩
  have heqv := (h i).2.2.2.1
  rwa [(h i).2.2.2.2 rfl] at heqv

theorem carries_unorderedSet (hy : y.PlainFaithful) (i : IntType)
    (v : KeySet fun k : i.Val => k) : ∃ n v', (unorderedSet i).Carries y v n v' := by
  obtain ⟨hplain, hencode, hdecode⟩ :=
    seq_round hy (carries_int hy i) KeySet.insert (KeySet.empty : KeySet fun k : i.Val => k) v.elems
  have helems := KeySet.elems_ofList v.nodup
  rw [List.map_id'] at hdecode
  refine ⟨_, _, hplain, hencode, hdecode, ⟨by rw [helems], fun k hk => ?_⟩, fun ho => by cases ho⟩
  rw [helems] at hk
  exact ⟨k, hk, rfl, rfl⟩

theorem carries_map (hy : y.PlainFaithful) (h : ∀ v, t.Carries y v (f v) (g v)) (v : OrdMap T) :
    ∃ n v', (map t).Carries y v n v' := by
  obtain ⟨hplain, hencode, hdecode⟩ := map_round hy h OrdSet.insert (OrdSet.empty : OrdMap T)
    v.nodup_keys
  have hsorted : (v.elems.map fun e => (e.1, g e.2)).Pairwise fun d e => d.1 < e.1 :=
    List.pairwise_map.2 v.sorted
  have helems : (List.foldl OrdSet.insert (OrdSet.empty : OrdMap T) _).elems = _ :=
    OrdSet.elems_ofList hsorted
  refine ⟨_, _, hplain, hencode, hdecode, ?_, fun ho => OrdSet.eq_of_elems ?_⟩
  · change List.Forall₂ _ _ _
    rw [helems]
    exact List.forall₂_map_left_iff.2 (List.forall₂_same.2 fun e _ => ⟨rfl, (h e.2).2.2.2.1⟩)
  · have hsame : ∀ e : String × T, (e.1, g e.2) = e := fun e => by rw [(h e.2).2.2.2.2 ho]
    rw [helems]
    exact List.map_id'' hsame v.elems

theorem carries_unorderedMap (hy : y.PlainFaithful) (h : ∀ v, t.Carries y v (f v) (g v))
    (v : KeyMap T) : ∃ n v', (unorderedMap t).Carries y v n v' := by
  obtain ⟨hplain, hencode, hdecode⟩ := map_round hy h KeySet.insert (KeySet.empty : KeyMap T)
    v.nodup
  have hnodup : ((v.elems.map fun e => (e.1, g e.2)).map Prod.fst).Nodup := by
    rw [List.map_map]
    exact v.nodup
  have helems : (List.foldl KeySet.insert (KeySet.empty : KeyMap T) _).elems = _ :=
    KeySet.elems_ofList hnodup
  refine ⟨_, _, hplain, hencode, hdecode, ⟨?_, fun d hd => ?_⟩, fun ho => by cases ho⟩
  · rw [helems, List.length_map]
  · rw [helems] at hd
    obtain ⟨e, he, rfl⟩ := List.mem_map.1 hd
    exact ⟨e, he, rfl, (h e.2).2.2.2.1⟩

/-- By induction on the nesting; what is carried along is that the text of a value is that of its
node. -/
theorem carries (hy : y.PlainFaithful) (t : Nested o T) : ∀ v, ∃ n v', t.Carries y v n v' := by
  induction t with
  | int i => exact fun v => ⟨_, _, carries_int hy i v⟩
  | vector t ih | list t ih =>
    choose f g h using ih
    exact fun v => ⟨_, _, carries_seq hy h v⟩
  | set t ih =>
    choose f g h using ih
    exact fun v => ⟨_, _, carries_set hy h v⟩
  | unorderedSet i => exact carries_unorderedSet hy i
  | map t ih =>
    choose f g h using ih
    exact carries_map hy h
  | unorderedMap t ih =>
    choose f g h using ih
    exact carries_unorderedMap hy h

/-- Decoding the text of a value gives an equal value. -/
theorem nested_round_trip (hy : y.PlainFaithful) (t : Nested o T) (v : T) :
    ∃ s v', (t.cast y).toStr v = .ok s ∧ (t.cast y).fromStr s = .ok v' ∧ t.eqv v' v := by
  obtain ⟨n, v', -, hencode, hdecode, heqv, -⟩ := carries hy t v
  exact ⟨_, v', hencode, hdecode, heqv⟩

end Nested

/-- A decimal is a word. -/
theorem isPlain_decimal (k : Int) : Plain.isPlain (toString k) = true := by
  have hall (m : Nat) : (Nat.toDigits 10 m).all Char.isAlphanum = true :=
    List.all_eq_true.2 fun c hc => by rw [Char.isAlphanum, isDigit_toDigits m c hc, Bool.or_true]
  have hword (c : Char) (l : List Char) (hc : c = '-' ∨ c.isDigit = true)
      (hl : (toString k).toList = c :: l) : Plain.isNull (toString k) = false := by
    have hhead : ["", "~", "null", "Null", "NULL"].all (fun word =>
        word.toList.head?.all fun c => c ≠ '-' ∧ c.isDigit = false) = true := by decide
    refine decide_eq_false fun hmem => ?_
    have hc' := List.all_eq_true.1 hhead _ hmem
    rw [hl] at hc'
    obtain ⟨hminus, hdigit⟩ := of_decide_eq_true hc'
    rcases hc with hc | hc
    · exact hminus hc
    · rw [hdigit] at hc; cases hc
  have htext := toList_decimal k
  by_cases hneg : 0 ≤ k
  · rw [if_pos hneg] at htext
    obtain ⟨c, l, hl⟩ := List.exists_cons_of_ne_nil (Nat.toDigits_ne_nil (n := k.toNat) (b := 10))
    have hdigit : c.isDigit = true := isDigit_toDigits k.toNat c (hl ▸ List.mem_cons_self)
    have halnum := hall k.toNat
    rw [hl] at htext halnum
    rw [Plain.isPlain, hword c l (.inr hdigit) htext, htext]
    split
    · rename_i heq
      cases heq
      exact absurd hdigit (by decide)
    · exact halnum
  · rw [if_neg hneg] at htext
    obtain ⟨c, l, hl⟩ := List.exists_cons_of_ne_nil
      (Nat.toDigits_ne_nil (n := (-k).toNat) (b := 10))
    have halnum := hall (-k).toNat
    rw [hl] at htext halnum
    rw [Plain.isPlain, hword '-' _ (.inl rfl) htext, htext]
    exact halnum

theorem plain_faithful : Plain.yaml.PlainFaithful where
  load_emit n _ := Plain.yaml_faithful n
  emit_decimal k := if_pos (isPlain_decimal k)

def int32 : IntType := ⟨true, 32, by decide⟩

def twoMaps : List (KeyMap int32.Val) :=
  [⟨[("b", ⟨-7, by decide⟩), ("", ⟨12, by decide⟩)], by decide⟩, ⟨[], by decide⟩]

theorem nested_round_trip_maps : ∃ s v',
    ((Nested.vector (.unorderedMap (.int int32))).cast Plain.yaml).toStr twoMaps = .ok s ∧
    ((Nested.vector (.unorderedMap (.int int32))).cast Plain.yaml).fromStr s = .ok v' ∧
    (Nested.vector (.unorderedMap (.int int32))).eqv v' twoMaps :=
  Nested.nested_round_trip plain_faithful (.vector (.unorderedMap (.int int32))) twoMaps

end Config
end SvrFrame
