import SvrFrame.Config.Updates
import SvrFrame.Config.Containers
import SvrFrame.Log.Dump

namespace SvrFrame
namespace Config
open Library
set_option autoImplicit true

/-- The conversions to sequence containers, with what puts an element into the container, the empty
container and the conversion of an element. -/
inductive SeqCodec (y : YamlCpp) : {σ T : Type} → (σ → T → σ) → σ → (String → Except Exn T) →
    (String → Except Exn σ) → Prop where
  | vector {T : Type} (c : LexicalCast T) :
    SeqCodec y (fun vec i => vec ++ [i]) [] c.fromStr (LexicalCast.vector y c).fromStr
  | list {T : Type} (c : LexicalCast T) :
    SeqCodec y (fun vec i => vec ++ [i]) [] c.fromStr (LexicalCast.list y c).fromStr
  | set {T : Type} [LinearOrder T] (c : LexicalCast T) :
    SeqCodec y OrdSet.insert OrdSet.empty c.fromStr (LexicalCast.set y c).fromStr
  | unorderedSet {T : Type} [DecidableEq T] (c : LexicalCast T) :
    SeqCodec y KeySet.insert KeySet.empty c.fromStr (LexicalCast.unorderedSet y c).fromStr
  | logs : SeqCodec y OrdSet.insert OrdSet.empty (LogDefine.decode y) (LoggerMgr.decodeDefines y)

/-- The conversions to maps with texts for keys, with the empty map. -/
inductive MapCodec (y : YamlCpp) : {σ : Type} → σ → (String → Except Exn σ) → Prop where
  | map {T : Type} (c : LexicalCast T) : MapCodec y OrdSet.empty (LexicalCast.map y c).fromStr
  | unorderedMap {T : Type} (c : LexicalCast T) :
    MapCodec y KeySet.empty (LexicalCast.unorderedMap y c).fromStr

section
variable {y : YamlCpp} {σ T : Type} {node : Node}

theorem SeqCodec.eq {put : σ → T → σ} {empty : σ} {fromStr : String → Except Exn T}
    {cast : String → Except Exn σ} (h : SeqCodec y put empty fromStr cast) :
    cast = decodeSeq y put empty fromStr := by
  cases h <;> rfl

/-- What converts a text to a map sees of a root that is none. -/
theorem MapCodec.eq {empty : σ} {cast : String → Except Exn σ} (h : MapCodec y empty cast)
    (hload : y.load text = .ok node) (hroot : ∀ es, node ≠ .map es) :
    cast text = (members node).map fun _ => empty := by
  have hdecode {T : Type} (put : σ → String × T → σ) (fromStr : String → Except Exn T) :
      decodeMap y put empty fromStr text = (members node).map fun _ => empty := by
    rw [decodeMap, hload]
    cases node with
    | map es => exact absurd rfl (hroot es)
    | seq items => cases items <;> rfl
    | _ => rfl
  cases h with
  | map c => exact hdecode _ _
  | unorderedMap c => exact hdecode _ _

/-- Where there is nothing in the root to iterate over, the container is empty. -/
theorem children_eq_nil (hsize : node.size = 0) : y.children node = [] := by
  rw [YamlCpp.children, hsize]
  rfl

end

namespace ListenedVar
variable {W σ : Type} [BEq σ] {s : ListenedVar W σ}

/-- `SetValue` with this value would neither tell anybody nor change anything: the value is equal
to the stored one, or an empty function stands first, or there is nobody to tell and the value is
the stored one. -/
def Inert (s : ListenedVar W σ) (val : σ) : Prop :=
  (s.mVal == val) = true ∨ match s.mCbs.elems with
    | [] => val = s.mVal
    | (_, none) :: _ => True
    | (_, some _) :: _ => False

theorem setValue_inert {val : σ} (w : W) :
    ((s.setValue val w).1.mVal = s.mVal ∧ (s.setValue val w).2.told = []) ↔ s.Inert val := by
  rw [setValue_mVal]
  by_cases heq : (s.mVal == val) = true
  · apply iff_of_true
    · rw [if_pos (.inl heq), setValue, if_pos heq]
      exact ⟨rfl, rfl⟩
    · exact .inl heq
  · have htold : (s.setValue val w).2 = notify s.mVal val s.mCbs.elems w := by
      simp only [setValue, if_neg heq]
    rw [htold]
    apply Iff.trans _ (or_iff_right heq).symm
    rcases s.mCbs.elems with _ | ⟨⟨key, _ | cb⟩, cbs⟩
    · have hkept : ¬ ((s.mVal == val) = true ∨ (notify s.mVal val [] w).thrown.isSome = true) :=
        not_or_intro heq Bool.false_ne_true
      rw [if_neg hkept]
      exact and_iff_left rfl
    · exact iff_of_true ⟨if_pos (.inr rfl), rfl⟩ trivial
    · apply iff_of_false
      · rintro ⟨-, hnil⟩
        simp only [notify] at hnil
        split at hnil <;> cases hnil
      · exact id

/-- `FromString` leaves the value and tells nobody. -/
def Unmoved (fromStr : String → Except Exn σ) (s : ListenedVar W σ) (text : String) (w : W) : Prop :=
  (s.fromString fromStr text w).2.1.mVal = s.mVal ∧ (s.fromString fromStr text w).2.2.told = []

theorem unmoved_iff (fromStr : String → Except Exn σ) (s : ListenedVar W σ) (text : String) (w : W) :
    s.Unmoved fromStr text w ↔ ∀ val, fromStr text = .ok val → s.Inert val := by
  rw [Unmoved]
  cases hconv : fromStr text with
  | error e =>
    apply iff_of_true
    · rw [fromString_error hconv]
      exact ⟨rfl, rfl⟩
    · exact fun _ h => by cases h
  | ok val =>
    rw [fromString_ok hconv, setValue_inert]
    constructor
    · intro h val' hval'
      cases hval'
      exact h
    · exact fun h => h val rfl

theorem unmoved_seq {y : YamlCpp} {T : Type} {put : σ → T → σ} {empty : σ}
    {fromStr : String → Except Exn T} {cast : String → Except Exn σ}
    (h : SeqCodec y put empty fromStr cast) (hload : y.load text = .ok node) (w : W) :
    s.Unmoved cast text w ↔ ∀ ds,
      List.Forall₂ (fun n d => fromStr (y.write n) = .ok d) (y.children node) ds →
        s.Inert (ds.foldl put empty) := by
  rw [unmoved_iff, h.eq]
  constructor
  · intro hinert ds hds
    exact hinert _ (decodeSeq_ok_iff.2 ⟨node, ds, hload, hds, rfl⟩)
  · intro hinert val hval
    obtain ⟨node', ds, hload', hds, rfl⟩ := decodeSeq_ok_iff.1 hval
    cases hload.symm.trans hload'
    exact hinert ds hds

theorem unmoved_map {y : YamlCpp} {empty : σ} {cast : String → Except Exn σ}
    (h : MapCodec y empty cast) (hload : y.load text = .ok node) (hroot : ∀ es, node ≠ .map es)
    (w : W) : s.Unmoved cast text w ↔ (∃ n ns, node = .seq (n :: ns)) ∨ s.Inert empty := by
  rw [unmoved_iff, h.eq hload hroot]
  by_cases hseq : ∃ n ns, node = .seq (n :: ns)
  · obtain ⟨n, ns, rfl⟩ := hseq
    exact iff_of_true (fun val hval => by cases hval) (.inl ⟨n, ns, rfl⟩)
  · have hnone : members node = .ok [] := by
      cases node with
      | map es => exact absurd rfl (hroot es)
      | seq items =>
        cases items with
        | nil => rfl
        | cons n ns => exact absurd ⟨n, ns, rfl⟩ hseq
      | _ => rfl
    rw [hnone, or_iff_right hseq]
    constructor
    · exact fun hinert => hinert empty rfl
    · intro hinert val hval
      cases hval
      exact hinert

/-- When a document whose root is of another kind leaves the variable alone. A sequence type gets
an empty container from a scalar or null root and looks for the keys 0, 1, .. in a map; a map type
gets an empty container from a root that has nothing to iterate over. -/
theorem wrong_kind_iff (y : YamlCpp) (s : ListenedVar W σ) (w : W) (text : String) (node : Node)
    (hload : y.load text = .ok node) :
    (∀ {T : Type} {put : σ → T → σ} {empty : σ} {fromStr : String → Except Exn T}
      {cast : String → Except Exn σ}, SeqCodec y put empty fromStr cast →
      (∀ items, node ≠ .seq items) →
      (s.Unmoved cast text w ↔ ∀ ds,
        List.Forall₂ (fun n d => fromStr (y.write n) = .ok d) (y.children node) ds →
          s.Inert (ds.foldl put empty)) ∧
      ((∀ es, node ≠ .map es) → (s.Unmoved cast text w ↔ s.Inert empty))) ∧
    (∀ {empty : σ} {cast : String → Except Exn σ}, MapCodec y empty cast →
      (∀ es, node ≠ .map es) →
      (s.Unmoved cast text w ↔ (∃ n ns, node = .seq (n :: ns)) ∨ s.Inert empty)) := by
  constructor
  · intro T put empty fromStr cast hcodec hseq
    have hiff := unmoved_seq (s := s) hcodec hload w
    constructor
    · exact hiff
    · intro hmap
      have hsize : node.size = 0 := by
        cases node with
        | map es => exact absurd rfl (hmap es)
        | seq items => exact absurd rfl (hseq items)
        | _ => rfl
      rw [hiff, children_eq_nil hsize]
      constructor
      · exact fun hinert => hinert [] .nil
      · intro hinert ds hds
        cases hds
        exact hinert
  · intro empty cast hcodec hmap
    exact unmoved_map hcodec hload hmap w

/-- A sequence of texts for a variable of a map type throws. -/
theorem wrong_kind_sequence : let s : ListenedVar Unit (OrdMap String) := .new OrdSet.empty 0
    s.Unmoved (LexicalCast.map Flow.yaml .string).fromStr "[\"a\", ]" () :=
  ((wrong_kind_iff Flow.yaml _ () "[\"a\", ]" (.seq [.scalar "a"])
    (Flow.yaml_faithful (.seq [.scalar "a"]))).2
    (.map .string) (fun _ h => by cases h)).2 (.inl ⟨_, _, rfl⟩)

/-- A scalar for a variable of a sequence type. -/
theorem scalar_empties_vector : let s : ListenedVar Unit (List String) := .new ["a"] 0
    let cast := (LexicalCast.vector Flow.yaml .string).fromStr
    Flow.yaml.load "\"b\"" = .ok (.scalar "b") ∧ ¬ s.Unmoved cast "\"b\"" () ∧
      (s.fromString cast "\"b\"" ()).2.1.mVal = [] := by
  constructor
  · rfl
  · constructor
    · intro h
      exact absurd h.1 (by decide)
    · rfl

end ListenedVar

end Config
end SvrFrame
