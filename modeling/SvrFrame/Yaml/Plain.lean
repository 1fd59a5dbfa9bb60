import SvrFrame.Yaml.Flow
import Mathlib.Data.List.Basic

namespace SvrFrame
namespace Plain
set_option autoImplicit true

def isNull (text : String) : Bool := text ∈ ["", "~", "null", "Null", "NULL"]

/-- The scalars that are written without quotes: words and decimals. -/
def isPlain (text : String) : Bool :=
  !isNull text && match text.toList with
    | '-' :: c :: r => (c :: r).all Char.isAlphanum
    | l => l.all Char.isAlphanum

/-- The flow style, in which a document that is one word is written without quotes. -/
def yaml : YamlCpp where
  load text :=
    if isNull text then .ok .null
    else if isPlain text then .ok (.scalar text)
    else Flow.load text
  emit
    | .scalar text => if isPlain text then text else Flow.yaml.emit (.scalar text)
    | n => Flow.yaml.emit n
  asIndex := Flow.asIndex
  nullText := some "null"

/-- A text in the flow style is no word. -/
theorem flow_not_plain {c : Char} {l : List Char} (hc : c = '"' ∨ c = '[' ∨ c = '{') :
    isNull (String.ofList (c :: l)) = false ∧ isPlain (String.ofList (c :: l)) = false := by
  have hnull : isNull (String.ofList (c :: l)) = false := by
    have hhead : ∀ word ∈ ["", "~", "null", "Null", "NULL"], word.toList.head? ≠ some c := by
      rcases hc with rfl | rfl | rfl <;> decide
    refine decide_eq_false fun hmem => hhead _ hmem ?_
    rw [String.toList_ofList]
    rfl
  refine ⟨hnull, ?_⟩
  rw [isPlain, hnull, String.toList_ofList]
  rcases hc with rfl | rfl | rfl <;> rfl

theorem yaml_faithful : yaml.Faithful := by
  intro n
  have hflow : Flow.load (Flow.yaml.emit n) = .ok n := Flow.yaml_faithful n
  have hload (c : Char) (l : List Char) (hc : c = '"' ∨ c = '[' ∨ c = '{')
      (hemit : Flow.emit n = c :: l) : yaml.load (Flow.yaml.emit n) = .ok n := by
    obtain ⟨hnull, hplain⟩ := flow_not_plain (l := l) hc
    have htext : Flow.yaml.emit n = String.ofList (c :: l) := congrArg String.ofList hemit
    rw [htext] at hflow ⊢
    simp only [yaml, hnull, hplain, Bool.false_eq_true, if_false]
    exact hflow
  cases n with
  | null => rfl
  | scalar text =>
    by_cases hplain : isPlain text = true
    · have hnull : isNull text = false := by
        simp only [isPlain, Bool.and_eq_true, Bool.not_eq_true'] at hplain
        exact hplain.1
      simp only [yaml, hplain, hnull, if_true, Bool.false_eq_true, if_false]
    · have hemit : yaml.emit (.scalar text) = Flow.yaml.emit (.scalar text) := if_neg hplain
      rw [hemit]
      exact hload '"' _ (.inl rfl) (by rw [Flow.emit])
  | seq items => exact hload '[' _ (.inr (.inl rfl)) (by rw [Flow.emit])
  | map es => exact hload '{' _ (.inr (.inr rfl)) (by rw [Flow.emit])

end Plain
end SvrFrame
