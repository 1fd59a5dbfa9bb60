import SvrFrame.Library.OrdSet
import SvrFrame.Yaml.Node
import Mathlib.Data.List.Forall2

namespace SvrFrame
namespace Config
open Library
set_option autoImplicit true

variable [LinearOrder κ] {key : T → κ}

/-- The loop of the decoders of sequences, over what puts an element into the container. -/
def decodeSeq (y : YamlCpp) (put : σ → T → σ) (empty : σ) (fromStr : String → Except Exn T)
    (v : String) : Except Exn σ := do
  let node ← y.load v
  (y.children node).foldlM (fun vec n => do return put vec (← fromStr (y.write n))) empty

/-- Where every element converts, the container is filled in the order of the sequence. -/
theorem decodeSeq_emit {put : σ → T → σ} {fromStr : String → Except Exn T} {items : List α}
    {f : α → Node} {g : α → T}
    (hload : y.load (y.emit (.seq (items.map f))) = .ok (.seq (items.map f)))
    (h : ∀ a ∈ items, fromStr (y.emit (f a)) = .ok (g a)) (empty : σ) :
    decodeSeq y put empty fromStr (y.emit (.seq (items.map f))) =
      .ok ((items.map g).foldl put empty) := by
  have hloop (vec : σ) : (items.map fun a => some (f a)).foldlM
      (fun vec n => do return put vec (← fromStr (y.write n))) vec =
        Except.ok ((items.map g).foldl put vec) := by
    clear hload
    induction items generalizing vec with
    | nil => rfl
    | cons a items ih =>
      have ha := h a List.mem_cons_self
      simp only [List.map_cons, List.foldlM_cons, YamlCpp.write, ha]
      exact ih (fun b hb => h b (List.mem_cons_of_mem a hb)) (put vec (g a))
  rw [decodeSeq, hload]
  simp only [bind, Except.bind, YamlCpp.children_seq, List.map_map]
  exact hloop empty

/-- `LexicalCast<std::string, std::set<T>>`, over the conversion of an element. -/
def decodeSet (y : YamlCpp) (key : T → κ) (fromStr : String → Except Exn T) (v : String) :
    Except Exn (OrdSet key) := do
  let node ← y.load v
  (y.children node).foldlM (fun vec n => do return vec.insert (← fromStr (y.write n))) OrdSet.empty

theorem decodeSet_emit (y : YamlCpp) (hy : y.Faithful) (fromStr : String → Except Exn T)
    (items : List α) (f : α → Node) (g : α → T)
    (h : ∀ a ∈ items, fromStr (y.emit (f a)) = .ok (g a)) :
    decodeSet y key fromStr (y.emit (.seq (items.map f))) =
      .ok ((items.map g).foldl OrdSet.insert OrdSet.empty) :=
  decodeSeq_emit (hy _) h OrdSet.empty

theorem forall₂_getElem? {R : α → β → Prop} (h : List.Forall₂ R l₁ l₂) {j : Nat}
    (ha : l₁[j]? = some a) : ∃ b, l₂[j]? = some b ∧ R a b := by
  induction h generalizing j with
  | nil => cases ha
  | cons hr _ ih =>
    cases j with
    | zero =>
      cases ha
      exact ⟨_, rfl, hr⟩
    | succ j => exact ih ha

theorem forall₂_mem_right {R : α → β → Prop} (h : List.Forall₂ R l₁ l₂) (hb : b ∈ l₂) :
    ∃ a ∈ l₁, R a b := by
  obtain ⟨j, hj⟩ := List.mem_iff_getElem?.1 hb
  have hflip : List.Forall₂ (fun b a => R a b) l₂ l₁ := List.Forall₂.flip h
  obtain ⟨a, ha, hr⟩ := forall₂_getElem? hflip hj
  exact ⟨a, List.mem_iff_getElem?.2 ⟨j, ha⟩, hr⟩

/-- The first partner with a property is that of the first element that can have one. -/
theorem forall₂_find? {R : α → β → Prop} {l l' : List α}
    (h : List.Forall₂ R (l ++ a :: l') bs) (p : β → Bool) (ha : ∀ b', R a b' → b' = b)
    (hb : p b = true) (hfirst : ∀ m ∈ l, ∀ d, R m d → p d = false) : bs.find? p = some b := by
  induction l generalizing bs with
  | nil =>
    cases h with
    | cons hr _ =>
      rw [ha _ hr]
      exact List.find?_cons_of_pos hb
  | cons m l ih =>
    cases h with
    | cons hr h =>
      have hm := hfirst m List.mem_cons_self _ hr
      rw [List.find?_cons_of_neg (by simp [hm])]
      exact ih h fun m' hm' => hfirst m' (List.mem_cons_of_mem m hm')

/-- A text converts just when each element does, and to the container of them. -/
theorem decodeSeq_ok_iff {y : YamlCpp} {put : σ → T → σ} {empty val : σ}
    {fromStr : String → Except Exn T} :
    decodeSeq y put empty fromStr v = .ok val ↔ ∃ node ds, y.load v = .ok node ∧
      List.Forall₂ (fun n d => fromStr (y.write n) = .ok d) (y.children node) ds ∧
      val = ds.foldl put empty := by
  have hloop (ns : List (Option Node)) (vec : σ) :
      ns.foldlM (fun vec n => do return put vec (← fromStr (y.write n))) vec = .ok val ↔
        ∃ ds, List.Forall₂ (fun n d => fromStr (y.write n) = .ok d) ns ds ∧
          val = ds.foldl put vec := by
    induction ns generalizing vec with
    | nil =>
      constructor
      · intro h
        cases h
        exact ⟨[], .nil, rfl⟩
      · rintro ⟨ds, hds, hval⟩
        cases hds
        rw [hval]
        rfl
    | cons n ns ih =>
      rw [List.foldlM_cons, bind_eq_ok]
      constructor
      · rintro ⟨vec', hvec, h⟩
        obtain ⟨d, hd, hput⟩ := bind_eq_ok.1 hvec
        cases hput
        obtain ⟨ds, hds, hval⟩ := (ih _).1 h
        exact ⟨d :: ds, .cons hd hds, hval⟩
      · rintro ⟨ds, hds, hval⟩
        cases hds with
        | cons hd hds =>
          exact ⟨_, bind_eq_ok.2 ⟨_, hd, rfl⟩, (ih _).2 ⟨_, hds, hval⟩⟩
  rw [decodeSeq, bind_eq_ok]
  constructor
  · rintro ⟨node, hload, h⟩
    obtain ⟨ds, hds, hval⟩ := (hloop _ _).1 h
    exact ⟨node, ds, hload, hds, hval⟩
  · rintro ⟨node, ds, hload, hds, hval⟩
    exact ⟨node, hload, (hloop _ _).2 ⟨ds, hds, hval⟩⟩

/-- A text that converts is a sequence of elements that convert. -/
theorem decodeSet_ok {y : YamlCpp} {fromStr : String → Except Exn T} {val : OrdSet key}
    (h : decodeSet y key fromStr v = .ok val) : ∃ node ds, y.load v = .ok node ∧
      List.Forall₂ (fun n d => fromStr (y.write n) = .ok d) (y.children node) ds ∧
      val = ds.foldl OrdSet.insert OrdSet.empty :=
  decodeSeq_ok_iff.1 h

end Config
end SvrFrame
