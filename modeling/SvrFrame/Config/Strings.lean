import SvrFrame.Config.Containers
import SvrFrame.Config.Registry
import SvrFrame.Yaml.Plain

namespace SvrFrame
namespace Config
open Library
set_option autoImplicit true

/-- `CfgVar::ToString`, which catches what the conversion throws. -/
def LexicalCast.toString (c : LexicalCast T) (v : T) : String :=
  match c.toStr v with
  | .ok s => s
  | .error _ => ""

/-- A variable with this conversion. -/
def LexicalCast.var [DecidableEq T] (c : LexicalCast T) (mVal : T) (mCbs : List (T → T → W → W)) :
    CfgVar W := ⟨T, fun a b => a = b, c.fromStr, mVal, mCbs⟩

/-- The text is the one that its own node is emitted as. -/
def Stable (y : YamlCpp) (s : String) : Prop := ∃ n, y.load s = .ok n ∧ y.emit n = s

/-- What a text is read as, and what comes of it when that is emitted. -/
def loaded (y : YamlCpp) (s : String) : Node :=
  match y.load s with
  | .ok n => n
  | .error _ => .null

def echo (y : YamlCpp) (s : String) : String := y.emit (loaded y s)

variable {y : YamlCpp}

theorem loaded_eq (h : y.load s = .ok n) : loaded y s = n := by
  rw [loaded, h]

theorem stable_iff (h : ∃ n, y.load s = .ok n) : Stable y s ↔ echo y s = s := by
  obtain ⟨n, hn⟩ := h
  rw [echo, loaded_eq hn]
  constructor
  · rintro ⟨m, hm, hs⟩
    cases hn.symm.trans hm
    exact hs
  · exact fun hs => ⟨n, hn, hs⟩

/-- Since `Load` undoes the emitter, a second pass changes nothing. -/
theorem echo_echo (hy : y.Faithful) (s : String) : echo y (echo y s) = echo y s := by
  rw [echo, echo, loaded_eq (hy _)]

theorem map_eq_self_iff {f : T → T} {l : List T} : l.map f = l ↔ ∀ a ∈ l, f a = a := by
  conv_lhs => rhs; rw [← List.map_id l]
  exact List.map_inj_left

/-- What a codec makes of the texts in a value: if each of them can be read, the value comes back
with what they are emitted as, and otherwise the encoder throws. -/
structure Echoes (y : YamlCpp) (c : LexicalCast C) (empty v : C) (ss : List String) : Prop where
  round : (∀ s ∈ ss, ∃ n, y.load s = .ok n) → ∃ t v', c.toStr v = .ok t ∧ c.fromStr t = .ok v' ∧
    (v' = v ↔ ∀ s ∈ ss, echo y s = s)
  reads : c.toStr v = .ok t → ∀ s ∈ ss, ∃ n, y.load s = .ok n
  clear : c.fromStr "" = .ok empty
  nonempty : ss ≠ [] → v ≠ empty

theorem Echoes.faithful_iff {c : LexicalCast C} (h : Echoes y c empty v ss) :
    (c.toStr v >>= c.fromStr) = .ok v ↔ ∀ s ∈ ss, Stable y s := by
  by_cases hread : ∀ s ∈ ss, ∃ n, y.load s = .ok n
  · obtain ⟨t, v', hencode, hdecode, hiff⟩ := h.round hread
    rw [hencode]
    change c.fromStr t = _ ↔ _
    rw [hdecode, Except.ok.injEq, hiff]
    exact forall₂_congr fun s hs => (stable_iff (hread s hs)).symm
  · constructor
    · intro heq
      obtain ⟨t, ht, -⟩ := bind_eq_ok.1 heq
      exact absurd (h.reads ht) hread
    · intro hstable
      refine absurd (fun s hs => ?_) hread
      obtain ⟨n, hn, -⟩ := hstable s hs
      exact ⟨n, hn⟩

section
variable {W : Type} [DecidableEq C] {c : LexicalCast C} {v v' : C}

theorem var_setValue_eq (mCbs : List (C → C → W → W)) (w : W) :
    ((c.var v mCbs).setValue v' w).1 = c.var v mCbs ↔ v' = v := by
  simp only [CfgVar.setValue, LexicalCast.var, decide_eq_true_eq]
  split
  · rename_i heq
    exact iff_of_true rfl heq.symm
  · simp [CfgVar.setVal]

theorem var_fromString {t : String} (h : c.fromStr t = .ok v') (mCbs : List (C → C → W → W))
    (w : W) : (c.var v mCbs).fromString t w = (c.var v mCbs).setValue v' w := by
  simp only [CfgVar.fromString, LexicalCast.var, h]

end

/-- The variable keeps its value where the text of the value is read as the value, for the text
that stands for a failure is read as the empty container. -/
theorem Echoes.unchanged_iff {W : Type} [DecidableEq C] {c : LexicalCast C} {empty v : C}
    (h : Echoes y c empty v ss) (mCbs : List (C → C → W → W)) (w : W) :
    ((c.var v mCbs).fromString (c.toString v) w).1 = c.var v mCbs ↔ ∀ s ∈ ss, Stable y s := by
  rw [← h.faithful_iff]
  cases hencode : c.toStr v with
  | error e =>
    have hne : ss ≠ [] := by
      rintro rfl
      obtain ⟨t, -, ht, -⟩ := h.round fun s hs => by cases hs
      cases hencode.symm.trans ht
    have htext : c.toString v = "" := by rw [LexicalCast.toString, hencode]
    rw [htext, var_fromString h.clear, var_setValue_eq]
    exact iff_of_false (h.nonempty hne).symm (by rintro ⟨⟩)
  | ok t =>
    obtain ⟨t', v', ht, hdecode, -⟩ := h.round (h.reads hencode)
    cases hencode.symm.trans ht
    have htext : c.toString v = t := by rw [LexicalCast.toString, hencode]
    rw [htext, var_fromString hdecode, var_setValue_eq]
    change _ ↔ c.fromStr t = .ok v
    rw [hdecode, Except.ok.injEq]

/-! ### The containers -/

/-- A loop that ran to its end has run each of its turns. -/
theorem foldlM_turns {f : σ → α → Except ε σ} {P : α → Prop} {l : List α}
    (hturn : ∀ {s a t}, f s a = .ok t → P a) {s t : σ} (h : l.foldlM f s = .ok t) :
    ∀ a ∈ l, P a := by
  induction l generalizing s with
  | nil => exact fun a ha => by cases ha
  | cons a l ih =>
    rw [List.foldlM_cons] at h
    obtain ⟨s', hs', hrest⟩ := bind_eq_ok.1 h
    intro b hb
    rcases List.mem_cons.1 hb with rfl | hb
    · exact hturn hs'
    · exact ih hrest b hb

theorem encodeSeq_reads {v : List String} (h : encodeSeq y LexicalCast.string.toStr v = .ok t) :
    ∀ s ∈ v, ∃ n, y.load s = .ok n := by
  obtain ⟨node, hloop, -⟩ := bind_eq_ok.1 h
  refine foldlM_turns (fun hturn => ?_) hloop
  obtain ⟨s, hs, hturn⟩ := bind_eq_ok.1 hturn
  cases hs
  obtain ⟨n, hn, -⟩ := bind_eq_ok.1 hturn
  exact ⟨n, hn⟩

theorem encodeMap_reads {v : List (String × String)}
    (h : encodeMap y LexicalCast.string.toStr v = .ok t) :
    ∀ s ∈ v.map Prod.snd, ∃ n, y.load s = .ok n := by
  obtain ⟨node, hloop, -⟩ := bind_eq_ok.1 h
  refine List.forall_mem_map.2 (foldlM_turns (fun hturn => ?_) hloop)
  obtain ⟨s, hs, hturn⟩ := bind_eq_ok.1 hturn
  cases hs
  obtain ⟨n, hn, -⟩ := bind_eq_ok.1 hturn
  exact ⟨n, hn⟩

theorem seq_echo (hy : y.Faithful) {v : List String} (h : ∀ s ∈ v, ∃ n, y.load s = .ok n)
    (put : σ → String → σ) (empty : σ) : ∃ t, encodeSeq y LexicalCast.string.toStr v = .ok t ∧
      decodeSeq y put empty LexicalCast.string.fromStr t = .ok ((v.map (echo y)).foldl put empty) := by
  have hencode :
      encodeSeq y LexicalCast.string.toStr v = .ok (y.emit (.seq (v.map (loaded y)))) := by
    refine encodeSeq_eq fun s hs => ?_
    obtain ⟨n, hn⟩ := h s hs
    rw [loaded_eq hn]
    exact hn
  exact ⟨_, hencode, decodeSeq_emit (hy _) (fun s _ => rfl) empty⟩

theorem decodeSeq_clear (hclear : y.load "" = .ok .null) (put : σ → String → σ) (empty : σ) :
    decodeSeq y put empty LexicalCast.string.fromStr "" = .ok empty := by
  rw [decodeSeq, hclear]
  rfl

theorem echoes_vector (hy : y.Faithful) (hclear : y.load "" = .ok .null) (v : List String) :
    Echoes y (.vector y .string) [] v v where
  round h := by
    obtain ⟨t, hencode, hdecode⟩ := seq_echo hy h (fun vec i => vec ++ [i]) []
    refine ⟨t, _, hencode, hdecode, ?_⟩
    rw [push_back_all, List.nil_append]
    exact map_eq_self_iff
  reads := encodeSeq_reads
  clear := decodeSeq_clear hclear _ []
  nonempty h := h

theorem echoes_set (hy : y.Faithful) (hclear : y.load "" = .ok .null)
    (v : OrdSet fun k : String => k) :
    Echoes y (.set y .string) OrdSet.empty v v.elems where
  round h := by
    obtain ⟨t, hencode, hdecode⟩ := seq_echo hy h OrdSet.insert
      (OrdSet.empty : OrdSet fun k : String => k)
    refine ⟨t, _, hencode, hdecode, fun heq s hs => ?_, fun hsame => ?_⟩
    · -- Each element is one that an element is echoed as, and a second echo does not change it.
      rw [← heq] at hs
      rcases OrdSet.mem_foldl_insert.1 hs with hs | hs
      · cases hs
      · obtain ⟨s', -, rfl⟩ := List.mem_map.1 hs
        exact echo_echo hy s'
    · rw [map_eq_self_iff.2 hsame]
      exact OrdSet.foldl_insert_elems v
  reads := encodeSeq_reads
  clear := decodeSeq_clear hclear _ OrdSet.empty
  nonempty h heq := h (congrArg OrdSet.elems heq)

theorem echoes_map (hy : y.Faithful) (hclear : y.load "" = .ok .null) (v : OrdMap String) :
    Echoes y (.map y .string) OrdSet.empty v (v.elems.map Prod.snd) where
  round h := by
    have hload : ∀ e ∈ v.elems, (LexicalCast.string.toStr e.2 >>= y.load) = .ok (loaded y e.2) := by
      intro e he
      obtain ⟨n, hn⟩ := h e.2 (List.mem_map_of_mem he)
      rw [loaded_eq hn]
      exact hn
    have hsorted : (v.elems.map fun e => (e.1, echo y e.2)).Pairwise fun d e => d.1 < e.1 :=
      List.pairwise_map.2 v.sorted
    refine ⟨_, _, encodeMap_eq v.nodup_keys hload,
      decodeMap_eq (g := echo y) (hy _) (fun e _ => rfl) OrdSet.empty, ?_⟩
    have helems : (List.foldl OrdSet.insert (OrdSet.empty : OrdMap String) _).elems = _ :=
      OrdSet.elems_ofList hsorted
    constructor
    · intro heq
      rw [heq] at helems
      have hsame := map_eq_self_iff.1 helems.symm
      exact List.forall_mem_map.2 fun e he => congrArg Prod.snd (hsame e he)
    · intro hsame
      refine OrdSet.eq_of_elems (helems.trans (map_eq_self_iff.2 fun e he => ?_))
      exact Prod.ext rfl (hsame e.2 (List.mem_map_of_mem he))
  reads := encodeMap_reads
  clear := by
    change decodeMap _ _ _ _ _ = _
    rw [decodeMap, hclear]
    rfl
  nonempty h heq := h (congrArg (fun v : OrdMap String => v.elems.map Prod.snd) heq)

/-- The containers of texts that keep their order. -/
inductive Texts : Type → Type 1 where
  | vector : Texts (List String)
  | list : Texts (List String)
  | set : Texts (OrdSet fun k : String => k)
  | map : Texts (OrdMap String)

namespace Texts

def cast (y : YamlCpp) : Texts C → LexicalCast C
  | vector => .vector y .string
  | list => .list y .string
  | set => .set y .string
  | map => .map y .string

/-- The elements, without the keys of a map. -/
def elements : Texts C → C → List String
  | vector | list => fun v => v
  | set => fun v => v.elems
  | map => fun v => v.elems.map Prod.snd

/-- A value of texts is read back, and its variable keeps it, just where each of the texts is
what its own node is emitted as. -/
theorem round_trip_iff [DecidableEq C] (hy : y.Faithful) (hclear : y.load "" = .ok .null)
    (k : Texts C) (v : C) :
    (((k.cast y).toStr v >>= (k.cast y).fromStr) = .ok v ↔ ∀ s ∈ k.elements v, Stable y s) ∧
      ∀ {W : Type} (mCbs : List (C → C → W → W)) (w : W),
        (((k.cast y).var v mCbs).fromString ((k.cast y).toString v) w).1 = (k.cast y).var v mCbs ↔
          ∀ s ∈ k.elements v, Stable y s := by
  have hechoes : ∃ empty, Echoes y (k.cast y) empty v (k.elements v) := by
    cases k with
    | vector | list => exact ⟨_, echoes_vector hy hclear v⟩
    | set => exact ⟨_, echoes_set hy hclear v⟩
    | map => exact ⟨_, echoes_map hy hclear v⟩
  obtain ⟨empty, hechoes⟩ := hechoes
  exact ⟨hechoes.faithful_iff, hechoes.unchanged_iff⟩

theorem round_trip_iff_words :
    (((vector.cast Plain.yaml).toStr ["ab", "12"] >>= (vector.cast Plain.yaml).fromStr) =
        .ok ["ab", "12"] ↔ ∀ s ∈ ["ab", "12"], Stable Plain.yaml s) ∧
      ∀ {W : Type} (mCbs : List (List String → List String → W → W)) (w : W),
        (((vector.cast Plain.yaml).var ["ab", "12"] mCbs).fromString
            ((vector.cast Plain.yaml).toString ["ab", "12"]) w).1 =
          (vector.cast Plain.yaml).var ["ab", "12"] mCbs ↔
          ∀ s ∈ ["ab", "12"], Stable Plain.yaml s :=
  round_trip_iff Plain.yaml_faithful rfl vector ["ab", "12"]

/-- An empty text comes back as the sign for null. -/
theorem empty_text_is_null : Plain.yaml.Faithful ∧
    ((vector.cast Plain.yaml).toStr [""] >>= (vector.cast Plain.yaml).fromStr) = .ok ["~"] ∧
    (((vector.cast Plain.yaml).var [""] []).fromString
      ((vector.cast Plain.yaml).toString [""]) ()).1 = (vector.cast Plain.yaml).var ["~"] [] :=
  ⟨Plain.yaml_faithful, rfl, rfl⟩

end Texts

end Config
end SvrFrame
