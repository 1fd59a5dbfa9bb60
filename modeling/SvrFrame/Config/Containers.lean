import SvrFrame.Config.Codec
import SvrFrame.Config.Load
import SvrFrame.Library.KeySet
import Mathlib.Data.String.Basic

namespace SvrFrame
namespace Config
open Library
set_option autoImplicit true

/-- `LexicalCast<T, std::string>` and `LexicalCast<std::string, T>`. -/
structure LexicalCast (T : Type) where
  toStr : T → Except Exn String
  fromStr : String → Except Exn T

/-- What `for (it = node.begin(); it != node.end(); ++it)` runs over; for a sequence, `it->first`
is not valid. -/
def members : Node → Except Exn (List (Node × Node))
  | .map es => .ok es
  | .seq (_ :: _) => .error .invalidNode
  | _ => .ok []

abbrev OrdMap (T : Type) := OrdSet fun e : String × T => e.1

abbrev KeyMap (T : Type) := KeySet fun e : String × T => e.1

section
variable (y : YamlCpp)

/-- The loop of the encoders of sequences. -/
def encodeSeq (toStr : T → Except Exn String) (v : List T) : Except Exn String := do
  let node ← v.foldlM (fun node i => do
    return Node.pushBack (some node) (← y.load (← toStr i))) (.seq [])
  return y.emit node

/-- The loop of the encoders of maps. -/
def encodeMap (toStr : T → Except Exn String) (v : List (String × T)) : Except Exn String := do
  let node ← v.foldlM (fun node i => do
    return Node.set node i.1 (← y.load (← toStr i.2))) (.map [])
  return y.emit node

/-- The loop of the decoders of maps. -/
def decodeMap (put : σ → String × T → σ) (empty : σ) (fromStr : String → Except Exn T)
    (v : String) : Except Exn σ := do
  let node ← y.load v
  (← members node).foldlM
    (fun vec it => do return put vec (scalarText it.1, ← fromStr (y.emit it.2))) empty

end

namespace LexicalCast
variable (y : YamlCpp)

/-- `boost::lexical_cast` from and to a text. -/
def string : LexicalCast String := ⟨.ok, .ok⟩

def vector (c : LexicalCast T) : LexicalCast (List T) where
  toStr := encodeSeq y c.toStr
  fromStr := decodeSeq y (fun vec i => vec ++ [i]) [] c.fromStr

def list (c : LexicalCast T) : LexicalCast (List T) where
  toStr := encodeSeq y c.toStr
  fromStr := decodeSeq y (fun vec i => vec ++ [i]) [] c.fromStr

def set [LinearOrder T] (c : LexicalCast T) : LexicalCast (OrdSet fun i : T => i) where
  toStr v := encodeSeq y c.toStr v.elems
  fromStr := decodeSet y (fun i : T => i) c.fromStr

def unorderedSet [DecidableEq T] (c : LexicalCast T) : LexicalCast (KeySet fun i : T => i) where
  toStr v := encodeSeq y c.toStr v.elems
  fromStr := decodeSeq y KeySet.insert KeySet.empty c.fromStr

def map (c : LexicalCast T) : LexicalCast (OrdMap T) where
  toStr v := encodeMap y c.toStr v.elems
  fromStr := decodeMap y OrdSet.insert OrdSet.empty c.fromStr

def unorderedMap (c : LexicalCast T) : LexicalCast (KeyMap T) where
  toStr v := encodeMap y c.toStr v.elems
  fromStr := decodeMap y KeySet.insert KeySet.empty c.fromStr

end LexicalCast

/-! ### The loops where every element converts -/

variable {y : YamlCpp} {toStr : T → Except Exn String} {fromStr : String → Except Exn T}
  {f : T → Node} {g : T → T}

theorem push_back_all (v vec : List T) : v.foldl (fun vec i => vec ++ [i]) vec = vec ++ v := by
  induction v generalizing vec with
  | nil => exact (List.append_nil vec).symm
  | cons i v ih => rw [List.foldl_cons, ih, List.append_assoc]; rfl

theorem encodeSeq_eq {v : List T} (h : ∀ i ∈ v, (toStr i >>= y.load) = .ok (f i)) :
    encodeSeq y toStr v = .ok (y.emit (.seq (v.map f))) := by
  have hloop (items : List Node) : v.foldlM (fun node i => do
      return Node.pushBack (some node) (← y.load (← toStr i))) (.seq items) =
        Except.ok (.seq (items ++ v.map f)) := by
    induction v generalizing items with
    | nil => rw [List.map_nil, List.append_nil]; rfl
    | cons i v ih =>
      obtain ⟨s, hs, hn⟩ := bind_eq_ok.1 (h i List.mem_cons_self)
      have ih := ih (fun j hj => h j (List.mem_cons_of_mem i hj)) (items ++ [f i])
      rw [List.append_assoc] at ih
      rw [List.foldlM_cons, hs]
      simp only [bind, Except.bind, hn, pure, Except.pure, Node.pushBack]
      exact ih
  rw [encodeSeq, hloop []]
  rfl

theorem setEntry_new {es : List (Node × Node)} (h : ∀ e ∈ es, e.1.isKey key = false) (n : Node) :
    Node.setEntry key n es = es ++ [(.scalar key, n)] := by
  induction es with
  | nil => rfl
  | cons e es ih =>
    rw [Node.setEntry, if_neg (by rw [h e List.mem_cons_self]; decide),
      ih fun e' he => h e' (List.mem_cons_of_mem e he)]
    rfl

def entryNode (f : T → Node) (e : String × T) : Node × Node := (.scalar e.1, f e.2)

theorem encodeMap_eq {v : List (String × T)} (hv : (v.map Prod.fst).Nodup)
    (h : ∀ e ∈ v, (toStr e.2 >>= y.load) = .ok (f e.2)) :
    encodeMap y toStr v = .ok (y.emit (.map (v.map (entryNode f)))) := by
  have hloop (es : List (String × T)) (hes : ((es ++ v).map Prod.fst).Nodup) :
      v.foldlM (fun node i => do return Node.set node i.1 (← y.load (← toStr i.2)))
        (.map (es.map (entryNode f))) = Except.ok (.map ((es ++ v).map (entryNode f))) := by
    induction v generalizing es with
    | nil => rw [List.append_nil]; rfl
    | cons e v ih =>
      obtain ⟨s, hs, hn⟩ := bind_eq_ok.1 (h e List.mem_cons_self)
      have hnew : ∀ e' ∈ es.map (entryNode f), e'.1.isKey e.1 = false := by
        intro e' he'
        obtain ⟨d, hd, rfl⟩ := List.mem_map.1 he'
        rw [List.map_append, List.nodup_append] at hes
        exact decide_eq_false (hes.2.2 _ (List.mem_map_of_mem hd) _ List.mem_cons_self)
      have hes' : ((es ++ [e] ++ v).map Prod.fst).Nodup := by simpa using hes
      have ih := ih (List.nodup_cons.1 hv).2 (fun d hd => h d (List.mem_cons_of_mem e hd))
        (es ++ [e]) hes'
      rw [List.append_assoc, List.map_append] at ih
      rw [List.foldlM_cons, hs]
      simp only [bind, Except.bind, hn, pure, Except.pure, Node.set, setEntry_new hnew]
      exact ih
  rw [encodeMap]
  have := hloop [] hv
  simp only [List.map_nil, List.nil_append] at this
  rw [this]
  rfl

theorem decodeMap_eq {put : σ → String × T → σ} {v : List (String × T)}
    (hload : y.load (y.emit (.map (v.map (entryNode f)))) = .ok (.map (v.map (entryNode f))))
    (h : ∀ e ∈ v, fromStr (y.emit (f e.2)) = .ok (g e.2)) (empty : σ) :
    decodeMap y put empty fromStr (y.emit (.map (v.map (entryNode f)))) =
      .ok ((v.map fun e => (e.1, g e.2)).foldl put empty) := by
  have hloop (vec : σ) : (v.map (entryNode f)).foldlM
      (fun vec it => do return put vec (scalarText it.1, ← fromStr (y.emit it.2))) vec =
        Except.ok ((v.map fun e => (e.1, g e.2)).foldl put vec) := by
    clear hload
    induction v generalizing vec with
    | nil => rfl
    | cons e v ih =>
      have he := h e List.mem_cons_self
      simp only [List.map_cons, List.foldlM_cons, entryNode, he]
      exact ih (fun d hd => h d (List.mem_cons_of_mem e hd)) (put vec (e.1, g e.2))
  rw [decodeMap, hload]
  exact hloop empty

end Config
end SvrFrame
