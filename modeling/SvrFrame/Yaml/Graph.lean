import SvrFrame.Library.Descent
import SvrFrame.Yaml.Node

namespace SvrFrame
open Library
set_option autoImplicit true

/-- A node as `Load` returns it: what it holds are references to nodes of the document. -/
inductive NodeShape (n : Nat) where
  | null
  | scalar (text : String)
  | seq (items : List (Fin n))
  | map (entries : List (Fin n × Fin n))
  deriving DecidableEq

/-- The nodes of a document. An alias refers to the very node that its anchor names. -/
abbrev NodeGraph (n : Nat) := Fin n → NodeShape n

namespace NodeGraph
variable {n : Nat} (g : NodeGraph n)

/-- What an iteration over a node that may be no map comes by. -/
def entries (v : Fin n) : List (Fin n × Fin n) :=
  match g v with
  | .map es => es
  | _ => []

/-- A key, as far as `Scalar()` shows it. -/
def key (k : Fin n) : Node :=
  match g k with
  | .scalar text => .scalar text
  | _ => .null

/-- The tree that a node stands for; `none` where it is deeper than `fuel`. -/
def unfold : Nat → Fin n → Option Node
  | 0, _ => none
  | fuel + 1, v =>
    match g v with
    | .null => some .null
    | .scalar text => some (.scalar text)
    | .seq items => (items.mapM (unfold fuel)).map .seq
    | .map es => (es.mapM fun e =>
        (unfold fuel e.1).bind fun k => (unfold fuel e.2).map fun v => (k, v)).map .map

end NodeGraph
end SvrFrame
