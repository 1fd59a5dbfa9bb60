import SvrFrame.Yaml.Node

namespace SvrFrame
namespace Config
set_option autoImplicit true

def validName (name : String) : Bool :=
  name.toList.all fun c => "abcdefghijklmnopqrstuvwxyz_.0123456789".toList.contains c

/-- `Scalar()`, which is empty for a node that is no scalar. -/
def scalarText : Node → String
  | .scalar text => text
  | _ => ""

def memberName (name : String) (key : Node) : String :=
  if name = "" then scalarText key else name ++ "." ++ scalarText key

mutual
def listAllMember (name : String) : Node → List (String × Node)
  | .map es => if validName name then (name, .map es) :: listEntries name es else []
  | node => if validName name then [(name, node)] else []

def listEntries (name : String) : List (Node × Node) → List (String × Node)
  | [] => []
  | (k, v) :: es => listAllMember (memberName name k) v ++ listEntries name es
end

/-- `std::transform` with `::tolower`. -/
def toLower (name : String) : String := String.ofList (name.toList.map Char.toLower)

/-- The text that `FromString` is called with. -/
def memberText (y : YamlCpp) : Node → String
  | .scalar text => text
  | node => y.emit node

/-- `Config::LoadFromYaml`, over the variables that `LookUpBase` finds and their `FromString`. -/
def loadFromYaml (y : YamlCpp) (lookUpBase : String → Option (String → σ → Option σ)) (root : Node)
    (s : σ) : Option σ :=
  (listAllMember "" root).foldlM (fun s i =>
    if i.1 = "" then some s
    else match lookUpBase (toLower i.1) with
      | some fromString => fromString (memberText y i.2) s
      | none => some s) s

end Config
end SvrFrame
