import ServiceFlow.Reference.Path

/-!
# Paths into the state document

The variables of a workflow are the fields of the document that states pass on. A path reads the
document, one of its variables, or the current item of a map.
-/

namespace ServiceFlow.Machine

inductive Origin where
  | document
  | variable (name : String)
  | item
  | itemIndex
deriving DecidableEq, Repr

def Origin.text : Origin → String
  | .document => "$"
  | .variable name => "$." ++ name
  | .item => "$$.Map.Item.Value"
  | .itemIndex => "$$.Map.Item.Index"

structure Path where
  origin : Origin
  segments : List Segment
  /-- Whether the path stands for all items but the first of what it leads to. -/
  rest : Bool
deriving DecidableEq, Repr

namespace Path

def text (path : Path) : String :=
  appendSegments path.origin.text path.segments ++ (if path.rest then "[1:]" else "")

def document : Path := ⟨.document, [], false⟩

def ofVariable (name : String) : Path := ⟨.variable name, [], false⟩

def item : Path := ⟨.item, [], false⟩

def itemIndex : Path := ⟨.itemIndex, [], false⟩

def append (path : Path) (segments : List Segment) : Path :=
  { path with segments := path.segments ++ segments }

def field (path : Path) (name : String) : Path := path.append [.key name]

def first (path : Path) : Path := path.append [.index 0]

def others (path : Path) : Path := { path with rest := true }

end Path

end ServiceFlow.Machine
