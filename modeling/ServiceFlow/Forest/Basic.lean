import ServiceFlow.Forest.Error
import ServiceFlow.Syntax.Tree

/-!
# Forests of syntax nodes

A forest holds numbered nodes. A node lists children in its fields; it also has at most one parent,
and a list of the nodes attached to it.
-/

namespace ServiceFlow

/-- A tree whose tags are the numbers of its nodes. -/
abbrev Term := Tree NodeId

namespace Forest

structure Entry where
  node : Node NodeId
  parent : Option NodeId
  attached : List NodeId
deriving DecidableEq, Repr

end Forest

structure Forest where
  entries : Array Forest.Entry
deriving DecidableEq, Repr

namespace Forest

def empty : Forest := ⟨#[]⟩

def size (f : Forest) : Nat := f.entries.size

def ids (f : Forest) : List NodeId := List.range f.size

def node? (f : Forest) (id : NodeId) : Option (Node NodeId) := f.entries[id]?.map (·.node)

def parent? (f : Forest) (id : NodeId) : Option NodeId := f.entries[id]?.bind (·.parent)

def attached (f : Forest) (id : NodeId) : List NodeId :=
  (f.entries[id]?.map (·.attached)).getD []

def kind? (f : Forest) (id : NodeId) : Option Kind := (f.node? id).map (·.kind)

/-- The first reason why the nodes cannot become the children of `parent`, given those seen
already: a node is unknown, has a parent, or is listed twice. -/
def attachFault? (f : Forest) (parent : NodeId) : List NodeId → List NodeId → Option NodeError
  | _, [] => none
  | seen, child :: rest =>
    match f.entries[child]? with
    | none => some (.unknownNode child)
    | some entry =>
      match entry.parent with
      | some existing => some (.alreadyAttached child existing)
      | none =>
        if child ∈ seen then some (.alreadyAttached child parent)
        else attachFault? f parent (child :: seen) rest

def adopt (entries : Array Entry) (parent : NodeId) (children : List NodeId) : Array Entry :=
  children.foldl (fun es child => es.modify child fun e => { e with parent := some parent }) entries

def add (f : Forest) (node : Node NodeId) : Except NodeError (NodeId × Forest) :=
  let id := f.size
  match f.attachFault? id [] node.children with
  | some fault => .error fault
  | none =>
    .ok (id, ⟨(adopt f.entries id node.children).push ⟨node, none, node.children⟩⟩)

def attach (f : Forest) (child parent : NodeId) : Except NodeError Forest :=
  if parent < f.size then
    match f.attachFault? parent [] [child] with
    | some fault => .error fault
    | none =>
      .ok ⟨(adopt f.entries parent [child]).modify parent fun e =>
        { e with attached := e.attached ++ [child] }⟩
  else
    .error (.unknownNode parent)

/-- The tree below a node whose number is below the bound, by the fields of the nodes. -/
def viewBelow (f : Forest) : Nat → NodeId → Option Term
  | 0, _ => none
  | bound + 1, id => do
    let node ← f.node? id
    pure (.mk id (← node.mapM (viewBelow f bound)))

/-- The tree below a node. Fields refer to nodes added earlier, so the number of the node bounds the
depth. -/
def view? (f : Forest) (id : NodeId) : Option Term := f.viewBelow (id + 1) id

def tree? (f : Forest) (id : NodeId) : Option SyntaxTree := (f.view? id).map Tree.untag

def expectKind (f : Forest) (id : NodeId) (kind : Kind) : Except NodeError Kind :=
  match f.kind? id with
  | none => .error (.unknownNode id)
  | some actual => if actual = kind then .ok kind else .error (.typeMismatch id kind actual)

end Forest

/-- Operations that add nodes. What was added before a failure stays. -/
abbrev Build := ExceptT NodeError (StateM Forest)

namespace Build

def ofExcept {α : Type} : Except NodeError α → Build α
  | .ok a => pure a
  | .error e => throw e

def add (node : Node NodeId) : Build NodeId := do
  let f ← getThe Forest
  let (id, f) ← ofExcept (f.add node)
  set f
  pure id

def attach (child parent : NodeId) : Build Unit := do
  let f ← getThe Forest
  set (← ofExcept (f.attach child parent))

def node (id : NodeId) : Build (Node NodeId) := do
  match (← getThe Forest).node? id with
  | some n => pure n
  | none => throw (.unknownNode id)

def view (id : NodeId) : Build Term := do
  match (← getThe Forest).view? id with
  | some t => pure t
  | none => throw (.unknownNode id)

def insert {α : Type} (tree : Tree α) : Build NodeId := tree.foldM fun _ node => add node

def copy (id : NodeId) : Build NodeId := do insert (← view id)

end Build

def Forest.ofTree (tree : SyntaxTree) : Except NodeError (NodeId × Forest) :=
  match (Build.insert tree).run Forest.empty with
  | (.ok id, f) => .ok (id, f)
  | (.error e, _) => .error e

end ServiceFlow
