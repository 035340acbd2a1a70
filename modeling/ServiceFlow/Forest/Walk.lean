import ServiceFlow.Forest.Basic

/-!
# Walks over a forest

Ancestors and descendants by the attachment of nodes. Each walk visits a node at most once where
attachment has no cycle, so the size of the forest bounds it.
-/

namespace ServiceFlow

inductive Traversal where
  | depthFirst
  | breadthFirst
deriving DecidableEq, Repr

namespace Forest

def ancestorsWithin (f : Forest) : Nat → NodeId → List NodeId
  | 0, _ => []
  | fuel + 1, id =>
    match f.parent? id with
    | none => []
    | some parent => parent :: ancestorsWithin f fuel parent

def ancestors (f : Forest) (id : NodeId) : List NodeId := f.ancestorsWithin f.size id

def findParent? (f : Forest) (id : NodeId) (kind : Kind) : Option NodeId :=
  (f.ancestors id).find? fun a => f.kind? a == some kind

def descendantsWithin (f : Forest) : Nat → NodeId → List NodeId
  | 0, _ => []
  | fuel + 1, id => (f.attached id).flatMap fun child => child :: descendantsWithin f fuel child

def descendants (f : Forest) (id : NodeId) : List NodeId := f.descendantsWithin f.size id

def findChildren (f : Forest) (id : NodeId) (kind : Kind) : List NodeId :=
  (f.attached id).filter fun child => f.kind? child == some kind

/-- Look for a node among those still to visit and below them. The node attached last is visited
first. -/
def searchDepth (f : Forest) (target : NodeId) : Nat → List NodeId → Bool
  | 0, _ => false
  | _ + 1, [] => false
  | fuel + 1, id :: rest =>
    id == target || searchDepth f target fuel ((f.attached id).reverse ++ rest)

def searchBreadth (f : Forest) (target : NodeId) : Nat → List NodeId → Bool
  | 0, _ => false
  | _ + 1, [] => false
  | fuel + 1, level =>
    level.contains target || searchBreadth f target fuel (level.flatMap f.attached)

def contains (f : Forest) (ancestor node : NodeId) : Traversal → Bool
  | .depthFirst => f.searchDepth node f.size (f.attached ancestor).reverse
  | .breadthFirst => f.searchBreadth node f.size (f.attached ancestor)

def sameWithin (f : Forest) : Nat → NodeId → NodeId → Bool
  | 0, _, _ => false
  | fuel + 1, a, b =>
    match f.node? a, f.node? b with
    | some m, some n =>
      m.sameShape n && (f.attached a).length == (f.attached b).length &&
        ((f.attached a).zip (f.attached b)).all fun (x, y) => sameWithin f fuel x y
    | _, _ => false

def same (f : Forest) (a b : NodeId) : Bool := f.sameWithin f.size a b

end Forest

end ServiceFlow
