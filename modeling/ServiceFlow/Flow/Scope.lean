import ServiceFlow.Flow.Basic
import ServiceFlow.Ordered

/-!
# Lexical scope

The names visible at a node. Outer scopes come first; a nearer declaration of a name takes the place
of an outer one.
-/

namespace ServiceFlow

inductive BindingKind where
  | variable
  | parameter
  | loopVariable
  | catchVariable
  | function
deriving DecidableEq, Repr

def BindingKind.name : BindingKind → String
  | .variable => "variable"
  | .parameter => "parameter"
  | .loopVariable => "loopVariable"
  | .catchVariable => "catchVariable"
  | .function => "function"

structure Binding where
  node : NodeId
  kind : BindingKind
deriving DecidableEq, Repr

namespace Forest

def bind (f : Forest) (kind : BindingKind) (scope : Ordered Binding) (id : NodeId) :
    Ordered Binding :=
  match f.node? id with
  | some (.variableStmt name _) => scope.put name ⟨id, kind⟩
  | some (.parameterDecl name) => scope.put name ⟨id, kind⟩
  | some (.functionDecl (some name) _ _) => scope.put name ⟨id, .function⟩
  | _ => scope

def bindHeader (f : Forest) (parent child : NodeId) (scope : Ordered Binding) : Ordered Binding :=
  match f.node? parent with
  | some (.functionDecl _ parameters body) =>
    if body = child then parameters.foldl (f.bind .parameter) scope else scope
  | some (.arrowFunction parameters body) =>
    if body = child then parameters.foldl (f.bind .parameter) scope else scope
  | some (.forOfStmt binder _ body) =>
    if body = child then f.bind .loopVariable scope binder else scope
  | some (.forInStmt binder _ body) =>
    if body = child then f.bind .loopVariable scope binder else scope
  | _ => scope

def preceding (f : Forest) (id : NodeId) : List NodeId :=
  if id ∈ f.chain id then (f.chain id).takeWhile (· ≠ id) else []

def scopeWithin (f : Forest) : Nat → NodeId → Ordered Binding
  | 0, _ => []
  | fuel + 1, id =>
    match f.parent? id with
    | none => []
    | some parent =>
      let outer := f.bindHeader parent id (scopeWithin f fuel parent)
      let kind := if f.kind? parent = some .catchClause then .catchVariable else .variable
      (f.preceding id).foldl (f.bind kind) outer

def scope (f : Forest) (id : NodeId) : Ordered Binding := f.scopeWithin f.size id

end Forest

end ServiceFlow
