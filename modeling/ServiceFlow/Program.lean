import ServiceFlow.Namespace
import ServiceFlow.Service.Call
import ServiceFlow.Settings

/-!
# Programs

A function of a forest that is to be compiled, with what it may refer to.
-/

namespace ServiceFlow

structure Program where
  name : String
  forest : Forest
  function : NodeId
  registry : Registry
  references : References
  settings : Settings

/-- A compilation gives out names and data sources. Those given out before it fails stay. -/
abbrev Allocate := ExceptT CompileError (StateM Namespace)

namespace Allocate

def ofExcept {α : Type} : Except CompileError α → Allocate α
  | .ok a => pure a
  | .error e => throw e

def uniqueName (name : String) : Allocate String := modifyGet fun ns => ns.uniqueName name

def dataSource (reference : String) (resource : Resource) : Allocate DataSource :=
  modifyGet fun ns => ns.dataSource reference resource

end Allocate

inductive Use where
  | discard
  | bind (name : String)
  | returned
deriving DecidableEq, Repr

namespace Tree

/-- The expression that a statement evaluates and what it does with the value, for statements that
do nothing else. -/
def usedExpression? (t : Term) : Option (Term × Use) :=
  match t.node with
  | .exprStmt expression => some (expression, .discard)
  | .variableStmt name initializer => initializer.map (·, .bind name)
  | .returnStmt expression => expression.map (·, .returned)
  | _ => none

def parameterName? {α : Type} : Tree α → Option String
  | .mk _ (.parameterDecl name) | .mk _ (.identifier name) => some name
  | _ => none

def functionParts (t : Term) : Except CompileError (List Term × Term × List Term) :=
  match t.node with
  | .functionDecl _ parameters body | .arrowFunction parameters body =>
    match body.node with
    | .block statements _ => .ok (parameters, body, statements)
    | _ => .error (.unsupported body.tag body.kind .functionBody)
  | _ => .error (.node (.typeMismatch t.tag .functionDecl t.kind))

end Tree

def Program.term (program : Program) : Except CompileError Term :=
  match program.forest.view? program.function with
  | some t => .ok t
  | none => .error (.node (.unknownNode program.function))

end ServiceFlow
