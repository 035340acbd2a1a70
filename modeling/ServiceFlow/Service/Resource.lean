import ServiceFlow.Constant.Eval
import ServiceFlow.Json.Fields

/-!
# Backends

The backends that a function can call, and the plain values it can refer to, by name.
-/

namespace ServiceFlow

inductive Backend where
  | keyValueStore
  | computeFunction
  | workflowOrchestrator
deriving DecidableEq, Repr, Inhabited

namespace Backend

def all : List Backend := [.keyValueStore, .computeFunction, .workflowOrchestrator]

def name : Backend → String
  | .keyValueStore => "keyValueStore"
  | .computeFunction => "computeFunction"
  | .workflowOrchestrator => "workflowOrchestrator"

def ofName? (text : String) : Option Backend := all.find? fun b => b.name == text

end Backend

/-- A concrete backend. Express state machines are started synchronously. -/
structure Resource where
  kind : Backend
  identifier : String
  express : Bool
deriving DecidableEq, Repr, Inhabited

structure Registry where
  resources : Ordered Resource
  values : Ordered Constant
deriving Inhabited

namespace Registry

def empty : Registry := ⟨[], []⟩

def resource? (registry : Registry) (name : String) : Option Resource :=
  Ordered.get? name registry.resources

def plainReferences (registry : Registry) : References := fun name =>
  Ordered.get? name registry.values

def references (registry : Registry) : References := fun name =>
  match Ordered.get? name registry.values with
  | some value => some value
  | none => (registry.resource? name).map fun resource => .handle resource.identifier

end Registry

namespace Json

def resource? (word : Json → Option String) (json : Json) : Option Resource := do
  let backend? (kind : Json) := (word kind).bind Backend.ofName?
  match ← json.fields? ["kind", "identifier", "express"] with
  | [kind, identifier, express] =>
    pure ⟨← required backend? kind, ← required string? identifier,
      ← defaulted false bool? express⟩
  | _ => none

/-- A plain value: a scalar, or an object with a handle. -/
def plainValue? : Json → Option Constant
  | .null => some .null
  | .bool b => some (.bool b)
  | .number n => some (.number n.toDouble)
  | .string s => some (.string s)
  | .object entries => do pure (.handle (← required string? (← field? entries "handle")))
  | .array _ => none

def ordered? {α : Type} (item : Json → Option α) : Json → Option (Ordered α)
  | .object entries => do
    let values ← entries.mapM fun (key, value) => do pure (key, ← item value)
    pure (Ordered.ofEntries values)
  | _ => none

/-- The registry in the fields of an object. The first argument reads the kinds of resources. -/
def registry? (word : Json → Option String) (entries : List (String × Json)) :
    Option Registry := do
  pure ⟨← defaulted [] (ordered? (resource? word)) (← field? entries "resources"),
    ← defaulted [] (ordered? plainValue?) (← field? entries "values")⟩

end Json

namespace Resource

def toJson (resource : Resource) : Json :=
  .object ([("kind", .string resource.kind.name), ("identifier", .string resource.identifier)] ++
    if resource.express then [("express", .bool true)] else [])

end Resource

end ServiceFlow
