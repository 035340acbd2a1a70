import ServiceFlow.Number.Script
import ServiceFlow.Syntax.Kind

/-!
# Errors about nodes

Why an operation on the nodes of a forest failed, and how that is worded.
-/

namespace ServiceFlow

abbrev NodeId := Nat

inductive Collection where
  | array
  | object
deriving DecidableEq, Repr

inductive AccessFault where
  | indexIntoObject (index : Double)
  | propertyOfArray (name : String)
  | indexIntoString
deriving DecidableEq, Repr

inductive ReferenceFault where
  | outsideDetail (event found : String)
  | notEvent (name event : String)
  | notEventOrUtility (name event utility : String)
deriving DecidableEq, Repr

inductive NodeError where
  | typeMismatch (node : NodeId) (expected actual : Kind)
  | alreadyAttached (node parent : NodeId)
  | unknownNode (node : NodeId)
  | propertyNotFound (node : NodeId) (property : String)
  | invalidAccess (node : NodeId) (fault : AccessFault)
  | unsupportedSpread (node : NodeId) (collection : Collection)
  | invalidReference (node : NodeId) (fault : ReferenceFault)
  | missingReturn (node : NodeId)
  | unsupportedStatement (node : NodeId) (kind : Kind)
deriving DecidableEq, Repr

def nodeLabel (id : NodeId) : String := "#" ++ toString id

def Collection.name : Collection → String
  | .array => "array"
  | .object => "object"

def AccessFault.message : AccessFault → String
  | .indexIntoObject index => "numeric index " ++ index.text ++ " into an object"
  | .propertyOfArray name => "property '" ++ name ++ "' of an array"
  | .indexIntoString => "numeric index into a string"

def ReferenceFault.message : ReferenceFault → String
  | .outsideDetail event found =>
    "nested references to '" ++ event ++ "' must go through '" ++ event ++ ".detail', found '" ++
      found ++ "'"
  | .notEvent name event => "'" ++ name ++ "' is not the event '" ++ event ++ "'"
  | .notEventOrUtility name event utility =>
    "'" ++ name ++ "' is neither the event '" ++ event ++ "' nor the utility '" ++ utility ++ "'"

namespace NodeError

def node : NodeError → NodeId
  | .typeMismatch n _ _ | .alreadyAttached n _ | .unknownNode n | .propertyNotFound n _
  | .invalidAccess n _ | .unsupportedSpread n _ | .invalidReference n _ | .missingReturn n
  | .unsupportedStatement n _ => n

def message : NodeError → String
  | .typeMismatch n expected actual =>
    "node " ++ nodeLabel n ++ ": expected " ++ expected.name ++ ", found " ++ actual.name
  | .alreadyAttached n parent =>
    "node " ++ nodeLabel n ++ " is already attached to " ++ nodeLabel parent
  | .unknownNode n => "node " ++ nodeLabel n ++ " does not belong to this tree"
  | .propertyNotFound n property =>
    "node " ++ nodeLabel n ++ ": property '" ++ property ++ "' not found"
  | .invalidAccess n fault =>
    "node " ++ nodeLabel n ++ ": invalid access: " ++ fault.message
  | .unsupportedSpread n collection =>
    "node " ++ nodeLabel n ++ ": cannot spread an expression that is not a constant " ++
      collection.name
  | .invalidReference n fault =>
    "node " ++ nodeLabel n ++ ": invalid reference: " ++ fault.message
  | .missingReturn n =>
    "node " ++ nodeLabel n ++ ": expected the final statement to be a return with a value"
  | .unsupportedStatement n kind =>
    "node " ++ nodeLabel n ++ ": unsupported statement " ++ kind.name ++ " in this position"

end NodeError

end ServiceFlow
