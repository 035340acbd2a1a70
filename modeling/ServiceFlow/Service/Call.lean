import ServiceFlow.Error
import ServiceFlow.Forest.Basic
import ServiceFlow.Service.Resource

/-!
# Service calls

Which calls go to a backend, which are intrinsics of a workflow, and where they stand.
-/

namespace ServiceFlow

def utilName : String := "$util"

def intrinsicsName : String := "$SFN"

inductive KeyValueOp where
  | getItem
  | putItem
  | updateItem
  | deleteItem
  | query
  | scan
deriving DecidableEq, Repr

namespace KeyValueOp

def all : List KeyValueOp := [.getItem, .putItem, .updateItem, .deleteItem, .query, .scan]

def name : KeyValueOp → String
  | .getItem => "getItem"
  | .putItem => "putItem"
  | .updateItem => "updateItem"
  | .deleteItem => "deleteItem"
  | .query => "query"
  | .scan => "scan"

def operation : KeyValueOp → String
  | .getItem => "GetItem"
  | .putItem => "PutItem"
  | .updateItem => "UpdateItem"
  | .deleteItem => "DeleteItem"
  | .query => "Query"
  | .scan => "Scan"

def ofName? (text : String) : Option KeyValueOp := all.find? fun op => op.name == text

end KeyValueOp

inductive Intrinsic where
  | waitFor
  | waitUntil
  | map
  | forEach
  | parallel
deriving DecidableEq, Repr

namespace Intrinsic

def all : List Intrinsic := [.waitFor, .waitUntil, .map, .forEach, .parallel]

def name : Intrinsic → String
  | .waitFor => "waitFor"
  | .waitUntil => "waitUntil"
  | .map => "map"
  | .forEach => "forEach"
  | .parallel => "parallel"

def ofName? (text : String) : Option Intrinsic := all.find? fun i => i.name == text

end Intrinsic

inductive ServiceOp where
  | keyValue (op : KeyValueOp)
  | invoke
  | startExecution (sync : Bool)
deriving DecidableEq, Repr

structure ServiceCall where
  node : NodeId
  reference : String
  resource : Resource
  op : ServiceOp
  arguments : List Term

/-- A service call with the member accesses on its result, innermost first. -/
structure CallSite where
  call : ServiceCall
  accessors : List Term

def ServiceOp.of (node : NodeId) (resource : Resource) (method : Option String) :
    Except CompileError ServiceOp :=
  match resource.kind, method with
  | .keyValueStore, some method =>
    match KeyValueOp.ofName? method with
    | some op => .ok (.keyValue op)
    | none => .error (.serviceCall node (.notKeyValueOperation method))
  | .keyValueStore, none => .error (.serviceCall node .keyValueNotCallable)
  | .computeFunction, none => .ok .invoke
  | .computeFunction, some method =>
    if method = "invoke" then .ok .invoke
    else .error (.serviceCall node (.notOperation method resource.kind.name))
  | .workflowOrchestrator, none => .ok (.startExecution resource.express)
  | .workflowOrchestrator, some method =>
    if method = "startExecution" then .ok (.startExecution false)
    else if method = "startSyncExecution" then
      if resource.express then .ok (.startExecution true)
      else .error (.serviceCall node (.standardMachine resource.identifier))
    else .error (.serviceCall node (.notOperation method resource.kind.name))

namespace Tree

def awaited {α : Type} : Tree α → Tree α
  | .mk _ (.awaitExpr expression) => awaited expression
  | t => t
termination_by structural t => t

def reference? {α : Type} : Tree α → Option (String × Option String)
  | .mk _ (.referenceExpr name) => some (name, none)
  | .mk _ (.propertyAccess (.mk _ (.referenceExpr name)) method _) => some (name, some method)
  | _ => none

def serviceCall? (registry : Registry) (t : Term) : Except CompileError (Option ServiceCall) :=
  match t.awaited with
  | .mk id (.callExpr callee arguments) =>
    match callee.reference? with
    | none => .ok none
    | some (reference, method) =>
      match registry.resource? reference with
      | none => .error (.unknownResource callee.tag reference)
      | some resource => do
        let op ← ServiceOp.of id resource method
        pure (some ⟨id, reference, resource, op, arguments⟩)
  | _ => .ok none

/-- Strip the awaits and member accesses off an expression. The accesses are listed innermost
first. -/
def stripAccessors : List Term → Term → List Term × Term
  | accessors, .mk _ (.awaitExpr expression) => stripAccessors accessors expression
  | accessors, .mk id (.propertyAccess expression name chained) =>
    stripAccessors (.mk id (.propertyAccess expression name chained) :: accessors) expression
  | accessors, .mk id (.elementAccess expression element chained) =>
    stripAccessors (.mk id (.elementAccess expression element chained) :: accessors) expression
  | accessors, t => (accessors, t)
termination_by structural _ t => t

/-- Read an expression as a call of a backend with member accesses on the result. -/
def callSite? (registry : Registry) (t : Term) : Except CompileError (Option CallSite) := do
  let (accessors, inner) := stripAccessors [] t
  match ← inner.serviceCall? registry with
  | some call => pure (some ⟨call, accessors⟩)
  | none => pure none

def firstServiceCall? (registry : Registry) : List Term → Except CompileError (Option NodeId)
  | [] => .ok none
  | t :: rest => do
    match ← t.serviceCall? registry with
    | some call => pure (some call.node)
    | none => firstServiceCall? registry rest

def findServiceCall? (registry : Registry) (t : Term) : Except CompileError (Option NodeId) :=
  firstServiceCall? registry (t :: t.descendants.filter fun d => d.kind == .callExpr)

/-- The arguments of a call may not hold calls themselves. -/
def checkArguments (registry : Registry) (fault : PositionFault) :
    List Term → Except CompileError Unit
  | [] => .ok ()
  | t :: rest => do
    match ← t.findServiceCall? registry with
    | some nested => throw (.callPosition nested fault)
    | none => checkArguments registry fault rest

def intrinsic? (t : Term) : Except CompileError (Option (Intrinsic × NodeId × List Term)) :=
  match t.awaited with
  | .mk id (.callExpr (.mk _ (.propertyAccess (.mk _ (.identifier object)) method _)) arguments) =>
    if object = intrinsicsName then
      match Intrinsic.ofName? method with
      | some intrinsic => .ok (some (intrinsic, id, arguments))
      | none => .error (.serviceCall id (.notIntrinsic method))
    else
      .ok none
  | _ => .ok none

def isIdentifier {α : Type} (name : String) : Tree α → Bool
  | .mk _ (.identifier n) => n == name
  | _ => false

def findIdentifier? (name : String) (t : Term) : Option NodeId :=
  (t.subtrees.find? (isIdentifier name)).map Tree.tag

end Tree

end ServiceFlow
