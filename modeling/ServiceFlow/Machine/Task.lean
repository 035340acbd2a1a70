import ServiceFlow.Machine.Emit
import ServiceFlow.Text.Upper

/-!
# Tasks

A call of a backend becomes a task state.
-/

namespace ServiceFlow.Machine

def executionResource (sync : Bool) : String :=
  if sync then "arn:aws:states:::states:startExecution.sync:2"
  else "arn:aws:states:::states:startExecution"

def invokeTask (program : Program) (call : ServiceCall) : Except CompileError Task := do
  let resource := call.resource.identifier
  match call.arguments with
  | [] => pure { resource, parameters := some (.object []) }
  | argument :: _ =>
    match ← data program argument with
    | .object fields => pure { resource, parameters := some (.object fields) }
    | .literal (.object entries) =>
      pure { resource, parameters := some (.literal (.object entries)) }
    | .path path => pure { resource, inputPath := some path }
    | _ => throw (.serviceCall call.node .payload)

def keyValueData (program : Program) (call : ServiceCall) (op : KeyValueOp) :
    Except CompileError (Sorted Data) :=
  match call.arguments with
  | [] => .ok []
  | .mk _ (.objectLiteral properties) :: _ => fieldsData program [] properties
  | _ => .error (.serviceCall call.node (.objectExpected op.name))

/-- A task on a key-value store. The keys of the argument are written with a capital. -/
def keyValueTask (program : Program) (call : ServiceCall) (op : KeyValueOp) :
    Except CompileError Task := do
  let fields ← keyValueData program call op
  let table := Data.literal (.string call.resource.identifier)
  let parameters := Sorted.insertAll (table.insertInto "TableName" [])
    (fields.map fun (key, value) => (capitalize key, value))
  pure { resource := "arn:aws:states:::aws-sdk:dynamodb:" ++ op.name
         parameters := some (.object parameters) }

def executionTask (program : Program) (call : ServiceCall) (sync : Bool) :
    Except CompileError Task := do
  let machine := Data.literal (.string call.resource.identifier)
  let parameters := machine.insertInto "StateMachineArn" []
  let parameters ← match call.arguments with
    | [] => pure parameters
    | argument :: _ => do pure ((← data program argument).insertInto "Input" parameters)
  pure { resource := executionResource sync, parameters := some (.object parameters) }

def taskOf (program : Program) (call : ServiceCall) : Except CompileError Task :=
  match call.op with
  | .invoke => invokeTask program call
  | .keyValue op => keyValueTask program call op
  | .startExecution sync => executionTask program call sync

def resultSegment (references : References) (t : Term) : Except CompileError Segment :=
  match t.node with
  | .propertyAccess _ name _ => .ok (.key name)
  | .elementAccess _ element _ =>
    match element.constant? references with
    | some (.string key) => .ok (.key key)
    | some (.number n) =>
      match n.index? with
      | some index => .ok (.index index)
      | none => refuse t .indexedResult
    | _ => refuse t .indexedResult
  | _ => refuse t .notMemberAccess

def resultSegments (references : References) (accessors : List Term) :
    Except CompileError (List Segment) := accessors.mapM (resultSegment references)

/-- The task state of a statement. A member of the result that is assigned to a variable is taken
out by a second state. -/
def emitTask (program : Program) (t : Term) (site : CallSite) (use : Use) : Emit Unit := do
  let f := program.forest
  let name ← Emit.entry t
  let task ← taskOf program site.call
  let catchers ← Emit.catchers f t
  let transition ← Emit.proceed f t
  let selection ← resultSegments program.references site.accessors
  let task := { task with catchers }
  match use with
  | .discard => Emit.put name (.task { task with resultPath := some .discard, transition })
  | .returned =>
    let outputPath := if selection.isEmpty then none else some (Path.document.append selection)
    Emit.put name (.task { task with outputPath, transition := .finish })
  | .bind target =>
    let path := Path.ofVariable target
    let task := { task with resultPath := some (.path path) }
    if selection.isEmpty then
      Emit.put name (.task { task with transition })
    else
      let second ← Emit.fresh (name ++ " result")
      Emit.put name (.task { task with transition := .next second })
      Emit.put second (assignment path { inputPath := some (path.append selection), transition })

end ServiceFlow.Machine
