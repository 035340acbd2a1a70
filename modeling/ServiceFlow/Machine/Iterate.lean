import ServiceFlow.Flow.Scope
import ServiceFlow.Machine.Emit

/-!
# Waits, iterations and branches

The intrinsics of a workflow become wait, map and parallel states. The functions given to them are
machines of their own.
-/

namespace ServiceFlow.Machine

abbrev Nested := Term → Labels → Except CompileError (Machine × Labels)

def Nested.emit (nested : Nested) (body : Term) : Emit Machine := fun draft => do
  let (machine, labels) ← nested body draft.labels
  pure (machine, { draft with labels })

def delayOf (intrinsic : Intrinsic) (node : NodeId) (value : Data) : Except CompileError Delay :=
  if intrinsic = .waitFor then
    match value with
    | .literal (.number (.int n)) =>
      if 0 ≤ n then .ok (.seconds n.toNat) else .error (.serviceCall node (.seconds intrinsic.name))
    | .path path => .ok (.secondsAt path)
    | _ => .error (.serviceCall node (.seconds intrinsic.name))
  else
    match value with
    | .literal (.string text) => .ok (.timestamp text)
    | .path path => .ok (.timestampAt path)
    | _ => .error (.serviceCall node (.timestamp intrinsic.name))

def emitWait (program : Program) (t : Term) (intrinsic : Intrinsic) (node : NodeId)
    (arguments : List Term) (use : Use) : Emit Unit := do
  match arguments with
  | [argument] =>
    let transition ← if use = .returned then pure .finish else Emit.proceed program.forest t
    let value ← data program argument
    let delay ← delayOf intrinsic node value
    Emit.put (← Emit.entry t) (.wait delay transition)
  | _ => throw (.serviceCall node (.oneArgument intrinsic.name))

def maxConcurrency (t : Term) : Except CompileError Nat :=
  match t.node with
  | .objectLiteral [.mk _ (.propertyAssignment name value)] =>
    if name.staticKey? = some "maxConcurrency" then
      match value.node with
      | .numberLiteral n =>
        match n.index? with
        | some (k + 1) => .ok (k + 1)
        | _ => .error (.concurrency t.tag .notPositive)
      | _ => .error (.concurrency t.tag .notNumber)
    else .error (.concurrency t.tag .otherOption)
  | .objectLiteral _ => .error (.concurrency t.tag .notSingle)
  | _ => .error (.concurrency t.tag .notObject)

def concurrencyOf : Option Term → Except CompileError (Option Nat)
  | none => .ok none
  | some options => do pure (some (← maxConcurrency options))

def parameterNames : List Term → Except CompileError (List String)
  | [] => .ok []
  | t :: rest =>
    match t.parameterName? with
    | none => refuse t .parameterName
    | some name => do pure (name :: (← parameterNames rest))

/-- The variables in scope at a statement that a body mentions, other than its parameters. -/
def captured (f : Forest) (node : NodeId) (body : Term) (parameters : List String) : List String :=
  ((f.scope node).map (·.1)).filter fun name =>
    !parameters.contains name && (body.findIdentifier? name).isSome

/-- The document that an iteration starts with: captured variables, and the item, its position and
the list of items under the names of the parameters. -/
def iterationFields (capturedNames parameters : List String) (items : Path) : Sorted Data :=
  let sources := [Path.item, Path.itemIndex, items]
  let captures := capturedNames.map fun name => (name, Path.ofVariable name)
  (captures ++ parameters.zip sources).foldl
    (fun fields (name, path) => (Data.path path).insertInto name fields) []

/-- The place of the result of a state, and what follows it. A result that is discarded goes
nowhere. -/
def place (f : Forest) (t : Term) (discarded : Bool) (use : Use) :
    Emit (Option ResultPath × Transition) := do
  match use with
  | .returned => pure (if discarded then some .discard else none, .finish)
  | .bind name =>
    let transition ← Emit.proceed f t
    pure (some (if discarded then .discard else .path (.ofVariable name)), transition)
  | .discard => do pure (some .discard, ← Emit.proceed f t)

def mapArguments (intrinsic : Intrinsic) (node : NodeId) :
    List Term → Except CompileError (Term × Option Term × Term)
  | [items, function] => .ok (items, none, function)
  | [items, options, function] => .ok (items, some options, function)
  | _ => .error (.serviceCall node (.mapArguments intrinsic.name))

def inlineFunction? (t : Term) : Option (List Term × Term) :=
  match t.node with
  | .arrowFunction parameters body => some (parameters, body)
  | _ => none

def itemsPath (intrinsic : Intrinsic) (node : NodeId) : Data → Except CompileError Path
  | .path path => .ok path
  | _ => .error (.serviceCall node (.itemsVariable intrinsic.name))

def emitMap (program : Program) (nested : Nested) (t : Term) (intrinsic : Intrinsic) (node : NodeId)
    (arguments : List Term) (use : Use) : Emit Unit := do
  let f := program.forest
  let (items, options, function) ← mapArguments intrinsic node arguments
  match inlineFunction? function with
  | none => throw (.serviceCall node (.inlineIteration intrinsic.name))
  | some (parameters, body) =>
    let path ← itemsPath intrinsic node (← data program items)
    let maxConcurrency ← concurrencyOf options
    let names ← parameterNames parameters
    if 3 < names.length then throw (.serviceCall node (.iterationParameters intrinsic.name))
    let fields := iterationFields (captured f t.tag body names) names path
    let iterator ← nested.emit body
    let catchers ← Emit.catchers f t
    let (resultPath, transition) ← place f t (intrinsic == .forEach) use
    Emit.put (← Emit.entry t)
      (.map ⟨path, .object fields, maxConcurrency, resultPath, catchers, transition⟩ iterator)

def branchMachines (nested : Nested) : List Term → Emit (List Machine)
  | [] => pure []
  | t :: rest =>
    match inlineFunction? t with
    | none => throw (.branch t.tag (.notInline t.kind))
    | some (_, body) => do
      let first ← nested.emit body
      let others ← branchMachines nested rest
      pure (first :: others)

def emitParallel (program : Program) (nested : Nested) (t : Term) (node : NodeId)
    (arguments : List Term) (use : Use) : Emit Unit := do
  let f := program.forest
  if arguments.isEmpty then throw (.branch node .noBranches)
  let branches ← branchMachines nested arguments
  let catchers ← Emit.catchers f t
  let (resultPath, transition) ← place f t false use
  Emit.put (← Emit.entry t) (.parallel ⟨resultPath, catchers, transition⟩ branches)

def emitIntrinsic (program : Program) (nested : Nested) (t : Term) (intrinsic : Intrinsic)
    (node : NodeId) (arguments : List Term) (use : Use) : Emit Unit :=
  match intrinsic with
  | .waitFor | .waitUntil => emitWait program t intrinsic node arguments use
  | .map | .forEach => emitMap program nested t intrinsic node arguments use
  | .parallel => emitParallel program nested t node arguments use

end ServiceFlow.Machine
