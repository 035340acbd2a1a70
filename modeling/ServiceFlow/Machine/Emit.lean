import ServiceFlow.Machine.Label
import ServiceFlow.Machine.State

/-!
# Making states

A draft lists the states of a graph as they are made, one after the other. A state that has to lead
somewhere although control ends there leads to a succeed state, made once in a graph.
-/

namespace ServiceFlow.Machine

structure Draft where
  labels : Labels
  states : List (String × State)
  /-- The succeed state of the graph, once it is made. -/
  done : Option String

abbrev Emit := StateT Draft (Except CompileError)

namespace Emit

def put (name : String) (state : State) : Emit Unit :=
  modify fun draft => { draft with states := draft.states ++ [(name, state)] }

def fresh (text : String) : Emit String :=
  modifyGet fun draft =>
    let (name, labels) := draft.labels.allocate text
    (name, { draft with labels })

def entry (t : Term) : Emit String := do
  match (← get).labels.entries.lookup t.tag with
  | some name => pure name
  | none => throw (.unsupported t.tag t.kind .outsideFunction)

def moveTo (f : Forest) (source : NodeId) (dest : Option NodeId) : Emit Transition := do
  pure (.ofOption ((← get).labels.target? f source dest))

def proceed (f : Forest) (t : Term) : Emit Transition := moveTo f t.tag (f.exit? t.tag)

def done : Emit String := do
  match (← get).done with
  | some name => pure name
  | none =>
    let name ← fresh "Done"
    put name .succeed
    modify fun draft => { draft with done := some name }
    pure name

/-- The state that runs when control moves from a node to a statement, the succeed state if control
ends. -/
def require (f : Forest) (source : NodeId) (dest : Option NodeId) : Emit String := do
  match (← get).labels.target? f source dest with
  | some name => pure name
  | none => done

def pendingSlot (f : Forest) (finalizer : NodeId) : Emit Path := do
  match (← get).labels.finallies.lookup finalizer with
  | some parts => pure (.ofVariable parts.slot)
  | none => throw (.unsupported finalizer ((f.kind? finalizer).getD .block) .finallyOutside)

/-- The variable that receives an error: the one of a catch clause, if it has one, or the pending
error of a finally block. -/
def errorPath (f : Forest) (handler : NodeId) : Emit (Option Path) :=
  match f.node? handler with
  | some (.catchClause binder _) =>
    match binder.bind f.node? with
    | some (.variableStmt name _) => pure (some (.ofVariable name))
    | _ => pure none
  | _ => do pure (some (← pendingSlot f handler))

def catchers (f : Forest) (t : Term) : Emit (List Catcher) := do
  match f.raise? t.tag with
  | none => pure []
  | some handler =>
    let resultPath := match ← errorPath f handler with
      | some path => ResultPath.path path
      | none => .discard
    let next ← require f t.tag (f.step? handler)
    pure [⟨next, resultPath⟩]

end Emit

/-- A state that gives the data as its result. The result of a function is the field `value`. -/
def passOf (transition : Transition) : Data → Pass
  | .literal value => { result := some value, transition }
  | .path path => { inputPath := some path, transition }
  | .object fields => { parameters := some (.object fields), transition }
  | .call function arguments =>
    { parameters := some (.single "value" (.call function arguments)), transition }

def isCall : Data → Bool
  | .call .. => true
  | _ => false

def assignment (path : Path) (pass : Pass) : State :=
  .pass { pass with resultPath := some (.path path) }

/-- The state of a statement that uses data. The result of a function that is assigned to a variable
is taken out of its field by a second state. -/
def emitData (f : Forest) (t : Term) (data : Data) (use : Use) : Emit Unit := do
  let name ← Emit.entry t
  match use with
  | .discard =>
    let transition ← Emit.proceed f t
    Emit.put name (.pass { resultPath := some .discard, transition })
  | .returned =>
    let pass := passOf .finish data
    Emit.put name (.pass (if isCall data then
      { pass with outputPath := some (Path.document.field "value") } else pass))
  | .bind target =>
    let path := Path.ofVariable target
    let transition ← Emit.proceed f t
    if isCall data then
      let second ← Emit.fresh (name ++ " value")
      Emit.put name (assignment path (passOf (.next second) data))
      Emit.put second (assignment path { inputPath := some (path.field "value"), transition })
    else
      Emit.put name (assignment path (passOf transition data))

end ServiceFlow.Machine
