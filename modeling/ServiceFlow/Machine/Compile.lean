import ServiceFlow.Machine.Decision
import ServiceFlow.Machine.Failure
import ServiceFlow.Machine.Iterate
import ServiceFlow.Machine.Task

/-!
# Functions as state machines

Every statement that does work becomes a state, and control flow decides which state follows it. The
machine starts with a state that hands its input to the first parameter.
-/

namespace ServiceFlow

structure Workflow where
  name : String
  definition : Machine

def Workflow.toJson (workflow : Workflow) : Json :=
  .object [("name", .string workflow.name), ("definition", workflow.definition.toJson)]

namespace Machine

def emitValue (program : Program) (nested : Nested) (t expression : Term) (use : Use) :
    Emit Unit := do
  match ← expression.intrinsic? with
  | some (intrinsic, node, arguments) =>
    emitIntrinsic program nested t intrinsic node arguments use
  | none =>
    match ← expression.callSite? program.registry with
    | some site =>
      Tree.checkArguments program.registry .nestedInArguments site.call.arguments
      emitTask program t site use
    | none => do
      let value ← data program expression
      emitData program.forest t value use

def branchState (f : Forest) (t : Term) (decided : Decision) (yes no : Option NodeId) :
    Emit State := do
  match decided with
  | .known value =>
    let transition ← Emit.moveTo f t.tag (if value then yes else no)
    pure (.pass { transition })
  | .rule condition =>
    let next ← Emit.require f t.tag yes
    let otherwise ← Emit.require f t.tag no
    pure (.choice ⟨condition, next, otherwise⟩)

def emitBranch (program : Program) (t condition : Term) (yes no : Option NodeId) : Emit Unit := do
  let name ← Emit.entry t
  let decided ← decision program condition
  Emit.put name (← branchState program.forest t decided yes no)

def loopItems (t : Term) (slot : Path) (transition : Transition) (items : Data) :
    Except CompileError (State × Path) :=
  let started := (assignment slot (passOf transition items), slot)
  match items with
  | .literal (.array _) | .path _ => .ok started
  | .call .array _ => .ok (started.1, slot.field "value")
  | _ => refuse t .notIterable

/-- The states of a loop over items. Each round takes the first of the items still to come. -/
def emitForOf (program : Program) (t binder expression body : Term) : Emit Unit := do
  let f := program.forest
  let name ← Emit.entry t
  match (← get).labels.loops.lookup t.tag, binder.node with
  | none, _ => throw (.unsupported t.tag t.kind .loopOutside)
  | some parts, .variableStmt loopVariable _ =>
    let items ← data program expression
    let (start, path) ← loopItems expression (.ofVariable parts.slot) (.next parts.check) items
    let exit ← Emit.require f t.tag (f.exit? t.tag)
    let transition ← Emit.moveTo f t.tag (f.step? body.tag)
    Emit.put name start
    Emit.put parts.check (.choice ⟨.test path.first (.isPresent true), parts.item, exit⟩)
    Emit.put parts.item
      (assignment (.ofVariable loopVariable) { inputPath := some path.first, transition })
    Emit.put parts.rest
      (assignment path { inputPath := some path.others, transition := .next parts.check })
  | some _, _ => throw (.unsupported binder.tag binder.kind .loopVariableDeclaration)

def jumpLoop (f : Forest) (t : Term) (jump : String) : Except CompileError NodeId :=
  match f.enclosingLoop? t.tag with
  | none => refuse t (.outsideLoop jump)
  | some loop => if skipsFinally f t.tag loop then refuse t (.leavesFinally jump) else .ok loop

def emitJump (f : Forest) (t : Term) (dest : Option NodeId) : Emit Unit := do
  let transition ← Emit.moveTo f t.tag dest
  Emit.put (← Emit.entry t) (.pass { transition })

def emit (program : Program) (nested : Nested) (t : Term) : Emit Unit := do
  let f := program.forest
  match t.node with
  | .block .. => emitRethrow f t
  | .tryStmt _ _ (some finalizer) => emitReset f t finalizer
  | .tryStmt _ _ none | .catchClause .. | .variableStmt _ none => pure ()
  | .variableStmt name (some expression) => emitValue program nested t expression (.bind name)
  | .exprStmt expression => emitValue program nested t expression .discard
  | .returnStmt (some expression) => emitValue program nested t expression .returned
  | .returnStmt none =>
    Emit.put (← Emit.entry t) (.pass { result := some .null, transition := .finish })
  | .throwStmt expression => emitThrow program t expression
  | .ifStmt condition thenStmt elseStmt =>
    let no := match elseStmt with
      | some elseStmt => f.step? elseStmt.tag
      | none => f.exit? t.tag
    emitBranch program t condition (f.step? thenStmt.tag) no
  | .whileStmt condition body | .doStmt body condition =>
    emitBranch program t condition (f.step? body.tag) (f.exit? t.tag)
  | .forOfStmt binder expression body => emitForOf program t binder expression body
  | .forInStmt .. => refuse t .forIn
  | .breakStmt => emitJump f t (f.exit? (← jumpLoop f t "break"))
  | .continueStmt => emitJump f t (some (← jumpLoop f t "continue"))
  | .emptyStmt => emitJump f t (f.exit? t.tag)
  | _ => refuse t .noStateForm

def emitAll (program : Program) (nested : Nested) : List Term → Emit Unit
  | [] => pure ()
  | t :: rest => do
    emit program nested t
    emitAll program nested rest

/-- The state that the body of an inline function starts with. A body without states has one that
does nothing. -/
def emitStart (start : Option String) : Emit String := do
  match start with
  | some name => pure name
  | none =>
    let name ← Emit.fresh "Empty"
    Emit.put name (.pass { transition := .finish })
    pure name

def bodyMachine (program : Program) (nested : Nested) : Nested := fun body labels => do
  let statements ← statementsOf body
  let f := program.forest
  let labels := labels.reserveAll f statements
  let start := labels.target? f body.tag (f.step? body.tag)
  let (startAt, draft) ← (do
    let startAt ← emitStart start
    emitAll program nested statements
    pure startAt).run ⟨labels, [], none⟩
  pure (⟨startAt, Ordered.ofEntries draft.states⟩, draft.labels)

def nestedMachine (program : Program) : Nat → Nested
  | 0, body, _ => .error (.node (.unknownNode body.tag))
  | depth + 1, body, labels => bodyMachine program (nestedMachine program depth) body labels

/-- The document that a machine starts with: its input under the name of the first parameter. -/
def startFields : List Term → Except CompileError (Sorted Data)
  | [] => .ok []
  | t :: _ =>
    match t.parameterName? with
    | some name => .ok ((Data.path .document).insertInto name [])
    | none => refuse t .parameterName

def ofProgram (program : Program) : Except CompileError Machine := do
  let f := program.forest
  let (parameters, body, _) ← (← program.term).functionParts
  let (startAt, labels) := (Labels.empty program.settings.stateNameMaxLen).allocate "Initialize"
  let fields ← startFields parameters
  let statements ← statementsOf body
  let labels := labels.reserveAll f statements
  let transition := Transition.ofOption (labels.target? f body.tag (f.step? body.tag))
  let (_, draft) ← (do
    Emit.put startAt (.pass { parameters := some (.object fields), transition })
    emitAll program (nestedMachine program body.size) statements).run ⟨labels, [], none⟩
  pure ⟨startAt, Ordered.ofEntries draft.states⟩

def compile (program : Program) : Allocate Workflow := do
  let definition ← Allocate.ofExcept (ofProgram program)
  let name ← Allocate.uniqueName program.name
  pure ⟨name, definition⟩

end Machine

end ServiceFlow
