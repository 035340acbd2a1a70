import ServiceFlow.Flow.Basic
import ServiceFlow.Machine.Describe
import ServiceFlow.Machine.Name
import ServiceFlow.Machine.Value

/-!
# Labels

The states of a body are named before any of them is made. A loop over items has three states beside
its entry, and a try statement with a finally block has two.
-/

namespace ServiceFlow.Machine

/-- The further states of a loop over items, and the variable that holds the items still to come. -/
structure LoopLabels where
  check : String
  item : String
  rest : String
  slot : String
deriving DecidableEq, Repr

/-- The state at the end of a finally block, and the variable that holds the pending error. -/
structure FinallyLabels where
  rethrow : String
  slot : String
deriving DecidableEq, Repr

structure Labels where
  names : Names
  entries : List (NodeId × String)
  loops : List (NodeId × LoopLabels)
  finallies : List (NodeId × FinallyLabels)
  /-- The states that clear the slot on entering a try statement with a finally block. -/
  resets : List (NodeId × String)
  slots : Nat
deriving DecidableEq, Repr

def statementsOf (body : Term) : Except CompileError (List Term) :=
  body.fold fun t results =>
    match t.node with
    | .syntaxError message => refuse t (.unparsed message)
    | .functionDecl .. => refuse t .nestedFunctionInWorkflow
    | .arrowFunction .. => .ok []
    | _ => do
      let nested := (← results.children.mapM id).flatten
      pure (if t.kind.category = .statement then t :: nested else nested)

def finallyOwner? (f : Forest) (block : NodeId) : Option NodeId :=
  (f.parent? block).bind fun parent =>
    match f.node? parent with
    | some (.tryStmt _ _ (some finalizer)) => if finalizer = block then some parent else none
    | _ => none

namespace Labels

def empty (limit : Nat) : Labels := ⟨.empty limit, [], [], [], [], 0⟩

def allocate (labels : Labels) (text : String) : String × Labels :=
  let (name, names) := labels.names.allocate text
  (name, { labels with names })

def slot (labels : Labels) (purpose : String) : String × Labels :=
  ("__" ++ purpose ++ toString labels.slots, { labels with slots := labels.slots + 1 })

def reserve (f : Forest) (labels : Labels) (t : Term) : Labels :=
  match t.node with
  | .block .. =>
    if (finallyOwner? f t.tag).isSome then
      let (rethrow, labels) := labels.allocate "finally"
      let (slot, labels) := labels.slot "fnl"
      { labels with finallies := (t.tag, ⟨rethrow, slot⟩) :: labels.finallies }
    else labels
  | .tryStmt _ _ (some _) =>
    let (reset, labels) := labels.allocate (describe t)
    { labels with resets := (t.tag, reset) :: labels.resets }
  | .tryStmt _ _ none | .catchClause .. | .variableStmt _ none => labels
  | .forOfStmt .. =>
    let (entry, labels) := labels.allocate (describe t)
    let (check, labels) := labels.allocate (entry ++ " check")
    let (item, labels) := labels.allocate (entry ++ " item")
    let (rest, labels) := labels.allocate (entry ++ " rest")
    let (slot, labels) := labels.slot "iter"
    { labels with
      entries := (t.tag, entry) :: labels.entries
      loops := (t.tag, ⟨check, item, rest, slot⟩) :: labels.loops }
  | _ =>
    let (entry, labels) := labels.allocate (describe t)
    { labels with entries := (t.tag, entry) :: labels.entries }

def reserveAll (f : Forest) (labels : Labels) (statements : List Term) : Labels :=
  statements.foldl (reserve f) labels

/-- The finally block that control completes by moving from a node to another. -/
def leftFinally? (labels : Labels) (f : Forest) (source : NodeId) (dest : Option NodeId) :
    Option FinallyLabels :=
  (f.enclosing source).findSome? fun (ancestor, _) =>
    match labels.finallies.lookup ancestor, finallyOwner? f ancestor with
    | some parts, some owner => if f.exit? owner = dest then some parts else none
    | _, _ => none

/-- Whether control enters the try block of a statement by moving from a node to another. -/
def enters (f : Forest) (owner source dest : NodeId) : Bool :=
  match f.node? owner with
  | some (.tryStmt tryBlock _ _) =>
    source != owner && source != tryBlock && !f.contains tryBlock source .depthFirst &&
      f.contains tryBlock dest .depthFirst
  | _ => false

/-- The state that clears the slot of the outermost try statement with a finally block whose try
block control enters. -/
def enteredReset? (labels : Labels) (f : Forest) (source dest : NodeId) : Option String :=
  (f.enclosing dest).reverse.findSome? fun (ancestor, _) =>
    match labels.resets.lookup ancestor with
    | some reset => if enters f ancestor source dest then some reset else none
    | none => none

/-- The state that runs when control moves from a node to a statement, if any. -/
def target? (labels : Labels) (f : Forest) (source : NodeId) (dest : Option NodeId) :
    Option String :=
  match labels.leftFinally? f source dest, dest with
  | some parts, _ => some parts.rethrow
  | none, none => none
  | none, some dest =>
    match labels.enteredReset? f source dest, labels.loops.lookup dest with
    | some reset, _ => some reset
    | none, some parts =>
      if dest = source || f.contains dest source .depthFirst then some parts.rest
      else labels.entries.lookup dest
    | none, none => labels.entries.lookup dest

end Labels

/-- Whether a jump from a node out to a loop would pass over a finally block. -/
def skipsFinally (f : Forest) (source loop : NodeId) : Bool :=
  let left := (f.enclosing source).takeWhile fun (ancestor, _) => ancestor != loop
  left.any fun (ancestor, child) =>
    match f.node? ancestor with
    | some (.tryStmt _ _ (some finalizer)) => finalizer != child
    | _ => false

end ServiceFlow.Machine
