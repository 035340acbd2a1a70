import ServiceFlow.Forest.Walk

/-!
# Control flow

Where control goes on entering a node (`Forest.step?`), once it is done (`Forest.exit?`), and after
an error in it (`Forest.raise?`). Each is `none` when control leaves the function.
-/

namespace ServiceFlow

namespace Forest

/-- The statements chained with a node: those of its block, or the variable and the body of its
catch clause. -/
def chain (f : Forest) (id : NodeId) : List NodeId :=
  match (f.parent? id).bind f.node? with
  | some (.block statements _) => statements
  | some (.catchClause (some binder) body) => [binder, body]
  | _ => []

def after? (id : NodeId) : List NodeId → Option NodeId
  | a :: b :: rest => if a = id then some b else after? id (b :: rest)
  | _ => none

def before? (id : NodeId) : List NodeId → Option NodeId
  | a :: b :: rest => if b = id then some a else before? id (b :: rest)
  | _ => none

def next? (f : Forest) (id : NodeId) : Option NodeId := after? id (f.chain id)

def prev? (f : Forest) (id : NodeId) : Option NodeId := before? id (f.chain id)

def loopBody? (f : Forest) (id : NodeId) : Option NodeId :=
  match f.node? id with
  | some (.whileStmt _ body) => some body
  | some (.doStmt body _) => some body
  | some (.forOfStmt _ _ body) => some body
  | some (.forInStmt _ _ body) => some body
  | _ => none

def isFunction (f : Forest) (id : NodeId) : Bool := (f.kind? id).any Kind.isFunction

mutual

def stepWithin (f : Forest) : Nat → NodeId → Option NodeId
  | 0, _ => none
  | fuel + 1, id =>
    match f.node? id with
    | none => none
    | some (.tryStmt tryBlock _ _) => stepWithin f fuel tryBlock
    | some (.block (first :: _) _) => stepWithin f fuel first
    | some (.block [] _) => exitWithin f fuel id
    | some (.catchClause (some binder) _) => stepWithin f fuel binder
    | some (.catchClause none body) => stepWithin f fuel body
    | some (.variableStmt _ none) => exitWithin f fuel id
    | some (.doStmt body _) => stepWithin f fuel body
    | some node =>
      if node.kind.category = .statement then some id else exitWithin f fuel id
termination_by structural fuel => fuel

def exitWithin (f : Forest) : Nat → NodeId → Option NodeId
  | 0, _ => none
  | fuel + 1, id =>
    match f.next? id with
    | some next => stepWithin f fuel next
    | none =>
      match f.parent? id with
      | none => none
      | some parent =>
        if f.isFunction parent then none
        else if f.loopBody? parent = some id then some parent
        else
          match f.node? parent with
          | some (.tryStmt _ _ (some finalizer)) =>
            if finalizer = id then exitWithin f fuel parent else stepWithin f fuel finalizer
          | _ => exitWithin f fuel parent
termination_by structural fuel => fuel

end

/-- A walk enters and leaves each node at most once, unless it goes round forever. -/
def flowFuel (f : Forest) : Nat := 2 * f.size + 2

def step? (f : Forest) (id : NodeId) : Option NodeId := f.stepWithin f.flowFuel id

def exit? (f : Forest) (id : NodeId) : Option NodeId := f.exitWithin f.flowFuel id

/-- The ancestors of a node inside its function, nearest first, each with the child through which
it is reached. -/
def enclosing (f : Forest) (id : NodeId) : List (NodeId × NodeId) :=
  let ancestors := f.ancestors id
  (ancestors.zip (id :: ancestors)).takeWhile fun (ancestor, _) => !f.isFunction ancestor

/-- The nearest catch clause that guards a node. Only a try block is guarded by its clause. -/
def catchClause? (f : Forest) (id : NodeId) : Option NodeId :=
  (f.enclosing id).findSome? fun (ancestor, child) =>
    match f.node? ancestor with
    | some (.tryStmt tryBlock (some handler) _) => if tryBlock = child then some handler else none
    | _ => none

def interceptingFinally? (f : Forest) (id : NodeId) : Option NodeId :=
  (f.enclosing id).findSome? fun (ancestor, child) =>
    match f.node? ancestor with
    | some (.tryStmt _ _ (some finalizer)) => if finalizer = child then none else some finalizer
    | _ => none

def enclosingLoop? (f : Forest) (id : NodeId) : Option NodeId :=
  (f.enclosing id).findSome? fun (ancestor, child) =>
    if f.loopBody? ancestor = some child then some ancestor else none

def guardedBlock? (f : Forest) (clause : NodeId) : Option NodeId :=
  match (f.parent? clause).bind f.node? with
  | some (.tryStmt tryBlock _ _) => some tryBlock
  | _ => none

/-- The node that handles an error raised in a node: a catch clause, or a finally block that has to
run before it. -/
def raise? (f : Forest) (id : NodeId) : Option NodeId :=
  match f.catchClause? id, f.interceptingFinally? id with
  | some handler, some finalizer =>
    match f.guardedBlock? handler, f.parent? finalizer with
    | some tryBlock, some finalizerTry =>
      if f.contains tryBlock finalizerTry .depthFirst then some finalizer else some handler
    | _, _ => some handler
  | none, some finalizer => some finalizer
  | handler, none => handler

end Forest

namespace Tree

mutual

/-- Whether every path through a statement ends in a return or a throw. -/
def isTerminal {α : Type} : Tree α → Bool
  | .mk _ (.returnStmt _) => true
  | .mk _ (.throwStmt _) => true
  | .mk _ (.block statements _) => isTerminalLast statements
  | .mk _ (.ifStmt _ thenStmt (some elseStmt)) => isTerminal elseStmt && isTerminal thenStmt
  | .mk _ (.tryStmt tryBlock handler finalizer) =>
    isTerminalSome finalizer || (isTerminal tryBlock && isTerminalAll handler)
  | .mk _ (.catchClause _ body) => isTerminal body
  | _ => false
termination_by structural t => t

def isTerminalLast {α : Type} : List (Tree α) → Bool
  | [] => false
  | t :: rest => if rest.isEmpty then isTerminal t else isTerminalLast rest
termination_by structural ts => ts

def isTerminalSome {α : Type} : Option (Tree α) → Bool
  | some t => isTerminal t
  | none => false
termination_by structural o => o

def isTerminalAll {α : Type} : Option (Tree α) → Bool
  | some t => isTerminal t
  | none => true
termination_by structural o => o

end

end Tree

end ServiceFlow
