import ServiceFlow.Syntax.Node

/-!
# Syntax trees

A tree carries a tag at every node. Trees as they are read have no tags (`SyntaxTree`), and the tree
seen from a node of a forest is tagged with the numbers of its nodes.
-/

namespace ServiceFlow

inductive Tree (α : Type) where
  | mk (tag : α) (node : Node (Tree α))

abbrev SyntaxTree := Tree Unit

namespace Tree

def tag {α : Type} : Tree α → α
  | .mk t _ => t

def node {α : Type} : Tree α → Node (Tree α)
  | .mk _ n => n

def kind {α : Type} (t : Tree α) : Kind := t.node.kind

def children {α : Type} (t : Tree α) : List (Tree α) := t.node.children

mutual

/-- Combine a tree from the leaves to the root. The function sees each subtree together with its
node, in which the children are replaced by their results. -/
def foldM {m : Type → Type} [Monad m] {α β : Type} (f : Tree α → Node β → m β) : Tree α → m β
  | t@(.mk _ (.functionDecl name parameters body)) =>
    do f t (.functionDecl name (← foldListM f parameters) (← foldM f body))
  | t@(.mk _ (.parameterDecl name)) => f t (.parameterDecl name)
  | t@(.mk _ (.block statements isFinally)) => do f t (.block (← foldListM f statements) isFinally)
  | t@(.mk _ (.variableStmt name initializer)) =>
    do f t (.variableStmt name (← foldOptionM f initializer))
  | t@(.mk _ (.exprStmt expression)) => do f t (.exprStmt (← foldM f expression))
  | t@(.mk _ (.returnStmt expression)) => do f t (.returnStmt (← foldOptionM f expression))
  | t@(.mk _ (.throwStmt expression)) => do f t (.throwStmt (← foldM f expression))
  | t@(.mk _ (.ifStmt condition thenStmt elseStmt)) =>
    do f t (.ifStmt (← foldM f condition) (← foldM f thenStmt) (← foldOptionM f elseStmt))
  | t@(.mk _ (.whileStmt condition body)) =>
    do f t (.whileStmt (← foldM f condition) (← foldM f body))
  | t@(.mk _ (.doStmt body condition)) => do f t (.doStmt (← foldM f body) (← foldM f condition))
  | t@(.mk _ (.forOfStmt binder expression body)) =>
    do f t (.forOfStmt (← foldM f binder) (← foldM f expression) (← foldM f body))
  | t@(.mk _ (.forInStmt binder expression body)) =>
    do f t (.forInStmt (← foldM f binder) (← foldM f expression) (← foldM f body))
  | t@(.mk _ (.tryStmt tryBlock handler finalizer)) =>
    do f t (.tryStmt (← foldM f tryBlock) (← foldOptionM f handler) (← foldOptionM f finalizer))
  | t@(.mk _ (.catchClause binder body)) =>
    do f t (.catchClause (← foldOptionM f binder) (← foldM f body))
  | t@(.mk _ (.breakStmt)) => f t (.breakStmt)
  | t@(.mk _ (.continueStmt)) => f t (.continueStmt)
  | t@(.mk _ (.emptyStmt)) => f t (.emptyStmt)
  | t@(.mk _ (.identifier name)) => f t (.identifier name)
  | t@(.mk _ (.referenceExpr name)) => f t (.referenceExpr name)
  | t@(.mk _ (.stringLiteral value)) => f t (.stringLiteral value)
  | t@(.mk _ (.numberLiteral value)) => f t (.numberLiteral value)
  | t@(.mk _ (.booleanLiteral value)) => f t (.booleanLiteral value)
  | t@(.mk _ (.nullLiteral)) => f t (.nullLiteral)
  | t@(.mk _ (.undefinedLiteral)) => f t (.undefinedLiteral)
  | t@(.mk _ (.templateExpr head spans)) => do f t (.templateExpr head (← foldSpansM f spans))
  | t@(.mk _ (.arrayLiteral elements)) => do f t (.arrayLiteral (← foldListM f elements))
  | t@(.mk _ (.objectLiteral properties)) => do f t (.objectLiteral (← foldListM f properties))
  | t@(.mk _ (.propertyAssignment name value)) =>
    do f t (.propertyAssignment (← foldM f name) (← foldM f value))
  | t@(.mk _ (.computedPropertyName expression)) =>
    do f t (.computedPropertyName (← foldM f expression))
  | t@(.mk _ (.spreadAssignment expression)) => do f t (.spreadAssignment (← foldM f expression))
  | t@(.mk _ (.spreadElement expression)) => do f t (.spreadElement (← foldM f expression))
  | t@(.mk _ (.propertyAccess expression name chained)) =>
    do f t (.propertyAccess (← foldM f expression) name chained)
  | t@(.mk _ (.elementAccess expression element chained)) =>
    do f t (.elementAccess (← foldM f expression) (← foldM f element) chained)
  | t@(.mk _ (.callExpr callee arguments)) =>
    do f t (.callExpr (← foldM f callee) (← foldListM f arguments))
  | t@(.mk _ (.newExpr callee arguments)) =>
    do f t (.newExpr (← foldM f callee) (← foldListM f arguments))
  | t@(.mk _ (.unaryExpr operator operand)) => do f t (.unaryExpr operator (← foldM f operand))
  | t@(.mk _ (.binaryExpr left operator right)) =>
    do f t (.binaryExpr (← foldM f left) operator (← foldM f right))
  | t@(.mk _ (.conditionalExpr condition whenTrue whenFalse)) =>
    do f t (.conditionalExpr (← foldM f condition) (← foldM f whenTrue) (← foldM f whenFalse))
  | t@(.mk _ (.arrowFunction parameters body)) =>
    do f t (.arrowFunction (← foldListM f parameters) (← foldM f body))
  | t@(.mk _ (.awaitExpr expression)) => do f t (.awaitExpr (← foldM f expression))
  | t@(.mk _ (.syntaxError message)) => f t (.syntaxError message)
termination_by structural t => t

def foldListM {m : Type → Type} [Monad m] {α β : Type} (f : Tree α → Node β → m β) :
    List (Tree α) → m (List β)
  | [] => pure []
  | t :: ts => do pure ((← foldM f t) :: (← foldListM f ts))
termination_by structural ts => ts

def foldOptionM {m : Type → Type} [Monad m] {α β : Type} (f : Tree α → Node β → m β) :
    Option (Tree α) → m (Option β)
  | none => pure none
  | some t => do pure (some (← foldM f t))
termination_by structural o => o

def foldSpansM {m : Type → Type} [Monad m] {α β : Type} (f : Tree α → Node β → m β) :
    List (Span (Tree α)) → m (List (Span β))
  | [] => pure []
  | ⟨t, literal⟩ :: ts => do pure (⟨← foldM f t, literal⟩ :: (← foldSpansM f ts))
termination_by structural ts => ts

end

def fold {α β : Type} (f : Tree α → Node β → β) (t : Tree α) : β :=
  Id.run (t.foldM fun t n => pure (f t n))

def size {α : Type} (t : Tree α) : Nat := t.fold fun _ n => n.children.foldl (· + ·) 1

def untag {α : Type} (t : Tree α) : SyntaxTree := t.fold fun _ n => .mk () n

/-- The tree and all trees below it, each before its own subtrees, in the order of the fields. -/
def subtrees {α : Type} (t : Tree α) : List (Tree α) := t.fold fun t n => t :: n.children.flatten

def descendants {α : Type} (t : Tree α) : List (Tree α) := t.children.flatMap subtrees

/-- Equality of trees, tags aside, numbers being compared as numbers. -/
def same {α β : Type} (a : Tree α) (b : Tree β) : Bool :=
  a.fold (fun t n b =>
    t.node.sameShape b.node && n.children.length == b.children.length &&
      (n.children.zip b.children).all fun (agrees, child) => agrees child) b

end Tree

end ServiceFlow
