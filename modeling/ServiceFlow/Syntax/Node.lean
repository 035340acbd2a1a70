import ServiceFlow.Number.Double
import ServiceFlow.Syntax.Kind

/-!
# Syntax nodes

`Node C` is one syntax node over a type `C` of children. Children are listed in the order of the
fields, and `Node.mapM` visits them in that order.
-/

namespace ServiceFlow

structure Span (C : Type) where
  expression : C
  literal : String
deriving DecidableEq, Repr

inductive Node (C : Type) where
  | functionDecl (name : Option String) (parameters : List C) (body : C)
  | parameterDecl (name : String)
  | block (statements : List C) (isFinally : Bool)
  | variableStmt (name : String) (initializer : Option C)
  | exprStmt (expression : C)
  | returnStmt (expression : Option C)
  | throwStmt (expression : C)
  | ifStmt (condition : C) (thenStmt : C) (elseStmt : Option C)
  | whileStmt (condition : C) (body : C)
  | doStmt (body : C) (condition : C)
  | forOfStmt (binder : C) (expression : C) (body : C)
  | forInStmt (binder : C) (expression : C) (body : C)
  | tryStmt (tryBlock : C) (handler : Option C) (finalizer : Option C)
  | catchClause (binder : Option C) (body : C)
  | breakStmt
  | continueStmt
  | emptyStmt
  | identifier (name : String)
  | referenceExpr (name : String)
  | stringLiteral (value : String)
  | numberLiteral (value : Double)
  | booleanLiteral (value : Bool)
  | nullLiteral
  | undefinedLiteral
  | templateExpr (head : String) (spans : List (Span C))
  | arrayLiteral (elements : List C)
  | objectLiteral (properties : List C)
  | propertyAssignment (name : C) (value : C)
  | computedPropertyName (expression : C)
  | spreadAssignment (expression : C)
  | spreadElement (expression : C)
  | propertyAccess (expression : C) (name : String) (chained : Bool)
  | elementAccess (expression : C) (element : C) (chained : Bool)
  | callExpr (callee : C) (arguments : List C)
  | newExpr (callee : C) (arguments : List C)
  | unaryExpr (operator : UnaryOp) (operand : C)
  | binaryExpr (left : C) (operator : BinaryOp) (right : C)
  | conditionalExpr (condition : C) (whenTrue : C) (whenFalse : C)
  | arrowFunction (parameters : List C) (body : C)
  | awaitExpr (expression : C)
  | syntaxError (message : String)
deriving DecidableEq, Repr

namespace Node

def kind {C : Type} : Node C → Kind
  | .functionDecl .. => .functionDecl
  | .parameterDecl .. => .parameterDecl
  | .block .. => .block
  | .variableStmt .. => .variableStmt
  | .exprStmt .. => .exprStmt
  | .returnStmt .. => .returnStmt
  | .throwStmt .. => .throwStmt
  | .ifStmt .. => .ifStmt
  | .whileStmt .. => .whileStmt
  | .doStmt .. => .doStmt
  | .forOfStmt .. => .forOfStmt
  | .forInStmt .. => .forInStmt
  | .tryStmt .. => .tryStmt
  | .catchClause .. => .catchClause
  | .breakStmt => .breakStmt
  | .continueStmt => .continueStmt
  | .emptyStmt => .emptyStmt
  | .identifier .. => .identifier
  | .referenceExpr .. => .referenceExpr
  | .stringLiteral .. => .stringLiteral
  | .numberLiteral .. => .numberLiteral
  | .booleanLiteral .. => .booleanLiteral
  | .nullLiteral => .nullLiteral
  | .undefinedLiteral => .undefinedLiteral
  | .templateExpr .. => .templateExpr
  | .arrayLiteral .. => .arrayLiteral
  | .objectLiteral .. => .objectLiteral
  | .propertyAssignment .. => .propertyAssignment
  | .computedPropertyName .. => .computedPropertyName
  | .spreadAssignment .. => .spreadAssignment
  | .spreadElement .. => .spreadElement
  | .propertyAccess .. => .propertyAccess
  | .elementAccess .. => .elementAccess
  | .callExpr .. => .callExpr
  | .newExpr .. => .newExpr
  | .unaryExpr .. => .unaryExpr
  | .binaryExpr .. => .binaryExpr
  | .conditionalExpr .. => .conditionalExpr
  | .arrowFunction .. => .arrowFunction
  | .awaitExpr .. => .awaitExpr
  | .syntaxError .. => .syntaxError

def children {C : Type} : Node C → List C
  | .functionDecl _ parameters body => parameters ++ [body]
  | .block statements _ => statements
  | .variableStmt _ initializer => initializer.toList
  | .exprStmt expression => [expression]
  | .returnStmt expression => expression.toList
  | .throwStmt expression => [expression]
  | .ifStmt condition thenStmt elseStmt => [condition, thenStmt] ++ elseStmt.toList
  | .whileStmt condition body => [condition, body]
  | .doStmt body condition => [body, condition]
  | .forOfStmt binder expression body => [binder, expression, body]
  | .forInStmt binder expression body => [binder, expression, body]
  | .tryStmt tryBlock handler finalizer => [tryBlock] ++ handler.toList ++ finalizer.toList
  | .catchClause binder body => binder.toList ++ [body]
  | .templateExpr _ spans => spans.map (·.expression)
  | .arrayLiteral elements => elements
  | .objectLiteral properties => properties
  | .propertyAssignment name value => [name, value]
  | .computedPropertyName expression => [expression]
  | .spreadAssignment expression => [expression]
  | .spreadElement expression => [expression]
  | .propertyAccess expression _ _ => [expression]
  | .elementAccess expression element _ => [expression, element]
  | .callExpr callee arguments => [callee] ++ arguments
  | .newExpr callee arguments => [callee] ++ arguments
  | .unaryExpr _ operand => [operand]
  | .binaryExpr left _ right => [left, right]
  | .conditionalExpr condition whenTrue whenFalse => [condition, whenTrue, whenFalse]
  | .arrowFunction parameters body => parameters ++ [body]
  | .awaitExpr expression => [expression]
  | _ => []

def map {C D : Type} (f : C → D) : Node C → Node D
  | .functionDecl name parameters body => .functionDecl name (parameters.map f) (f body)
  | .parameterDecl name => .parameterDecl name
  | .block statements isFinally => .block (statements.map f) isFinally
  | .variableStmt name initializer => .variableStmt name (initializer.map f)
  | .exprStmt expression => .exprStmt (f expression)
  | .returnStmt expression => .returnStmt (expression.map f)
  | .throwStmt expression => .throwStmt (f expression)
  | .ifStmt condition thenStmt elseStmt => .ifStmt (f condition) (f thenStmt) (elseStmt.map f)
  | .whileStmt condition body => .whileStmt (f condition) (f body)
  | .doStmt body condition => .doStmt (f body) (f condition)
  | .forOfStmt binder expression body => .forOfStmt (f binder) (f expression) (f body)
  | .forInStmt binder expression body => .forInStmt (f binder) (f expression) (f body)
  | .tryStmt tryBlock handler finalizer => .tryStmt (f tryBlock) (handler.map f) (finalizer.map f)
  | .catchClause binder body => .catchClause (binder.map f) (f body)
  | .breakStmt => .breakStmt
  | .continueStmt => .continueStmt
  | .emptyStmt => .emptyStmt
  | .identifier name => .identifier name
  | .referenceExpr name => .referenceExpr name
  | .stringLiteral value => .stringLiteral value
  | .numberLiteral value => .numberLiteral value
  | .booleanLiteral value => .booleanLiteral value
  | .nullLiteral => .nullLiteral
  | .undefinedLiteral => .undefinedLiteral
  | .templateExpr head spans => .templateExpr head (spans.map fun s => ⟨f s.expression, s.literal⟩)
  | .arrayLiteral elements => .arrayLiteral (elements.map f)
  | .objectLiteral properties => .objectLiteral (properties.map f)
  | .propertyAssignment name value => .propertyAssignment (f name) (f value)
  | .computedPropertyName expression => .computedPropertyName (f expression)
  | .spreadAssignment expression => .spreadAssignment (f expression)
  | .spreadElement expression => .spreadElement (f expression)
  | .propertyAccess expression name chained => .propertyAccess (f expression) name chained
  | .elementAccess expression element chained => .elementAccess (f expression) (f element) chained
  | .callExpr callee arguments => .callExpr (f callee) (arguments.map f)
  | .newExpr callee arguments => .newExpr (f callee) (arguments.map f)
  | .unaryExpr operator operand => .unaryExpr operator (f operand)
  | .binaryExpr left operator right => .binaryExpr (f left) operator (f right)
  | .conditionalExpr condition whenTrue whenFalse =>
    .conditionalExpr (f condition) (f whenTrue) (f whenFalse)
  | .arrowFunction parameters body => .arrowFunction (parameters.map f) (f body)
  | .awaitExpr expression => .awaitExpr (f expression)
  | .syntaxError message => .syntaxError message

def mapM {m : Type → Type} [Monad m] {C D : Type} (f : C → m D) : Node C → m (Node D)
  | .functionDecl name parameters body =>
    do pure (.functionDecl name (← parameters.mapM f) (← f body))
  | .parameterDecl name => pure (.parameterDecl name)
  | .block statements isFinally => do pure (.block (← statements.mapM f) isFinally)
  | .variableStmt name initializer => do pure (.variableStmt name (← initializer.mapM f))
  | .exprStmt expression => do pure (.exprStmt (← f expression))
  | .returnStmt expression => do pure (.returnStmt (← expression.mapM f))
  | .throwStmt expression => do pure (.throwStmt (← f expression))
  | .ifStmt condition thenStmt elseStmt =>
    do pure (.ifStmt (← f condition) (← f thenStmt) (← elseStmt.mapM f))
  | .whileStmt condition body => do pure (.whileStmt (← f condition) (← f body))
  | .doStmt body condition => do pure (.doStmt (← f body) (← f condition))
  | .forOfStmt binder expression body =>
    do pure (.forOfStmt (← f binder) (← f expression) (← f body))
  | .forInStmt binder expression body =>
    do pure (.forInStmt (← f binder) (← f expression) (← f body))
  | .tryStmt tryBlock handler finalizer =>
    do pure (.tryStmt (← f tryBlock) (← handler.mapM f) (← finalizer.mapM f))
  | .catchClause binder body => do pure (.catchClause (← binder.mapM f) (← f body))
  | .breakStmt => pure (.breakStmt)
  | .continueStmt => pure (.continueStmt)
  | .emptyStmt => pure (.emptyStmt)
  | .identifier name => pure (.identifier name)
  | .referenceExpr name => pure (.referenceExpr name)
  | .stringLiteral value => pure (.stringLiteral value)
  | .numberLiteral value => pure (.numberLiteral value)
  | .booleanLiteral value => pure (.booleanLiteral value)
  | .nullLiteral => pure (.nullLiteral)
  | .undefinedLiteral => pure (.undefinedLiteral)
  | .templateExpr head spans =>
    do pure (.templateExpr head (← spans.mapM fun s => do pure ⟨← f s.expression, s.literal⟩))
  | .arrayLiteral elements => do pure (.arrayLiteral (← elements.mapM f))
  | .objectLiteral properties => do pure (.objectLiteral (← properties.mapM f))
  | .propertyAssignment name value => do pure (.propertyAssignment (← f name) (← f value))
  | .computedPropertyName expression => do pure (.computedPropertyName (← f expression))
  | .spreadAssignment expression => do pure (.spreadAssignment (← f expression))
  | .spreadElement expression => do pure (.spreadElement (← f expression))
  | .propertyAccess expression name chained =>
    do pure (.propertyAccess (← f expression) name chained)
  | .elementAccess expression element chained =>
    do pure (.elementAccess (← f expression) (← f element) chained)
  | .callExpr callee arguments => do pure (.callExpr (← f callee) (← arguments.mapM f))
  | .newExpr callee arguments => do pure (.newExpr (← f callee) (← arguments.mapM f))
  | .unaryExpr operator operand => do pure (.unaryExpr operator (← f operand))
  | .binaryExpr left operator right => do pure (.binaryExpr (← f left) operator (← f right))
  | .conditionalExpr condition whenTrue whenFalse =>
    do pure (.conditionalExpr (← f condition) (← f whenTrue) (← f whenFalse))
  | .arrowFunction parameters body => do pure (.arrowFunction (← parameters.mapM f) (← f body))
  | .awaitExpr expression => do pure (.awaitExpr (← f expression))
  | .syntaxError message => pure (.syntaxError message)

/-- Equality of everything but the children, numbers being compared as numbers. -/
def sameShape {C D : Type} (a : Node C) (b : Node D) : Bool :=
  match a, b with
  | .numberLiteral x, .numberLiteral y => x.equals y
  | a, b => a.map (fun _ => ()) == b.map (fun _ => ())

end Node

end ServiceFlow
