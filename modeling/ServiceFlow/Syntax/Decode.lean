import ServiceFlow.Json.Fields
import ServiceFlow.Syntax.Tree

/-!
# Reading syntax trees from JSON

A node is an object with its kind under `kind` and its fields by name, or an array of its kind
followed by its fields. Unknown fields are ignored, a repeated field is refused. A node below the
root may give its kind by number.
-/

namespace ServiceFlow

namespace Kind

def fields : Kind → List String
  | .functionDecl => ["name", "parameters", "body"]
  | .parameterDecl => ["name"]
  | .block => ["statements", "isFinally"]
  | .variableStmt => ["name", "initializer"]
  | .exprStmt => ["expression"]
  | .returnStmt => ["expression"]
  | .throwStmt => ["expression"]
  | .ifStmt => ["condition", "thenStmt", "elseStmt"]
  | .whileStmt => ["condition", "body"]
  | .doStmt => ["body", "condition"]
  | .forOfStmt => ["variable", "expression", "body"]
  | .forInStmt => ["variable", "expression", "body"]
  | .tryStmt => ["tryBlock", "catchClause", "finallyBlock"]
  | .catchClause => ["variable", "block"]
  | .identifier => ["name"]
  | .referenceExpr => ["name"]
  | .stringLiteral => ["value"]
  | .numberLiteral => ["value"]
  | .booleanLiteral => ["value"]
  | .templateExpr => ["head", "spans"]
  | .arrayLiteral => ["elements"]
  | .objectLiteral => ["properties"]
  | .propertyAssignment => ["name", "value"]
  | .computedPropertyName => ["expression"]
  | .spreadAssignment => ["expression"]
  | .spreadElement => ["expression"]
  | .propertyAccess => ["expression", "name", "optional"]
  | .elementAccess => ["expression", "element", "optional"]
  | .callExpr => ["callee", "arguments"]
  | .newExpr => ["callee", "arguments"]
  | .unaryExpr => ["operator", "operand"]
  | .binaryExpr => ["left", "operator", "right"]
  | .conditionalExpr => ["condition", "whenTrue", "whenFalse"]
  | .arrowFunction => ["parameters", "body"]
  | .awaitExpr => ["expression"]
  | .syntaxError => ["message"]
  | _ => []

end Kind

namespace Node

open Json

def binaryOp? (json : Json) : Option BinaryOp := json.innerWord?.bind BinaryOp.ofSymbol?

def unaryOp? (json : Json) : Option UnaryOp := json.innerWord?.bind UnaryOp.ofSymbol?

def span? {C : Type} (child : Json → Option C) (json : Json) : Option (Span C) := do
  match ← json.fields? ["expression", "literal"] with
  | [expression, literal] =>
    pure ⟨← required child expression, ← defaulted "" string? literal⟩
  | _ => none

def ofFields? {C : Type} (child : Json → Option C) : Kind → List (Option Json) → Option (Node C)
  | .functionDecl, [name, parameters, body] => do
    pure (.functionDecl (← nullable string? name) (← defaulted [] (list? child) parameters)
      (← required child body))
  | .parameterDecl, [name] => do
    pure (.parameterDecl (← required string? name))
  | .block, [statements, isFinally] => do
    pure (.block (← defaulted [] (list? child) statements) (← defaulted false bool? isFinally))
  | .variableStmt, [name, initializer] => do
    pure (.variableStmt (← required string? name) (← nullable child initializer))
  | .exprStmt, [expression] => do
    pure (.exprStmt (← required child expression))
  | .returnStmt, [expression] => do
    pure (.returnStmt (← nullable child expression))
  | .throwStmt, [expression] => do
    pure (.throwStmt (← required child expression))
  | .ifStmt, [condition, thenStmt, elseStmt] => do
    pure (.ifStmt (← required child condition) (← required child thenStmt)
      (← nullable child elseStmt))
  | .whileStmt, [condition, body] => do
    pure (.whileStmt (← required child condition) (← required child body))
  | .doStmt, [body, condition] => do
    pure (.doStmt (← required child body) (← required child condition))
  | .forOfStmt, [binder, expression, body] => do
    pure (.forOfStmt (← required child binder) (← required child expression)
      (← required child body))
  | .forInStmt, [binder, expression, body] => do
    pure (.forInStmt (← required child binder) (← required child expression)
      (← required child body))
  | .tryStmt, [tryBlock, handler, finalizer] => do
    pure (.tryStmt (← required child tryBlock) (← nullable child handler)
      (← nullable child finalizer))
  | .catchClause, [binder, body] => do
    pure (.catchClause (← nullable child binder) (← required child body))
  | .breakStmt, [] => some .breakStmt
  | .continueStmt, [] => some .continueStmt
  | .emptyStmt, [] => some .emptyStmt
  | .identifier, [name] => do
    pure (.identifier (← required string? name))
  | .referenceExpr, [name] => do
    pure (.referenceExpr (← required string? name))
  | .stringLiteral, [value] => do
    pure (.stringLiteral (← required string? value))
  | .numberLiteral, [value] => do
    pure (.numberLiteral (← required double? value))
  | .booleanLiteral, [value] => do
    pure (.booleanLiteral (← required bool? value))
  | .nullLiteral, [] => some .nullLiteral
  | .undefinedLiteral, [] => some .undefinedLiteral
  | .templateExpr, [head, spans] => do
    pure (.templateExpr (← defaulted "" string? head) (← defaulted [] (list? (span? child)) spans))
  | .arrayLiteral, [elements] => do
    pure (.arrayLiteral (← defaulted [] (list? child) elements))
  | .objectLiteral, [properties] => do
    pure (.objectLiteral (← defaulted [] (list? child) properties))
  | .propertyAssignment, [name, value] => do
    pure (.propertyAssignment (← required child name) (← required child value))
  | .computedPropertyName, [expression] => do
    pure (.computedPropertyName (← required child expression))
  | .spreadAssignment, [expression] => do
    pure (.spreadAssignment (← required child expression))
  | .spreadElement, [expression] => do
    pure (.spreadElement (← required child expression))
  | .propertyAccess, [expression, name, chained] => do
    pure (.propertyAccess (← required child expression) (← required string? name)
      (← defaulted false bool? chained))
  | .elementAccess, [expression, element, chained] => do
    pure (.elementAccess (← required child expression) (← required child element)
      (← defaulted false bool? chained))
  | .callExpr, [callee, arguments] => do
    pure (.callExpr (← required child callee) (← defaulted [] (list? child) arguments))
  | .newExpr, [callee, arguments] => do
    pure (.newExpr (← required child callee) (← defaulted [] (list? child) arguments))
  | .unaryExpr, [operator, operand] => do
    pure (.unaryExpr (← required unaryOp? operator) (← required child operand))
  | .binaryExpr, [left, operator, right] => do
    pure (.binaryExpr (← required child left) (← required binaryOp? operator)
      (← required child right))
  | .conditionalExpr, [condition, whenTrue, whenFalse] => do
    pure (.conditionalExpr (← required child condition) (← required child whenTrue)
      (← required child whenFalse))
  | .arrowFunction, [parameters, body] => do
    pure (.arrowFunction (← defaulted [] (list? child) parameters) (← required child body))
  | .awaitExpr, [expression] => do
    pure (.awaitExpr (← required child expression))
  | .syntaxError, [message] => do
    pure (.syntaxError (← required string? message))
  | _, _ => none

def kind? (numbered : Bool) : Json → Option Kind
  | .string name => Kind.ofName? name
  | .number (.int n) => if numbered && 0 ≤ n then Kind.all[n.toNat]? else none
  | _ => none

def ofJson? {C : Type} (numbered : Bool) (child : Json → Option C) : Json → Option (Node C)
  | .object entries => do
    let kind ← (← field? entries "kind").bind (kind? numbered)
    ofFields? child kind (← fields? kind.fields (.object entries))
  | .array (tag :: items) => do
    let kind ← kind? numbered tag
    ofFields? child kind (← fields? kind.fields (.array items))
  | _ => none

end Node

namespace Tree

def ofJsonWithin? : Nat → Bool → Json → Option SyntaxTree
  | 0, _, _ => none
  | fuel + 1, numbered, json => do
    pure (.mk () (← Node.ofJson? numbered (ofJsonWithin? fuel true) json))

def ofJson? (json : Json) : Option SyntaxTree := ofJsonWithin? (json.depth + 1) false json

end Tree

end ServiceFlow
