import ServiceFlow.Json.Value
import ServiceFlow.Syntax.Tree

/-!
# Writing syntax trees as JSON

The kind comes first, then the fields. Absent children and flags that are off are left out.
-/

namespace ServiceFlow

/-- What a field of a node holds. Nullable and defaulted fields may be missing in a document. -/
inductive Slot (C : Type) where
  | text (value : String)
  | nullableText (value : Option String)
  | defaultedText (value : String)
  | truth (value : Bool)
  | flag (on : Bool)
  | number (value : Double)
  | unaryOp (operator : UnaryOp)
  | binaryOp (operator : BinaryOp)
  | child (value : C)
  | nullableChild (value : Option C)
  | children (values : List C)
  | spans (values : List (Span C))

def spanJson (span : Span Json) : Json :=
  .object [("expression", span.expression), ("literal", .string span.literal)]

/-- What is written for a field whose children are written already, if anything. -/
def Slot.json? (number : Double → Json) : Slot Json → Option Json
  | .text value => some (.string value)
  | .nullableText value => value.map .string
  | .defaultedText value => some (.string value)
  | .truth value => some (.bool value)
  | .flag on => if on then some (.bool true) else none
  | .number value => some (number value)
  | .unaryOp operator => some (.string operator.symbol)
  | .binaryOp operator => some (.string operator.symbol)
  | .child value => some value
  | .nullableChild value => value
  | .children values => some (.array values)
  | .spans values => some (.array (values.map spanJson))

namespace Node

def present (name : String) : Option Json → List (String × Json)
  | some value => [(name, value)]
  | none => []

/-- The fields of a node by name. -/
def slots {C : Type} : Node C → List (String × Slot C)
  | .functionDecl name parameters body =>
    [("name", .nullableText name), ("parameters", .children parameters), ("body", .child body)]
  | .parameterDecl name => [("name", .text name)]
  | .block statements isFinally =>
    [("statements", .children statements), ("isFinally", .flag isFinally)]
  | .variableStmt name initializer =>
    [("name", .text name), ("initializer", .nullableChild initializer)]
  | .exprStmt expression => [("expression", .child expression)]
  | .returnStmt expression => [("expression", .nullableChild expression)]
  | .throwStmt expression => [("expression", .child expression)]
  | .ifStmt condition thenStmt elseStmt =>
    [("condition", .child condition), ("thenStmt", .child thenStmt),
      ("elseStmt", .nullableChild elseStmt)]
  | .whileStmt condition body => [("condition", .child condition), ("body", .child body)]
  | .doStmt body condition => [("body", .child body), ("condition", .child condition)]
  | .forOfStmt binder expression body =>
    [("variable", .child binder), ("expression", .child expression), ("body", .child body)]
  | .forInStmt binder expression body =>
    [("variable", .child binder), ("expression", .child expression), ("body", .child body)]
  | .tryStmt tryBlock handler finalizer =>
    [("tryBlock", .child tryBlock), ("catchClause", .nullableChild handler),
      ("finallyBlock", .nullableChild finalizer)]
  | .catchClause binder body => [("variable", .nullableChild binder), ("block", .child body)]
  | .identifier name => [("name", .text name)]
  | .referenceExpr name => [("name", .text name)]
  | .stringLiteral value => [("value", .text value)]
  | .numberLiteral value => [("value", .number value)]
  | .booleanLiteral value => [("value", .truth value)]
  | .templateExpr head spans => [("head", .defaultedText head), ("spans", .spans spans)]
  | .arrayLiteral elements => [("elements", .children elements)]
  | .objectLiteral properties => [("properties", .children properties)]
  | .propertyAssignment name value => [("name", .child name), ("value", .child value)]
  | .computedPropertyName expression => [("expression", .child expression)]
  | .spreadAssignment expression => [("expression", .child expression)]
  | .spreadElement expression => [("expression", .child expression)]
  | .propertyAccess expression name chained =>
    [("expression", .child expression), ("name", .text name), ("optional", .flag chained)]
  | .elementAccess expression element chained =>
    [("expression", .child expression), ("element", .child element), ("optional", .flag chained)]
  | .callExpr callee arguments => [("callee", .child callee), ("arguments", .children arguments)]
  | .newExpr callee arguments => [("callee", .child callee), ("arguments", .children arguments)]
  | .unaryExpr operator operand => [("operator", .unaryOp operator), ("operand", .child operand)]
  | .binaryExpr left operator right =>
    [("left", .child left), ("operator", .binaryOp operator), ("right", .child right)]
  | .conditionalExpr condition whenTrue whenFalse =>
    [("condition", .child condition), ("whenTrue", .child whenTrue),
      ("whenFalse", .child whenFalse)]
  | .arrowFunction parameters body =>
    [("parameters", .children parameters), ("body", .child body)]
  | .awaitExpr expression => [("expression", .child expression)]
  | .syntaxError message => [("message", .text message)]
  | _ => []

/-- The fields of a node whose children are written already. Numbers are written by `number`. -/
def fieldsJson (number : Double → Json) (node : Node Json) : List (String × Json) :=
  node.slots.flatMap fun slot => present slot.1 (slot.2.json? number)

def toJson (number : Double → Json) (node : Node Json) : Json :=
  .object (("kind", .string node.kind.name) :: node.fieldsJson number)

end Node

def Tree.toJson (number : Double → Json) (tree : SyntaxTree) : Json :=
  tree.fold fun _ node => node.toJson number

end ServiceFlow
