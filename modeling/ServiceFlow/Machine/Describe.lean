import ServiceFlow.Number.Script
import ServiceFlow.Syntax.Tree

/-!
# Descriptions of statements

A short text for a statement, close to how it is written in a source file. States are named by it.
-/

namespace ServiceFlow.Machine

def deepest : Nat := 3

def elided : String := "..."

def describeExpr {α : Type} (depth : Nat) (t : Tree α) : String :=
  if deepest < depth then elided
  else
    match t with
    | .mk _ (.identifier name) => name
    | .mk _ (.referenceExpr name) => name
    | .mk _ (.stringLiteral value) => "'" ++ value ++ "'"
    | .mk _ (.numberLiteral value) => value.text
    | .mk _ (.booleanLiteral value) => if value then "true" else "false"
    | .mk _ .nullLiteral => "null"
    | .mk _ .undefinedLiteral => "undefined"
    | .mk _ (.awaitExpr expression) => describeExpr depth expression
    | .mk _ (.propertyAccess expression name _) =>
      describeExpr (depth + 1) expression ++ "." ++ name
    | .mk _ (.elementAccess expression element _) =>
      describeExpr (depth + 1) expression ++ "[" ++ describeExpr (depth + 1) element ++ "]"
    | .mk _ (.callExpr callee arguments) =>
      describeExpr (depth + 1) callee ++ "(" ++ (if arguments.isEmpty then "" else elided) ++ ")"
    | .mk _ (.newExpr callee []) => "new " ++ describeExpr (depth + 1) callee ++ "()"
    | .mk _ (.newExpr callee [only]) =>
      "new " ++ describeExpr (depth + 1) callee ++ "(" ++ describeExpr (depth + 1) only ++ ")"
    | .mk _ (.newExpr callee _) => "new " ++ describeExpr (depth + 1) callee ++ "(" ++ elided ++ ")"
    | .mk _ (.unaryExpr operator operand) => operator.symbol ++ describeExpr (depth + 1) operand
    | .mk _ (.binaryExpr left operator right) =>
      describeExpr (depth + 1) left ++ " " ++ operator.symbol ++ " " ++
        describeExpr (depth + 1) right
    | .mk _ (.conditionalExpr condition whenTrue whenFalse) =>
      describeExpr (depth + 1) condition ++ " ? " ++ describeExpr (depth + 1) whenTrue ++ " : " ++
        describeExpr (depth + 1) whenFalse
    | .mk _ (.templateExpr _ _) => "template"
    | .mk _ (.arrayLiteral _) => "(...)"
    | .mk _ (.objectLiteral _) => "object"
    | .mk _ (.arrowFunction _ _) => "() => ..."
    | .mk _ other => other.kind.name
termination_by structural t

def binderName {α : Type} (t : Tree α) : String :=
  match t.node with
  | .variableStmt name _ | .identifier name => name
  | other => other.kind.name

def describe {α : Type} (t : Tree α) : String :=
  match t.node with
  | .variableStmt name (some initializer) => name ++ " = " ++ describeExpr 0 initializer
  | .variableStmt name none => name
  | .exprStmt expression => describeExpr 0 expression
  | .returnStmt (some expression) => "return " ++ describeExpr 0 expression
  | .returnStmt none => "return"
  | .throwStmt expression => "throw " ++ describeExpr 0 expression
  | .ifStmt condition _ _ => "if(" ++ describeExpr 0 condition ++ ")"
  | .whileStmt condition _ => "while (" ++ describeExpr 0 condition ++ ")"
  | .doStmt _ condition => "do while (" ++ describeExpr 0 condition ++ ")"
  | .forOfStmt binder expression _ =>
    "for (" ++ binderName binder ++ " of " ++ describeExpr 0 expression ++ ")"
  | .forInStmt binder expression _ =>
    "for (" ++ binderName binder ++ " in " ++ describeExpr 0 expression ++ ")"
  | .breakStmt => "break"
  | .continueStmt => "continue"
  | .emptyStmt => "empty"
  | .tryStmt .. => "try"
  | other => other.kind.name

end ServiceFlow.Machine
