/-!
# Kinds of syntax nodes

The closed list of node kinds, the category each belongs to, and the operators of expressions.
-/

namespace ServiceFlow

inductive Kind where
  | functionDecl
  | parameterDecl
  | block
  | variableStmt
  | exprStmt
  | returnStmt
  | throwStmt
  | ifStmt
  | whileStmt
  | doStmt
  | forOfStmt
  | forInStmt
  | tryStmt
  | catchClause
  | breakStmt
  | continueStmt
  | emptyStmt
  | identifier
  | referenceExpr
  | stringLiteral
  | numberLiteral
  | booleanLiteral
  | nullLiteral
  | undefinedLiteral
  | templateExpr
  | arrayLiteral
  | objectLiteral
  | propertyAssignment
  | computedPropertyName
  | spreadAssignment
  | spreadElement
  | propertyAccess
  | elementAccess
  | callExpr
  | newExpr
  | unaryExpr
  | binaryExpr
  | conditionalExpr
  | arrowFunction
  | awaitExpr
  | syntaxError
deriving DecidableEq, Repr, Inhabited

inductive Category where
  | declaration
  | expression
  | statement
  | error
deriving DecidableEq, Repr, Inhabited

namespace Kind

def all : List Kind :=
  [ .functionDecl, .parameterDecl, .block, .variableStmt, .exprStmt, .returnStmt,
    .throwStmt, .ifStmt, .whileStmt, .doStmt, .forOfStmt, .forInStmt, .tryStmt,
    .catchClause, .breakStmt, .continueStmt, .emptyStmt, .identifier, .referenceExpr,
    .stringLiteral, .numberLiteral, .booleanLiteral, .nullLiteral, .undefinedLiteral,
    .templateExpr, .arrayLiteral, .objectLiteral, .propertyAssignment,
    .computedPropertyName, .spreadAssignment, .spreadElement, .propertyAccess,
    .elementAccess, .callExpr, .newExpr, .unaryExpr, .binaryExpr, .conditionalExpr,
    .arrowFunction, .awaitExpr, .syntaxError ]

def name : Kind → String
  | .functionDecl => "FunctionDecl"
  | .parameterDecl => "ParameterDecl"
  | .block => "Block"
  | .variableStmt => "VariableStmt"
  | .exprStmt => "ExprStmt"
  | .returnStmt => "ReturnStmt"
  | .throwStmt => "ThrowStmt"
  | .ifStmt => "IfStmt"
  | .whileStmt => "WhileStmt"
  | .doStmt => "DoStmt"
  | .forOfStmt => "ForOfStmt"
  | .forInStmt => "ForInStmt"
  | .tryStmt => "TryStmt"
  | .catchClause => "CatchClause"
  | .breakStmt => "BreakStmt"
  | .continueStmt => "ContinueStmt"
  | .emptyStmt => "EmptyStmt"
  | .identifier => "Identifier"
  | .referenceExpr => "ReferenceExpr"
  | .stringLiteral => "StringLiteral"
  | .numberLiteral => "NumberLiteral"
  | .booleanLiteral => "BooleanLiteral"
  | .nullLiteral => "NullLiteral"
  | .undefinedLiteral => "UndefinedLiteral"
  | .templateExpr => "TemplateExpr"
  | .arrayLiteral => "ArrayLiteral"
  | .objectLiteral => "ObjectLiteral"
  | .propertyAssignment => "PropertyAssignment"
  | .computedPropertyName => "ComputedPropertyName"
  | .spreadAssignment => "SpreadAssignment"
  | .spreadElement => "SpreadElement"
  | .propertyAccess => "PropertyAccess"
  | .elementAccess => "ElementAccess"
  | .callExpr => "CallExpr"
  | .newExpr => "NewExpr"
  | .unaryExpr => "UnaryExpr"
  | .binaryExpr => "BinaryExpr"
  | .conditionalExpr => "ConditionalExpr"
  | .arrowFunction => "ArrowFunction"
  | .awaitExpr => "AwaitExpr"
  | .syntaxError => "SyntaxError"

def ofName? (text : String) : Option Kind := all.find? fun k => k.name == text

def category : Kind → Category
  | .functionDecl | .parameterDecl => .declaration
  | .block | .variableStmt | .exprStmt | .returnStmt | .throwStmt | .ifStmt | .whileStmt
  | .doStmt | .forOfStmt | .forInStmt | .tryStmt | .catchClause | .breakStmt | .continueStmt
  | .emptyStmt => .statement
  | .syntaxError => .error
  | _ => .expression

def isLoop : Kind → Bool
  | .whileStmt | .doStmt | .forOfStmt | .forInStmt => true
  | _ => false

def isFunction : Kind → Bool
  | .functionDecl | .arrowFunction => true
  | _ => false

def isLiteral : Kind → Bool
  | .stringLiteral | .numberLiteral | .booleanLiteral | .nullLiteral | .undefinedLiteral => true
  | _ => false

end Kind

def Category.name : Category → String
  | .declaration => "Declaration"
  | .expression => "Expression"
  | .statement => "Statement"
  | .error => "Error"

inductive BinaryOp where
  | add
  | sub
  | mul
  | div
  | mod
  | eq
  | notEq
  | strictEq
  | strictNotEq
  | lt
  | ltEq
  | gt
  | gtEq
  | and
  | or
  | coalesce
deriving DecidableEq, Repr, Inhabited

namespace BinaryOp

def all : List BinaryOp :=
  [.add, .sub, .mul, .div, .mod, .eq, .notEq, .strictEq, .strictNotEq, .lt, .ltEq, .gt, .gtEq,
    .and, .or, .coalesce]

def symbol : BinaryOp → String
  | .add => "+"
  | .sub => "-"
  | .mul => "*"
  | .div => "/"
  | .mod => "%"
  | .eq => "=="
  | .notEq => "!="
  | .strictEq => "==="
  | .strictNotEq => "!=="
  | .lt => "<"
  | .ltEq => "<="
  | .gt => ">"
  | .gtEq => ">="
  | .and => "&&"
  | .or => "||"
  | .coalesce => "??"

def ofSymbol? (text : String) : Option BinaryOp := all.find? fun op => op.symbol == text

def name : BinaryOp → String
  | .add => "Add"
  | .sub => "Sub"
  | .mul => "Mul"
  | .div => "Div"
  | .mod => "Mod"
  | .eq => "Eq"
  | .notEq => "NotEq"
  | .strictEq => "StrictEq"
  | .strictNotEq => "StrictNotEq"
  | .lt => "Lt"
  | .ltEq => "LtEq"
  | .gt => "Gt"
  | .gtEq => "GtEq"
  | .and => "And"
  | .or => "Or"
  | .coalesce => "Coalesce"

def isComparison : BinaryOp → Bool
  | .eq | .notEq | .strictEq | .strictNotEq | .lt | .ltEq | .gt | .gtEq => true
  | _ => false

end BinaryOp

inductive UnaryOp where
  | neg
  | plus
  | not
deriving DecidableEq, Repr, Inhabited

namespace UnaryOp

def all : List UnaryOp := [.neg, .plus, .not]

def symbol : UnaryOp → String
  | .neg => "-"
  | .plus => "+"
  | .not => "!"

def ofSymbol? (text : String) : Option UnaryOp := all.find? fun op => op.symbol == text

def name : UnaryOp → String
  | .neg => "Neg"
  | .plus => "Plus"
  | .not => "Not"

end UnaryOp

end ServiceFlow
