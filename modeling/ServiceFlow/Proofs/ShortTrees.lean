import ServiceFlow.Syntax.Tree

/-!
# Short forms of syntax trees

The functions that serve as examples are written with these.
-/

namespace ServiceFlow.Tree

/-- A name. -/
def ident (name : String) : SyntaxTree := .mk () (.identifier name)

/-- A reference. -/
def ref (name : String) : SyntaxTree := .mk () (.referenceExpr name)

/-- A text. -/
def text (value : String) : SyntaxTree := .mk () (.stringLiteral value)

/-- A number. -/
def number (n : Nat) : SyntaxTree := .mk () (.numberLiteral (Double.ofNat n))

/-- An array. -/
def list (elements : List SyntaxTree) : SyntaxTree := .mk () (.arrayLiteral elements)

/-- An object. -/
def record (properties : List SyntaxTree) : SyntaxTree := .mk () (.objectLiteral properties)

/-- A property. -/
def entry (name : Node SyntaxTree) (value : SyntaxTree) : SyntaxTree :=
  .mk () (.propertyAssignment (.mk () name) value)

/-- A field. -/
def member (base : SyntaxTree) (name : String) : SyntaxTree :=
  .mk () (.propertyAccess base name false)

/-- A call. -/
def call (callee : SyntaxTree) (arguments : List SyntaxTree) : SyntaxTree :=
  .mk () (.callExpr callee arguments)

/-- A conditional. -/
def choose (condition whenTrue whenFalse : SyntaxTree) : SyntaxTree :=
  .mk () (.conditionalExpr condition whenTrue whenFalse)

/-- A parameter. -/
def param (name : String) : SyntaxTree := .mk () (.parameterDecl name)

/-- A block. -/
def block (statements : List SyntaxTree) : SyntaxTree := .mk () (.block statements false)

/-- A function. -/
def function (parameters statements : List SyntaxTree) : SyntaxTree :=
  .mk () (.functionDecl none parameters (block statements))

/-- An inline function. -/
def arrow (parameters statements : List SyntaxTree) : SyntaxTree :=
  .mk () (.arrowFunction parameters (block statements))

/-- A declaration. -/
def declare (name : String) : SyntaxTree := .mk () (.variableStmt name none)

/-- A variable with a value. -/
def set (name : String) (value : SyntaxTree) : SyntaxTree :=
  .mk () (.variableStmt name (some value))

/-- A variable with the value of another. -/
def copy (name source : String) : SyntaxTree := set name (ident source)

/-- An expression as a statement. -/
def eval (expression : SyntaxTree) : SyntaxTree := .mk () (.exprStmt expression)

/-- A return with a value. -/
def give (value : SyntaxTree) : SyntaxTree := .mk () (.returnStmt (some value))

/-- A return. -/
def leave : SyntaxTree := .mk () (.returnStmt none)

/-- A throw. -/
def raise (error : SyntaxTree) : SyntaxTree := .mk () (.throwStmt error)

/-- An if. -/
def branch (condition body : SyntaxTree) : SyntaxTree := .mk () (.ifStmt condition body none)

/-- A while loop. -/
def loop (condition body : SyntaxTree) : SyntaxTree := .mk () (.whileStmt condition body)

/-- A for-of loop. -/
def each (item : String) (items body : SyntaxTree) : SyntaxTree :=
  .mk () (.forOfStmt (declare item) items body)

/-- A try statement with a finally block. -/
def closing (tried last : List SyntaxTree) : SyntaxTree :=
  .mk () (.tryStmt (block tried) none (some (block last)))

end ServiceFlow.Tree
