import ServiceFlow.Constant.Basic

/-!
# Constant evaluation

The value an expression always has. Names from outside the function are given by `References`.
-/

namespace ServiceFlow

/-- The value of each outside name that has one. -/
abbrev References := String → Option Constant

def noReferences : References := fun _ => none

namespace Tree

mutual

def constant? {α : Type} (refs : References) : Tree α → Option Constant
  | .mk _ (.stringLiteral value) => some (.string value)
  | .mk _ (.numberLiteral value) => some (.number value)
  | .mk _ (.booleanLiteral value) => some (.bool value)
  | .mk _ .nullLiteral => some .null
  | .mk _ .undefinedLiteral => some .undefined
  | .mk _ (.unaryExpr operator operand) => do
    match operator, ← constant? refs operand with
    | .neg, .number n => some (.number (-n))
    | .plus, .number n => some (.number n)
    | _, _ => none
  | .mk _ (.referenceExpr name) => refs name
  | .mk _ (.arrayLiteral elements) => do pure (.array (← constantItems? refs elements))
  | .mk _ (.objectLiteral properties) => do pure (.object (← constantEntries? refs [] properties))
  | .mk _ (.templateExpr head spans) => do pure (.string (head ++ (← constantSpans? refs spans)))
  | .mk _ (.propertyAccess expression name _) => do
    (← constant? refs expression).member? (.string name)
  | .mk _ (.elementAccess expression element _) => do
    (← constant? refs expression).member? (← constant? refs element)
  | _ => none
termination_by structural t => t

def constantItems? {α : Type} (refs : References) : List (Tree α) → Option (List Constant)
  | [] => some []
  | .mk _ (.spreadElement expression) :: rest => do
    match ← constant? refs expression with
    | .array items => pure (items ++ (← constantItems? refs rest))
    | _ => none
  | element :: rest => do
    pure ((← constant? refs element) :: (← constantItems? refs rest))
termination_by structural ts => ts

def constantEntries? {α : Type} (refs : References) (entries : Ordered Constant) :
    List (Tree α) → Option (Ordered Constant)
  | [] => some entries
  | .mk _ (.propertyAssignment (.mk _ (.identifier key)) value) :: rest => do
    constantEntries? refs (entries.put key (← constant? refs value)) rest
  | .mk _ (.propertyAssignment (.mk _ (.computedPropertyName expression)) value) :: rest => do
    let key ← (← constant? refs expression).key?
    constantEntries? refs (entries.put key (← constant? refs value)) rest
  | .mk _ (.propertyAssignment name value) :: rest => do
    let key ← (← constant? refs name).key?
    constantEntries? refs (entries.put key (← constant? refs value)) rest
  | .mk _ (.spreadAssignment expression) :: rest => do
    match ← constant? refs expression with
    | .object more => constantEntries? refs (entries.putAll more) rest
    | _ => none
  | _ => none
termination_by structural ts => ts

def constantSpans? {α : Type} (refs : References) : List (Span (Tree α)) → Option String
  | [] => some ""
  | ⟨expression, literal⟩ :: rest => do
    let value ← constant? refs expression
    pure (value.text ++ literal ++ (← constantSpans? refs rest))
termination_by structural ts => ts

end

end Tree

end ServiceFlow
