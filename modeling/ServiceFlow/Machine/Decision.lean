import ServiceFlow.Machine.Condition
import ServiceFlow.Machine.Value

/-!
# Expressions as conditions

An expression that is tested for truth becomes the condition of a choice, or a truth value where it
is known before the machine runs.
-/

namespace ServiceFlow.Machine

inductive Decision where
  | known (value : Bool)
  | rule (condition : Condition)

namespace Decision

def negate : Decision → Decision
  | .known value => .known !value
  | .rule condition => .rule condition.negate

def and : Decision → Decision → Decision
  | .known false, _ => .known false
  | _, .known false => .known false
  | .known true, other => other
  | other, .known true => other
  | .rule l, .rule r => .rule (.and [l, r])

def or : Decision → Decision → Decision
  | .known true, _ => .known true
  | _, .known true => .known true
  | .known false, other => other
  | other, .known false => other
  | .rule l, .rule r => .rule (.or [l, r])

end Decision

def Relation.of? : BinaryOp → Option (Relation × Bool)
  | .eq | .strictEq => some (.equal, false)
  | .notEq | .strictNotEq => some (.equal, true)
  | .lt => some (.less, false)
  | .ltEq => some (.lessOrEqual, false)
  | .gt => some (.greater, false)
  | .gtEq => some (.greaterOrEqual, false)
  | _ => none

def bothTests (path : Path) (first second : Test) : Condition :=
  .and [.test path first, .test path second]

/-- The value at a path is present, and none of null, `false`, the empty text and zero. -/
def truthy (path : Path) : Condition :=
  .and [.test path (.isPresent true), .test path (.isNull false),
    (Condition.or [
      bothTests path (.isBoolean true) (.boolean false),
      bothTests path (.isString true) (.string .equal ""),
      bothTests path (.isNumeric true) (.numeric .equal (.int 0))]).negate]

def pathTest (relation : Relation) (left right : Path) : Condition :=
  .or ([bothTests left (.isString true) (.stringPath relation right),
    bothTests left (.isNumeric true) (.numericPath relation right)] ++
    if relation = .equal then [bothTests left (.isBoolean true) (.booleanPath right)] else [])

/-- The value at a path is related to a literal. A path that is absent equals null. -/
def literalTest (t : Term) (relation : Relation) (path : Path) :
    Json → Except CompileError Condition
  | .string s => .ok (.test path (.string relation s))
  | .number n => .ok (.test path (.numeric relation n))
  | .null =>
    if relation = .equal then
      .ok (.or [.test path (.isPresent false), .test path (.isNull true)])
    else refuse t .orderOfScalars
  | .bool b =>
    if relation = .equal then .ok (.test path (.boolean b)) else refuse t .orderOfScalars
  | .array _ | .object _ => refuse t .orderOfCollections

def compareLiterals (relation : Relation) (left right : Json) : Bool :=
  match left, right with
  | .number l, .number r =>
    match l.toDouble.compare? r.toDouble with
    | some ordering => relation.holds ordering
    | none => false
  | .string l, .string r => relation.holds (compare l r)
  | l, r => relation == .equal && l == r

def comparison (t : Term) (relation : Relation) (left right : Data) :
    Except CompileError Decision :=
  match left, right with
  | .literal l, .literal r => .ok (.known (compareLiterals relation l r))
  | .path path, .literal value => do pure (.rule (← literalTest t relation path value))
  | .literal value, .path path => do pure (.rule (← literalTest t relation.flip path value))
  | .path l, .path r => .ok (.rule (pathTest relation l r))
  | _, _ => refuse t .comparisonOperands

def truthDecision (t : Term) : Data → Except CompileError Decision
  | .path path => .ok (.rule (truthy path))
  | _ => refuse t .conditionNotVariable

def decision (program : Program) (t : Term) : Except CompileError Decision :=
  match t.constant? program.references with
  | some constant => .ok (.known constant.isTruthy)
  | none =>
    match t with
    | .mk _ (.awaitExpr expression) => decision program expression
    | .mk id (.unaryExpr operator operand) =>
      if operator = .not then do pure (← decision program operand).negate
      else do
        let t := Tree.mk id (.unaryExpr operator operand)
        truthDecision t (← data program t)
    | .mk id (.binaryExpr left op right) =>
      let t := Tree.mk id (.binaryExpr left op right)
      if op = .and then do
        let l ← decision program left
        let r ← decision program right
        pure (l.and r)
      else if op = .or then do
        let l ← decision program left
        let r ← decision program right
        pure (l.or r)
      else
        match Relation.of? op with
        | some (relation, negated) => do
          let l ← data program left
          let r ← data program right
          let result ← comparison t relation l r
          pure (if negated then result.negate else result)
        | none => do truthDecision t (← data program t)
    | t => do truthDecision t (← data program t)
termination_by structural t

end ServiceFlow.Machine
