import ServiceFlow.Flatten.Member
import ServiceFlow.Machine.Data
import ServiceFlow.Program

/-!
# Expressions as data

An expression becomes data of a state: a literal where it is constant, a path where it reads a
variable, an object of such data, or a call of one of the functions of state machines.
-/

namespace ServiceFlow.Machine

def refuse {α : Type} (t : Term) (fault : Unsupported) : Except CompileError α :=
  .error (.unsupported t.tag t.kind fault)

def nameData (node : NodeId) (name : String) : Except CompileError Data :=
  if name = utilName then .error (.contextMismatch node utilName .resolver)
  else if name = intrinsicsName then .error (.unsupported node .identifier .intrinsicNotCalled)
  else if name = "undefined" then .ok (.literal .null)
  else .ok (.path (.ofVariable name))

def operand (t : Term) : Data → Except CompileError Operand
  | .literal (.string s) => .ok (.text s)
  | .literal (.number n) => .ok (.number n)
  | .literal (.bool b) => .ok (.bool b)
  | .literal .null => .ok .null
  | .path path => .ok (.path path)
  | .call function arguments => .ok (.call function arguments)
  | .literal (.array _) | .literal (.object _) | .object _ => refuse t .collectionArgument

/-- What a chain of accesses off a variable reads; `length` asks for the length of a list. -/
def referenceData (t : Term) (reference : ReferencePath) : Except CompileError Data := do
  match ← nameData reference.root reference.identity with
  | .path root =>
    if reference.path.getLast? = some (.key "length") then
      pure (.call .arrayLength [.path (root.append reference.path.dropLast)])
    else
      pure (.path (root.append reference.path))
  | _ => refuse t .memberOfConstant

def isText : Data → Bool
  | .literal (.string _) => true
  | .call (.format _) _ => true
  | _ => false

def numberOperand (d : Double) : Operand :=
  match JsonNumber.ofDouble? d with
  | some n => .number n
  | none => .null

def operatorData (t left : Term) (op : BinaryOp) (right : Term) (l r : Data) :
    Except CompileError Data :=
  match op with
  | .add => do
    let a ← operand left l
    let b ← operand right r
    let function := if isText l || isText r then Function.format [.hole, .hole] else .mathAdd
    pure (.call function [a, b])
  | .sub =>
    match r with
    | .literal (.number n) => do
      pure (.call .mathAdd [← operand left l, numberOperand n.toDouble.neg])
    | _ => refuse t .subtraction
  | .coalesce | .and | .or => refuse t .logicalValue
  | op => if op.isComparison then refuse t .comparisonValue else refuse t (.operator op)

def calleeNames (callee : Term) : String × String :=
  match callee with
  | .mk _ (.propertyAccess (.mk _ (.identifier name)) method _) => (name, method)
  | .mk _ (.propertyAccess _ method _) => ("", method)
  | _ => ("", "")

/-- The function that a call stands for. Calls of backends and intrinsics have states of their own
and are refused here. -/
def calledFunction (program : Program) (t callee : Term) : Except CompileError Function := do
  match ← t.serviceCall? program.registry with
  | some service => throw (.callPosition service.node .notWholeStatement)
  | none =>
    if (← t.intrinsic?).isSome then throw (.callPosition t.tag .intrinsicNotWholeStatement)
    let (name, method) := calleeNames callee
    if name = utilName then
      throw (.contextMismatch t.tag (utilName ++ "." ++ method) .resolver)
    else if name = "JSON" && method = "stringify" then pure .jsonToString
    else if name = "JSON" && method = "parse" then pure .stringToJson
    else refuse t .notCallable

/-- A value in a formatted text: the text itself where it is known, else a hole with an argument. -/
def spanPiece (t : Term) : Data → Except CompileError (Piece × List Operand)
  | .literal (.string s) => .ok (.text s, [])
  | .literal (.number n) => .ok (.text n.text, [])
  | .literal (.bool b) => .ok (.text (if b then "true" else "false"), [])
  | .literal .null => .ok (.text "null", [])
  | data => do pure (.hole, [← operand t data])

def formatData (pattern : List Piece) (arguments : List Operand) : Data :=
  if arguments.isEmpty then .literal (.string (renderPattern pattern))
  else .call (.format pattern) arguments

mutual

def data (program : Program) (t : Term) : Except CompileError Data :=
  match t.constant? program.references with
  | some constant => .ok (.literal constant.toJson)
  | none =>
    match t with
    | .mk _ (.awaitExpr expression) => data program expression
    | .mk id (.identifier name) => nameData id name
    | .mk id (.referenceExpr name) =>
      if (program.registry.resource? name).isSome then
        refuse (.mk id (.referenceExpr name)) (.onlyCallable name)
      else .error (.unknownResource id name)
    | .mk id (.propertyAccess expression name chained) =>
      let t := Tree.mk id (.propertyAccess expression name chained)
      match ReferencePath.of? t with
      | some reference => referenceData t reference
      | none => do
        let _ ← data program expression
        refuse t .memberOfExpression
    | .mk id (.elementAccess expression element chained) =>
      let t := Tree.mk id (.elementAccess expression element chained)
      match ReferencePath.of? t with
      | some reference => referenceData t reference
      | none => do
        let base ← operand expression (← data program expression)
        let index ← operand element (← data program element)
        pure (.call .arrayGetItem [base, index])
    | .mk _ (.templateExpr head spans) => do
      let (pieces, arguments) ← spansData program spans
      pure (formatData (.text head :: pieces) arguments)
    | .mk id (.binaryExpr left op right) => do
      let l ← data program left
      let r ← data program right
      operatorData (.mk id (.binaryExpr left op right)) left op right l r
    | .mk _ (.objectLiteral properties) => do pure (.object (← fieldsData program [] properties))
    | .mk _ (.arrayLiteral elements) => do pure (.call .array (← operands program elements))
    | .mk id (.callExpr callee arguments) => do
      let t := Tree.mk id (.callExpr callee arguments)
      let function ← calledFunction program t callee
      if arguments.length = 1 then pure (.call function (← operands program arguments))
      else refuse t .singleArgument
    | t => refuse t .expressionForm
termination_by structural t

def operands (program : Program) : List Term → Except CompileError (List Operand)
  | [] => .ok []
  | t :: rest => do
    let first ← operand t (← data program t)
    let others ← operands program rest
    pure (first :: others)
termination_by structural ts => ts

def spansData (program : Program) :
    List (Span Term) → Except CompileError (List Piece × List Operand)
  | [] => .ok ([], [])
  | ⟨expression, literal⟩ :: rest => do
    let (piece, arguments) ← spanPiece expression (← data program expression)
    let (pieces, others) ← spansData program rest
    pure (piece :: .text literal :: pieces, arguments ++ others)
termination_by structural spans => spans

def fieldsData (program : Program) (fields : Sorted Data) :
    List Term → Except CompileError (Sorted Data)
  | [] => .ok fields
  | .mk _ (.propertyAssignment name value) :: rest =>
    match name.staticKey? with
    | none => refuse name .computedKey
    | some key => do
      let field ← data program value
      fieldsData program (field.insertInto key fields) rest
  | t :: _ => refuse t .objectSpread
termination_by structural ts => ts

end

end ServiceFlow.Machine
