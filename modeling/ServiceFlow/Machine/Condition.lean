import ServiceFlow.Machine.Path
import ServiceFlow.Json.Writer

/-!
# Conditions of choices

A choice state tests paths of the document, and combines the tests.
-/

namespace ServiceFlow.Machine

inductive Relation where
  | equal
  | less
  | lessOrEqual
  | greater
  | greaterOrEqual
deriving DecidableEq, Repr

namespace Relation

def name : Relation → String
  | .equal => "Equals"
  | .less => "LessThan"
  | .lessOrEqual => "LessThanEquals"
  | .greater => "GreaterThan"
  | .greaterOrEqual => "GreaterThanEquals"

def flip : Relation → Relation
  | .equal => .equal
  | .less => .greater
  | .lessOrEqual => .greaterOrEqual
  | .greater => .less
  | .greaterOrEqual => .lessOrEqual

def holds : Relation → Ordering → Bool
  | .equal, o => o == .eq
  | .less, o => o == .lt
  | .lessOrEqual, o => o != .gt
  | .greater, o => o == .gt
  | .greaterOrEqual, o => o != .lt

end Relation

inductive Test where
  | string (relation : Relation) (value : String)
  | stringPath (relation : Relation) (path : Path)
  | numeric (relation : Relation) (value : JsonNumber)
  | numericPath (relation : Relation) (path : Path)
  | boolean (value : Bool)
  | booleanPath (path : Path)
  | isNull (expected : Bool)
  | isPresent (expected : Bool)
  | isString (expected : Bool)
  | isNumeric (expected : Bool)
  | isBoolean (expected : Bool)
deriving DecidableEq, Repr

inductive Condition where
  | and (conditions : List Condition)
  | or (conditions : List Condition)
  | not (condition : Condition)
  | test (path : Path) (test : Test)

def Test.toJson : Test → String × Json
  | .string relation value => ("String" ++ relation.name, .string value)
  | .stringPath relation path => ("String" ++ relation.name ++ "Path", .string path.text)
  | .numeric relation value => ("Numeric" ++ relation.name, .number value)
  | .numericPath relation path => ("Numeric" ++ relation.name ++ "Path", .string path.text)
  | .boolean value => ("BooleanEquals", .bool value)
  | .booleanPath path => ("BooleanEqualsPath", .string path.text)
  | .isNull expected => ("IsNull", .bool expected)
  | .isPresent expected => ("IsPresent", .bool expected)
  | .isString expected => ("IsString", .bool expected)
  | .isNumeric expected => ("IsNumeric", .bool expected)
  | .isBoolean expected => ("IsBoolean", .bool expected)

namespace Condition

def negate : Condition → Condition
  | .not condition => condition
  | condition => .not condition

mutual

def toFields : Condition → List (String × Json)
  | .and conditions => [("And", .array (toJsonAll conditions))]
  | .or conditions => [("Or", .array (toJsonAll conditions))]
  | .not condition => [("Not", .object (toFields condition))]
  | .test path t => [("Variable", .string path.text), t.toJson]
termination_by structural c => c

def toJsonAll : List Condition → List Json
  | [] => []
  | c :: rest => .object (toFields c) :: toJsonAll rest
termination_by structural cs => cs

end

end Condition

end ServiceFlow.Machine
