import ServiceFlow.Json.Value
import ServiceFlow.Number.Script
import ServiceFlow.Sorted
import ServiceFlow.Ordered
import ServiceFlow.Syntax.Tree
import ServiceFlow.Text.Name

/-!
# Constants

Values known before a function runs: their text, their truth, their JSON form and their literal
form.
-/

namespace ServiceFlow

inductive Constant where
  | undefined
  | null
  | bool (b : Bool)
  | number (n : Double)
  | string (s : String)
  | array (items : List Constant)
  | object (entries : List (String × Constant))
  | handle (name : String)
deriving Repr, Inhabited

namespace Constant

def isNullish : Constant → Bool
  | .undefined | .null => true
  | _ => false

/-- The text of a value inside an interpolated string. In an array, missing values have none. -/
def text : Constant → String
  | .undefined => "undefined"
  | .null => "null"
  | .bool b => if b then "true" else "false"
  | .number n => n.text
  | .string s => s
  | .array items => String.intercalate "," (itemTexts items)
  | .object _ => "[object Object]"
  | .handle name => name
where
  itemTexts : List Constant → List String
    | [] => []
    | item :: items => (if item.isNullish then "" else text item) :: itemTexts items

def isTruthy : Constant → Bool
  | .undefined | .null => false
  | .bool b => b
  | .number n => !n.isZero && !n.isNaN
  | .string s => !s.isEmpty
  | .array _ | .object _ | .handle _ => true

def toJson : Constant → Json
  | .undefined | .null => .null
  | .bool b => .bool b
  | .number n => Json.ofDouble n
  | .string s | .handle s => .string s
  | .array items => .array (jsonItems items)
  | .object entries => .object (Sorted.ofEntries (jsonEntries entries))
where
  jsonItems : List Constant → List Json
    | [] => []
    | item :: items => toJson item :: jsonItems items
  jsonEntries : List (String × Constant) → List (String × Json)
    | [] => []
    | (key, value) :: entries => (key, toJson value) :: jsonEntries entries

/-- The node that names a key: a bare identifier where that is possible. -/
def keyNode {C : Type} (key : String) : Node C :=
  if isIdentifierName key then .identifier key else .stringLiteral key

def toTree : Constant → SyntaxTree
  | .undefined => .mk () .undefinedLiteral
  | .null => .mk () .nullLiteral
  | .bool b => .mk () (.booleanLiteral b)
  | .number n => .mk () (.numberLiteral n)
  | .string s | .handle s => .mk () (.stringLiteral s)
  | .array items => .mk () (.arrayLiteral (itemTrees items))
  | .object entries => .mk () (.objectLiteral (entryTrees entries))
where
  itemTrees : List Constant → List SyntaxTree
    | [] => []
    | item :: items => toTree item :: itemTrees items
  entryTrees : List (String × Constant) → List SyntaxTree
    | [] => []
    | (key, value) :: entries =>
      .mk () (.propertyAssignment (.mk () (keyNode key)) (toTree value)) :: entryTrees entries

def key? : Constant → Option String
  | .string s => some s
  | .number n => some n.text
  | _ => none

def member? (base key : Constant) : Option Constant :=
  match base, key with
  | .object entries, key => Ordered.get? key.text entries
  | .array items, .string name =>
    if name = "length" then some (.number (Double.ofNat items.length)) else none
  | .array items, .number n => n.index?.bind fun i => items[i]?
  | .string s, .string name =>
    if name = "length" then some (.number (Double.ofNat (units16 s))) else none
  | _, _ => none

end Constant

end ServiceFlow
