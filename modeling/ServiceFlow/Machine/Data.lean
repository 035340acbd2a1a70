import ServiceFlow.Json.Writer
import ServiceFlow.Machine.Path
import ServiceFlow.Sorted

/-!
# Data of states

What a state computes: a literal, what a path leads to, an object of such values, or the result of
one of the functions that state machines offer.
-/

namespace ServiceFlow.Machine

inductive Piece where
  | text (content : String)
  | hole
deriving DecidableEq, Repr

inductive Function where
  | format (pattern : List Piece)
  | array
  | arrayLength
  | arrayGetItem
  | mathAdd
  | jsonToString
  | stringToJson
deriving DecidableEq, Repr

inductive Operand where
  | text (content : String)
  | number (n : JsonNumber)
  | bool (b : Bool)
  | null
  | path (path : Path)
  | call (function : Function) (arguments : List Operand)

/-- A value that a state computes. The fields of an object are sorted by the keys they are written
with. -/
inductive Data where
  | literal (value : Json)
  | path (path : Path)
  | object (fields : List (String × Data))
  | call (function : Function) (arguments : List Operand)

/-- Characters that stand for themselves only after a backslash. -/
def isReserved (c : Char) : Bool := c = '\'' || c = '\x7b' || c = '\x7d' || c = '\\'

def escapeText (text : String) : String :=
  String.ofList (text.toList.flatMap fun c => if isReserved c then ['\\', c] else [c])

def quoteText (text : String) : String := "'" ++ escapeText text ++ "'"

def Piece.render : Piece → String
  | .text content => escapeText content
  | .hole => "\x7b\x7d"

def renderPattern (pattern : List Piece) : String := String.join (pattern.map Piece.render)

namespace Function

def name : Function → String
  | .format _ => "States.Format"
  | .array => "States.Array"
  | .arrayLength => "States.ArrayLength"
  | .arrayGetItem => "States.ArrayGetItem"
  | .mathAdd => "States.MathAdd"
  | .jsonToString => "States.JsonToString"
  | .stringToJson => "States.StringToJson"

def leading : Function → List String
  | .format pattern => ["'" ++ renderPattern pattern ++ "'"]
  | _ => []

def callText (function : Function) (arguments : List String) : String :=
  function.name ++ "(" ++ String.intercalate ", " (function.leading ++ arguments) ++ ")"

end Function

mutual

def Operand.render : Operand → String
  | .text content => quoteText content
  | .number n => n.text
  | .bool b => if b then "true" else "false"
  | .null => "null"
  | .path p => p.text
  | .call function arguments => function.callText (Operand.renderAll arguments)
termination_by structural t => t

def Operand.renderAll : List Operand → List String
  | [] => []
  | a :: rest => a.render :: Operand.renderAll rest
termination_by structural ts => ts

end

namespace Data

/-- The key of a field: one whose value is computed by a path or a function is marked. -/
def writtenKey (key : String) : Data → String
  | .literal _ | .object _ => key
  | .path _ | .call .. => key ++ ".$"

def insertInto (data : Data) (key : String) (fields : Sorted Data) : Sorted Data :=
  fields.insert (data.writtenKey key) data

def single (key : String) (data : Data) : Data := .object (data.insertInto key [])

mutual

def toJson : Data → Json
  | .literal value => value
  | .path p => .string p.text
  | .object fields => .object (fieldsToJson fields)
  | .call function arguments => .string (Operand.call function arguments).render
termination_by structural t => t

def fieldsToJson : List (String × Data) → List (String × Json)
  | [] => []
  | (key, data) :: rest => (key, toJson data) :: fieldsToJson rest
termination_by structural ts => ts

end

end Data

end ServiceFlow.Machine
