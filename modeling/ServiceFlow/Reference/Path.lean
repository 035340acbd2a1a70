import ServiceFlow.Forest.Basic
import ServiceFlow.Text.Name

/-!
# Reference paths

A chain of accesses with known keys off a name, such as `a.b[0]`, and its text.
-/

namespace ServiceFlow

inductive Segment where
  | key (name : String)
  | index (n : Nat)
deriving DecidableEq, Repr

namespace Segment

def text : Segment → String
  | .key name => name
  | .index n => toString n

/-- A key in quotes: a quote inside is written with a backslash. -/
def quoted (name : String) : String :=
  String.ofList (name.toList.flatMap fun c => if c = '\'' then ['\\', '\''] else [c])

def access : Segment → String
  | .key name => if isIdentifierName name then "." ++ name else "['" ++ quoted name ++ "']"
  | .index n => "[" ++ toString n ++ "]"

end Segment

def appendSegments (base : String) (segments : List Segment) : String :=
  segments.foldl (fun text segment => text ++ segment.access) base

structure ReferencePath where
  identity : String
  root : NodeId
  path : List Segment
deriving DecidableEq, Repr

namespace ReferencePath

def appendTo (reference : ReferencePath) (base : String) : String :=
  appendSegments base reference.path

def push (reference : ReferencePath) (segment : Segment) : ReferencePath :=
  { reference with path := reference.path ++ [segment] }

def segment? {α : Type} : Tree α → Option Segment
  | .mk _ (.stringLiteral value) => some (.key value)
  | .mk _ (.numberLiteral value) => value.index?.map .index
  | _ => none

def of? : Term → Option ReferencePath
  | .mk id (.identifier name) => some ⟨name, id, []⟩
  | .mk _ (.propertyAccess expression name _) => do
    pure ((← of? expression).push (.key name))
  | .mk _ (.elementAccess expression element _) => do
    let segment ← segment? element
    pure ((← of? expression).push segment)
  | _ => none
termination_by structural t => t

/-- References start at the event or at the utility, and a nested path into the event goes through
its detail. -/
def checkEvent (reference : ReferencePath) (event : String) (utility : Option String) :
    Except NodeError Unit :=
  if reference.identity = event then
    match reference.path with
    | first :: _ :: _ =>
      if first = .key "detail" then .ok ()
      else .error (.invalidReference reference.root (.outsideDetail event first.text))
    | _ => .ok ()
  else if utility = some reference.identity then .ok ()
  else
    .error (.invalidReference reference.root (match utility with
      | some utility => .notEventOrUtility reference.identity event utility
      | none => .notEvent reference.identity event))

end ReferencePath

end ServiceFlow
