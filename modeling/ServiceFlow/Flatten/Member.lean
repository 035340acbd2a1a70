import ServiceFlow.Constant.Eval
import ServiceFlow.Forest.Basic

/-!
# Members of literals

Reading a property or an element of a literal whose shape is known.
-/

namespace ServiceFlow

def Tree.staticKey? {α : Type} : Tree α → Option String
  | .mk _ (.identifier name) => some name
  | .mk _ (.stringLiteral value) => some value
  | .mk _ (.numberLiteral value) => some value.text
  | .mk _ (.computedPropertyName (.mk _ (.stringLiteral value))) => some value
  | .mk _ (.computedPropertyName (.mk _ (.numberLiteral value))) => some value.text
  | _ => none

namespace Flatten

inductive MemberKey where
  | name (name : String)
  | index (n : Double)
deriving DecidableEq, Repr

def MemberKey.of? {α : Type} : Tree α → Option MemberKey
  | .mk _ (.stringLiteral value) => some (.name value)
  | .mk _ (.numberLiteral value) => some (.index value)
  | _ => none

/-- The result of a look-up in a literal: the member, or why it stays an access. -/
inductive Lookup (α : Type) where
  | found (value : Tree α)
  | count (n : Nat)
  /-- The literal does not fix the member. -/
  | unknown
  | missing (property : String)
  | fault (fault : AccessFault)

/-- The value of the last property of the name. A property whose key is not fixed hides all. -/
def property? {α : Type} (name : String) (found : Option (Tree α)) : List (Tree α) → Lookup α
  | [] =>
    match found with
    | some value => .found value
    | none => .missing name
  | .mk _ (.propertyAssignment key value) :: rest =>
    match key.staticKey? with
    | some k => property? name (if k = name then some value else found) rest
    | none => .unknown
  | _ => .unknown

def lookup {α : Type} (base : Tree α) (key : MemberKey) : Lookup α :=
  match base, key with
  | .mk _ (.objectLiteral properties), .name name => property? name none properties
  | .mk _ (.objectLiteral _), .index n => .fault (.indexIntoObject n)
  | .mk _ (.arrayLiteral elements), .index n =>
    match n.index?.bind fun i => elements[i]? with
    | some element => .found element
    | none => .missing n.text
  | .mk _ (.arrayLiteral elements), .name name =>
    if name = "length" then .count elements.length else .fault (.propertyOfArray name)
  | .mk _ (.stringLiteral value), .name name =>
    if name = "length" then .count (units16 value) else .unknown
  | .mk _ (.stringLiteral _), .index _ => .fault .indexIntoString
  | _, _ => .unknown

def member? (access base : NodeId) (key : MemberKey) : Build (Option NodeId) := do
  match lookup (← Build.view base) key with
  | .found value => some <$> Build.insert value
  | .count n => some <$> Build.add (.numberLiteral (Double.ofNat n))
  | .unknown => pure none
  | .missing property => throw (.propertyNotFound access property)
  | .fault fault => throw (.invalidAccess access fault)

end Flatten

end ServiceFlow
