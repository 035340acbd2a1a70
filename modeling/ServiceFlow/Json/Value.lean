import ServiceFlow.Number.Double

/-!
# JSON values

Objects keep their entries in order. `Json.Object.insert` is the insertion of an object whose keys
are kept sorted, each key once.
-/

namespace ServiceFlow

inductive JsonNumber where
  | int (n : Int)
  | double (d : Double)
deriving DecidableEq, Repr, Inhabited

inductive Json where
  | null
  | bool (b : Bool)
  | number (n : JsonNumber)
  | string (s : String)
  | array (items : List Json)
  | object (entries : List (String × Json))
deriving Repr, Inhabited

namespace JsonNumber

def toDouble : JsonNumber → Double
  | .int n => Double.ofInt n
  | .double d => d

/-- An integer where the number has no fraction and is below `2 ^ 53` in size. NaN and the
infinities have no JSON form. -/
def ofDouble? (d : Double) : Option JsonNumber :=
  match d.whole? with
  | some n => some (if n.natAbs < Nat.pow 2 53 then .int n else .double d)
  | none => if d.isFinite then some (.double d) else none

end JsonNumber

namespace Json

def ofDouble (d : Double) : Json :=
  match JsonNumber.ofDouble? d with
  | some n => .number n
  | none => .null

def nat (n : Nat) : Json := .number (.int n)

/-- Equality of values, numbers being compared by what they are written as. -/
def beq : Json → Json → Bool
  | .null, .null => true
  | .bool a, .bool b => a == b
  | .number a, .number b => a == b
  | .string a, .string b => a == b
  | .array a, .array b => beqItems a b
  | .object a, .object b => beqEntries a b
  | _, _ => false
where
  beqItems : List Json → List Json → Bool
    | [], [] => true
    | x :: xs, y :: ys => beq x y && beqItems xs ys
    | _, _ => false
  beqEntries : List (String × Json) → List (String × Json) → Bool
    | [], [] => true
    | (k, x) :: xs, (l, y) :: ys => k == l && beq x y && beqEntries xs ys
    | _, _ => false

instance : BEq Json := ⟨beq⟩

def lookup? (key : String) (entries : List (String × Json)) : Option Json :=
  entries.foldl (fun found entry => if entry.1 = key then some entry.2 else found) none

end Json

end ServiceFlow
