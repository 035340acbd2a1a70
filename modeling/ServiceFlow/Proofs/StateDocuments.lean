import ServiceFlow.Machine.Decision
import Mathlib.Data.String.Basic

/-!
# What states read

A path leads to a value of the document or to nothing. A test of a path that leads nowhere has no
truth value, unless it asks for just that.
-/

namespace ServiceFlow.Machine

def select? : Segment → Json → Option Json
  | .key name, .object entries => Json.lookup? name entries
  | .index n, .array items => items[n]?
  | _, _ => none

def follow? : List Segment → Json → Option Json
  | [], value => some value
  | segment :: rest, value => (select? segment value).bind (follow? rest)

/-- A list without its first item. -/
def others? : Json → Option Json
  | .array items => some (.array (items.drop 1))
  | _ => none

/-- The value that a path starts at. -/
def Origin.value? (document : Json) : Origin → Option Json
  | .document => some document
  | .variable name => select? (.key name) document
  | .item | .itemIndex => none

/-- The value at a path. -/
def Path.read? (document : Json) (path : Path) : Option Json :=
  let found := (path.origin.value? document).bind (follow? path.segments)
  if path.rest then found.bind others? else found

/-- An order on texts. -/
structure TextOrder where
  compare : String → String → Ordering
  eq_iff : ∀ a b, compare a b = .eq ↔ a = b
  swap : ∀ a b, compare b a = (compare a b).swap

def TextOrder.byCharacters : TextOrder where
  compare := Ord.compare
  eq_iff := fun _ _ => Std.LawfulEqCmp.compare_eq_iff_eq
  swap := fun _ _ => Std.OrientedCmp.eq_swap

section Conditions

variable (order : TextOrder) (document : Json)

def relatesText (relation : Relation) : Json → Json → Bool
  | .string a, .string b => relation.holds (order.compare a b)
  | _, _ => false

def relatesNumber (relation : Relation) : Json → Json → Bool
  | .number a, .number b => (a.toDouble.compare? b.toDouble).any relation.holds
  | _, _ => false

def sameTruth : Json → Json → Bool
  | .bool a, .bool b => a == b
  | _, _ => false

/-- The result of a test on a value. -/
def Test.ofValue? (value : Json) : Test → Option Bool
  | .string relation text => some (relatesText order relation value (.string text))
  | .stringPath relation path => (path.read? document).map (relatesText order relation value)
  | .numeric relation n => some (relatesNumber relation value (.number n))
  | .numericPath relation path => (path.read? document).map (relatesNumber relation value)
  | .boolean b => some (sameTruth value (.bool b))
  | .booleanPath path => (path.read? document).map (sameTruth value)
  | .isNull expected => some ((value matches .null) == expected)
  | .isPresent expected => some expected
  | .isString expected => some ((value matches .string _) == expected)
  | .isNumeric expected => some ((value matches .number _) == expected)
  | .isBoolean expected => some ((value matches .bool _) == expected)

/-- What a test says about a path. Only presence can be asked of a path that leads nowhere. -/
def Test.eval? (test : Test) : Option Json → Option Bool
  | some value => test.ofValue? order document value
  | none =>
    match test with
    | .isPresent expected => some !expected
    | _ => none

mutual

/-- Whether a condition holds. The parts of a condition are tested in order, as far as they are
needed. -/
def Condition.eval? : Condition → Option Bool
  | .and conditions => Condition.all? conditions
  | .or conditions => Condition.any? conditions
  | .not condition => (Condition.eval? condition).map (!·)
  | .test path t => t.eval? order document (path.read? document)
termination_by structural c => c

def Condition.all? : List Condition → Option Bool
  | [] => some true
  | c :: rest =>
    (Condition.eval? c).bind fun holds => if holds then Condition.all? rest else some false
termination_by structural cs => cs

def Condition.any? : List Condition → Option Bool
  | [] => some false
  | c :: rest =>
    (Condition.eval? c).bind fun holds => if holds then some true else Condition.any? rest
termination_by structural cs => cs

end

/-- The outcome of a decision. -/
def Decision.value? : Decision → Option Bool
  | .known value => some value
  | .rule condition => condition.eval? order document

end Conditions

section Paths

variable (document : Json) (name : String) (segments : List Segment)

lemma follow?_append (more : List Segment) (value : Json) :
    follow? (segments ++ more) value = (follow? segments value).bind (follow? more) := by
  induction segments generalizing value with
  | nil => rfl
  | cons segment rest ih =>
    cases hv : select? segment value with
    | none => simp [follow?, hv]
    | some v => simp [follow?, hv, ih]

lemma read?_ofVariable : (Path.ofVariable name).read? document = select? (.key name) document := by
  simp only [Path.read?, Path.ofVariable, Origin.value?]
  cases select? (.key name) document <;> rfl

lemma read?_append (path : Path) (hrest : path.rest = false) :
    (path.append segments).read? document = (path.read? document).bind (follow? segments) := by
  simp only [Path.read?, Path.append, hrest]
  cases path.origin.value? document with
  | none => rfl
  | some value => simp [follow?_append]

end Paths

end ServiceFlow.Machine
