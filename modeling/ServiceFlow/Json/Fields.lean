import ServiceFlow.Json.Value

/-!
# Reading records from JSON

Readers for single values, and the three kinds of record fields: required, nullable and defaulted.
A record is an object with named fields or an array that lists them.
-/

namespace ServiceFlow.Json

def string? : Json → Option String
  | .string s => some s
  | _ => none

def bool? : Json → Option Bool
  | .bool b => some b
  | _ => none

def double? : Json → Option Double
  | .number n => some n.toDouble
  | _ => none

def list? {α : Type} (item : Json → Option α) : Json → Option (List α)
  | .array items => items.mapM item
  | _ => none

/-- A word: a string, or an object whose only key is the word, with `null` under it. -/
def word? : Json → Option String
  | .string s => some s
  | .object [(s, .null)] => some s
  | _ => none

/-- A word inside a document or a tree. There an empty object under the word does as well. -/
def innerWord? : Json → Option String
  | .object [(s, .object [])] => some s
  | json => json.word?

def required {α : Type} (read : Json → Option α) : Option Json → Option α
  | some value => read value
  | none => none

def nullable {α : Type} (read : Json → Option α) : Option Json → Option (Option α)
  | some .null => some none
  | some value => (read value).map some
  | none => some none

def defaulted {α : Type} (value : α) (read : Json → Option α) : Option Json → Option α
  | some json => read json
  | none => some value

/-- The only value under a key, `none` if there is none. A repeated key is refused. -/
def field? (entries : List (String × Json)) (name : String) : Option (Option Json) :=
  match entries.filter fun entry => entry.1 == name with
  | [] => some none
  | [(_, value)] => some (some value)
  | _ => none

/-- The fields of a record, by name or by position. No more may be listed than there are. -/
def fields? (names : List String) : Json → Option (List (Option Json))
  | .object entries => names.mapM (field? entries)
  | .array items =>
    if items.length ≤ names.length then
      some (items.map some ++ List.replicate (names.length - items.length) none)
    else
      none
  | _ => none

mutual

def depth : Json → Nat
  | .array items => depthItems items + 1
  | .object entries => depthEntries entries + 1
  | _ => 0
termination_by structural json => json

def depthItems : List Json → Nat
  | [] => 0
  | item :: items => max (depth item) (depthItems items)
termination_by structural items => items

def depthEntries : List (String × Json) → Nat
  | [] => 0
  | (_, value) :: entries => max (depth value) (depthEntries entries)
termination_by structural entries => entries

end

end ServiceFlow.Json
