import ServiceFlow.Text.Blank

/-!
# State names

A name is given out once in a machine. It is made from a text by dropping what a name may not have,
cutting it to the longest length allowed, and numbering it if it is taken.
-/

namespace ServiceFlow.Machine

structure Names where
  taken : List String
  limit : Nat
deriving DecidableEq, Repr

def leastLimit : Nat := 8

def Names.empty (limit : Nat) : Names := ⟨[], max limit leastLimit⟩

def nameChar (c : Char) : List Char :=
  if c = '$' || c = '\x7b' || c = '\x7d' || c = '\\' || c = '\x60' then []
  else if c = '[' then ['(']
  else if c = ']' then [')']
  else if c = '"' then ['\'']
  else if isControl c then [' ']
  else [c]

def cleanName (text : String) : List Char :=
  match (words (text.toList.flatMap nameChar)).intersperse [' '] with
  | [] => "State".toList
  | parts => parts.flatten

def truncate (text : List Char) (length : Nat) : List Char := trimEnd (text.take length)

def numberSuffix (n : Nat) : List Char := " (".toList ++ (toString n).toList ++ [')']

def numberedName (limit : Nat) (base : List Char) (n : Nat) : String :=
  let ending := numberSuffix n
  String.ofList (truncate base (limit - ending.length) ++ ending)

/-- The first numbered name from `n` on that is free. With more tries than names given out, one is
found. -/
def freeName (names : Names) (base : List Char) : Nat → Nat → String
  | 0, n => numberedName names.limit base n
  | fuel + 1, n =>
    let candidate := numberedName names.limit base n
    if candidate ∈ names.taken then freeName names base fuel (n + 1) else candidate

def Names.allocate (names : Names) (text : String) : String × Names :=
  let base := cleanName text
  let plain := String.ofList (truncate base names.limit)
  let name := if plain ∈ names.taken then freeName names base names.taken.length 1 else plain
  (name, { names with taken := name :: names.taken })

end ServiceFlow.Machine
