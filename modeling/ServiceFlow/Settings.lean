import ServiceFlow.Error

/-!
# Settings

What a compilation can be told from outside, and how it is read from the environment.
-/

namespace ServiceFlow

structure Settings where
  templateVersion : String
  maxLoopIterations : Nat
  stateNameMaxLen : Nat
  prettyOutput : Bool
deriving DecidableEq, Repr

namespace Settings

def default : Settings where
  templateVersion := "2018-05-29"
  maxLoopIterations := 1000
  stateNameMaxLen := 75
  prettyOutput := false

/-- A count of 64 bits in decimal digits, with an optional plus sign. -/
def count? (text : String) : Option Nat :=
  let digits := match text.toList with
    | '+' :: rest => rest
    | cs => cs
  if digits.isEmpty || !digits.all Char.isDigit then none
  else
    let n := digitsValue digits
    if n < Nat.pow 2 64 then some n else none

def positive (env : String → Option String) (key : String) (default : Nat) :
    Except CompileError Nat :=
  match env key with
  | none => .ok default
  | some raw =>
    match count? raw with
    | some (n + 1) => .ok (n + 1)
    | _ => .error (.settings (.notPositive key raw))

def ofEnvironment (env : String → Option String) : Except CompileError Settings := do
  let maxLoopIterations ← positive env "WEFT_MAX_LOOP_ITERATIONS" default.maxLoopIterations
  let stateNameMaxLen ← positive env "WEFT_STATE_NAME_MAX_LEN" default.stateNameMaxLen
  if 80 < stateNameMaxLen then
    throw (.settings (.nameTooLong stateNameMaxLen))
  pure {
    templateVersion := (env "WEFT_TEMPLATE_VERSION").getD default.templateVersion
    maxLoopIterations
    stateNameMaxLen
    prettyOutput := (env "WEFT_PRETTY_OUTPUT").any fun v => v == "true" || v == "1" }

end Settings

end ServiceFlow
