import ServiceFlow.Json.Value
import ServiceFlow.Number.Decimal

/-!
# JSON text

`Json.compact` writes a value on one line, `Json.pretty` with an indentation of two blanks.
-/

namespace ServiceFlow

namespace JsonNumber

/-- Doubles are written plainly from `10 ^ -5` up to, but without, `10 ^ 16`, and with a point. -/
def style : NumberStyle where
  least := -5
  most := 15
  keepPoint := true
  tieUp := false

def text : JsonNumber → String
  | .int n => if n < 0 then "-" ++ toString n.natAbs else toString n.natAbs
  | .double d =>
    match d.read with
    | .finite negative mantissa exponent =>
      let magnitude :=
        if mantissa = 0 then "0.0" else Double.magnitudeText style mantissa exponent
      if negative then "-" ++ magnitude else magnitude
    | _ => "null"

end JsonNumber

namespace Json

def hexDigit (n : Nat) : Char := Char.ofNat (if n < 10 then 48 + n else 87 + n)

def escapeChar (c : Char) : List Char :=
  if c = '"' then ['\\', '"']
  else if c = '\\' then ['\\', '\\']
  else if c.toNat < 0x20 then
    if c.toNat = 0x08 then ['\\', 'b']
    else if c.toNat = 0x0c then ['\\', 'f']
    else if c = '\n' then ['\\', 'n']
    else if c = '\r' then ['\\', 'r']
    else if c = '\t' then ['\\', 't']
    else ['\\', 'u', '0', '0', hexDigit (c.toNat / 16), hexDigit (c.toNat % 16)]
  else [c]

def quote (s : String) : String :=
  String.ofList ('"' :: (s.toList.flatMap escapeChar ++ ['"']))

def compact : Json → String
  | .null => "null"
  | .bool b => if b then "true" else "false"
  | .number n => n.text
  | .string s => quote s
  | .array items => "[" ++ String.intercalate "," (compactItems items) ++ "]"
  | .object entries => "\x7b" ++ String.intercalate "," (compactEntries entries) ++ "\x7d"
where
  compactItems : List Json → List String
    | [] => []
    | x :: xs => compact x :: compactItems xs
  compactEntries : List (String × Json) → List String
    | [] => []
    | (k, x) :: xs => (quote k ++ ":" ++ compact x) :: compactEntries xs

def indentation (depth : Nat) : String := String.ofList (List.replicate (2 * depth) ' ')

def bracketed (opening closing : String) (depth : Nat) (items : List String) : String :=
  if items.isEmpty then opening ++ closing
  else
    let lines := items.map fun item => "\n" ++ indentation (depth + 1) ++ item
    opening ++ String.intercalate "," lines ++ "\n" ++ indentation depth ++ closing

def prettyAt (depth : Nat) : Json → String
  | .array items => bracketed "[" "]" depth (prettyItems (depth + 1) items)
  | .object entries => bracketed "\x7b" "\x7d" depth (prettyEntries (depth + 1) entries)
  | .null => "null"
  | .bool b => if b then "true" else "false"
  | .number n => n.text
  | .string s => quote s
where
  prettyItems (depth : Nat) : List Json → List String
    | [] => []
    | x :: xs => prettyAt depth x :: prettyItems depth xs
  prettyEntries (depth : Nat) : List (String × Json) → List String
    | [] => []
    | (k, x) :: xs => (quote k ++ ": " ++ prettyAt depth x) :: prettyEntries depth xs

def pretty (value : Json) : String := prettyAt 0 value

end Json

end ServiceFlow
