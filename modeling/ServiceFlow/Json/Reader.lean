import ServiceFlow.Json.Value
import ServiceFlow.Number.Decimal
import ServiceFlow.Number.Scaled

/-!
# Reading JSON text

A strict reader: nesting is limited, a number must fit a double, and surrogate escapes must come in
pairs. Objects keep repeated keys.
-/

namespace ServiceFlow.Json

abbrev Reader (α : Type) := List Char → Option (α × List Char)

def isBlank (c : Char) : Bool := c = ' ' || c = '\n' || c = '\t' || c = '\r'

def skipBlanks (cs : List Char) : List Char := cs.dropWhile isBlank

def hexValue? (c : Char) : Option Nat :=
  if '0' ≤ c && c ≤ '9' then some (c.toNat - 48)
  else if 'a' ≤ c && c ≤ 'f' then some (c.toNat - 87)
  else if 'A' ≤ c && c ≤ 'F' then some (c.toNat - 55)
  else none

def readHex4 : Reader Nat
  | a :: b :: c :: d :: rest => do
    let a ← hexValue? a
    let b ← hexValue? b
    let c ← hexValue? c
    let d ← hexValue? d
    some (((a * 16 + b) * 16 + c) * 16 + d, rest)
  | _ => none

/-- The character after a backslash and `u`. A first surrogate needs the second one right after. -/
def readUnicodeEscape : Reader Char := fun cs => do
  let (n, rest) ← readHex4 cs
  if 0xdc00 ≤ n && n ≤ 0xdfff then none
  else if 0xd800 ≤ n && n ≤ 0xdbff then
    match rest with
    | '\\' :: 'u' :: more => do
      let (m, rest) ← readHex4 more
      if 0xdc00 ≤ m && m ≤ 0xdfff then
        some (Char.ofNat (0x10000 + (n - 0xd800) * 0x400 + (m - 0xdc00)), rest)
      else
        none
    | _ => none
  else
    some (Char.ofNat n, rest)

def readEscape : Reader Char
  | '"' :: rest => some ('"', rest)
  | '\\' :: rest => some ('\\', rest)
  | '/' :: rest => some ('/', rest)
  | 'b' :: rest => some ('\x08', rest)
  | 'f' :: rest => some ('\x0c', rest)
  | 'n' :: rest => some ('\n', rest)
  | 'r' :: rest => some ('\r', rest)
  | 't' :: rest => some ('\t', rest)
  | 'u' :: rest => readUnicodeEscape rest
  | _ => none

def readStringTail : Nat → List Char → Reader (List Char)
  | 0, _, _ => none
  | fuel + 1, acc, cs =>
    match cs with
    | [] => none
    | '"' :: rest => some (acc, rest)
    | '\\' :: rest => do
      let (c, rest) ← readEscape rest
      readStringTail fuel (c :: acc) rest
    | c :: rest => if c.toNat < 0x20 then none else readStringTail fuel (c :: acc) rest

def readString : Reader String := fun cs => do
  let (acc, rest) ← readStringTail (cs.length + 1) [] cs
  some (String.ofList acc.reverse, rest)

def readFraction : Reader (List Char)
  | '.' :: rest =>
    let digits := rest.takeWhile Char.isDigit
    if digits.isEmpty then none else some (digits, rest.dropWhile Char.isDigit)
  | cs => some ([], cs)

def readExponent : Reader (Option Int)
  | c :: rest =>
    if c = 'e' || c = 'E' then
      let (negative, rest) := match rest with
        | '-' :: more => (true, more)
        | '+' :: more => (false, more)
        | more => (false, more)
      let digits := rest.takeWhile Char.isDigit
      if digits.isEmpty then none
      else
        let n : Int := digitsValue digits
        some (some (if negative then -n else n), rest.dropWhile Char.isDigit)
    else
      some (none, c :: rest)
  | [] => some (none, [])

/-- The number written by a whole part, a fraction and an exponent. A plain integer of 64 bits stays
an integer, except that minus zero is a double. -/
def numberOf (negative : Bool) (whole fraction : List Char) (exponent : Option Int) :
    Option JsonNumber :=
  let magnitude := digitsValue whole
  let isInt := fraction.isEmpty && exponent.isNone &&
    (if negative then 0 < magnitude && magnitude ≤ Nat.pow 2 63 else magnitude < Nat.pow 2 64)
  if isInt then
    some (.int (if negative then -(magnitude : Int) else magnitude))
  else
    (Scaled.ofDigits whole fraction (exponent.getD 0)).toDouble?.map fun d =>
      .double (if negative then -d else d)

/-- A number without its sign. A whole part of several digits does not start with zero. -/
def readUnsigned (negative : Bool) : Reader Json := fun cs => do
  let whole := cs.takeWhile Char.isDigit
  if whole.isEmpty || (whole.head? = some '0' && 1 < whole.length) then none
  else
    let (fraction, rest) ← readFraction (cs.dropWhile Char.isDigit)
    let (exponent, rest) ← readExponent rest
    let n ← numberOf negative whole fraction exponent
    some (.number n, rest)

def expect? : List Char → List Char → Option (List Char)
  | [], cs => some cs
  | w :: ws, c :: cs => if w = c then expect? ws cs else none
  | _ :: _, [] => none

def readItems (item : Reader Json) : Nat → List Json → Reader (List Json)
  | 0, _, _ => none
  | fuel + 1, acc, cs => do
    let (x, rest) ← item (skipBlanks cs)
    match skipBlanks rest with
    | ',' :: more => readItems item fuel (x :: acc) more
    | ']' :: more => some ((x :: acc).reverse, more)
    | _ => none

def readEntries (item : Reader Json) : Nat → List (String × Json) → Reader (List (String × Json))
  | 0, _, _ => none
  | fuel + 1, acc, cs =>
    match skipBlanks cs with
    | '"' :: rest => do
      let (key, rest) ← readString rest
      match skipBlanks rest with
      | ':' :: rest => do
        let (x, rest) ← item (skipBlanks rest)
        match skipBlanks rest with
        | ',' :: more => readEntries item fuel ((key, x) :: acc) more
        | '\x7d' :: more => some (((key, x) :: acc).reverse, more)
        | _ => none
      | _ => none
    | _ => none

def readValue : Nat → Reader Json
  | depth, cs =>
    match cs with
    | 'n' :: rest => (expect? ['u', 'l', 'l'] rest).map (.null, ·)
    | 't' :: rest => (expect? ['r', 'u', 'e'] rest).map (.bool true, ·)
    | 'f' :: rest => (expect? ['a', 'l', 's', 'e'] rest).map (.bool false, ·)
    | '"' :: rest => (readString rest).map fun (s, rest) => (.string s, rest)
    | '-' :: rest => readUnsigned true rest
    | '[' :: rest =>
      match depth with
      | 0 => none
      | depth + 1 =>
        match skipBlanks rest with
        | ']' :: more => some (.array [], more)
        | more =>
          (readItems (readValue depth) (more.length + 1) [] more).map fun (xs, rest) =>
            (.array xs, rest)
    | '\x7b' :: rest =>
      match depth with
      | 0 => none
      | depth + 1 =>
        match skipBlanks rest with
        | '\x7d' :: more => some (.object [], more)
        | more =>
          (readEntries (readValue depth) (more.length + 1) [] more).map fun (xs, rest) =>
            (.object xs, rest)
    | cs => readUnsigned false cs

def depthLimit : Nat := 127

def parse (text : String) : Option Json := do
  let (value, rest) ← readValue depthLimit (skipBlanks text.toList)
  if (skipBlanks rest).isEmpty then some value else none

end ServiceFlow.Json
