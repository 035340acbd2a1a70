import ServiceFlow.Number.Decimal

/-!
# Numbers in interpolated text

The text a number has inside an interpolated string, and as an object key; and the number that a
decimal text stands for.
-/

namespace ServiceFlow.Double

/-- Plain notation from `10 ^ -6` up to, but without, `10 ^ 21`. -/
def scriptStyle : NumberStyle where
  least := -6
  most := 20
  keepPoint := false
  tieUp := true

def text (d : Double) : String :=
  match d.read with
  | .nan => "NaN"
  | .infinite negative => if negative then "-Infinity" else "Infinity"
  | .finite negative mantissa exponent =>
    if mantissa = 0 then "0"
    else
      let magnitude := magnitudeText scriptStyle mantissa exponent
      if negative then "-" ++ magnitude else magnitude

def splitSign : List Char → Bool × List Char
  | '-' :: rest => (true, rest)
  | '+' :: rest => (false, rest)
  | cs => (false, cs)

def exponent? : List Char → Option Int
  | [] => some 0
  | mark :: rest =>
    let (negative, digits) := splitSign rest
    if (mark = 'e' || mark = 'E') && !digits.isEmpty && digits.all Char.isDigit then
      some (if negative then -(digitsValue digits : Int) else digitsValue digits)
    else
      none

def unsigned? (negative : Bool) (cs : List Char) : Option Double :=
  let whole := cs.takeWhile Char.isDigit
  let (fraction, rest) := match cs.dropWhile Char.isDigit with
    | '.' :: rest => (rest.takeWhile Char.isDigit, rest.dropWhile Char.isDigit)
    | rest => ([], rest)
  if whole.isEmpty && fraction.isEmpty then none
  else
    (exponent? rest).map fun e =>
      ofDecimal negative (digitsValue (whole ++ fraction)) (e - fraction.length)

def ofText? (text : String) : Option Double :=
  let (negative, cs) := splitSign text.toList
  if cs = ['N', 'a', 'N'] then some nan
  else if cs = ['i', 'n', 'f'] then some (infinite negative)
  else unsigned? negative cs

end ServiceFlow.Double
