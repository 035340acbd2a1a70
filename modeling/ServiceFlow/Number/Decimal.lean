import ServiceFlow.Number.Double

/-!
# Decimal text of numbers

`Double.shortest` finds the fewest digits that still read back as the same number, and among those
the nearest to it. A `NumberStyle` says which exponents are written in plain decimal notation.
-/

namespace ServiceFlow

def digitsValue (digits : List Char) : Nat := digits.foldl (fun n c => 10 * n + (c.toNat - 48)) 0

/-- The decimal `d₁.d₂…dₖ * 10 ^ exponent`, with `digits` the list `d₁, d₂, …, dₖ`. -/
structure Decimal where
  digits : List Char
  exponent : Int
deriving DecidableEq, Repr

/-- Decisions of a number format. Exponents from `least` to `most` are written plainly; `keepPoint`
writes `.0` after a plain integer; `tieUp` takes the greater of two equally near candidates, and
otherwise the one with an even last digit is taken. -/
structure NumberStyle where
  least : Int
  most : Int
  keepPoint : Bool
  tieUp : Bool
deriving DecidableEq, Repr

namespace Decimal

/-- Plain decimal notation: digits, a point, and the zeros that the exponent asks for. -/
def plain (keepPoint : Bool) (d : Decimal) : List Char :=
  let point := d.exponent + 1
  if point ≤ 0 then
    '0' :: '.' :: (List.replicate (-point).toNat '0' ++ d.digits)
  else
    let whole := d.digits.take point.toNat
    let fraction := d.digits.drop point.toNat
    let zeros := List.replicate (point.toNat - d.digits.length) '0'
    if fraction.isEmpty then
      whole ++ zeros ++ (if keepPoint then ['.', '0'] else [])
    else
      whole ++ '.' :: fraction

def scientific (d : Decimal) : List Char :=
  let rest := d.digits.drop 1
  d.digits.take 1 ++ (if rest.isEmpty then [] else '.' :: rest)
    ++ 'e' :: (if d.exponent < 0 then '-' else '+') :: (Nat.toDigits 10 d.exponent.natAbs)

def layout (style : NumberStyle) (d : Decimal) : List Char :=
  if style.least ≤ d.exponent ∧ d.exponent ≤ style.most then d.plain style.keepPoint
  else d.scientific

end Decimal

namespace Double

/-- Bounds of the numbers that round to `mantissa * 2 ^ exponent`, in units of
`2 ^ (exponent - 2)`. Below a power of two the lower gap is half as wide. -/
def roundingBounds (mantissa : Nat) (exponent : Int) : Nat × Nat :=
  let low :=
    if mantissa = Nat.pow 2 52 ∧ -1074 < exponent then 4 * mantissa - 1 else 4 * mantissa - 2
  (low, 4 * mantissa + 2)

/-- The multiple of `unit` nearest to `value` among its two neighbours that lie between `low` and
`high`, as a count of units. The bounds themselves count when `closed`. -/
def gridPoint? (tieUp closed : Bool) (value low high unit : Nat) : Option Nat :=
  let below := value / unit
  let above := below + 1
  let fits (x : Nat) : Bool :=
    if closed then low ≤ x && x ≤ high else low < x && x < high
  match fits (below * unit), fits (above * unit) with
  | true, false => some below
  | false, true => some above
  | false, false => none
  | true, true =>
    let r := 2 * (value % unit)
    if r < unit then some below
    else if unit < r then some above
    else if tieUp || below % 2 = 1 then some above
    else some below

def shortestFrom (tieUp : Bool) (mantissa : Nat) (exponent : Int) : Nat → Int → Option (Nat × Int)
  | 0, _ => none
  | fuel + 1, place =>
    let bounds := roundingBounds mantissa exponent
    let scale := Nat.pow 2 (exponent - 2).toNat * Nat.pow 10 (-place).toNat
    let unit := Nat.pow 2 (2 - exponent).toNat * Nat.pow 10 place.toNat
    match gridPoint? tieUp (mantissa % 2 == 0) (4 * mantissa * scale) (bounds.1 * scale)
        (bounds.2 * scale) unit with
    | some count => some (count, place)
    | none => shortestFrom tieUp mantissa exponent fuel (place - 1)

/-- The shortest decimal that reads back as `mantissa * 2 ^ exponent`, for a positive mantissa. -/
def shortest (tieUp : Bool) (mantissa : Nat) (exponent : Int) : Decimal :=
  let start := ((mantissa.log2 + 1 : Nat) + exponent) * 30103 / 100000 + 2
  match shortestFrom tieUp mantissa exponent 24 start with
  | some (count, place) =>
    let digits := Nat.toDigits 10 count
    ⟨digits, place + digits.length - 1⟩
  | none => ⟨['0'], 0⟩

def magnitudeText (style : NumberStyle) (mantissa : Nat) (exponent : Int) : String :=
  String.ofList ((shortest style.tieUp mantissa exponent).layout style)

end Double

end ServiceFlow
