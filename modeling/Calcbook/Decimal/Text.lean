import Calcbook.Decimal.Nearest
import Calcbook.Decimal.Shortest

/-! Doubles as text. They are written positionally whatever their size, with the fewest digits that read
    back, and read from decimals with an optional exponent. -/

namespace Calcbook.Decimal

/-! ### Writing -/

/-- Digits times a power of ten, written out with a decimal point where one is needed. -/
def positional (digits : Nat) (exponent : Int) : String :=
  let ds := Nat.toDigits 10 digits
  let places := (-exponent).toNat
  if 0 ≤ exponent then String.ofList (ds ++ List.replicate exponent.toNat '0')
  else
    let filled := List.replicate (places + 1 - ds.length) '0' ++ ds
    String.ofList (filled.take (filled.length - places)) ++ "." ++
      String.ofList (filled.drop (filled.length - places))

/-- The text of a magnitude that is not negative. -/
def magnitudeText (mantissa : Nat) (exponent : Int) : String :=
  if mantissa = 0 then "0"
  else
    let (digits, power) := Double.shortest mantissa exponent
    positional digits power

/-- The text of a double; a zero keeps its sign and what is no number has none. -/
def text (x : Float) : String :=
  match Double.ofFloat x with
  | .nan => "NaN"
  | .infinite negative => if negative then "-inf" else "inf"
  | .finite negative mantissa exponent =>
    (if negative then "-" else "") ++ magnitudeText mantissa exponent

/-! ### Reading -/

/-- The number of a run of digits. -/
def ofDigits (ds : List Char) : Nat := ds.foldl (fun n c => 10 * n + (c.toNat - '0'.toNat)) 0

/-- An exponent: a mark, an optional sign, and digits. No text means the exponent zero. -/
def readExponent? : List Char → Option Int
  | [] => some 0
  | mark :: rest =>
    if mark = 'e' || mark = 'E' then
      let (negative, ds) := match rest with
        | '-' :: ds => (true, ds)
        | '+' :: ds => (false, ds)
        | ds => (false, ds)
      if !ds.isEmpty && ds.all Char.isDigit then
        some (if negative then -(ofDigits ds : Int) else ofDigits ds)
      else none
    else none

/-- The bits of an unsigned decimal: digits with at most one point among them or at their ends, and an
    optional exponent. -/
def readMagnitude? (cs : List Char) : Option Nat :=
  let whole := cs.takeWhile Char.isDigit
  let rest := cs.dropWhile Char.isDigit
  let (fraction, rest) := match rest with
    | '.' :: rest => (rest.takeWhile Char.isDigit, rest.dropWhile Char.isDigit)
    | rest => ([], rest)
  if whole.isEmpty && fraction.isEmpty then none
  else
    (readExponent? rest).map fun exponent =>
      Double.nearestDecimal (ofDigits (whole ++ fraction)) (exponent - fraction.length)

/-- The double nearest to the number that a text of an unsigned decimal denotes. -/
def read? (s : String) : Option Float := (readMagnitude? s.toList).map (Double.floatOfBits false)

end Calcbook.Decimal
