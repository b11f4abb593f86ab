import Calcbook.Decimal.Double

/-! The shortest decimal that reads back as a given double. The numbers that round to a double fill an
    interval around it. Of the grids of multiples of powers of ten, the coarsest with a point in that
    interval gives the fewest digits; of two such points the nearer one is taken, and the upper one if
    they are equally near. -/

namespace Calcbook.Double

/-- The numbers that round to a value, in some unit. Both ends belong to them or neither does. -/
structure Interval where
  low : Nat
  value : Nat
  high : Nat
  closed : Bool

namespace Interval

def contains (i : Interval) (x : Nat) : Bool :=
  if i.closed then i.low ≤ x && x ≤ i.high else i.low < x && x < i.high

/-- The multiple of `step` in the interval that is nearest to its value, as a number of steps. -/
def gridPoint? (i : Interval) (step : Nat) : Option Nat :=
  let below := i.value / step
  let hasBelow := i.contains (below * step)
  let hasAbove := i.contains ((below + 1) * step)
  if hasBelow && (!hasAbove || 2 * (i.value - below * step) < step) then some below
  else if hasAbove then some (below + 1)
  else none

/-- The point on the coarsest of the grids `unit * 10 ^ k` for `k` up to the given one, with its `k`.
    The value itself is a point of the finest. -/
def coarsest (i : Interval) (unit : Nat) : Nat → Nat × Nat
  | 0 => (i.value / unit, 0)
  | k + 1 =>
    match i.gridPoint? (unit * Nat.pow 10 (k + 1)) with
    | some d => (d, k + 1)
    | none => i.coarsest unit k

end Interval

/-- The interval of a positive double in quarters of `10 ^ min exponent 0`. Its lower end is nearer where
    the mantissas of the next smaller doubles begin anew. -/
def interval (mantissa : Nat) (exponent : Int) : Interval :=
  let unit := if 0 ≤ exponent then Nat.pow 2 exponent.toNat else Nat.pow 5 (-exponent).toNat
  let lowGap := if mantissa = unitBit ∧ minExponent < exponent then 1 else 2
  { low := (4 * mantissa - lowGap) * unit
    value := 4 * mantissa * unit
    high := (4 * mantissa + 2) * unit
    closed := mantissa % 2 = 0 }

/-- The digits and the power of ten of the shortest decimal for a positive double. -/
def shortest (mantissa : Nat) (exponent : Int) : Nat × Int :=
  let i := interval mantissa exponent
  let (digits, k) := i.coarsest 4 ((i.value.log2 + 1) * 30103 / 100000 + 1)
  (digits, min exponent 0 + k)

end Calcbook.Double
