import Calcbook.Decimal.Double

/-! The double nearest to a fraction. Of two doubles that are equally near, the one with the even mantissa
    is taken, and what lies half a step or more beyond the largest finite double goes to infinity. -/

namespace Calcbook.Double

/-- A fraction rounded to a whole number, halves to the even one. -/
def roundEven (num den : Nat) : Nat :=
  let q := num / den
  let r := num % den
  if 2 * r < den || (2 * r = den && q % 2 = 0) then q else q + 1

/-- The greatest power of two that is not above a positive fraction. -/
def binaryOrder (num den : Nat) : Int :=
  let guess : Int := (num.log2 : Int) - den.log2
  if num * Nat.pow 2 (-guess).toNat < den * Nat.pow 2 guess.toNat then guess - 1 else guess

/-- The bits of the double nearest to a fraction. -/
def nearestBits (num den : Nat) : Nat :=
  if num = 0 then 0
  else
    let exponent := max (binaryOrder num den - 52) minExponent
    let mantissa := roundEven (num * Nat.pow 2 (-exponent).toNat) (den * Nat.pow 2 exponent.toNat)
    min ((exponent - minExponent).toNat * unitBit + mantissa) infinityBits

/-- The bits of the double nearest to `digits` times a power of ten. Beyond the orders of magnitude of
    doubles the power is not worked out. -/
def nearestDecimal (digits : Nat) (exponent : Int) : Nat :=
  let order := (Nat.toDigits 10 digits).length + exponent
  if digits = 0 || order < -330 then 0
  else if 310 < order then infinityBits
  else nearestBits (digits * Nat.pow 10 exponent.toNat) (Nat.pow 10 (-exponent).toNat)

end Calcbook.Double
