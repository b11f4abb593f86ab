import Calcbook.Decimal.Nearest

/-! The remainder of a division of doubles whose quotient is cut off to a whole number. The remainder is
    a double itself, so it is worked out in whole multiples of a power of two and never rounded. -/

namespace Calcbook.Double

/-- The remainder of `m * 2 ^ e` by `n * 2 ^ f`, for a positive `n`, as the bits of a magnitude. -/
def remainderBits (m : Nat) (e : Int) (n : Nat) (f : Int) : Nat :=
  let unit := min e f
  let r := (m * Nat.pow 2 (e - unit).toNat) % (n * Nat.pow 2 (f - unit).toNat)
  nearestBits (r * Nat.pow 2 unit.toNat) (Nat.pow 2 (-unit).toNat)

/-- The remainder, with the sign of the dividend. There is none for an infinite dividend or for a zero
    divisor, and an infinite divisor leaves the dividend as it is. -/
def remainder (x y : Float) : Float :=
  match ofFloat x, ofFloat y with
  | .finite negative m e, .finite _ n f =>
    if n = 0 then 0.0 / 0.0 else floatOfBits negative (remainderBits m e n f)
  | .finite _ _ _, .infinite _ => x
  | _, _ => 0.0 / 0.0

end Calcbook.Double
