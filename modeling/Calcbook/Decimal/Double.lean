/-! The doubles as numbers: a finite one is a whole mantissa times a power of two. The bits of a double
    hold its sign, eleven bits of exponent and fifty-two of mantissa. -/

namespace Calcbook

/-- What a double stands for. -/
inductive Double
  | nan
  | infinite (negative : Bool)
  | finite (negative : Bool) (mantissa : Nat) (exponent : Int)
  deriving DecidableEq

namespace Double

/-- The exponent of the smallest positive double, and of all those that are not normal. -/
def minExponent : Int := -1074

/-- The lowest bit of the exponent, and the bit of a normal mantissa that is not written. -/
def unitBit : Nat := 0x10000000000000

/-- The bit of the sign. -/
def signBit : Nat := 0x8000000000000000

/-- The bits of positive infinity, above those of all finite magnitudes. -/
def infinityBits : Nat := 2047 * unitBit

/-- The double of the bits of a magnitude. -/
def ofMagnitude (negative : Bool) (bits : Nat) : Double :=
  let field : Nat := bits / unitBit
  let fraction : Nat := bits % unitBit
  if infinityBits < bits then nan
  else if bits = infinityBits then infinite negative
  else if field = 0 then finite negative fraction minExponent
  else finite negative (fraction + unitBit) (minExponent + (field - 1 : Nat))

/-- What a double stands for. -/
def ofFloat (x : Float) : Double :=
  let bits := x.toBits.toNat
  ofMagnitude (signBit ≤ bits) (bits % signBit)

/-- The double of a sign and the bits of a magnitude. -/
def floatOfBits (negative : Bool) (bits : Nat) : Float :=
  Float.ofBits (UInt64.ofNat (if negative then signBit + bits else bits))

end Double

end Calcbook
