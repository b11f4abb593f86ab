import Mathlib
import Calcbook.Decimal.Double

/-! What the double of some bits stands for, said of the arithmetic of doubles. The fields of a double come apart and
    together again, so a double is known by what it stands for, its negation stands for the same magnitude with the
    other sign, and it is below zero when it stands for a negative number. -/

namespace Calcbook.Double
open Float.Model (Format UnpackedFloat)
open Float.Model.UnpackedFloat

/-! ### Fields -/

section Fields
variable (b : BitVec Format.binary64.numBits)

theorem toNat_unpackMantissa : (unpackMantissa b).toNat = b.toNat % 2 ^ 52 := by
  simp [unpackMantissa]

theorem toNat_unpackExponent : (unpackExponent b).toNat = b.toNat / 2 ^ 52 % 2 ^ 11 := by
  simp [unpackExponent, Nat.shiftRight_eq_div_pow]

theorem toNat_unpackSign : (unpackSign b).toNat = b.toNat / 2 ^ 63 := by
  have hlt : b.toNat < 2 ^ 64 := b.isLt
  simp [unpackSign, Nat.shiftRight_eq_div_pow]
  omega

theorem unpackMantissa_eq_zero : unpackMantissa b = 0#52 ↔ b.toNat % 2 ^ 52 = 0 := by
  rw [← toNat_unpackMantissa, ← BitVec.toNat_inj]
  simp

theorem unpackExponent_eq_zero : unpackExponent b = 0#11 ↔ b.toNat / 2 ^ 52 % 2 ^ 11 = 0 := by
  rw [← toNat_unpackExponent, ← BitVec.toNat_inj]
  simp

theorem unpackExponent_eq_last : unpackExponent b = -1#11 ↔ b.toNat / 2 ^ 52 % 2 ^ 11 = 2047 := by
  rw [← toNat_unpackExponent, ← BitVec.toNat_inj]
  simp

theorem unpackSign_eq_zero : unpackSign b = 0#1 ↔ b.toNat < 2 ^ 63 := by
  have hlt : b.toNat < 2 ^ 64 := b.isLt
  rw [← BitVec.toNat_inj, toNat_unpackSign]
  simp

end Fields

/-! ### What a double stands for -/

def isNegative : Sign → Bool
  | .negative => true
  | .positive => false

theorem isNegative_ofBitVec (b : BitVec Format.binary64.numBits) :
    isNegative (Sign.ofBitVec (unpackSign b)) = decide (signBit ≤ b.toNat) := by
  rw [Sign.ofBitVec]
  split
  · rename_i h
    exact (decide_eq_false (Nat.not_le.mpr ((unpackSign_eq_zero b).mp h))).symm
  · rename_i h
    exact (decide_eq_true (Nat.not_lt.mp (mt (unpackSign_eq_zero b).mpr h))).symm

def ofUnpacked : UnpackedFloat → Double
  | .notANumber => nan
  | .infinity s => infinite (isNegative s)
  | .zero s => finite (isNegative s) 0 minExponent
  | .finite s m e _ => finite (isNegative s) m e

theorem toNat_append_unpackMantissa (b : BitVec Format.binary64.numBits) :
    (1#1 ++ unpackMantissa b).toNat = b.toNat % 2 ^ 52 + unitBit := by
  rw [BitVec.toNat_append, ← Nat.shiftLeft_add_eq_or_of_lt (unpackMantissa b).isLt, toNat_unpackMantissa]
  simp [unitBit]
  omega

/-- The bits of a double stand for what its fields stand for. -/
theorem ofUnpacked_unpack (b : BitVec Format.binary64.numBits) :
    ofUnpacked (UnpackedFloat.unpack .binary64 b) = ofMagnitude (signBit ≤ b.toNat) (b.toNat % signBit) := by
  have hlt : b.toNat < 2 ^ 64 := b.isLt
  have hbias : (Format.binary64.exponentBias : Int) = 1023 := rfl
  unfold UnpackedFloat.unpack ofMagnitude
  dsimp only
  rw [← isNegative_ofBitVec b]
  by_cases hlast : b.toNat / 2 ^ 52 % 2 ^ 11 = 2047
  · rw [if_pos ((unpackExponent_eq_last b).mpr hlast)]
    by_cases hmantissa : b.toNat % 2 ^ 52 = 0
    · have hbits : b.toNat % signBit = infinityBits := by
        simp only [signBit, infinityBits, unitBit]
        omega
      rw [if_pos ((unpackMantissa_eq_zero b).mpr hmantissa), hbits, if_neg (Nat.lt_irrefl _), if_pos rfl]
      rfl
    · have hbits : infinityBits < b.toNat % signBit := by
        simp only [signBit, infinityBits, unitBit]
        omega
      rw [if_neg (mt (unpackMantissa_eq_zero b).mp hmantissa), if_pos hbits]
      rfl
  · have hbits : b.toNat % signBit < infinityBits := by
      simp only [signBit, infinityBits, unitBit]
      omega
    have hfraction : b.toNat % signBit % unitBit = b.toNat % 2 ^ 52 := by
      simp only [signBit, unitBit]
      omega
    have hfield : b.toNat % signBit / unitBit = b.toNat / 2 ^ 52 % 2 ^ 11 := by
      simp only [signBit, unitBit]
      omega
    rw [if_neg (mt (unpackExponent_eq_last b).mp hlast), if_neg (Nat.lt_asymm hbits), if_neg (Nat.ne_of_lt hbits),
      hfraction, hfield]
    by_cases hzero : b.toNat / 2 ^ 52 % 2 ^ 11 = 0
    · rw [if_pos ((unpackExponent_eq_zero b).mpr hzero), if_pos hzero]
      by_cases hmantissa : b.toNat % 2 ^ 52 = 0
      · rw [dif_pos ((unpackMantissa_eq_zero b).mpr hmantissa), hmantissa]
        rfl
      · rw [dif_neg (mt (unpackMantissa_eq_zero b).mp hmantissa), ofUnpacked, toNat_unpackMantissa, toNat_unpackExponent, hzero]
        rfl
    · rw [if_neg (mt (unpackExponent_eq_zero b).mp hzero), if_neg hzero, ofUnpacked, toNat_append_unpackMantissa,
        toNat_unpackExponent, hbias, minExponent]
      congr 1
      omega

/-! ### Packing -/

/-- The same magnitude with a sign. -/
def withSign (s : Sign) : UnpackedFloat → UnpackedFloat
  | .notANumber => .notANumber
  | .infinity _ => .infinity s
  | .zero _ => .zero s
  | .finite _ m e h => .finite s m e h

/-- Packing what was unpacked loses nothing. -/
theorem unpack_pack_unpack (b : BitVec Format.binary64.numBits) :
    UnpackedFloat.unpack .binary64 (UnpackedFloat.pack .binary64 (UnpackedFloat.unpack .binary64 b)) =
      UnpackedFloat.unpack .binary64 b := by
  rw [pack_unpack b]
  split
  · rename_i hnan
    obtain ⟨hexponent, hmantissa⟩ := of_decide_eq_true hnan
    rw [unpack_packedNaN, UnpackedFloat.unpack]
    exact (if_pos hexponent).trans (if_neg hmantissa) |>.symm
  · rfl

theorem unpack_packComponents (s : Sign) (b : BitVec Format.binary64.numBits) :
    UnpackedFloat.unpack .binary64 (packComponents .binary64 s (unpackExponent b) (unpackMantissa b)) =
      withSign s (UnpackedFloat.unpack .binary64 b) := by
  unfold UnpackedFloat.unpack
  dsimp only
  simp only [unpackMantissa_packComponents, unpackExponent_packComponents, unpackSign_packComponents,
    Sign.ofBitVec_toBitVec]
  split
  · split <;> rfl
  · split
    · split <;> rfl
    · rfl

/-- Whatever sign it is packed with, a double keeps its magnitude. -/
theorem unpack_pack_withSign (b : BitVec Format.binary64.numBits) (s : Sign) :
    UnpackedFloat.unpack .binary64 (UnpackedFloat.pack .binary64 (withSign s (UnpackedFloat.unpack .binary64 b))) =
      withSign s (UnpackedFloat.unpack .binary64 b) := by
  rw [← unpack_packComponents, unpack_pack_unpack]

/-! ### Doubles -/

theorem ofFloat_eq (x : Float) : ofFloat x = ofUnpacked x.toModel.unpack :=
  (ofUnpacked_unpack x.toBits.toBitVec).symm

theorem isNegative_injective {s t : Sign} (h : isNegative s = isNegative t) : s = t := by
  cases s <;> cases t <;> first | rfl | cases h

theorem ofUnpacked_injective {u v : UnpackedFloat} (h : ofUnpacked u = ofUnpacked v) : u = v := by
  cases u with
  | notANumber =>
    cases v with
    | notANumber => rfl
    | infinity | zero | finite => cases h
  | infinity s =>
    cases v with
    | infinity t => rw [isNegative_injective (infinite.inj h)]
    | notANumber | zero | finite => cases h
  | zero s =>
    cases v with
    | zero t => rw [isNegative_injective (finite.inj h).1]
    | finite t n f hn => exact absurd (finite.inj h).2.1.symm (Nat.ne_of_gt hn)
    | notANumber | infinity => cases h
  | finite s m e hm =>
    cases v with
    | zero t => exact absurd (finite.inj h).2.1 (Nat.ne_of_gt hm)
    | finite t n f hn =>
      obtain ⟨hsign, rfl, rfl⟩ := finite.inj h
      rw [isNegative_injective hsign]
    | notANumber | infinity => cases h

theorem ofFloat_injective {x y : Float} (h : ofFloat x = ofFloat y) : x = y := by
  rw [ofFloat_eq, ofFloat_eq] at h
  rw [← Float.toBits_inj, ← UInt64.toBitVec_inj]
  exact (unpack_inj_of_valid x.toModel.valid y.toModel.valid).mp (ofUnpacked_injective h)

theorem ofFloat_floatOfBits {negative : Bool} {bits : Nat} (h : bits ≤ infinityBits) :
    ofFloat (floatOfBits negative bits) = ofMagnitude negative bits := by
  have hlt : bits < signBit := Nat.lt_of_le_of_lt h (by decide)
  have hword : (if negative then signBit + bits else bits) < 2 ^ 64 := by
    rw [signBit] at *
    split <;> omega
  rw [ofFloat_eq, floatOfBits]
  generalize hw : UInt64.ofNat (if negative then signBit + bits else bits) = w
  have htoNat : w.toBitVec.toNat = if negative then signBit + bits else bits := by
    rw [← hw]
    exact Nat.mod_eq_of_lt hword
  have hunpack : (Float.ofBits w).toModel.unpack = UnpackedFloat.unpack .binary64 w.toBitVec :=
    unpack_pack_unpack w.toBitVec
  rw [hunpack, ofUnpacked_unpack, htoNat]
  cases negative with
  | true => rw [if_pos rfl, Nat.add_mod_left, Nat.mod_eq_of_lt hlt, decide_eq_true (Nat.le_add_right _ _)]
  | false => rw [if_neg Bool.false_ne_true, Nat.mod_eq_of_lt hlt, decide_eq_false (Nat.not_le.mpr hlt)]

/-- The same magnitude with the other sign. -/
def neg : Double → Double
  | nan => nan
  | infinite negative => infinite !negative
  | finite negative m e => finite (!negative) m e

theorem ofUnpacked_neg (u : UnpackedFloat) : ofUnpacked u.neg = (ofUnpacked u).neg := by
  have hsign : ∀ s : Sign, isNegative (-s) = !isNegative s := by
    rintro ⟨⟩ <;> rfl
  cases u <;> simp [UnpackedFloat.neg, ofUnpacked, neg, hsign]

theorem exists_withSign_eq_neg (u : UnpackedFloat) : ∃ s, withSign s u = u.neg := by
  cases u with
  | notANumber => exact ⟨.positive, rfl⟩
  | infinity s | zero s | finite s => exact ⟨-s, rfl⟩

theorem ofFloat_neg (x : Float) : ofFloat (-x) = (ofFloat x).neg := by
  obtain ⟨s, hs⟩ := exists_withSign_eq_neg x.toModel.unpack
  have hunpack : (-x).toModel.unpack = x.toModel.unpack.neg := by
    rw [← hs]
    show UnpackedFloat.unpack .binary64 (UnpackedFloat.pack .binary64 x.toModel.unpack.neg) = _
    rw [← hs]
    exact unpack_pack_withSign _ s
  rw [ofFloat_eq, hunpack, ofUnpacked_neg, ofFloat_eq]

theorem isFinite_iff {x : Float} : x.isFinite = true ↔ ∃ negative m e, ofFloat x = finite negative m e := by
  rw [ofFloat_eq]
  show x.toModel.unpack.isFinite = true ↔ _
  cases x.toModel.unpack with
  | notANumber | infinity => simp [isFinite, ofUnpacked]
  | zero | finite => simp [isFinite, ofUnpacked]

theorem lt_zero_iff {x : Float} {negative : Bool} {m : Nat} {e : Int} (h : ofFloat x = finite negative m e) :
    x < 0 ↔ negative = true ∧ 0 < m := by
  have hlt : x < 0 ↔ x.toModel.unpack.lt (.zero .positive) = true := decide_eq_true_iff
  rw [ofFloat_eq] at h
  rw [hlt, UnpackedFloat.lt]
  cases hx : x.toModel.unpack <;> rw [hx] at h <;> cases h
  case zero s => cases s <;> simp [UnpackedFloat.compare]
  case finite s hm => cases s <;> simp [UnpackedFloat.compare, isNegative, hm]

theorem ofFloat_negative_zero : ofFloat (-0.0) = finite true 0 minExponent := by
  rw [ofFloat_eq]
  rfl

end Calcbook.Double
