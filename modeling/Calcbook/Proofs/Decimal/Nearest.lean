import Mathlib.Data.Int.Log
import Mathlib.Data.Rat.Floor
import Mathlib.Tactic.FieldSimp
import Mathlib.Tactic.Linarith
import Mathlib.Tactic.NormNum
import Mathlib.Tactic.Positivity
import Mathlib.Tactic.Ring
import Calcbook.Decimal.Nearest

/-! The double nearest to a fraction. The numbers that round to a double reach half a step up from it, and half a step
    down, which is a smaller step where the mantissas begin anew. They do so however the fraction is written, and the
    bits that are found for it are those of the double. -/

namespace Calcbook.Double

/-! ### Doubles and what rounds to them -/

/-- The exponent of the largest finite doubles. -/
def maxExponent : Int := 971

/-- A mantissa and an exponent that belong to a finite magnitude. Only the smallest have a short mantissa. -/
def Canonical (m : Nat) (e : Int) : Prop :=
  m < 2 * unitBit ∧ minExponent ≤ e ∧ e ≤ maxExponent ∧ (m < unitBit → e = minExponent)

/-- How far down the numbers reach that round to a double, in steps of its exponent. -/
def lowGap (m : Nat) (e : Int) : ℚ := if m = unitBit ∧ minExponent < e then 1 / 4 else 1 / 2

/-- A number that rounds to a double. Ties go to it if its mantissa is even. -/
structure RoundsTo (v : ℚ) (m : Nat) (e : Int) : Prop where
  low : (m - lowGap m e) * 2 ^ e ≤ v
  high : v ≤ (m + 1 / 2) * 2 ^ e
  odd : m % 2 = 1 → (m - lowGap m e) * 2 ^ e < v ∧ v < (m + 1 / 2) * 2 ^ e

variable {num den m : Nat} {e : Int} {v : ℚ}

theorem two_zpow_pos (e : Int) : (0 : ℚ) < 2 ^ e := zpow_pos (by norm_num) e

theorem zpow_eq_div (b : ℚ) (hb : b ≠ 0) (e : Int) : b ^ e = b ^ e.toNat / b ^ (-e).toNat := by
  rw [← zpow_natCast, ← zpow_natCast, ← zpow_sub₀ hb]
  congr 1
  omega

/-! ### Rounding to whole numbers -/

theorem roundEven_eq {a b n : Nat} (hb : 0 < b) (hlow : (n : ℚ) - 1 / 2 ≤ a / b) (hhigh : (a : ℚ) / b ≤ n + 1 / 2)
    (hodd : n % 2 = 1 → (n : ℚ) - 1 / 2 < a / b ∧ (a : ℚ) / b < n + 1 / 2) : roundEven a b = n := by
  have hb' : (0 : ℚ) < b := by exact_mod_cast hb
  rw [le_div_iff₀ hb'] at hlow
  rw [div_le_iff₀ hb'] at hhigh
  rw [lt_div_iff₀ hb', div_lt_iff₀ hb'] at hodd
  have hlow' : 2 * (n * b) ≤ 2 * a + b := by
    have : (2 * (n * b) : ℚ) ≤ 2 * a + b := by linarith
    exact_mod_cast this
  have hhigh' : 2 * a ≤ 2 * (n * b) + b := by
    have : (2 * a : ℚ) ≤ 2 * (n * b) + b := by linarith
    exact_mod_cast this
  have hodd' : n % 2 = 1 → 2 * (n * b) < 2 * a + b ∧ 2 * a < 2 * (n * b) + b := fun hn => by
    obtain ⟨h₁, h₂⟩ := hodd hn
    have h₁' : (2 * (n * b) : ℚ) < 2 * a + b := by linarith
    have h₂' : (2 * a : ℚ) < 2 * (n * b) + b := by linarith
    exact ⟨by exact_mod_cast h₁', by exact_mod_cast h₂'⟩
  have hdiv : a = b * (a / b) + a % b := (Nat.div_add_mod a b).symm
  have hmod := Nat.mod_lt a hb
  unfold roundEven
  dsimp only
  generalize a / b = q at *
  generalize a % b = r at *
  obtain rfl | rfl : n = q ∨ n = q + 1 := by
    have hle : n ≤ q + 1 := by
      by_contra hlt
      nlinarith
    have hge : q ≤ n := by
      by_contra hlt
      nlinarith
    omega
  · have htie : 2 * r = b → n % 2 = 0 := fun h => by
      by_contra hn
      have := (hodd' (by omega)).2
      nlinarith
    have hle : 2 * r ≤ b := by nlinarith
    have hdown : (2 * r < b || (2 * r = b && n % 2 = 0)) = true := by simpa using by omega
    rw [if_pos hdown]
  · have htie : 2 * r = b → (q + 1) % 2 = 0 := fun h => by
      by_contra hn
      have := (hodd' (by omega)).1
      nlinarith
    have hle : b ≤ 2 * r := by nlinarith
    have hup : ¬(2 * r < b || (2 * r = b && q % 2 = 0)) = true := by simpa using by omega
    rw [if_neg hup]

/-! ### The order of magnitude -/

/-- A fraction with a power of two on one side, whichever it is. -/
theorem cast_scaled (num den : Nat) (e : Int) :
    ((num * Nat.pow 2 (-e).toNat : Nat) : ℚ) / (den * Nat.pow 2 e.toNat : Nat) = num / den / 2 ^ e := by
  rw [zpow_eq_div 2 (by norm_num) e, Nat.pow_eq, Nat.pow_eq]
  push_cast
  field_simp

theorem log_eq {k : Int} (hlow : (2 : ℚ) ^ k ≤ v) (hhigh : v < 2 ^ (k + 1)) : Int.log 2 v = k := by
  have hv := lt_of_lt_of_le (two_zpow_pos k) hlow
  have h₁ := (Int.zpow_le_iff_le_log one_lt_two hv).mp (by exact_mod_cast hlow)
  have h₂ := (Int.lt_zpow_iff_log_lt one_lt_two hv).mp (by exact_mod_cast hhigh)
  omega

theorem binaryOrder_eq (hnum : 0 < num) (hden : 0 < den) : binaryOrder num den = Int.log 2 ((num : ℚ) / den) := by
  have hden' : (0 : ℚ) < den := by exact_mod_cast hden
  have hnumLow : (2 : ℚ) ^ num.log2 ≤ num := by exact_mod_cast Nat.log2_self_le hnum.ne'
  have hnumHigh : (num : ℚ) < 2 ^ (num.log2 + 1) := by exact_mod_cast (Nat.lt_log2_self : num < _)
  have hdenLow : (2 : ℚ) ^ den.log2 ≤ den := by exact_mod_cast Nat.log2_self_le hden.ne'
  have hdenHigh : (den : ℚ) < 2 ^ (den.log2 + 1) := by exact_mod_cast (Nat.lt_log2_self : den < _)
  -- The difference of the orders of numerator and denominator is at most one too great.
  have hguess : (2 : ℚ) ^ ((num.log2 : Int) - den.log2) * 2 ^ den.log2 = 2 ^ num.log2 := by
    rw [← zpow_natCast, ← zpow_natCast, ← zpow_add₀ two_ne_zero, sub_add_cancel]
  unfold binaryOrder
  dsimp only
  generalize (num.log2 : Int) - den.log2 = guess at hguess
  have hpos := two_zpow_pos guess
  have htest : num * Nat.pow 2 (-guess).toNat < den * Nat.pow 2 guess.toNat ↔ (num : ℚ) / den < 2 ^ guess := by
    have hscaled : (0 : ℚ) < (den * Nat.pow 2 guess.toNat : Nat) := by
      exact_mod_cast Nat.mul_pos hden (Nat.pow_pos two_pos)
    rw [← div_lt_one hpos, ← cast_scaled, div_lt_one hscaled, Nat.cast_lt]
  split
  · rename_i h
    refine (log_eq ?_ (by rw [sub_add_cancel]; exact htest.mp h)).symm
    rw [zpow_sub_one₀ two_ne_zero, le_div_iff₀ hden']
    rw [pow_succ] at hdenHigh
    nlinarith
  · rename_i h
    refine (log_eq (not_lt.mp (mt htest.mpr h)) ?_).symm
    rw [zpow_add_one₀ two_ne_zero, div_lt_iff₀ hden']
    rw [pow_succ] at hnumHigh
    nlinarith

/-! ### The nearest double -/

/-- The bits of the magnitude that a mantissa and an exponent belong to. -/
def bitsOf (m : Nat) (e : Int) : Nat := (e - minExponent).toNat * unitBit + m

theorem bitsOf_lt (h : Canonical m e) : bitsOf m e < infinityBits := by
  obtain ⟨hm, hmin, hmax, -⟩ := h
  simp only [bitsOf, infinityBits, unitBit, minExponent, maxExponent] at *
  omega

theorem lowGap_le (m : Nat) (e : Int) : lowGap m e ≤ 1 / 2 := by
  unfold lowGap
  split <;> norm_num

theorem RoundsTo.pos (h : RoundsTo v m e) (hm : 0 < m) : 0 < v := by
  have hm' : (1 : ℚ) ≤ m := by exact_mod_cast hm
  have hgap := lowGap_le m e
  exact lt_of_lt_of_le (mul_pos (by linarith) (two_zpow_pos e)) h.low

theorem RoundsTo.lt (h : RoundsTo v m e) (hc : Canonical m e) : v < 2 ^ (e + 53) := by
  have hm : (m : ℚ) + 1 ≤ 2 * unitBit := by exact_mod_cast hc.1
  have hunit : (2 * unitBit : ℚ) = 2 ^ (53 : Int) := by norm_num [unitBit]
  have hpos := two_zpow_pos e
  rw [add_comm, zpow_add₀ two_ne_zero, ← hunit]
  nlinarith [h.high]

theorem RoundsTo.ge (h : RoundsTo v m e) (hc : Canonical m e) (hm : 0 < m) : 2 ^ (-1075 : Int) ≤ v := by
  refine le_trans ?_ h.low
  have hm' : (1 : ℚ) ≤ m := by exact_mod_cast hm
  have hgap := lowGap_le m e
  have hmin : (2 : ℚ) ^ (-1074 : Int) ≤ 2 ^ e := zpow_le_zpow_right₀ one_le_two hc.2.1
  have hhalf : (2 : ℚ) ^ (-1075 : Int) = 1 / 2 * 2 ^ (-1074 : Int) := by
    rw [show (-1075 : Int) = -1074 - 1 by norm_num, zpow_sub_one₀ two_ne_zero]
    ring
  rw [hhalf]
  nlinarith [two_zpow_pos (-1074)]

/-- With the exponent of the double, the mantissa is the whole number that a fraction rounds to. -/
theorem RoundsTo.roundEven_eq (h : RoundsTo (num / den) m e) (hden : 0 < den) :
    roundEven (num * Nat.pow 2 (-e).toNat) (den * Nat.pow 2 e.toNat) = m := by
  have hpos := two_zpow_pos e
  have hgap := lowGap_le m e
  refine Double.roundEven_eq (Nat.mul_pos hden (Nat.pow_pos two_pos)) ?_ ?_ fun hodd => ?_ <;> rw [cast_scaled]
  · rw [le_div_iff₀ hpos]
    nlinarith [h.low]
  · rw [div_le_iff₀ hpos]
    exact h.high
  · obtain ⟨hlow, hhigh⟩ := h.odd hodd
    rw [lt_div_iff₀ hpos, div_lt_iff₀ hpos]
    exact ⟨by nlinarith, hhigh⟩

/-- What rounds to a double from below the smallest mantissa lies in the finer steps of the exponent before it, and rounds
    to the end of those. -/
theorem RoundsTo.below (h : RoundsTo v m e) (hc : Canonical m e) (hlt : v < unitBit * 2 ^ e) (he : minExponent < e) :
    m = unitBit ∧ RoundsTo v (2 * unitBit) (e - 1) := by
  have hpos := two_zpow_pos e
  have hlow := h.low
  have hgap := lowGap_le m e
  have hm : m = unitBit := by
    have hle : unitBit ≤ m := not_lt.mp fun hlt => he.ne' (hc.2.2.2 hlt)
    have hge : (m : ℚ) < unitBit + 1 := by nlinarith
    have hge' : m < unitBit + 1 := by exact_mod_cast hge
    omega
  subst hm
  rw [lowGap, if_pos ⟨rfl, he⟩] at hlow
  have hgap' : lowGap (2 * unitBit) (e - 1) = 1 / 2 := if_neg fun h => absurd h.1 (by decide)
  refine ⟨rfl, ?_, ?_, fun hodd => absurd hodd (by decide)⟩ <;> rw [zpow_sub_one₀ two_ne_zero] <;> push_cast
  · rw [hgap']
    nlinarith
  · nlinarith

theorem two_zpow_add (e : Int) : (2 : ℚ) ^ (e + 52) = unitBit * 2 ^ e := by
  rw [zpow_add₀ two_ne_zero, mul_comm]
  norm_num [unitBit]

theorem RoundsTo.log_eq (h : RoundsTo v (2 * unitBit) (e - 1)) (hlt : v < unitBit * 2 ^ e) : Int.log 2 v = e + 51 := by
  refine Double.log_eq ?_ (by rw [add_assoc]; exact (two_zpow_add e).symm ▸ hlt)
  have hhalf : (2 : ℚ) ^ (e + 51) = unitBit * 2 ^ (e - 1) := by rw [← two_zpow_add, sub_add]; rfl
  have hone : (1 : ℚ) ≤ unitBit := by exact_mod_cast (by decide : 1 ≤ unitBit)
  have hlow := h.low
  rw [lowGap, if_neg fun h => absurd h.1 (by decide)] at hlow
  push_cast at hlow
  rw [hhalf]
  nlinarith only [hone, hlow, two_zpow_pos (e - 1)]

/-- The bits found for a fraction that rounds to a double are those of the double. -/
theorem nearestBits_eq (hnum : 0 < num) (hden : 0 < den) (hc : Canonical m e) (h : RoundsTo (num / den) m e) :
    nearestBits num den = bitsOf m e := by
  have hbits := bitsOf_lt hc
  have hmin := hc.2.1
  have hv : (0 : ℚ) < num / den := div_pos (by exact_mod_cast hnum) (by exact_mod_cast hden)
  have hlog : Int.log 2 ((num : ℚ) / den) < e + 53 :=
    (Int.lt_zpow_iff_log_lt one_lt_two hv).mp (by exact_mod_cast h.lt hc)
  unfold nearestBits
  dsimp only
  rw [if_neg hnum.ne', binaryOrder_eq hnum hden]
  -- Only a number that rounds up to a power of two has a lower order than that.
  by_cases hnormal : e + 52 ≤ Int.log 2 ((num : ℚ) / den) ∨ e = minExponent
  · have hexponent : max (Int.log 2 ((num : ℚ) / den) - 52) minExponent = e := by omega
    rw [hexponent, h.roundEven_eq hden]
    exact Nat.min_eq_left hbits.le
  · have hlt : (num : ℚ) / den < unitBit * 2 ^ e := by
      rw [← two_zpow_add]
      exact_mod_cast (Int.lt_zpow_iff_log_lt one_lt_two hv).mpr (by omega)
    obtain ⟨rfl, hbelow⟩ := h.below hc hlt (by omega)
    rw [hbelow.log_eq hlt]
    have hexponent : max (e + 51 - 52) minExponent = e - 1 := by omega
    rw [hexponent, hbelow.roundEven_eq hden]
    refine Eq.trans ?_ (Nat.min_eq_left hbits.le)
    simp only [bitsOf, minExponent, unitBit] at *
    omega

/-! ### Decimals -/

theorem lt_pow_length_toDigits (n : Nat) : n < 10 ^ (Nat.toDigits 10 n).length :=
  (Nat.length_toDigits_le_iff (by decide) Nat.length_toDigits_pos).mp (Nat.le_refl _)

theorem pow_length_toDigits_le {n k : Nat} (hn : 0 < n) (hk : (Nat.toDigits 10 n).length = k + 1) : 10 ^ k ≤ n := by
  cases k with
  | zero => exact hn
  | succ k =>
    refine not_lt.mp fun hlt => ?_
    have := (Nat.length_toDigits_le_iff (by decide) (Nat.succ_pos k)).mpr hlt
    omega

theorem RoundsTo.digits_pos {digits : Nat} {q : Int} (h : RoundsTo (digits * 10 ^ q) m e) (hm : 0 < m) : 0 < digits := by
  refine Nat.pos_of_ne_zero fun hzero => ?_
  have := h.pos hm
  rw [hzero, Nat.cast_zero, zero_mul] at this
  exact lt_irrefl _ this

/-- The number of digits of a decimal that rounds to a double keeps its power of ten in bounds. -/
theorem order_of_roundsTo {digits : Nat} {q : Int} (hm : 0 < m) (hc : Canonical m e) (h : RoundsTo (digits * 10 ^ q) m e) :
    -330 ≤ (Nat.toDigits 10 digits).length + q ∧ (Nat.toDigits 10 digits).length + q ≤ 310 := by
  have hpow : (0 : ℚ) < 10 ^ q := zpow_pos (by norm_num) q
  have hdigits := h.digits_pos hm
  constructor
  · have hlow := h.ge hc hm
    have hhigh : (digits * 10 ^ q : ℚ) < 10 ^ ((Nat.toDigits 10 digits).length + q) := by
      rw [zpow_add₀ (by norm_num), zpow_natCast]
      have : (digits : ℚ) < 10 ^ (Nat.toDigits 10 digits).length := by exact_mod_cast lt_pow_length_toDigits digits
      nlinarith
    have hbound : (10 : ℚ) ^ (-330 : Int) ≤ 2 ^ (-1075 : Int) := by
      rw [zpow_neg, zpow_neg, inv_le_inv₀ (zpow_pos (by norm_num) _) (zpow_pos (by norm_num) _)]
      exact_mod_cast (by decide +kernel : 2 ^ 1075 ≤ 10 ^ 330)
    have := (zpow_lt_zpow_iff_right₀ (by norm_num : (1 : ℚ) < 10)).mp (lt_of_le_of_lt (hbound.trans hlow) hhigh)
    omega
  · obtain ⟨k, hk⟩ := Nat.exists_eq_succ_of_ne_zero (Nat.length_toDigits_pos (b := 10) (n := digits)).ne'
    have hlow : (10 : ℚ) ^ (k + q) ≤ digits * 10 ^ q := by
      rw [zpow_add₀ (by norm_num), zpow_natCast]
      have : (10 : ℚ) ^ k ≤ digits := by exact_mod_cast pow_length_toDigits_le hdigits hk
      nlinarith
    have hhigh : (digits * 10 ^ q : ℚ) < 2 ^ (1024 : Int) :=
      lt_of_lt_of_le (h.lt hc) (zpow_le_zpow_right₀ one_le_two (by have := hc.2.2.1; simp only [maxExponent] at this; omega))
    have hbound : (2 : ℚ) ^ (1024 : Int) ≤ 10 ^ (310 : Int) := by
      exact_mod_cast (by decide +kernel : 2 ^ 1024 ≤ 10 ^ 310)
    have := (zpow_lt_zpow_iff_right₀ (by norm_num : (1 : ℚ) < 10)).mp (lt_of_le_of_lt hlow (hhigh.trans_le hbound))
    omega

theorem nearestDecimal_eq {digits : Nat} {q : Int} (hm : 0 < m) (hc : Canonical m e) (h : RoundsTo (digits * 10 ^ q) m e) :
    nearestDecimal digits q = bitsOf m e := by
  obtain ⟨hlow, hhigh⟩ := order_of_roundsTo hm hc h
  have hdigits := (h.digits_pos hm).ne'
  have hnone : ¬(digits = 0 || (Nat.toDigits 10 digits).length + q < -330) = true := by simpa using ⟨hdigits, by omega⟩
  have hvalue : ((digits * Nat.pow 10 q.toNat : Nat) : ℚ) / (Nat.pow 10 (-q).toNat : Nat) = digits * 10 ^ q := by
    rw [zpow_eq_div 10 (by norm_num) q, Nat.pow_eq, Nat.pow_eq]
    push_cast
    ring
  unfold nearestDecimal
  dsimp only
  rw [if_neg hnone, if_neg (by omega)]
  exact nearestBits_eq (Nat.mul_pos (Nat.pos_of_ne_zero hdigits) (Nat.pow_pos (by decide))) (Nat.pow_pos (by decide)) hc
    (hvalue ▸ h)

end Calcbook.Double
