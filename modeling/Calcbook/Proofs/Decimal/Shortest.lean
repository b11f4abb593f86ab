import Calcbook.Decimal.Shortest
import Calcbook.Proofs.Decimal.Nearest

/-! The shortest decimal of a double rounds to it. All grids are searched for points of the interval of numbers that round
    to the double, and the double itself is a point of the last grid. -/

namespace Calcbook.Double

namespace Interval
variable {i : Interval} {step unit d : Nat}

theorem contains_of_gridPoint? (h : i.gridPoint? step = some d) : i.contains (d * step) = true := by
  unfold gridPoint? at h
  dsimp only at h
  split at h
  · rename_i hbelow
    cases h
    exact (Bool.and_eq_true_iff.mp hbelow).1
  · split at h
    · cases h
      assumption
    · cases h

theorem contains_coarsest (hvalue : i.contains i.value = true) (hunit : unit ∣ i.value) (k : Nat) :
    i.contains ((i.coarsest unit k).1 * (unit * 10 ^ (i.coarsest unit k).2)) = true := by
  induction k with
  | zero =>
    rw [coarsest, pow_zero, Nat.mul_one, Nat.div_mul_cancel hunit]
    exact hvalue
  | succ k ih =>
    rw [coarsest]
    split
    · rename_i hpoint
      exact contains_of_gridPoint? hpoint
    · exact ih

end Interval

variable {m : Nat} {e : Int} {x : Nat}

/-- The unit of an interval is its power of ten short of the power of two. -/
theorem exists_unit (m : Nat) (e : Int) : ∃ unit gap : Nat, (unit * 10 ^ min e 0 : ℚ) = 2 ^ e ∧ 0 < gap ∧ gap ≤ 2 ∧
    lowGap m e = gap / 4 ∧ interval m e = ⟨(4 * m - gap) * unit, 4 * m * unit, (4 * m + 2) * unit, m % 2 = 0⟩ := by
  refine ⟨if 0 ≤ e then Nat.pow 2 e.toNat else Nat.pow 5 (-e).toNat, if m = unitBit ∧ minExponent < e then 1 else 2,
    ?_, ?_, ?_, ?_, rfl⟩
  · split
    · rename_i he
      obtain ⟨n, rfl⟩ := Int.eq_ofNat_of_zero_le he
      simp
    · rename_i he
      obtain ⟨n, rfl⟩ : ∃ n : Nat, e = -n := ⟨(-e).toNat, by omega⟩
      rw [min_eq_left (by omega), neg_neg, Int.toNat_natCast, zpow_neg, zpow_neg, zpow_natCast, zpow_natCast, Nat.pow_eq]
      push_cast
      rw [show (10 : ℚ) = 5 * 2 by norm_num, mul_pow]
      field_simp
  · split <;> decide
  · split <;> decide
  · unfold lowGap
    split <;> norm_num

/-- The points of the interval of a double are quarters of numbers that round to it. -/
theorem roundsTo_of_contains (hm : 0 < m) (h : (interval m e).contains x = true) : RoundsTo (x / 4 * 10 ^ min e 0) m e := by
  obtain ⟨unit, gap, hunit, -, hgap, hlow, hinterval⟩ := exists_unit m e
  have hpow : (0 : ℚ) < 10 ^ min e 0 := zpow_pos (by norm_num) _
  have hcast : (((4 * m - gap) * unit : Nat) : ℚ) = (4 * m - gap) * unit := by
    rw [Nat.cast_mul, Nat.cast_sub (by omega)]
    push_cast
    rfl
  -- The ends of the interval are those of the numbers that round to the double, times four over the power of ten.
  have hends : (m - lowGap m e) * 2 ^ e = (4 * m - gap) * unit / 4 * 10 ^ min e 0 ∧
      ((m : ℚ) + 1 / 2) * 2 ^ e = (4 * m + 2) * unit / 4 * 10 ^ min e 0 := by
    rw [hlow, ← hunit]
    constructor <;> ring
  have hweak : (4 * m - gap) * unit ≤ x ∧ x ≤ (4 * m + 2) * unit := by
    rw [hinterval, Interval.contains] at h
    split at h <;> simp only [Bool.and_eq_true, decide_eq_true_eq] at h <;> omega
  have hstrict : m % 2 = 1 → (4 * m - gap) * unit < x ∧ x < (4 * m + 2) * unit := fun hodd => by
    rw [hinterval, Interval.contains, if_neg (by simp [hodd])] at h
    simpa using h
  have hweak' : ((4 * m - gap) * unit : ℚ) ≤ x ∧ (x : ℚ) ≤ (4 * m + 2) * unit :=
    ⟨hcast ▸ by exact_mod_cast hweak.1, by exact_mod_cast hweak.2⟩
  refine ⟨?_, ?_, fun hodd => ?_⟩
  · rw [hends.1]
    nlinarith [hweak'.1]
  · rw [hends.2]
    nlinarith [hweak'.2]
  · obtain ⟨h₁, h₂⟩ := hstrict hodd
    have h₁' : ((4 * m - gap) * unit : ℚ) < x := hcast ▸ by exact_mod_cast h₁
    have h₂' : (x : ℚ) < (4 * m + 2) * unit := by exact_mod_cast h₂
    rw [hends.1, hends.2]
    constructor <;> nlinarith

/-- The shortest decimal of a double rounds to it. -/
theorem roundsTo_shortest (hm : 0 < m) : RoundsTo ((shortest m e).1 * 10 ^ (shortest m e).2) m e := by
  obtain ⟨unit, gap, hunit, hpos, hgap, -, hinterval⟩ := exists_unit m e
  have hunit' : 0 < unit := by
    refine Nat.pos_of_ne_zero fun hzero => ?_
    rw [hzero, Nat.cast_zero, zero_mul] at hunit
    exact (two_zpow_pos e).ne hunit
  have hvalue : (interval m e).contains (interval m e).value = true := by
    have h₁ : (4 * m - gap) * unit < 4 * m * unit := Nat.mul_lt_mul_of_pos_right (by omega) hunit'
    have h₂ : 4 * m * unit < (4 * m + 2) * unit := Nat.mul_lt_mul_of_pos_right (by omega) hunit'
    rw [hinterval, Interval.contains]
    split <;> simp [h₁, h₂, h₁.le, h₂.le]
  have hdvd : 4 ∣ (interval m e).value := by
    rw [hinterval]
    exact Dvd.intro _ (Nat.mul_assoc 4 m unit).symm
  have hpoint := roundsTo_of_contains hm (Interval.contains_coarsest hvalue hdvd
    (((interval m e).value.log2 + 1) * 30103 / 100000 + 1))
  unfold shortest
  dsimp only
  generalize (interval m e).coarsest 4 (((interval m e).value.log2 + 1) * 30103 / 100000 + 1) = point at hpoint
  obtain ⟨digits, k⟩ := point
  have hscaled : ((digits * (4 * 10 ^ k) : Nat) : ℚ) / 4 * 10 ^ min e 0 = digits * 10 ^ (min e 0 + k) := by
    rw [zpow_add₀ (by norm_num), zpow_natCast]
    push_cast
    ring
  exact hscaled ▸ hpoint

end Calcbook.Double
