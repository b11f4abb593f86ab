import Calcbook.Proofs.Decimal.Bits
import Calcbook.Proofs.Decimal.Shortest
import Calcbook.Proofs.Lexeme.Regular
import Calcbook.Proofs.Lexeme.Written

/-! The text of a finite double. A magnitude is written as a decimal that rounds to it, so the text is read as the double
    that it was written for; the minus sign of a negative double stands in front of the text of its negation. -/

namespace Calcbook

/-! ### Magnitudes of doubles -/

namespace Double
variable {negative s : Bool} {bits m : Nat} {e : Int}

/-- Finite magnitudes have a mantissa and an exponent that belong to a double. -/
theorem canonical_of_ofMagnitude (h : ofMagnitude negative bits = finite s m e) : Canonical m e ∧ s = negative := by
  unfold ofMagnitude at h
  dsimp only at h
  split at h
  · cases h
  · split at h
    · cases h
    · rename_i hle hne
      simp only [infinityBits, unitBit] at hle hne
      split at h
      · cases h
        refine ⟨⟨?_, Int.le_refl _, by decide, fun _ => rfl⟩, rfl⟩
        exact Nat.lt_of_lt_of_le (Nat.mod_lt _ (by decide)) (by decide)
      · rename_i hfield
        cases h
        refine ⟨?_, rfl⟩
        simp only [Canonical, unitBit, minExponent, maxExponent] at *
        omega

theorem ofMagnitude_bitsOf (h : Canonical m e) : ofMagnitude negative (bitsOf m e) = finite negative m e := by
  have hlt := bitsOf_lt h
  obtain ⟨hm, hmin, hmax, hshort⟩ := h
  unfold ofMagnitude
  dsimp only
  rw [if_neg (Nat.lt_asymm hlt), if_neg hlt.ne]
  by_cases hsmall : m < unitBit
  · obtain rfl := hshort hsmall
    have hbits : bitsOf m minExponent = m := by simp [bitsOf]
    rw [hbits, if_pos (Nat.div_eq_of_lt hsmall), Nat.mod_eq_of_lt hsmall]
  · have hfield : bitsOf m e / unitBit = (e - minExponent).toNat + 1 := by
      rw [bitsOf, Nat.mul_comm, Nat.mul_add_div (by decide)]
      simp only [unitBit] at *
      omega
    have hfraction : bitsOf m e % unitBit = m - unitBit := by
      rw [bitsOf, Nat.mul_comm, Nat.mul_add_mod, Nat.mod_eq_sub_mod (Nat.not_lt.mp hsmall), Nat.mod_eq_of_lt (by omega)]
    rw [hfield, hfraction, if_neg (Nat.succ_ne_zero _), Nat.sub_add_cancel (Nat.not_lt.mp hsmall), Nat.add_sub_cancel,
      Int.toNat_of_nonneg (by omega), add_sub_cancel]

theorem canonical_of_ofFloat {x : Float} (h : ofFloat x = finite s m e) : Canonical m e :=
  (canonical_of_ofMagnitude h).1

end Double

/-! ### Decimals -/

namespace Decimal
open Double

theorem ofDigits_eq (ds : List Char) : ofDigits ds = Nat.ofDigitChars 10 ds 0 := rfl

/-- Characters that are digits with at most one point behind the first, and stand for a number. -/
def Denotes (cs : List Char) (v : ℚ) : Prop := ∃ whole ds, whole ≠ [] ∧ whole.all Char.isDigit = true ∧
  ds.all Char.isDigit = true ∧ ((ds = [] ∧ cs = whole) ∨ cs = whole ++ '.' :: ds) ∧
  ofDigits (whole ++ ds) * 10 ^ (-(ds.length : Int)) = v

variable {cs : List Char} {v : ℚ} {m : Nat} {e : Int}

theorem Denotes.isDecimal (h : Denotes cs v) : Lexeme.IsDecimal cs := by
  obtain ⟨whole, ds, hne, hwhole, hds, ⟨rfl, rfl⟩ | rfl, -⟩ := h
  · exact ⟨cs, [], (List.append_nil cs).symm, hne, hwhole, Or.inl rfl⟩
  · exact ⟨whole, '.' :: ds, rfl, hne, hwhole, Or.inr ⟨ds, rfl, hds⟩⟩

/-- A decimal is read as the double that it rounds to. -/
theorem Denotes.readMagnitude? (h : Denotes cs v) (hm : 0 < m) (hc : Canonical m e) (hv : RoundsTo v m e) :
    readMagnitude? cs = some (bitsOf m e) := by
  obtain ⟨whole, ds, hne, hwhole, hds, hcs, rfl⟩ := h
  have hbits : nearestDecimal (ofDigits (whole ++ ds)) (0 - ds.length) = bitsOf m e :=
    nearestDecimal_eq hm hc (by rwa [zero_sub])
  have hnone : ∀ c ∈ ([] : List Char).head?, c.isDigit = false ∧ c ≠ '.' := nofun
  rcases hcs with ⟨rfl, rfl⟩ | rfl
  · rw [← List.append_nil cs, readMagnitude?_whole hwhole hne hnone, ← hbits, List.append_nil]
    rfl
  · rw [← List.append_nil ds, readMagnitude?_point hwhole hds (fun c hc => (hnone c hc).1) (fun h => (hne h).elim), ← hbits]
    rfl

theorem all_isDigit_toDigits (n : Nat) : (Nat.toDigits 10 n).all Char.isDigit = true :=
  List.all_eq_true.mpr fun _ hc => Nat.isDigit_of_mem_toDigits (by decide) (by decide) hc

theorem all_isDigit_zeros (n : Nat) : (List.replicate n '0').all Char.isDigit = true :=
  List.all_eq_true.mpr fun _ hc => (List.eq_of_mem_replicate hc) ▸ rfl

/-- Digits with a power of ten are written as the number that they stand for. -/
theorem denotes_positional (digits : Nat) (q : Int) : Denotes (positional digits q).toList (digits * 10 ^ q) := by
  unfold positional
  dsimp only
  split
  · rename_i hq
    obtain ⟨k, rfl⟩ := Int.eq_ofNat_of_zero_le hq
    refine ⟨Nat.toDigits 10 digits ++ List.replicate k '0', [], ?_, ?_, rfl, Or.inl ⟨rfl, ?_⟩, ?_⟩
    · simp
    · rw [List.all_append, all_isDigit_toDigits, all_isDigit_zeros, Bool.and_self]
    · simp
    · rw [List.append_nil, ofDigits_eq, Nat.ofDigitChars_append, Nat.ofDigitChars_ten_toDigits,
        Nat.ofDigitChars_replicate_zero]
      simp [mul_comm]
  · rename_i hq
    obtain ⟨k, rfl⟩ : ∃ k : Nat, q = -k := ⟨(-q).toNat, by omega⟩
    rw [neg_neg, Int.toNat_natCast]
    generalize hfilled : List.replicate (k + 1 - (Nat.toDigits 10 digits).length) '0' ++ Nat.toDigits 10 digits = filled
    have hlength : k < filled.length := by
      rw [← hfilled, List.length_append, List.length_replicate]
      omega
    have hdigits : filled.all Char.isDigit = true := by
      rw [← hfilled, List.all_append, all_isDigit_toDigits, all_isDigit_zeros, Bool.and_self]
    refine ⟨filled.take (filled.length - k), filled.drop (filled.length - k), ?_, ?_, ?_, Or.inr ?_, ?_⟩
    · rw [Ne, List.take_eq_nil_iff, not_or]
      exact ⟨by omega, List.ne_nil_of_length_pos (by omega)⟩
    · exact List.all_eq_true.mpr fun c hc => List.all_eq_true.mp hdigits c (List.mem_of_mem_take hc)
    · exact List.all_eq_true.mpr fun c hc => List.all_eq_true.mp hdigits c (List.mem_of_mem_drop hc)
    · simp
    · have hvalue : ofDigits filled = digits := by
        rw [← hfilled, ofDigits_eq, Nat.ofDigitChars_append, Nat.ofDigitChars_replicate_zero, Nat.mul_zero,
          Nat.ofDigitChars_ten_toDigits]
      rw [List.take_append_drop, hvalue, List.length_drop, Nat.sub_sub_self hlength.le]

theorem denotes_magnitudeText (hm : 0 < m) : ∃ v, Denotes (magnitudeText m e).toList v ∧ RoundsTo v m e := by
  rw [magnitudeText, if_neg hm.ne']
  exact ⟨_, denotes_positional _ _, roundsTo_shortest hm⟩

/-- The text of a magnitude is a decimal and is read as the bits of the magnitude. -/
theorem readMagnitude?_magnitudeText (hc : Canonical m e) :
    Lexeme.IsDecimal (magnitudeText m e).toList ∧ readMagnitude? (magnitudeText m e).toList = some (bitsOf m e) := by
  rcases Nat.eq_zero_or_pos m with rfl | hm
  · obtain rfl := hc.2.2.2 (by decide)
    exact ⟨⟨['0'], [], rfl, by decide, by decide, Or.inl rfl⟩, by decide⟩
  · obtain ⟨v, hdenotes, hv⟩ := denotes_magnitudeText (e := e) hm
    exact ⟨hdenotes.isDecimal, hdenotes.readMagnitude? hm hc hv⟩

/-! ### Doubles -/

variable {x : Float}

/-- The text of a finite double without a minus sign is a decimal, and is read as that double. -/
theorem read?_text (h : ofFloat x = finite false m e) : Lexeme.IsDecimal (text x).toList ∧ read? (text x) = some x := by
  have hc := canonical_of_ofFloat h
  have htext : text x = magnitudeText m e := by
    rw [text, h]
    exact String.empty_append
  obtain ⟨hdecimal, hread⟩ := readMagnitude?_magnitudeText hc
  rw [htext, read?, hread]
  refine ⟨hdecimal, congrArg some (ofFloat_injective ?_)⟩
  rw [ofFloat_floatOfBits (bitsOf_lt hc).le, ofMagnitude_bitsOf hc, h]

theorem text_of_negative (h : ofFloat x = finite true m e) : text x = "-" ++ text (-x) := by
  rw [text, text, ofFloat_neg, h]
  exact congrArg ("-" ++ ·) String.empty_append.symm

theorem nearestBits_le (num den : Nat) : nearestBits num den ≤ infinityBits := by
  unfold nearestBits
  split
  · exact Nat.zero_le _
  · exact Nat.min_le_right _ _

theorem nearestDecimal_le (digits : Nat) (q : Int) : nearestDecimal digits q ≤ infinityBits := by
  unfold nearestDecimal
  dsimp only
  split
  · exact Nat.zero_le _
  · split
    · exact Nat.le_refl _
    · exact nearestBits_le _ _

/-- What is read has no minus sign. -/
theorem ofFloat_of_read? {s : String} (h : read? s = some x) : ∃ bits, ofFloat x = ofMagnitude false bits := by
  obtain ⟨bits, hbits, rfl⟩ := Option.map_eq_some_iff.mp h
  refine ⟨bits, ofFloat_floatOfBits ?_⟩
  unfold readMagnitude? at hbits
  dsimp only at hbits
  split at hbits <;> dsimp only at hbits <;> split at hbits
  any_goals cases hbits
  all_goals
    obtain ⟨e, -, rfl⟩ := Option.map_eq_some_iff.mp hbits
    exact nearestDecimal_le _ _

end Decimal

end Calcbook
