import Calcbook.Proofs.Lexeme.Written
import Mathlib.Computability.RegularExpressions

/-! Numerals as a regular language. The scan for a number takes the longest numeral there is: a numeral in front of other
    characters is a prefix of what the scan takes, as its digits and its point are taken first, an exponent
    behind them goes on with a letter that neither can take, and the scan only gives back an exponent that
    has no digits. -/

namespace Calcbook

namespace Lexeme

/-! ### The language -/

/-- One of some characters. -/
def oneOf (cs : List Char) : RegularExpression Char := (cs.map RegularExpression.char).sum

def digit : RegularExpression Char := oneOf ['0', '1', '2', '3', '4', '5', '6', '7', '8', '9']

/-- Once or more often. -/
def repeated (r : RegularExpression Char) : RegularExpression Char := r * r.star

/-- Once or not at all. -/
def optional (r : RegularExpression Char) : RegularExpression Char := 1 + r

/-- Numerals: `(D+(.D*)?|.D+)([eE][+-]?D+)?` with `D` a digit. -/
def numeral : RegularExpression Char :=
  (repeated digit * optional (.char '.' * digit.star) + .char '.' * repeated digit) *
    optional (oneOf ['e', 'E'] * (optional (oneOf ['+', '-']) * repeated digit))

/-- The characters of a numeral. -/
def IsNumeral (cs : List Char) : Prop := cs ∈ numeral.matches'

variable {cs u v : List Char} {r s : RegularExpression Char}

theorem mem_char {c : Char} : cs ∈ (RegularExpression.char c).matches' ↔ cs = [c] := Iff.rfl

theorem mem_oneOf {xs : List Char} : cs ∈ (oneOf xs).matches' ↔ ∃ c ∈ xs, cs = [c] := by
  induction xs with
  | nil => exact iff_of_false (fun h => h.elim) (by simp)
  | cons x xs ih =>
    have hsum : oneOf (x :: xs) = .char x + oneOf xs := List.sum_cons
    rw [hsum, RegularExpression.matches'_add, Language.mem_add, mem_char, ih]
    simp

theorem mem_optional : cs ∈ (optional r).matches' ↔ cs = [] ∨ cs ∈ r.matches' := Language.mem_add ..

theorem mem_digit : cs ∈ digit.matches' ↔ ∃ c, c.isDigit = true ∧ cs = [c] := by
  have hdigits : ∀ c ∈ ['0', '1', '2', '3', '4', '5', '6', '7', '8', '9'], c.isDigit = true :=
    List.all_iff_forall_prop.mp (by decide)
  exact mem_oneOf.trans ⟨fun ⟨c, hc, h⟩ => ⟨c, hdigits c hc, h⟩, fun ⟨c, hc, h⟩ => ⟨c, mem_of_isDigit hc, h⟩⟩

theorem mem_star_digit : cs ∈ digit.star.matches' ↔ cs.all Char.isDigit = true := by
  rw [RegularExpression.matches'_star, Language.mem_kstar, List.all_eq_true]
  constructor
  · rintro ⟨parts, rfl, hparts⟩ c hc
    obtain ⟨part, hpart, hc⟩ := List.mem_flatten.mp hc
    obtain ⟨d, hd, rfl⟩ := mem_digit.mp (hparts part hpart)
    rwa [List.mem_singleton.mp hc]
  · intro hdigits
    refine ⟨cs.map fun c => [c], by rw [← List.flatMap_def, List.flatMap_singleton'], fun part hpart => ?_⟩
    obtain ⟨c, hc, rfl⟩ := List.mem_map.mp hpart
    exact mem_digit.mpr ⟨c, hdigits c hc, rfl⟩

theorem mem_repeated_digit : cs ∈ (repeated digit).matches' ↔ cs ≠ [] ∧ cs.all Char.isDigit = true := by
  rw [repeated, RegularExpression.matches'_mul, Language.mem_mul]
  constructor
  · rintro ⟨_, hfirst, rest, hrest, rfl⟩
    obtain ⟨c, hc, rfl⟩ := mem_digit.mp hfirst
    exact ⟨List.cons_ne_nil _ _, Bool.and_eq_true_iff.mpr ⟨hc, mem_star_digit.mp hrest⟩⟩
  · rintro ⟨hne, hdigits⟩
    obtain ⟨c, rest, rfl⟩ := List.exists_cons_of_ne_nil hne
    obtain ⟨hc, hrest⟩ := Bool.and_eq_true_iff.mp hdigits
    exact ⟨[c], mem_digit.mpr ⟨c, hc, rfl⟩, rest, mem_star_digit.mpr hrest, rfl⟩

/-- The characters of an exponent. -/
def IsPower (cs : List Char) : Prop := ∃ mark sign ds, cs = mark :: (sign ++ ds) ∧ (mark = 'e' ∨ mark = 'E') ∧
  (sign = [] ∨ sign = ['+'] ∨ sign = ['-']) ∧ ds ≠ [] ∧ ds.all Char.isDigit = true

theorem mem_point : cs ∈ (RegularExpression.char '.' * repeated digit).matches' ↔ IsPoint cs := by
  rw [RegularExpression.matches'_mul, Language.mem_mul]
  constructor
  · rintro ⟨_, rfl, ds, hds, rfl⟩
    exact ⟨ds, rfl, mem_repeated_digit.mp hds⟩
  · rintro ⟨ds, rfl, hds⟩
    exact ⟨['.'], rfl, ds, mem_repeated_digit.mpr hds, rfl⟩

theorem mem_decimal : cs ∈ (repeated digit * optional (.char '.' * digit.star)).matches' ↔ IsDecimal cs := by
  rw [RegularExpression.matches'_mul, Language.mem_mul]
  constructor
  · rintro ⟨whole, hwhole, point, hpoint, rfl⟩
    obtain ⟨hne, hdigits⟩ := mem_repeated_digit.mp hwhole
    refine ⟨whole, point, rfl, hne, hdigits, (mem_optional.mp hpoint).imp_right ?_⟩
    rintro ⟨_, rfl, ds, hds, rfl⟩
    exact ⟨ds, rfl, mem_star_digit.mp hds⟩
  · rintro ⟨whole, point, rfl, hne, hdigits, hpoint⟩
    refine ⟨whole, mem_repeated_digit.mpr ⟨hne, hdigits⟩, point, mem_optional.mpr (hpoint.imp_right ?_), rfl⟩
    rintro ⟨ds, rfl, hds⟩
    exact ⟨['.'], rfl, ds, mem_star_digit.mpr hds, rfl⟩

theorem mem_power :
    cs ∈ (oneOf ['e', 'E'] * (optional (oneOf ['+', '-']) * repeated digit)).matches' ↔ IsPower cs := by
  rw [RegularExpression.matches'_mul, RegularExpression.matches'_mul, Language.mem_mul]
  simp only [Language.mem_mul]
  constructor
  · rintro ⟨_, hfirst, _, ⟨sign, hsign, ds, hds, rfl⟩, rfl⟩
    obtain ⟨mark, hmark, rfl⟩ := mem_oneOf.mp hfirst
    refine ⟨mark, sign, ds, rfl, by simpa using hmark, (mem_optional.mp hsign).imp_right ?_, mem_repeated_digit.mp hds⟩
    intro hone
    obtain ⟨c, hc, rfl⟩ := mem_oneOf.mp hone
    simpa using hc
  · rintro ⟨mark, sign, ds, rfl, hmark, hsign, hds⟩
    refine ⟨[mark], mem_oneOf.mpr ⟨mark, by simpa using hmark, rfl⟩, _, ⟨sign, mem_optional.mpr (hsign.imp_right ?_), ds,
      mem_repeated_digit.mpr hds, rfl⟩, rfl⟩
    rintro (rfl | rfl) <;> exact mem_oneOf.mpr (by simp)

/-- A numeral is a decimal or a point with digits, and may have an exponent. -/
theorem isNumeral_iff : IsNumeral cs ↔
    ∃ front power, cs = front ++ power ∧ (IsDecimal front ∨ IsPoint front) ∧ (power = [] ∨ IsPower power) := by
  rw [IsNumeral, numeral, RegularExpression.matches'_mul, RegularExpression.matches'_add, Language.mem_mul]
  simp only [Language.mem_add, mem_decimal, mem_point, mem_optional, mem_power]
  constructor
  · rintro ⟨front, hfront, power, hpower, rfl⟩
    exact ⟨front, power, rfl, hfront, hpower⟩
  · rintro ⟨front, power, rfl, hfront, hpower⟩
    exact ⟨front, hfront, power, hpower, rfl⟩

/-! ### The scan -/

/-- An exponent is taken with all the digits behind it. -/
theorem exponent_of_isPower (hu : IsPower u) :
    exponent (u ++ v) = (u ++ v.takeWhile Char.isDigit, v.dropWhile Char.isDigit) := by
  obtain ⟨mark, s, ds, rfl, hmark, hs, hne, hds⟩ := hu
  obtain ⟨d, rest, rfl⟩ := List.exists_cons_of_ne_nil hne
  have hd : d.isDigit = true := (Bool.and_eq_true_iff.mp hds).1
  have hsign : sign (s ++ (d :: rest ++ v)) = (s, d :: rest ++ v) := by
    rcases hs with rfl | rfl | rfl
    · refine if_neg fun hc => ?_
      obtain rfl | rfl : d = '+' ∨ d = '-' := by simpa using hc
      all_goals exact absurd hd (by decide)
    · rfl
    · rfl
  have hall := List.all_eq_true.mp hds
  have hsome : (!((d :: rest ++ v).takeWhile Char.isDigit).isEmpty) = true := by simp [hd]
  have hmark' : ['e', 'E'].contains mark = true := by simpa using hmark
  rw [List.cons_append, List.append_assoc, exponent, hsign, if_pos (by rw [hmark', hsome]; rfl)]
  dsimp only
  rw [List.takeWhile_append_of_pos hall, List.dropWhile_append_of_pos hall, ← List.append_assoc, List.cons_append]

theorem IsPower.head (hu : IsPower u) (v : List Char) : ∀ c ∈ (u ++ v).head?, c.isDigit = false ∧ c ≠ '.' := by
  obtain ⟨mark, _, _, rfl, rfl | rfl, -⟩ := hu <;> rintro c ⟨⟩ <;> decide

theorem ne_nil_of_decimal_or_point (hu : IsDecimal u ∨ IsPoint u) : u ≠ [] := by
  rcases hu with ⟨whole, point, rfl, hne, -⟩ | ⟨ds, rfl, -⟩
  · exact fun h => hne (List.append_eq_nil_iff.mp h).1
  · exact List.cons_ne_nil _ _

/-- A numeral in front of other characters is a prefix of the number that is taken. -/
theorem numeral_isPrefix (hu : IsNumeral u) : u <+: (number (u ++ v)).1 := by
  obtain ⟨front, power, rfl, hfront, hpower⟩ := isNumeral_iff.mp hu
  have hne := ne_nil_of_decimal_or_point hfront
  rcases hpower with rfl | hpower
  · have htaken := mantissa_isPrefix (v := v) hfront
    rw [List.append_nil, number_eq fun h => hne (List.prefix_nil.mp (h ▸ htaken))]
    exact htaken.trans (List.prefix_append _ _)
  · have hmantissa := mantissa_eq_of_head hfront (hpower.head v)
    rw [List.append_assoc, number_eq (by rw [hmantissa]; exact hne), hmantissa,
      exponent_of_isPower hpower]
    exact (List.prefix_append_right_inj front).mpr (List.prefix_append _ _)

theorem decimal_or_point_mantissa (h : (mantissa cs).1 ≠ []) : IsDecimal (mantissa cs).1 ∨ IsPoint (mantissa cs).1 := by
  have hwhole : (cs.takeWhile Char.isDigit).all Char.isDigit = true := List.all_takeWhile
  rw [mantissa] at h ⊢
  dsimp only at h ⊢
  by_cases hne : cs.takeWhile Char.isDigit = []
  · rcases fraction_cases (!(cs.takeWhile Char.isDigit).isEmpty) (cs.dropWhile Char.isDigit) with hf | ⟨ds, hf, hds, hone⟩ <;>
      rw [hf] at h ⊢
    · exact (h (by rw [hne]; rfl)).elim
    · exact Or.inr ⟨ds, by rw [hne]; rfl, hone.resolve_left (by rw [hne]; exact Bool.false_ne_true), hds⟩
  · refine Or.inl ⟨_, _, rfl, hne, hwhole, (fraction_cases _ _).imp_right ?_⟩
    rintro ⟨ds, hf, hds, -⟩
    exact ⟨ds, hf, hds⟩

/-- What is taken as a number is a numeral. -/
theorem isNumeral_number (h : (number cs).1 ≠ []) : IsNumeral (number cs).1 := by
  have hne : (mantissa cs).1 ≠ [] := fun hnil => h (by simp [number, hnil])
  rw [number_eq hne]
  refine isNumeral_iff.mpr ⟨_, _, rfl, decimal_or_point_mantissa hne, (exponent_cases _).imp_right ?_⟩
  rintro ⟨mark, s, ds, he, hmark, hs, hds, hdigits⟩
  exact ⟨mark, s, ds, he, hmark, hs, hdigits, hds⟩

theorem IsNumeral.ne_nil (hu : IsNumeral u) : u ≠ [] := by
  obtain ⟨front, power, rfl, hfront, -⟩ := isNumeral_iff.mp hu
  exact fun h => ne_nil_of_decimal_or_point hfront (List.append_eq_nil_iff.mp h).1

theorem IsDecimal.isNumeral (hu : IsDecimal u) : IsNumeral u :=
  isNumeral_iff.mpr ⟨u, [], (List.append_nil u).symm, Or.inl hu, Or.inl rfl⟩

/-- A numeral is taken whole, and nothing but it, where it is stopped. -/
theorem IsNumeral.number_append (hu : IsNumeral u) (hv : Stops v) : number (u ++ v) = (u, v) := by
  have hdigit : ∀ c ∈ v.head?, c.isDigit = false := fun c hc =>
    Bool.eq_false_iff.mpr fun h => absurd (of_isDigit h).1 (Bool.eq_false_iff.mp (hv c hc).1)
  obtain ⟨front, power, rfl, hfront, hpower⟩ := isNumeral_iff.mp hu
  have hne := ne_nil_of_decimal_or_point hfront
  rcases hpower with rfl | hpower
  · have hmantissa := mantissa_eq_of_head hfront fun c hc => ⟨hdigit c hc, (hv c hc).2⟩
    rw [List.append_nil, number_eq (by rw [hmantissa]; exact hne), hmantissa, exponent_eq_nil hv, List.append_nil]
  · have hmantissa := mantissa_eq_of_head hfront (hpower.head v)
    have hnone : ([] : List Char).all Char.isDigit = true := rfl
    obtain ⟨htake, hdrop⟩ := takeWhile_run hnone hdigit
    rw [List.nil_append] at htake hdrop
    rw [List.append_assoc, number_eq (by rw [hmantissa]; exact hne), hmantissa, exponent_of_isPower hpower, htake, hdrop,
      List.append_nil]

theorem IsNumeral.number_eq (hu : IsNumeral u) : (number u).1 = u := by
  have h := hu.number_append stops_nil
  rw [List.append_nil] at h
  rw [h]

/-- What a numeral begins with begins nothing else. -/
theorem IsNumeral.exists_head (hu : IsNumeral u) :
    ∃ c cs, u = c :: cs ∧ isOperator c = false ∧ isIdentStart c = false ∧ isBlank c = false := by
  obtain ⟨front, power, rfl, hfront, -⟩ := isNumeral_iff.mp hu
  rcases hfront with ⟨whole, point, rfl, hne, hwhole, -⟩ | ⟨ds, rfl, -⟩
  · obtain ⟨c, whole, rfl⟩ := List.exists_cons_of_ne_nil hne
    obtain ⟨-, hstart, hop, hblank⟩ := of_isDigit (List.all_eq_true.mp hwhole c List.mem_cons_self)
    exact ⟨c, _, rfl, hop, hstart, hblank⟩
  · exact ⟨'.', _, rfl, by decide⟩

theorem cut_numeral (hu : IsNumeral u) (hv : Stops v) : cut (u ++ v) = some (.number, u, v) := by
  have hnumber := hu.number_append hv
  obtain ⟨c, cs, rfl, hop, hstart, -⟩ := hu.exists_head
  rw [List.cons_append] at hnumber ⊢
  rw [cut, if_neg (Bool.eq_false_iff.mp hop), if_neg (Bool.eq_false_iff.mp hstart), hnumber]

theorem cutAll_numeral {start : Nat} (hu : IsNumeral u) (hv : Stops v) :
    cutAll start (u ++ v) = ⟨.number, String.ofList u, start⟩ :: cutAll (start + u.length) v := by
  have hcut := cut_numeral hu hv
  obtain ⟨c, cs, rfl, -, -, hblank⟩ := hu.exists_head
  exact cutAll_of_cut hblank hcut

end Lexeme

/-- Every numeral is read as a number. -/
theorem Decimal.isSome_read?_of_isNumeral {s : String} (h : Lexeme.IsNumeral s.toList) : (Decimal.read? s).isSome = true := by
  have hne : (Lexeme.number s.toList).1 ≠ [] := by
    rw [h.number_eq]
    exact h.ne_nil
  have hread := isSome_read? hne
  rwa [h.number_eq, String.ofList_toList] at hread

end Calcbook
