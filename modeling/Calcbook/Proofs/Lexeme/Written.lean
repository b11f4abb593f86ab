import Calcbook.Proofs.Lexeme.Regular
import Mathlib.Data.Bool.AllAny

/-! The lexemes of characters put together from known ones. Blanks are passed over, an operator is a lexeme whatever comes
    behind it, and an identifier or a decimal is one as long as nothing behind it carries on with it. -/

namespace Calcbook.Lexeme

/-- The first character, if there is one, belongs neither to an identifier nor to a number in front of it. -/
def Stops (cs : List Char) : Prop := ∀ c ∈ cs.head?, isIdentPart c = false ∧ c ≠ '.'

/-- The characters of a decimal without an exponent, which begins with a digit. -/
def IsDecimal (cs : List Char) : Prop := ∃ whole point, cs = whole ++ point ∧ whole ≠ [] ∧ whole.all Char.isDigit = true ∧
  (point = [] ∨ ∃ ds, point = '.' :: ds ∧ ds.all Char.isDigit = true)

/-- The characters of a point with digits behind it. -/
def IsPoint (cs : List Char) : Prop := ∃ ds, cs = '.' :: ds ∧ ds ≠ [] ∧ ds.all Char.isDigit = true

variable {c : Char} {cs rest u v : List Char} {start : Nat}

theorem stops_nil : Stops [] := nofun

theorem stops_cons (hc : isIdentPart c = false) (hpoint : c ≠ '.') : Stops (c :: cs) := by
  rintro _ ⟨⟩
  exact ⟨hc, hpoint⟩

/-- The characters of texts with a separator between them. -/
theorem toList_intercalate {α : Type} (separator : String) (text : α → String) (a : α) (as : List α) :
    (separator.intercalate ((a :: as).map text)).toList =
      (text a).toList ++ as.flatMap fun b => separator.toList ++ (text b).toList := by
  induction as generalizing a with
  | nil => simp
  | cons b as ih =>
    rw [List.map_cons, List.map_cons, String.intercalate_cons_cons, String.toList_append, String.toList_append,
      ← List.map_cons, ih, List.flatMap_cons, List.append_assoc, List.append_assoc]

/-! ### Classes of characters -/

theorem isBlank_eq_false_of_isOperator (h : isOperator c = true) : isBlank c = false := by
  have hall : ∀ c ∈ ['+', '-', '*', '/', '%', '^', '(', ')', ',', '='], isBlank c = false :=
    List.all_iff_forall_prop.mp (by decide)
  exact hall c (List.contains_iff_mem.mp h)

/-- Operators and blanks are not in identifiers. -/
theorem isIdentPart_eq_false (h : isOperator c = true ∨ isBlank c = true) : isIdentPart c = false ∧ c ≠ '.' := by
  have hoperators : ∀ c ∈ ['+', '-', '*', '/', '%', '^', '(', ')', ',', '='], isIdentPart c = false ∧ c ≠ '.' :=
    List.all_iff_forall_prop.mp (by decide)
  rcases h with h | h
  · exact hoperators c (List.contains_iff_mem.mp h)
  · simp only [isBlank, Bool.or_eq_true, beq_iff_eq] at h
    obtain ((rfl | rfl) | rfl) | rfl := h <;> decide

theorem isIdentPart_of_isIdentStart (h : isIdentStart c = true) : isIdentPart c = true := by
  rw [isIdentStart, Bool.or_eq_true] at h
  rw [isIdentPart, Bool.or_eq_true, Bool.or_eq_true]
  exact h.imp_left Or.inl

theorem mem_of_isDigit (h : c.isDigit = true) : c ∈ ['0', '1', '2', '3', '4', '5', '6', '7', '8', '9'] := by
  have hrange : 48 ≤ c.toNat ∧ c.toNat ≤ 57 := by
    simp only [Char.isDigit, Bool.and_eq_true, decide_eq_true_eq] at h
    exact h
  have hall : ∀ n ∈ List.range' 48 10, Char.ofNat n ∈ ['0', '1', '2', '3', '4', '5', '6', '7', '8', '9'] := by decide
  rw [← Char.ofNat_toNat c]
  exact hall c.toNat (List.mem_range'_1.mpr (by omega))

theorem of_isDigit (h : c.isDigit = true) :
    isIdentPart c = true ∧ isIdentStart c = false ∧ isOperator c = false ∧ isBlank c = false := by
  have hall : ∀ c ∈ ['0', '1', '2', '3', '4', '5', '6', '7', '8', '9'],
      isIdentPart c = true ∧ isIdentStart c = false ∧ isOperator c = false ∧ isBlank c = false :=
    List.all_iff_forall_prop.mp (by decide)
  exact hall c (mem_of_isDigit h)

theorem of_isIdentStart (h : isIdentStart c = true) : isOperator c = false ∧ isBlank c = false := by
  have hpart := isIdentPart_of_isIdentStart h
  constructor
  · exact Bool.eq_false_iff.mpr fun hop => absurd hpart (by simp [(isIdentPart_eq_false (Or.inl hop)).1])
  · exact Bool.eq_false_iff.mpr fun hblank => absurd hpart (by simp [(isIdentPart_eq_false (Or.inr hblank)).1])

/-! ### Numbers -/

theorem digits_isPrefix (hu : u.all Char.isDigit = true) : u <+: (u ++ v).takeWhile Char.isDigit := by
  rw [List.takeWhile_append_of_pos (List.all_eq_true.mp hu)]
  exact List.prefix_append _ _

theorem mem_mantissa {c : Char} (hc : c ∈ (mantissa cs).1) : c.isDigit = true ∨ c = '.' := by
  rw [mantissa] at hc
  rcases List.mem_append.mp hc with hc | hc
  · exact Or.inl (List.all_eq_true.mp List.all_takeWhile c hc)
  · rcases fraction_cases (!(cs.takeWhile Char.isDigit).isEmpty) (cs.dropWhile Char.isDigit) with hf | ⟨ds, hf, hds, -⟩ <;>
      rw [hf] at hc
    · cases hc
    · rcases List.mem_cons.mp hc with rfl | hc
      · exact Or.inr rfl
      · exact Or.inl (List.all_eq_true.mp hds c hc)

theorem fraction_eq {whole : Bool} (h : whole = true ∨ (cs.takeWhile Char.isDigit) ≠ []) :
    fraction whole ('.' :: cs) = ('.' :: cs.takeWhile Char.isDigit, cs.dropWhile Char.isDigit) :=
  if_pos (by simpa using h)

/-- The digits and the point of a number are taken as far as they go. -/
theorem mantissa_isPrefix (hu : IsDecimal u ∨ IsPoint u) : u <+: (mantissa (u ++ v)).1 := by
  rcases hu with ⟨whole, point, rfl, hne, hwhole, rfl | ⟨ds, rfl, hds⟩⟩ | ⟨ds, rfl, hne, hds⟩
  · rw [List.append_nil]
    exact (digits_isPrefix hwhole).trans (List.prefix_append _ _)
  · obtain ⟨htake, hdrop⟩ := takeWhile_run hwhole (point_not_digit (ds ++ v))
    rw [List.append_assoc, List.cons_append, mantissa, htake, hdrop, fraction_eq (Or.inl (by simpa using hne))]
    exact (List.prefix_append_right_inj whole).mpr (List.cons_prefix_cons.mpr ⟨rfl, digits_isPrefix hds⟩)
  · have hnone : ([] : List Char).all Char.isDigit = true := rfl
    obtain ⟨htake, hdrop⟩ := takeWhile_run hnone (point_not_digit (ds ++ v))
    rw [List.nil_append] at htake hdrop
    have hdigits : (ds ++ v).takeWhile Char.isDigit ≠ [] := fun h => hne (List.prefix_nil.mp (h ▸ digits_isPrefix hds))
    rw [List.cons_append, mantissa, htake, hdrop, fraction_eq (Or.inr hdigits)]
    exact List.cons_prefix_cons.mpr ⟨rfl, digits_isPrefix hds⟩

/-- They are taken exactly when what is behind them begins with neither. -/
theorem mantissa_eq_of_head (hu : IsDecimal u ∨ IsPoint u) (hv : ∀ c ∈ v.head?, c.isDigit = false ∧ c ≠ '.') :
    mantissa (u ++ v) = (u, v) := by
  obtain ⟨more, hmore⟩ := mantissa_isPrefix (v := v) hu
  have happend := mantissa_append (u ++ v)
  rw [← hmore, List.append_assoc, List.append_cancel_left_eq] at happend
  cases more with
  | nil => exact Prod.ext (by rw [← hmore, List.append_nil]) happend
  | cons c more =>
    have hc : c ∈ (mantissa (u ++ v)).1 := by rw [← hmore]; simp
    obtain ⟨hdigit, hpoint⟩ := hv c (by rw [← happend]; rfl)
    rcases mem_mantissa hc with h | h
    · exact absurd h (Bool.eq_false_iff.mp hdigit)
    · exact absurd h hpoint

theorem number_eq (h : (mantissa cs).1 ≠ []) :
    number cs = ((mantissa cs).1 ++ (exponent (mantissa cs).2).1, (exponent (mantissa cs).2).2) :=
  if_neg fun hnil => h (List.isEmpty_iff.mp hnil)

/-! ### Lexemes of known characters -/

theorem cutAll_nil : cutAll start [] = [] := by
  rw [cutAll_eq]
  rfl

theorem cutAll_blank (hc : isBlank c = true) : cutAll start (c :: cs) = cutAll (start + 1) cs := by
  rw [cutAll_eq start (c :: cs), cutAll_eq (start + 1) cs, List.dropWhile_cons_of_pos hc, List.takeWhile_cons_of_pos hc,
    List.length_cons, Nat.add_right_comm start 1, Nat.add_assoc start _ 1]

theorem cutAll_of_cut {kind : Kind} {text : List Char} (hc : isBlank c = false)
    (h : cut (c :: cs) = some (kind, text, rest)) :
    cutAll start (c :: cs) = ⟨kind, String.ofList text, start⟩ :: cutAll (start + text.length) rest := by
  have hnot : ¬isBlank c = true := Bool.eq_false_iff.mp hc
  rw [cutAll_eq, List.dropWhile_cons_of_neg hnot, List.takeWhile_cons_of_neg hnot, h]
  rfl

theorem cutAll_operator (hc : isOperator c = true) : cutAll start (c :: cs) =
    ⟨.ofOperator (String.ofList [c]), String.ofList [c], start⟩ :: cutAll (start + 1) cs :=
  cutAll_of_cut (isBlank_eq_false_of_isOperator hc) (by rw [cut, if_pos hc])

theorem cut_identifier {name : List Char} (hname : IsIdentifier name) (hrest : Stops rest) :
    cut (name ++ rest) = some (.ident, name, rest) := by
  obtain ⟨c, cs, rfl, hc, hcs⟩ := hname
  obtain ⟨htake, hdrop⟩ := takeWhile_run hcs fun c hc => (hrest c hc).1
  rw [List.cons_append, cut, if_neg (Bool.eq_false_iff.mp (of_isIdentStart hc).1), if_pos hc, htake, hdrop]

theorem cutAll_identifier {name : List Char} (hname : IsIdentifier name) (hrest : Stops rest) :
    cutAll start (name ++ rest) = ⟨.ident, String.ofList name, start⟩ :: cutAll (start + name.length) rest := by
  have hcut := cut_identifier hname hrest
  obtain ⟨c, cs, rfl, hc, -⟩ := hname
  exact cutAll_of_cut (of_isIdentStart hc).2 hcut

theorem exponent_eq_nil (hrest : Stops rest) : exponent rest = ([], rest) := by
  cases rest with
  | nil => rfl
  | cons c rest =>
    have hmark : ['e', 'E'].contains c = false := Bool.eq_false_iff.mpr fun h => by
      have hall : ∀ c ∈ ['e', 'E'], isIdentPart c = true := List.all_iff_forall_prop.mp (by decide)
      exact absurd (hall c (List.contains_iff_mem.mp h)) (Bool.eq_false_iff.mp (hrest c rfl).1)
    exact if_neg (by rw [hmark, Bool.false_and]; exact Bool.false_ne_true)

end Calcbook.Lexeme
