import Calcbook.Decimal.Text
import Calcbook.Proofs.Lexeme.Cut

/-! Lexemes as they come out of texts. An operator is one character, an identifier begins as one must and goes on with
    its characters, and the text of a number can be read as a decimal: it has digits on one side of its point at
    least, and behind the mark of an exponent. -/

namespace Calcbook

/-! ### Marks -/

/-- Operators, brackets and the comma are told apart by their text. -/
def Lexeme.Kind.isMark : Lexeme.Kind → Bool
  | operator | openParen | closeParen | comma => true
  | number | ident | unknown => false

/-- Whether a lexeme is the operator, bracket or comma of a text. -/
def Lexeme.isMark (l : Lexeme) (text : String) : Bool := l.kind.isMark && l.text == text

/-- The characters of an identifier. -/
def Lexeme.IsIdentifier (cs : List Char) : Prop :=
  ∃ c rest, cs = c :: rest ∧ isIdentStart c = true ∧ rest.all isIdentPart = true

instance (cs : List Char) : Decidable (Lexeme.IsIdentifier cs) :=
  match cs with
  | [] => isFalse (by rintro ⟨_, _, h, -⟩; cases h)
  | c :: rest => decidable_of_iff (isIdentStart c = true ∧ rest.all isIdentPart = true)
      ⟨fun h => ⟨c, rest, rfl, h⟩, by rintro ⟨_, _, ⟨⟩, h⟩; exact h⟩

/-- A lexeme that can come out of a text. -/
structure Lexeme.Regular (l : Lexeme) : Prop where
  mark : l.kind.isMark = true → ∃ c, isOperator c = true ∧ l.text = String.ofList [c]
  number : l.kind = .number → (Decimal.read? l.text).isSome = true
  ident : l.kind = .ident → IsIdentifier l.text.toList

namespace Lexeme

theorem isMark_ofOperator (text : String) : (Kind.ofOperator text).isMark = true := by
  unfold Kind.ofOperator
  split
  · rfl
  · split
    · rfl
    · split <;> rfl

/-- A mark is no number and no identifier. -/
theorem ofOperator_ne {text : String} {kind : Kind} (h : kind.isMark = false) : Kind.ofOperator text ≠ kind := by
  rintro rfl
  exact absurd (isMark_ofOperator text) (Bool.eq_false_iff.mp h)

/-! ### Numbers -/

theorem fraction_cases (whole : Bool) (cs : List Char) : (fraction whole cs).1 = [] ∨
    ∃ ds, (fraction whole cs).1 = '.' :: ds ∧ ds.all Char.isDigit = true ∧ (whole = true ∨ ds ≠ []) := by
  cases cs with
  | nil => exact Or.inl rfl
  | cons c cs =>
    rw [fraction]
    split
    · rename_i hc
      obtain ⟨hpoint, hdigits⟩ := Bool.and_eq_true_iff.mp hc
      obtain rfl : c = '.' := by simpa using hpoint
      exact Or.inr ⟨_, rfl, List.all_takeWhile, by simpa using hdigits⟩
    · exact Or.inl rfl

theorem sign_cases (cs : List Char) : (sign cs).1 = [] ∨ (sign cs).1 = ['+'] ∨ (sign cs).1 = ['-'] := by
  cases cs with
  | nil => exact Or.inl rfl
  | cons c cs =>
    rw [sign]
    split
    · rename_i hc
      obtain rfl | rfl : c = '+' ∨ c = '-' := by simpa using hc
      · exact Or.inr (Or.inl rfl)
      · exact Or.inr (Or.inr rfl)
    · exact Or.inl rfl

theorem exponent_cases (cs : List Char) : (exponent cs).1 = [] ∨
    ∃ mark s ds, (exponent cs).1 = mark :: (s ++ ds) ∧ (mark = 'e' ∨ mark = 'E') ∧ (s = [] ∨ s = ['+'] ∨ s = ['-']) ∧
      ds.all Char.isDigit = true ∧ ds ≠ [] := by
  cases cs with
  | nil => exact Or.inl rfl
  | cons c cs =>
    rw [exponent]
    split
    · rename_i hc
      obtain ⟨hmark, hdigits⟩ := Bool.and_eq_true_iff.mp hc
      exact Or.inr ⟨c, _, _, rfl, by simpa using hmark, sign_cases cs, List.all_takeWhile, by simpa using hdigits⟩
    · exact Or.inl rfl

/-- Neither a digit nor a point stands at the front of an exponent. -/
theorem head_exponent (cs : List Char) : ∀ c ∈ (exponent cs).1.head?, c.isDigit = false ∧ c ≠ '.' := by
  rcases exponent_cases cs with he | ⟨mark, s, ds, he, rfl | rfl, -⟩ <;> rw [he]
  · nofun
  all_goals
    rintro c ⟨⟩
    decide

end Lexeme

namespace Decimal
open Lexeme

theorem isSome_readExponent? (cs : List Char) : (readExponent? (exponent cs).1).isSome = true := by
  rcases exponent_cases cs with he | ⟨mark, s, ds, he, hmark, hs, hdigits, hne⟩
  · rw [he]
    rfl
  · have hds : (!ds.isEmpty && ds.all Char.isDigit) = true := by simpa [hne] using hdigits
    unfold readExponent?
    rw [he]
    dsimp only
    rw [if_pos (by simpa using hmark)]
    rcases hs with rfl | rfl | rfl
    · -- Without a sign the first digit is not taken for one.
      obtain ⟨d, ds, rfl⟩ := List.exists_cons_of_ne_nil hne
      have hd : d.isDigit = true := List.all_eq_true.mp hdigits d List.mem_cons_self
      rw [List.nil_append]
      split
      · rename_i hminus
        exact absurd ((List.cons.inj hminus).1 ▸ hd) (by decide)
      · rename_i hplus
        exact absurd ((List.cons.inj hplus).1 ▸ hd) (by decide)
      · rw [if_pos hds]
        rfl
    · exact congrArg Option.isSome (if_pos hds)
    · exact congrArg Option.isSome (if_pos hds)

theorem readMagnitude?_point {whole digits power : List Char} (hwhole : whole.all Char.isDigit = true)
    (hdigits : digits.all Char.isDigit = true) (hpower : ∀ c ∈ power.head?, c.isDigit = false)
    (hne : whole = [] → digits ≠ []) : readMagnitude? (whole ++ '.' :: (digits ++ power)) =
      (readExponent? power).map fun e => Double.nearestDecimal (ofDigits (whole ++ digits)) (e - digits.length) := by
  obtain ⟨htake, hdrop⟩ := takeWhile_run hwhole (point_not_digit (digits ++ power))
  obtain ⟨htake', hdrop'⟩ := takeWhile_run hdigits hpower
  have hsome : ¬(whole.isEmpty && digits.isEmpty) = true := by simpa using hne
  unfold readMagnitude?
  rw [htake, hdrop]
  dsimp only
  split
  · rename_i heq
    cases heq
    rw [htake', hdrop', if_neg hsome]
  · rename_i hnone
    exact (hnone _ rfl).elim

theorem readMagnitude?_whole {whole power : List Char} (hwhole : whole.all Char.isDigit = true) (hne : whole ≠ [])
    (hpower : ∀ c ∈ power.head?, c.isDigit = false ∧ c ≠ '.') : readMagnitude? (whole ++ power) =
      (readExponent? power).map fun e => Double.nearestDecimal (ofDigits whole) e := by
  obtain ⟨htake, hdrop⟩ := takeWhile_run hwhole fun c hc => (hpower c hc).1
  have hsome : ¬(whole.isEmpty && true) = true := by simpa using hne
  unfold readMagnitude?
  rw [htake, hdrop]
  dsimp only
  split
  · exact ((hpower '.' rfl).2 rfl).elim
  · dsimp only [List.isEmpty_nil]
    rw [if_neg hsome]
    simp

theorem isSome_readMagnitude? {cs : List Char} (hne : (number cs).1 ≠ []) :
    (readMagnitude? (number cs).1).isSome = true := by
  have hwhole : (cs.takeWhile Char.isDigit).all Char.isDigit = true := List.all_takeWhile
  have hpower := isSome_readExponent? (mantissa cs).2
  have hhead := head_exponent (mantissa cs).2
  unfold number at hne ⊢
  dsimp only at hne ⊢
  split
  · rename_i hdigits
    rw [if_pos hdigits] at hne
    exact (hne rfl).elim
  · rename_i hdigits
    dsimp only
    generalize exponent (mantissa cs).2 = power at hpower hhead
    rw [mantissa] at hdigits ⊢
    dsimp only at hdigits ⊢
    rcases fraction_cases (!(cs.takeWhile Char.isDigit).isEmpty) (cs.dropWhile Char.isDigit) with hf | ⟨ds, hf, hds, hone⟩
    · rw [hf, List.append_nil] at hdigits ⊢
      rw [readMagnitude?_whole hwhole (by simpa using hdigits) hhead, Option.isSome_map]
      exact hpower
    · rw [hf, List.append_assoc, List.cons_append, readMagnitude?_point hwhole hds (fun c hc => (hhead c hc).1),
        Option.isSome_map]
      · exact hpower
      · intro hnil
        simpa [hnil] using hone

theorem isSome_read? {cs : List Char} (hne : (number cs).1 ≠ []) :
    (read? (String.ofList (number cs).1)).isSome = true := by
  rw [read?, String.toList_ofList, Option.isSome_map]
  exact isSome_readMagnitude? hne

end Decimal

namespace Lexeme

theorem regular_of_cut {cs text rest : List Char} {kind : Kind} (h : cut cs = some (kind, text, rest)) (offset : Nat) :
    Regular ⟨kind, String.ofList text, offset⟩ := by
  unfold cut at h
  split at h
  · cases h
  · split at h
    · rename_i hop
      cases h
      exact ⟨fun _ => ⟨_, hop, rfl⟩, fun hkind => (ofOperator_ne rfl hkind).elim, fun hkind => (ofOperator_ne rfl hkind).elim⟩
    · split at h
      · rename_i hstart
        cases h
        exact ⟨nofun, nofun, fun _ => ⟨_, _, String.toList_ofList, hstart, List.all_takeWhile⟩⟩
      · split at h
        · cases h
          exact ⟨nofun, nofun, nofun⟩
        · rename_i hne hnumber
          cases h
          refine ⟨nofun, fun _ => ?_, nofun⟩
          have hread := Decimal.isSome_read? (by rwa [hnumber])
          rwa [hnumber] at hread

theorem regular_of_mem_cutAll {start : Nat} {cs : List Char} : ∀ l ∈ cutAll start cs, l.Regular := by
  fun_induction cutAll start cs with
  | case1 => nofun
  | case2 start cs kind text rest hcut ih => exact List.forall_mem_cons.mpr ⟨regular_of_cut hcut _, ih⟩

theorem regular_of_mem_ofText {text : String} {l : Lexeme} (h : l ∈ ofText text) : l.Regular := by
  rw [ofText_eq_cutAll] at h
  exact regular_of_mem_cutAll l h

end Lexeme

end Calcbook
