import Calcbook.Lexeme.Cursor
import Calcbook.Text.Alphabetic
import Calcbook.Text.Numeric

/-! Scanning characters: the lexemes of arithmetic that a cursor recognises where it stands. A scan that
    finds its lexeme drops it from the cursor and answers its text; a scan that does not puts the cursor
    back. -/

namespace Calcbook

/-! ### Classes of characters -/

/-- The blanks between lexemes. -/
def isBlank (c : Char) : Bool := c == ' ' || c == '\n' || c == '\r' || c == '\t'

/-- The operators of one character, brackets and the comma among them. -/
def isOperator (c : Char) : Bool := ['+', '-', '*', '/', '%', '^', '(', ')', ',', '='].contains c

/-- The characters that begin an identifier. -/
def isIdentStart (c : Char) : Bool := Text.isAlphabetic c || c == '_'

/-- The characters that continue an identifier. -/
def isIdentPart (c : Char) : Bool := Text.isAlphabetic c || Text.isNumeric c || c == '_'

namespace Cursor

/-- Answers the text shown and drops it. -/
def takeText (c : Cursor Char) : String × Cursor Char := (String.ofList c.view, c.dropShown)

/-- Drops the blanks ahead. -/
def dropBlanks (c : Cursor Char) : Cursor Char := (c.skipWhile isBlank).dropShown

/-! ### Numbers -/

/-- Moves on over a decimal point and the digits behind it. The point belongs to the number when there
    are digits on at least one side of it. -/
def skipFraction (whole : Bool) (c : Cursor Char) : Cursor Char :=
  match c.accept '.' with
  | (none, c') => c'
  | (some _, c') =>
    let (digits, c'') := c'.skipRun Char.isDigit
    if whole || digits then c'' else c''.backTo c.shown

/-- Moves on over the digits of a number, the decimal point among them. -/
def skipMantissa (c : Cursor Char) : Cursor Char :=
  let (whole, c') := c.skipRun Char.isDigit
  c'.skipFraction whole

/-- Moves on over an exponent, which must have digits. -/
def skipExponent (c : Cursor Char) : Cursor Char :=
  match c.acceptAny ['e', 'E'] with
  | (none, c') => c'
  | (some _, c') =>
    let (digits, c'') := (c'.acceptAny ['+', '-']).2.skipRun Char.isDigit
    if digits then c'' else c''.backTo c.shown

/-- The unsigned number ahead: digits with an optional fraction, or a fraction alone, and an optional
    exponent. -/
def takeNumber (c : Cursor Char) : Option String × Cursor Char :=
  let c' := c.skipMantissa
  if c'.shown = c.shown then (none, c')
  else
    let (text, c'') := c'.skipExponent.takeText
    (some text, c'')

/-! ### Operators and identifiers -/

/-- The operator ahead. -/
def takeOperator (c : Cursor Char) : Option String × Cursor Char :=
  match c.acceptIf isOperator with
  | (none, c') => (none, c')
  | (some _, c') =>
    let (text, c'') := c'.takeText
    (some text, c'')

/-- The identifier ahead. -/
def takeIdent (c : Cursor Char) : Option String × Cursor Char :=
  match c.acceptIf isIdentStart with
  | (none, c') => (none, c')
  | (some _, c') =>
    let (text, c'') := (c'.skipWhile isIdentPart).takeText
    (some text, c'')

/-! ### A scan uses up what it answers -/

theorem ahead_skipFraction (whole : Bool) {c : Cursor Char} (h : c.shown ≤ c.buffer.size) :
    Ahead c (c.skipFraction whole) := by
  have hdot := ahead_acceptIf (· == '.') h
  rw [skipFraction, accept]
  split
  · rename_i c' hc
    rwa [hc] at hdot
  · rename_i x c' hc
    rw [hc] at hdot
    have hdigits := hdot.trans (ahead_skipWhile Char.isDigit hdot.shown_le_size)
    exact hdigits.orBack _

theorem ahead_skipExponent {c : Cursor Char} (h : c.shown ≤ c.buffer.size) :
    Ahead c c.skipExponent := by
  have hmark := ahead_acceptIf (['e', 'E'].contains ·) h
  rw [skipExponent, acceptAny]
  split
  · rename_i c' hc
    rwa [hc] at hmark
  · rename_i x c' hc
    rw [hc] at hmark
    have hsign := hmark.trans (ahead_acceptIf (['+', '-'].contains ·) hmark.shown_le_size)
    have hdigits := hsign.trans (ahead_skipWhile Char.isDigit hsign.shown_le_size)
    exact hdigits.orBack _

theorem ahead_skipMantissa {c : Cursor Char} (h : c.shown ≤ c.buffer.size) :
    Ahead c c.skipMantissa :=
  have hwhole := ahead_skipWhile Char.isDigit h
  hwhole.trans (ahead_skipFraction _ hwhole.shown_le_size)

theorem left_takeNumber_lt {c : Cursor Char} {t : String} (h : c.shown ≤ c.buffer.size)
    (hs : c.takeNumber.1 = some t) : c.takeNumber.2.left < c.left := by
  have hmantissa := ahead_skipMantissa h
  have hexponent := ahead_skipExponent hmantissa.shown_le_size
  have := hmantissa.shown_le
  have := hexponent.shown_le
  by_cases hne : c.skipMantissa.shown = c.shown
  · simp [takeNumber, hne] at hs
  · simp only [takeNumber, hne, if_false]
    exact (hmantissa.trans hexponent).left_dropShown_lt (by omega)

theorem left_takeOperator_lt {c : Cursor Char} {t : String} (h : c.shown ≤ c.buffer.size)
    (hs : c.takeOperator.1 = some t) : c.takeOperator.2.left < c.left := by
  have hahead := ahead_acceptIf isOperator h
  have hsome := @acceptIf_eq_some Char isOperator c
  rw [takeOperator] at hs ⊢
  split at hs
  · simp at hs
  · rename_i x c' hc
    rw [hc] at hahead hsome
    have hmoved := hsome rfl
    dsimp only at hmoved
    exact hahead.left_dropShown_lt (by dsimp only; omega)

theorem left_takeIdent_lt {c : Cursor Char} {t : String} (h : c.shown ≤ c.buffer.size)
    (hs : c.takeIdent.1 = some t) : c.takeIdent.2.left < c.left := by
  have hahead := ahead_acceptIf isIdentStart h
  have hsome := @acceptIf_eq_some Char isIdentStart c
  rw [takeIdent] at hs ⊢
  split at hs
  · simp at hs
  · rename_i x c' hc
    rw [hc] at hahead hsome
    have hmoved := hsome rfl
    dsimp only at hmoved
    have hparts := ahead_skipWhile isIdentPart hahead.shown_le_size
    have := hparts.shown_le
    dsimp only at this
    exact (hahead.trans hparts).left_dropShown_lt (by dsimp only; omega)

/-! ### A scan that finds nothing drops nothing -/

theorem ahead_takeNumber_of_eq_none {c : Cursor Char} (h : c.shown ≤ c.buffer.size)
    (hs : c.takeNumber.1 = none) : Ahead c c.takeNumber.2 := by
  have hmantissa := ahead_skipMantissa h
  by_cases hne : c.skipMantissa.shown = c.shown
  · simpa only [takeNumber, hne, if_true] using hmantissa
  · simp [takeNumber, hne] at hs

theorem ahead_takeOperator_of_eq_none {c : Cursor Char} (h : c.shown ≤ c.buffer.size)
    (hs : c.takeOperator.1 = none) : Ahead c c.takeOperator.2 := by
  have hahead := ahead_acceptIf isOperator h
  rw [takeOperator] at hs ⊢
  split at hs
  · rename_i c' hc
    rwa [hc] at hahead
  · simp at hs

theorem ahead_takeIdent_of_eq_none {c : Cursor Char} (h : c.shown ≤ c.buffer.size)
    (hs : c.takeIdent.1 = none) : Ahead c c.takeIdent.2 := by
  have hahead := ahead_acceptIf isIdentStart h
  rw [takeIdent] at hs ⊢
  split at hs
  · rename_i c' hc
    rwa [hc] at hahead
  · simp at hs

end Cursor

end Calcbook
