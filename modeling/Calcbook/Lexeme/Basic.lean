import Calcbook.Lexeme.Forms

/-! Lexemes of arithmetic: a text is cut into operators, identifiers and numbers, and every character
    that begins none of them stands alone. Each lexeme keeps the place where it starts, counted in
    characters. The cut ends because every lexeme uses up a character. -/

namespace Calcbook

/-- What a lexeme is. -/
inductive Lexeme.Kind
  | unknown | number | ident | operator | openParen | closeParen | comma
  deriving DecidableEq

/-- A piece of a text, with the place of its first character. -/
structure Lexeme where
  kind : Lexeme.Kind
  text : String
  offset : Nat
  deriving DecidableEq

/-- Brackets and the comma are told from the operators proper. -/
def Lexeme.Kind.ofOperator (text : String) : Lexeme.Kind :=
  if text = "(" then .openParen
  else if text = ")" then .closeParen
  else if text = "," then .comma
  else .operator

/-- All that a step yields until it yields nothing. The step uses up some of its state every time. -/
def exhaust {σ α : Type} (step : σ → Option (α × σ)) (size : σ → Nat)
    (shrinks : ∀ {s s' a}, step s = some (a, s') → size s' < size s) (s : σ) : List α :=
  match _h : step s with
  | some (a, s') => a :: exhaust step size shrinks s'
  | none => []
termination_by size s
decreasing_by exact shrinks _h

namespace Cursor

/-- The next lexeme and the cursor behind it; none when only blanks are left. -/
def lexeme? (c : Cursor Char) : Option (Lexeme × Cursor Char) :=
  let start := c.dropBlanks
  match start.takeOperator with
  | (some t, c') => some (⟨.ofOperator t, t, start.offset⟩, c')
  | (none, c₁) =>
    match c₁.takeIdent with
    | (some t, c') => some (⟨.ident, t, start.offset⟩, c')
    | (none, c₂) =>
      match c₂.takeNumber with
      | (some t, c') => some (⟨.number, t, start.offset⟩, c')
      | (none, c₃) =>
        match c₃.next with
        | (some _, c₄) =>
          let (t, c') := c₄.takeText
          some (⟨.unknown, t, start.offset⟩, c')
        | (none, _) => none

theorem left_dropBlanks_le (c : Cursor Char) : c.dropBlanks.left ≤ c.left := by
  have hleft : (c.skipWhile isBlank).left = c.left := by
    fun_induction skipWhile isBlank c with
    | case1 c x c' hc ih =>
      have := @acceptIf_eq_some Char isBlank c x
      rw [hc] at this
      exact ih.trans (this rfl).2.2
    | case2 c c' hc =>
      have := left_acceptIf isBlank c
      rwa [hc] at this
  have := left_dropShown (c.skipWhile isBlank)
  rw [dropBlanks]
  omega

theorem left_lexeme?_lt {c c' : Cursor Char} {l : Lexeme} (h : c.lexeme? = some (l, c')) :
    c'.left < c.left := by
  refine Nat.lt_of_lt_of_le ?_ (left_dropBlanks_le c)
  have hstart : c.dropBlanks.shown ≤ c.dropBlanks.buffer.size := Nat.zero_le _
  rw [lexeme?] at h
  revert h hstart
  generalize c.dropBlanks = start
  intro h hstart
  dsimp only at h
  have hop := @left_takeOperator_lt start
  have hop' := @ahead_takeOperator_of_eq_none start hstart
  split at h
  · rename_i t d hd
    rw [hd] at hop
    simp only [Option.some.injEq, Prod.mk.injEq] at h
    exact h.2 ▸ hop hstart rfl
  · rename_i c₁ hd
    rw [hd] at hop'
    have hone := hop' rfl
    have hid := @left_takeIdent_lt c₁
    have hid' := @ahead_takeIdent_of_eq_none c₁ hone.shown_le_size
    have hleft₁ := hone.left_eq
    dsimp only at hleft₁
    split at h
    · rename_i t d hd
      rw [hd] at hid
      simp only [Option.some.injEq, Prod.mk.injEq] at h
      have := hid hone.shown_le_size rfl
      dsimp only at this
      rw [← h.2]
      omega
    · rename_i c₂ hd
      rw [hd] at hid'
      have htwo := hid' rfl
      have hnum := @left_takeNumber_lt c₂
      have hnum' := @ahead_takeNumber_of_eq_none c₂ htwo.shown_le_size
      have hleft₂ := htwo.left_eq
      dsimp only at hleft₂
      split at h
      · rename_i t d hd
        rw [hd] at hnum
        simp only [Option.some.injEq, Prod.mk.injEq] at h
        have := hnum htwo.shown_le_size rfl
        dsimp only at this
        rw [← h.2]
        omega
      · rename_i c₃ hd
        rw [hd] at hnum'
        have hthree := hnum' rfl
        have hleft₃ := hthree.left_eq
        dsimp only at hleft₃
        have hnext := @shown_next_of_eq_some Char c₃
        have hleft := left_next c₃
        split at h
        · rename_i x c₄ hd
          rw [hd] at hnext hleft
          have hmoved := hnext rfl
          dsimp only at hmoved hleft
          have hsize : c₄.buffer.size ≤ c₄.left := by simp [left]
          have hign := left_dropShown c₄
          simp only [takeText, Option.some.injEq, Prod.mk.injEq] at h
          rw [← h.2]
          omega
        · simp at h

/-- All the lexemes ahead. -/
def lexemes (c : Cursor Char) : List Lexeme := exhaust lexeme? left left_lexeme?_lt c

end Cursor

/-- The lexemes of a text, in order. -/
def Lexeme.ofText (text : String) : List Lexeme := (Cursor.ofList text.toList).lexemes

end Calcbook
