import Calcbook.Proofs.Formula.Table
import Calcbook.Proofs.Lexeme.Regular
import Mathlib.Data.Bool.AllAny

/-! The terminals of lexemes in the grammar of formulas. A mark stands for the terminal of its text, numbers and
    identifiers for a terminal of their kind, and no other lexeme for one of these. -/

namespace Calcbook.Formula

/-- The terminals of operators, brackets and the comma. -/
def marks : List Symbol :=
  [Sym.plus, Sym.minus, Sym.times, Sym.divide, Sym.mod, Sym.caret, Sym.openParen, Sym.closeParen, Sym.comma]

theorem terminalOf_marks : ∀ s ∈ marks, language.terminalOf s.name = s.id := by decide

/-- A character that is an operator stands for the terminal of its own text or for none. -/
theorem terminalOf_operator {c : Char} (hc : isOperator c = true) :
    (∀ s ∈ marks, language.terminalOf (String.ofList [c]) = s.id → String.ofList [c] = s.name) ∧
      ∀ s ∈ [Sym.number, Sym.ident], language.terminalOf (String.ofList [c]) ≠ s.id := by
  have hall : ∀ c ∈ ['+', '-', '*', '/', '%', '^', '(', ')', ',', '='],
      (∀ s ∈ marks, language.terminalOf (String.ofList [c]) = s.id → String.ofList [c] = s.name) ∧
        ∀ s ∈ [Sym.number, Sym.ident], language.terminalOf (String.ofList [c]) ≠ s.id :=
    List.all_iff_forall_prop.mp (by decide)
  exact hall c (List.contains_iff_mem.mp hc)

variable {l : Lexeme} {s : Symbol}

theorem terminal_of_isMark (h : l.kind.isMark = true) : l.terminal language = language.terminalOf l.text := by
  cases hkind : l.kind <;> rw [hkind] at h
  case operator | openParen | closeParen | comma => rw [Lexeme.terminal, hkind]
  all_goals cases h

theorem terminal_of_number (h : l.kind = .number) : l.terminal language = Sym.number.id := by
  have hname : language.terminalOf "num" = Sym.number.id := by decide
  rw [Lexeme.terminal, h]
  exact hname

theorem terminal_of_ident (h : l.kind = .ident) : l.terminal language = Sym.ident.id := by
  have hname : language.terminalOf "ident" = Sym.ident.id := by decide
  rw [Lexeme.terminal, h]
  exact hname

theorem terminal_of_unknown (h : l.kind = .unknown) : l.terminal language = noTerminal := by
  rw [Lexeme.terminal, h]

theorem terminal_of_mark (hs : s ∈ marks) (h : l.isMark s.name = true) : l.terminal language = s.id := by
  obtain ⟨hkind, htext⟩ := Bool.and_eq_true_iff.mp h
  rw [terminal_of_isMark hkind, eq_of_beq htext, terminalOf_marks s hs]

theorem terminal_cases (hl : l.Regular) :
    (l.kind.isMark = true ∧ ∃ c, isOperator c = true ∧ l.text = String.ofList [c] ∧
      l.terminal language = language.terminalOf (String.ofList [c])) ∨
    (l.kind = .number ∧ l.terminal language = Sym.number.id) ∨
    (l.kind = .ident ∧ l.terminal language = Sym.ident.id) ∨ l.terminal language = noTerminal := by
  cases hmark : l.kind.isMark with
  | true =>
    obtain ⟨c, hc, htext⟩ := hl.mark hmark
    exact Or.inl ⟨rfl, c, hc, htext, htext ▸ terminal_of_isMark hmark⟩
  | false =>
    cases hkind : l.kind <;> rw [hkind] at hmark
    case number => exact Or.inr (Or.inl ⟨rfl, terminal_of_number hkind⟩)
    case ident => exact Or.inr (Or.inr (Or.inl ⟨rfl, terminal_of_ident hkind⟩))
    case unknown => exact Or.inr (Or.inr (Or.inr (terminal_of_unknown hkind)))
    all_goals cases hmark

theorem isMark_of_terminal (hl : l.Regular) (hs : s ∈ marks) (h : l.terminal language = s.id) :
    l.isMark s.name = true := by
  have hids : ∀ s ∈ marks, Sym.number.id ≠ s.id ∧ Sym.ident.id ≠ s.id ∧ noTerminal ≠ s.id := by decide
  rcases terminal_cases hl with ⟨hmark, c, hc, htext, hterminal⟩ | ⟨-, hterminal⟩ | ⟨-, hterminal⟩ | hterminal <;>
    rw [hterminal] at h
  · exact Bool.and_eq_true_iff.mpr ⟨hmark, beq_iff_eq.mpr (htext.trans ((terminalOf_operator hc).1 s hs h))⟩
  · exact ((hids s hs).1 h).elim
  · exact ((hids s hs).2.1 h).elim
  · exact ((hids s hs).2.2 h).elim

theorem kind_of_terminal_number (hl : l.Regular) (h : l.terminal language = Sym.number.id) : l.kind = .number := by
  rcases terminal_cases hl with ⟨-, c, hc, -, hterminal⟩ | ⟨hkind, -⟩ | ⟨-, hterminal⟩ | hterminal
  · exact ((terminalOf_operator hc).2 Sym.number (by simp) (hterminal.symm.trans h)).elim
  · exact hkind
  · exact absurd (hterminal.symm.trans h) (by decide)
  · exact absurd (hterminal.symm.trans h) (by decide)

theorem kind_of_terminal_ident (hl : l.Regular) (h : l.terminal language = Sym.ident.id) : l.kind = .ident := by
  rcases terminal_cases hl with ⟨-, c, hc, -, hterminal⟩ | ⟨-, hterminal⟩ | ⟨hkind, -⟩ | hterminal
  · exact ((terminalOf_operator hc).2 Sym.ident (by simp) (hterminal.symm.trans h)).elim
  · exact absurd (hterminal.symm.trans h) (by decide)
  · exact hkind
  · exact absurd (hterminal.symm.trans h) (by decide)

end Calcbook.Formula
