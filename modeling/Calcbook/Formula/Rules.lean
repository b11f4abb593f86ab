import Calcbook.Grammar.Declare
import Calcbook.Lexeme.Basic
import Calcbook.Parsing.Token
import Calcbook.Word

/-! The grammar of formulas, and the terminals that lexemes stand for.

    The grammar has no left recursion: a chain of operators is read as its first operand and a tail, which
    is put together to the left when the tree is folded. A power takes a whole factor as its exponent, so
    powers group to the right, and a minus sign before a factor is looser than a power. -/

namespace Calcbook

/-! ### The grammar -/

namespace Formula

def nonterminalNames : List String :=
  ["S", "E", "E'", "T", "T'", "F", "P", "P'", "A", "A'", "Args", "Args'"]

def terminalNames : List String := ["+", "-", "*", "/", "%", "^", "(", ")", ",", "num", "ident"]

/-- The rules, by the names of their symbols. -/
def rules : List (String × List String) := [
  ("S", ["E"]),
  ("E", ["T", "E'"]),
  ("E'", ["+", "T", "E'"]),
  ("E'", ["-", "T", "E'"]),
  ("E'", []),
  ("T", ["F", "T'"]),
  ("T'", ["*", "F", "T'"]),
  ("T'", ["/", "F", "T'"]),
  ("T'", ["%", "F", "T'"]),
  ("T'", []),
  ("F", ["-", "F"]),
  ("F", ["P"]),
  ("P", ["A", "P'"]),
  ("P'", ["^", "F"]),
  ("P'", []),
  ("A", ["num"]),
  ("A", ["(", "E", ")"]),
  ("A", ["ident", "A'"]),
  ("A'", ["(", "Args", ")"]),
  ("A'", []),
  ("Args", ["E", "Args'"]),
  ("Args", []),
  ("Args'", [",", "E", "Args'"]),
  ("Args'", [])]

def declarations : List Declaration :=
  nonterminalNames.map (.symbol .nonterminal · true) ++ terminalNames.map (.symbol .terminal · true) ++
    rules.map fun r => .rule r.1 r.2 false

/-- The grammar of formulas. -/
def grammar : Except Defect Grammar := Grammar.ofDeclarations declarations "S"

end Formula

/-! ### Terminals of lexemes -/

/-- The word that numbers no symbol. -/
def noTerminal : Nat := Word.last

/-- The terminal of a name. The end mark is never written, so its name stands for no terminal. -/
def Grammar.terminalOf (g : Grammar) (name : String) : Nat :=
  match g.symbol? name with
  | some s => if s.isTerminal && s != g.eof then s.id else noTerminal
  | none => noTerminal

/-- The terminal that a lexeme stands for: numbers and identifiers go by their kind, operators by their
    own text. -/
def Lexeme.terminal (g : Grammar) (l : Lexeme) : Nat :=
  match l.kind with
  | .number => g.terminalOf "num"
  | .ident => g.terminalOf "ident"
  | .unknown => noTerminal
  | .operator | .openParen | .closeParen | .comma => g.terminalOf l.text

def Lexeme.token (g : Grammar) (l : Lexeme) : Token := ⟨l.terminal g, l.text, l.offset⟩

/-- The tokens of a text. -/
def Grammar.tokensOf (g : Grammar) (text : String) : List Token :=
  (Lexeme.ofText text).map (·.token g)

end Calcbook
