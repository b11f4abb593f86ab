import Calcbook.Grammar.Symbol
import Calcbook.OrdSet

/-! Grammars: numbered symbols, the rules between them, a start symbol, and the terminal that marks the
    end of the input. -/

namespace Calcbook

/-- A grammar. The number of a symbol is its place among the symbols. -/
structure Grammar where
  start : Symbol
  eof : Symbol
  symbols : List Symbol
  rules : List Rule

namespace Grammar

/-- The symbol of a name. -/
def symbol? (g : Grammar) (name : String) : Option Symbol := g.symbols.find? (·.name == name)

/-- The rules that expand the nonterminal of a number, in order. -/
def rulesOf (g : Grammar) (lhs : Nat) : List Rule := g.rules.filter (·.lhs.id == lhs)

def terminals (g : Grammar) : List Symbol := g.symbols.filter (·.isTerminal)

def nonterminals (g : Grammar) : List Symbol := g.symbols.filter (!·.isTerminal)

/-- The name of the symbol of a number. -/
def nameOf (g : Grammar) (id : Nat) : String :=
  match g.symbols[id]? with
  | some s => s.name
  | none => ""

/-- The rules of a grammar, one a line. -/
def text (g : Grammar) : String := String.join (g.rules.map fun r => r.text ++ "\n")

/-- A set of symbols, by their numbers. -/
abbrev IdSet := OrdSet Nat

/-- The names of a set of symbols, separated by single blanks. -/
def namesOf (g : Grammar) (ids : IdSet) : String := " ".intercalate (ids.toList.map g.nameOf)

theorem mem_rulesOf {g : Grammar} {id : Nat} {r : Rule} :
    r ∈ g.rulesOf id ↔ r ∈ g.rules ∧ r.lhs.id = id := by
  simp [rulesOf]

end Grammar

end Calcbook
