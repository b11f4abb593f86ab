/-! Symbols and rules. A symbol is known by its number within its grammar and a rule by its two sides,
    whatever else they carry. -/

namespace Calcbook

/-- Whether a symbol is matched as it stands or expanded by rules. -/
inductive Symbol.Kind
  | terminal | nonterminal
  deriving DecidableEq

/-- A symbol of a grammar. -/
structure Symbol where
  id : Nat
  kind : Symbol.Kind
  name : String

namespace Symbol

/-- Symbols are compared by their numbers alone. -/
instance : BEq Symbol := ⟨fun a b => a.id == b.id⟩

def isTerminal (s : Symbol) : Bool := s.kind == .terminal

/-- A symbol with its kind spelled out. -/
def describe (s : Symbol) : String :=
  match s.kind with
  | .terminal => "Term(" ++ s.name ++ ")"
  | .nonterminal => "NonTerm(" ++ s.name ++ ")"

/-- The names of symbols, separated by single blanks. -/
def names (symbols : List Symbol) : String := " ".intercalate (symbols.map name)

end Symbol

/-- A rule that expands its left side into its right side, with its place among the rules. -/
structure Rule where
  index : Nat
  lhs : Symbol
  rhs : List Symbol

namespace Rule

/-- Rules are compared by their two sides, their places do not count. -/
instance : BEq Rule := ⟨fun a b => a.lhs == b.lhs && a.rhs == b.rhs⟩

/-- The text of a rule; an empty right side leaves the blank behind the arrow. -/
def text (r : Rule) : String := r.lhs.name ++ " -> " ++ Symbol.names r.rhs

end Rule

end Calcbook
