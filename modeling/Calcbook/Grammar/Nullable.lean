import Calcbook.Grammar.Basic

/-! Which strings of symbols derive the empty string. A nonterminal that is being expanded already is
    not expanded once more: a derivation that repeats a nonterminal on one of its paths can be cut short,
    so nothing is lost. A path without repetition expands no more nonterminals than there are rules, which
    bounds the search. -/

namespace Calcbook.Grammar

/-- Whether a symbol derives the empty string through at most `n` levels of expansions, none of which
    expands a nonterminal inside its own expansion or one of `expanding`. -/
def vanishes (g : Grammar) : Nat → List Nat → Symbol → Bool
  | 0, _, _ => false
  | n + 1, expanding, x =>
    !x.isTerminal && x.id ∉ expanding &&
      (g.rulesOf x.id).any fun r => r.rhs.all (g.vanishes n (x.id :: expanding))

/-- The levels of expansions that a path without repetition can have. -/
def levels (g : Grammar) : Nat := g.rules.length

/-- Whether a string of symbols derives the empty string. -/
def nullable (g : Grammar) (α : List Symbol) : Bool := α.all (g.vanishes g.levels [])

end Calcbook.Grammar
