import Calcbook.Grammar.Nullable

/-! Which terminals can begin what a string of symbols derives. As with the empty string, a nonterminal
    that is being expanded already adds nothing more along its path, while what stands behind a nullable
    nonterminal is looked at all the same. -/

namespace Calcbook.Grammar

/-- What begins a string, given what begins each symbol: the terminals of its first symbol, and as long
    as the symbols before can vanish, those of the next one too. -/
def firstAlong (g : Grammar) (heads : Symbol → IdSet) : List Symbol → IdSet
  | [] => ∅
  | x :: rest => if g.nullable [x] then heads x ∪ g.firstAlong heads rest else heads x

/-- The terminals that begin what a symbol derives through at most `n` levels of expansions, none of
    which expands a nonterminal inside its own expansion or one of `expanding`. -/
def heads (g : Grammar) : Nat → List Nat → Symbol → IdSet
  | 0, _, x => if x.isTerminal then .singleton x.id else ∅
  | n + 1, expanding, x =>
    if x.isTerminal then .singleton x.id
    else if x.id ∈ expanding then ∅
    else .unionAll ((g.rulesOf x.id).map fun r => g.firstAlong (g.heads n (x.id :: expanding)) r.rhs)

/-- The terminals that can begin what a string of symbols derives. -/
def first (g : Grammar) (α : List Symbol) : IdSet := g.firstAlong (g.heads g.levels []) α

end Calcbook.Grammar
