import Calcbook.Grammar.Defect
import Calcbook.Grammar.First

/-! Which terminals can come right behind a nonterminal. The sets are grown by passes over the rules until
    a pass leaves their sizes as they were. They only ever grow, and there are only so many pairs of a
    nonterminal and a terminal, which bounds the number of passes. -/

namespace Calcbook.Grammar

/-- A set of terminals for each of some nonterminals. -/
structure Family where
  entries : List (Nat × IdSet)

namespace Family

/-- Empty sets for the given nonterminals. -/
def ofIds (ids : List Nat) : Family := ⟨ids.map fun id => (id, ∅)⟩

/-- The set of a nonterminal. -/
def get (f : Family) (id : Nat) : IdSet := (f.entries.lookup id).getD ∅

/-- Adds to the set of a nonterminal. -/
def add (f : Family) (id : Nat) (s : IdSet) : Family :=
  ⟨f.entries.map fun e => if e.1 == id then (e.1, e.2 ∪ s) else e⟩

/-- The sizes of all the sets together. -/
def cardinality (f : Family) : Nat := OrdSet.cardinality (f.entries.map (·.2))

end Family

/-- What can come behind a symbol of a rule for `lhs` when `rest` is the rest of the right side: what
    begins the rest, and what follows the left side if the rest can vanish. -/
def behind (g : Grammar) (follow : Family) (lhs : Nat) (rest : List Symbol) : IdSet :=
  if g.nullable rest then g.first rest ∪ follow.get lhs else g.first rest

/-- Adds what comes behind each nonterminal of a right side. -/
def followAlong (g : Grammar) (lhs : Nat) : List Symbol → Family → Family
  | [], follow => follow
  | x :: rest, follow =>
    g.followAlong lhs rest
      (if x.isTerminal then follow else follow.add x.id (g.behind follow lhs rest))

/-- Adds what comes behind each nonterminal of each rule. -/
def followPass (g : Grammar) (follow : Family) : Family :=
  g.rules.foldl (fun f r => g.followAlong r.lhs.id r.rhs f) follow

/-- Runs at most the given number of passes; none when the last of them still added something. -/
def settle? (g : Grammar) : Nat → Family → Option Family
  | 0, _ => none
  | n + 1, follow =>
    let grown := g.followPass follow
    if grown.cardinality = follow.cardinality then some grown else g.settle? n grown

/-- At the outset the end mark follows the start symbol. -/
def followSeed (g : Grammar) : Family :=
  (Family.ofIds (g.nonterminals.map (·.id))).add g.start.id (.singleton g.eof.id)

/-- A pass for every pair of a nonterminal and a terminal, and one that finds nothing new. -/
def maxPasses (g : Grammar) : Nat := g.nonterminals.length * g.terminals.length + 1

/-- The FOLLOW sets of a grammar. -/
def follow (g : Grammar) : Except Defect Family :=
  match g.settle? g.maxPasses g.followSeed with
  | some follow => .ok follow
  | none => .error (.followDiverged g.maxPasses)

end Calcbook.Grammar
