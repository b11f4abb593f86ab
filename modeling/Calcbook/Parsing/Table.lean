import Calcbook.Grammar.Analysis

/-! Parse tables: the rule to expand for a nonterminal and one symbol of lookahead. Rules take their
    lookaheads in order, and a lookahead taken by two rules makes the grammar unfit for such a table. -/

namespace Calcbook

/-- The rules chosen for pairs of a nonterminal and a lookahead. -/
abbrev Choices := List ((Nat × Nat) × Rule)

/-- Enters a rule under a lookahead. -/
def Choices.enter (g : Grammar) (r : Rule) (choices : Choices) (lookahead : Nat) :
    Except Defect Choices :=
  match choices.lookup (r.lhs.id, lookahead) with
  | none => .ok (((r.lhs.id, lookahead), r) :: choices)
  | some earlier =>
    if earlier == r then .ok choices
    else .error (.conflict r.lhs.name (g.nameOf lookahead) earlier.text r.text)

/-- A grammar with the rule to expand for each nonterminal and lookahead. -/
structure ParseTable where
  grammar : Grammar
  choices : Choices

namespace ParseTable

/-- The table of an analysed grammar. -/
def ofAnalysis (a : Analysis) : Except Defect ParseTable := do
  let choices ← a.grammar.rules.foldlM
    (fun choices r => (a.lookaheadsOf r).toList.foldlM (Choices.enter a.grammar r) choices) []
  return ⟨a.grammar, choices⟩

/-- The table of a grammar. -/
def ofGrammar (g : Grammar) : Except Defect ParseTable := Analysis.ofGrammar g >>= ofAnalysis

/-- The rule to expand. -/
def get? (t : ParseTable) (nonterminal lookahead : Nat) : Option Rule :=
  t.choices.lookup (nonterminal, lookahead)

/-- The terminals that a nonterminal can be expanded for, in order. -/
def expected (t : ParseTable) (nonterminal : Nat) : List Symbol :=
  t.grammar.terminals.filter fun s => (t.get? nonterminal s.id).isSome

/-- The number of entries. -/
def size (t : ParseTable) : Nat := t.choices.length

/-- The entries, one a line, by nonterminals and lookaheads. -/
def text (t : ParseTable) : String :=
  String.join <| t.grammar.nonterminals.flatMap fun a =>
    t.grammar.terminals.filterMap fun s =>
      (t.get? a.id s.id).map fun r => "[" ++ a.name ++ ", " ++ s.name ++ "] " ++ r.text ++ "\n"

end ParseTable

end Calcbook
