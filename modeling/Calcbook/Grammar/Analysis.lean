import Calcbook.Grammar.Follow
import Calcbook.Text.Columns

/-! The analysis of a grammar: which nonterminals vanish, what begins and follows them, and which
    lookahead each rule is chosen by. -/

namespace Calcbook

/-- The lookaheads that choose a rule: what begins its right side, and what follows its left side if the
    right side can vanish. -/
def Grammar.lookaheads (g : Grammar) (follow : Grammar.Family) (r : Rule) : Grammar.IdSet :=
  g.behind follow r.lhs.id r.rhs

/-- What is known of a grammar. The lookaheads are in the order of the rules. -/
structure Analysis where
  grammar : Grammar
  nullable : Grammar.IdSet
  first : Grammar.Family
  follow : Grammar.Family
  lookaheads : List Grammar.IdSet

namespace Analysis

/-- Analyses a grammar. -/
def ofGrammar (g : Grammar) : Except Defect Analysis := do
  let follow ← g.follow
  return {
    grammar := g
    nullable := .ofList ((g.nonterminals.filter fun x => g.nullable [x]).map (·.id))
    first := ⟨g.nonterminals.map fun x => (x.id, g.first [x])⟩
    follow := follow
    lookaheads := g.rules.map (g.lookaheads follow) }

/-- Whether a nonterminal derives the empty string. -/
def isNullable (a : Analysis) (id : Nat) : Bool := id ∈ a.nullable

/-- The lookaheads that choose a rule. -/
def lookaheadsOf (a : Analysis) (r : Rule) : Grammar.IdSet := a.lookaheads[r.index]?.getD ∅

/-! ### The report -/

/-- The line of a nonterminal. -/
def symbolRow (a : Analysis) (x : Symbol) : String :=
  Text.row [(12, x.name), (9, toString (a.isNullable x.id)), (24, a.grammar.namesOf (a.first.get x.id))]
    (a.grammar.namesOf (a.follow.get x.id))

/-- The line of a rule. -/
def ruleRow (a : Analysis) (r : Rule) : String :=
  Text.row [(36, r.text)] ("PREDICT " ++ a.grammar.namesOf (a.lookaheadsOf r))

/-- The analysis as a table of the nonterminals and a table of the rules. -/
def text (a : Analysis) : String :=
  let header := Text.row [(12, ""), (9, "nullable"), (24, "FIRST")] "FOLLOW"
  let lines := header :: a.grammar.nonterminals.map a.symbolRow ++ "" :: a.grammar.rules.map a.ruleRow
  String.join (lines.map (· ++ "\n"))

end Analysis

end Calcbook
