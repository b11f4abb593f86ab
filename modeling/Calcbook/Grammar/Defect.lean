/-! What can be wrong with a grammar: mistakes in its declaration, and rules between which one symbol of
    lookahead cannot choose. -/

namespace Calcbook

/-- Why a list of declarations makes no grammar, or a grammar no parse table. -/
inductive Defect
  | missingSymbol (name : String)
  | duplicateSymbol (name : String)
  | duplicateRule (rule : String)
  | terminalHead (name : String)
  | noStartRule (name : String)
  | conflict (nonterminal lookahead first second : String)
  | followDiverged (passes : Nat)
  deriving DecidableEq

/-- The wording of a defect. -/
def Defect.message : Defect → String
  | missingSymbol name => s!"Missing Symbol: {name}"
  | duplicateSymbol name => s!"Duplicate Symbol: {name}"
  | duplicateRule rule => s!"Duplicate Rule: {rule}"
  | terminalHead name => s!"Terminal can't head a rule: {name}"
  | noStartRule name => s!"No rules for start symbol: {name}"
  | conflict nonterminal lookahead first second =>
    s!"Grammar is not LL(1): `{first}` and `{second}` both predicted by `{lookahead}` for {nonterminal}"
  | followDiverged passes => s!"FOLLOW sets still growing after {passes} passes"

end Calcbook
