import Calcbook.Formula.Fault
import Calcbook.Grammar.Defect

/-! Everything that can go wrong with an input of a book. -/

namespace Calcbook

/-- Why there is no answer. -/
inductive Failure
  | grammar (why : Defect)
  | rejected (why : Rejection)
  | eval (why : EvalFault)
  | exhausted (number : Nat)
  deriving DecidableEq

/-- The wording of a failure. -/
def Failure.message : Failure → String
  | grammar why => s!"Grammar error: {why.message}"
  | rejected why => s!"Syntax error: {why.message}"
  | eval why => s!"Eval error: {why.message}"
  | exhausted number => s!"No input numbers left after In[{number}]"

end Calcbook
