import Calcbook.Parsing.Fold

/-! What can keep a formula from having a value. -/

namespace Calcbook

/-- How many arguments an operation takes. -/
inductive Arity
  | one | two | oneOrMore
  deriving DecidableEq

namespace Arity

def text : Arity → String
  | one => "1"
  | two => "2"
  | oneOrMore => "at least 1"

/-- Whether a number of arguments is allowed. -/
def admits : Arity → Nat → Bool
  | one, n => n == 1
  | two, n => n == 2
  | oneOrMore, n => 1 ≤ n

end Arity

/-- Why a formula has no value, or why a text that parses gives no formula. -/
inductive EvalFault
  | unknownSymbol (name : String)
  | unknownFunction (name : String)
  | wrongNumberOfArgs (name : String) (expected : Arity) (got : Nat)
  | unreadable (why : FoldFault)
  deriving DecidableEq

/-- The wording of a fault. -/
def EvalFault.message : EvalFault → String
  | unknownSymbol name => s!"Unknown symbol: {name}"
  | unknownFunction name => s!"Unknown function: {name}"
  | wrongNumberOfArgs name expected got =>
    s!"{name} expects {expected.text} argument(s), got {got}"
  | unreadable why => why.message

end Calcbook
