import Calcbook.Formula.Basic
import Calcbook.Formula.Operation

/-! The value of a formula. At a call the head is looked up first, then the arguments are evaluated from
    left to right, and the operation checks how many it got; the first fault met is the one reported. -/

namespace Calcbook

/-- Constants known by name, the latest first. -/
structure Constants where
  entries : List (String × Float)

namespace Constants

/-- The constants that are always there. -/
def default : Constants :=
  ⟨[("e", Float.ofBits 0x4005BF0A8B145769), ("pi", Float.ofBits 0x400921FB54442D18)]⟩

/-- Sets a constant, in place of an earlier one of its name. -/
def set (c : Constants) (name : String) (value : Float) : Constants := ⟨(name, value) :: c.entries⟩

def get? (c : Constants) (name : String) : Option Float := c.entries.lookup name

end Constants

namespace Formula

variable (σ : Type) [Chance σ]

mutual
/-- The value of a formula. -/
def eval (c : Constants) : Formula → Draws σ Float
  | number x => return x
  | symbol name =>
    match c.get? name with
    | some x => return x
    | none => throw (.unknownSymbol name)
  | call head args =>
    match Operation.ofHead head with
    | .ok op => do op.apply head (← evalAll c args)
    | .error e => throw e

/-- The values of formulas, from left to right. -/
def evalAll (c : Constants) : List Formula → Draws σ (List Float)
  | [] => return []
  | a :: as => do
    let x ← eval c a
    return x :: (← evalAll c as)
end

variable {σ}

/-- The value of a formula, with the random numbers of a source. -/
def value (f : Formula) (c : Constants) (gen : σ) : Except EvalFault Float := (f.eval σ c).run' gen

end Formula

end Calcbook
