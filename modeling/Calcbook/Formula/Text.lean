import Calcbook.Decimal.Text
import Calcbook.Formula.Basic

/-! Formulas as text. Operators with the right number of operands are written between or before them, and
    an operand is put in brackets where it would be taken apart otherwise. -/

namespace Calcbook.Formula

/-- The sign written between the operands of a head. -/
def sign? : String → Option String
  | "Plus" => some " + "
  | "Minus" => some " - "
  | "Times" => some " * "
  | "Divide" => some " / "
  | "Mod" => some " % "
  | "Power" => some " ^ "
  | _ => none

/-- How loosely a call of some arguments holds together; calls that bring brackets of their own are as
    tight as a number. -/
def callLooseness (head : String) (arity : Nat) : Nat :=
  match head, arity with
  | "Power", 2 => 40
  | "Negate", 1 => 45
  | "Times", 2 | "Divide", 2 | "Mod", 2 => 60
  | "Plus", 2 | "Minus", 2 => 70
  | _, _ => 0

/-- How loosely a formula holds together; a negative number as loosely as a negation. -/
def looseness : Formula → Nat
  | number x => if x < 0 then 45 else 0
  | symbol _ => 0
  | call head args => callLooseness head args.length

/-- A text, in brackets if need be. -/
def bracketed (brackets : Bool) (s : String) : String := if brackets then "(" ++ s ++ ")" else s

/-- The text of a call, from the texts of its arguments and how loosely they hold together. Powers group
    to the right and all other operators to the left. -/
def callText (head : String) (args : List (Nat × String)) : String :=
  let whole := callLooseness head args.length
  match head, sign? head, args with
  | "Negate", _, [(p, arg)] => "-" ++ bracketed (p > whole) arg
  | _, some sign, [(l, left), (r, right)] =>
    let groupsRight := head == "Power"
    bracketed (l > whole || (l == whole && groupsRight)) left ++ sign ++
      bracketed (r > whole || (r == whole && !groupsRight)) right
  | _, _, _ => head ++ "(" ++ ", ".intercalate (args.map (·.2)) ++ ")"

mutual
/-- The text of a formula. -/
def text : Formula → String
  | number x => Decimal.text x
  | symbol name => name
  | call head args => callText head (argTexts args)

/-- The texts of arguments, with how loosely they hold together. -/
def argTexts : List Formula → List (Nat × String)
  | [] => []
  | a :: as => (looseness a, text a) :: argTexts as
end

end Calcbook.Formula
