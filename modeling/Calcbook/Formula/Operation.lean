import Calcbook.Decimal.Remainder
import Calcbook.Formula.Fault

/-! The operations that heads stand for: negation, the binary operators, and functions known by name. -/

namespace Calcbook

/-- An operator of two operands. -/
inductive Operator
  | plus | minus | times | divide | mod | power
  deriving DecidableEq

/-- A function known by name. -/
inductive NamedFunction
  | sin | cos | tan | exp | ln | sqrt | abs | max | min | atan2 | rand
  deriving DecidableEq

/-- What a head stands for. -/
inductive Operation
  | negate
  | operator (op : Operator)
  | function (f : NamedFunction)
  deriving DecidableEq

/-! ### Names -/

namespace Operator

def head : Operator → String
  | plus => "Plus"
  | minus => "Minus"
  | times => "Times"
  | divide => "Divide"
  | mod => "Mod"
  | power => "Power"

def all : List Operator := [plus, minus, times, divide, mod, power]

end Operator

namespace NamedFunction

def name : NamedFunction → String
  | sin => "sin"
  | cos => "cos"
  | tan => "tan"
  | exp => "exp"
  | ln => "ln"
  | sqrt => "sqrt"
  | abs => "abs"
  | max => "max"
  | min => "min"
  | atan2 => "atan2"
  | rand => "rand"

def all : List NamedFunction := [sin, cos, tan, exp, ln, sqrt, abs, max, min, atan2, rand]

/-- The function of a name. -/
def ofName? (s : String) : Option NamedFunction := all.find? (·.name == s)

def arity : NamedFunction → Arity
  | max | min => .oneOrMore
  | atan2 => .two
  | _ => .one

end NamedFunction

namespace Operation

/-- The operation of a head. -/
def ofHead (head : String) : Except EvalFault Operation :=
  if head = "Negate" then .ok negate
  else
    match Operator.all.find? (·.head == head), NamedFunction.ofName? head with
    | some op, _ => .ok (operator op)
    | none, some f => .ok (function f)
    | none, none => .error (.unknownFunction head)

def arity : Operation → Arity
  | negate => .one
  | operator _ => .two
  | function f => f.arity

end Operation

/-! ### Results -/

/-- A source of random numbers. A draw always gives a number, from 0 up to, but without, 1, and leaves the source
    for the next draw. Sources that are split off are used apart from each other. -/
class Chance (σ : Type) where
  draw : σ → Float × σ
  split : σ → σ × σ

/-- Draws of random numbers, and faults that end an evaluation. -/
abbrev Draws (σ α : Type) := StateT σ (Except EvalFault) α

/-- The greater of two numbers, or the one that is a number. -/
def greater (x y : Float) : Float :=
  if x.isNaN then y else if y.isNaN then x else if x < y then y else x

/-- The lesser of two numbers, or the one that is a number. -/
def lesser (x y : Float) : Float :=
  if x.isNaN then y else if y.isNaN then x else if y < x then y else x

variable {σ : Type} [Chance σ]

/-- The next number of the source. -/
def nextDraw : Draws σ Float := fun gen => .ok (Chance.draw gen)

def Operator.apply : Operator → Float → Float → Float
  | plus, x, y => x + y
  | minus, x, y => x - y
  | times, x, y => x * y
  | divide, x, y => x / y
  | mod, x, y => Double.remainder x y
  | power, x, y => x.pow y

/-- The value of a function; a random one is uniform between zero and its argument. -/
def NamedFunction.apply (f : NamedFunction) (args : List Float) : Draws σ Float :=
  match f, args with
  | sin, [x] => return x.sin
  | cos, [x] => return x.cos
  | tan, [x] => return x.tan
  | exp, [x] => return x.exp
  | ln, [x] => return x.log
  | sqrt, [x] => return x.sqrt
  | abs, [x] => return x.abs
  | max, x :: xs => return xs.foldl greater x
  | min, x :: xs => return xs.foldl lesser x
  | atan2, [y, x] => return y.atan2 x
  | rand, [x] => return x * (← nextDraw)
  | _, _ => throw (.wrongNumberOfArgs f.name f.arity args.length)

/-- The value of an operation under the head it was called by. -/
def Operation.apply (op : Operation) (head : String) (args : List Float) : Draws σ Float :=
  match op, args with
  | negate, [x] => return -x
  | operator op, [x, y] => return op.apply x y
  | function f, args => f.apply args
  | _, _ => throw (.wrongNumberOfArgs head op.arity args.length)

end Calcbook
