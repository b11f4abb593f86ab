import Calcbook.Decimal.Text
import Calcbook.Failure
import Calcbook.Formula.Basic
import Calcbook.Formula.Rules
import Calcbook.Parsing.Parser

/-! Reading a formula from a text: its tokens are parsed and the tree is folded. Trees beyond a certain
    depth are refused, because what is done with formulas goes down into them. -/

namespace Calcbook.Formula

/-! ### Pieces -/

/-- What a part of a formula's tree folds to. The tail of a chain holds its operators and operands until
    the first operand is there to take them. -/
inductive Piece
  | formula (f : Formula)
  | lexeme (text : String)
  | chain (links : List (String × Formula))
  | args (fs : List Formula)
  | nothing

/-- The head of a binary operator that chains. -/
def chainHead : String → Except String String
  | "+" => .ok "Plus"
  | "-" => .ok "Minus"
  | "*" => .ok "Times"
  | "/" => .ok "Divide"
  | "%" => .ok "Mod"
  | other => .error s!"not a binary operator `{other}`"

/-- Puts an operand in front of a tail, under the operator before it. -/
def chainCons : Action Piece
  | [.lexeme op, .formula operand, .chain rest] => .ok (.chain ((op, operand) :: rest))
  | _ => .error "expected an operator, an operand and an operator chain"

/-- Applies a tail to its first operand, from the left. -/
def applyChain : Action Piece
  | [.formula first, .chain links] => do
    let f ← links.foldlM (fun acc l => return .call (← chainHead l.1) [acc, l.2]) first
    return .formula f
  | _ => .error "expected an operand and an operator chain"

def chainNil : Action Piece := fun _ => .ok (.chain [])

/-- Puts an argument in front of those behind it. -/
def argsCons : Action Piece
  | [.formula arg, .args rest] | [.lexeme _, .formula arg, .args rest] => .ok (.args (arg :: rest))
  | _ => .error "bad argument list"

def argsNil : Action Piece := fun _ => .ok (.args [])

/-- Passes on the value at a place of the right side. -/
def pick (i : Nat) : Action Piece := fun args =>
  match args[i]? with
  | some v => .ok v
  | none => .error "too short a right side"

def negation : Action Piece
  | [_, .formula f] => .ok (.formula (.call "Negate" [f]))
  | _ => .error "expected an expression"

/-- A base stays as it is without an exponent. -/
def power : Action Piece
  | [.formula base, .nothing] => .ok (.formula base)
  | [.formula base, .formula exponent] => .ok (.formula (.call "Power" [base, exponent]))
  | _ => .error "expected an expression"

def numeral : Action Piece
  | [.lexeme text] =>
    match Decimal.read? text with
    | some x => .ok (.formula (.number x))
    | none => .error s!"bad number `{text}`"
  | _ => .error "expected a lexeme"

/-- An identifier is a symbol, or with arguments behind it the head of a call. -/
def identifier : Action Piece
  | [.lexeme name, .nothing] => .ok (.formula (.symbol name))
  | [.lexeme name, .args args] => .ok (.formula (.call name args))
  | _ => .error "bad call"

def absent : Action Piece := fun _ => .ok .nothing

/-! ### Folding and reading -/

/-- The greatest depth of a tree that is read. -/
def maxDepth : Nat := 1024

/-- What each rule makes of its right side. -/
def actions : List (String × Action Piece) := [
  ("S -> E", pick 0),
  ("E -> T E'", applyChain),
  ("E' -> + T E'", chainCons),
  ("E' -> - T E'", chainCons),
  ("E' -> ", chainNil),
  ("T -> F T'", applyChain),
  ("T' -> * F T'", chainCons),
  ("T' -> / F T'", chainCons),
  ("T' -> % F T'", chainCons),
  ("T' -> ", chainNil),
  ("F -> - F", negation),
  ("F -> P", pick 0),
  ("P -> A P'", power),
  ("P' -> ^ F", pick 1),
  ("P' -> ", absent),
  ("A -> num", numeral),
  ("A -> ( E )", pick 1),
  ("A -> ident A'", identifier),
  ("A' -> ( Args )", pick 1),
  ("A' -> ", absent),
  ("Args -> E Args'", argsCons),
  ("Args -> ", argsNil),
  ("Args' -> , E Args'", argsCons),
  ("Args' -> ", argsNil)]

/-- The folder of the trees of formulas. -/
def folder : Folder Piece := ⟨fun _ token => .lexeme token.lexeme, actions, some maxDepth⟩

/-- The parse table of formulas. -/
def table : Except Defect ParseTable := grammar >>= ParseTable.ofGrammar

/-- The tree of a text. -/
def parseText (t : ParseTable) (text : String) : Except Rejection Tree :=
  ((Parser.ofTable t).parse (t.grammar.tokensOf text)).1

/-- The formula of a tree. -/
def ofTree (t : ParseTable) (tree : Tree) : Except FoldFault Formula := do
  match ← folder.fold tree with
  | .formula f => return f
  | _ => throw (.action t.grammar.start.name "expected an expression")

/-- Reads a text as a formula. -/
def read (t : ParseTable) (text : String) : Except Failure Formula :=
  match parseText t text with
  | .error why => .error (.rejected why)
  | .ok tree =>
    match ofTree t tree with
    | .error why => .error (.eval (.unreadable why))
    | .ok f => .ok f

end Calcbook.Formula
