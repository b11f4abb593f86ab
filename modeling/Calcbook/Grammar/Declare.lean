import Calcbook.Grammar.Basic
import Calcbook.Grammar.Defect

/-! Declaring a grammar. Declarations are taken in order: a faulty one adds nothing, and the first fault
    is the one reported. The end mark is declared last, unless a terminal of its name is there already. -/

namespace Calcbook

/-- A step of declaring a grammar. A quiet declaration may repeat what is there already. -/
inductive Declaration
  | symbol (kind : Symbol.Kind) (name : String) (quiet : Bool)
  | endMark (name : String)
  | rule (head : String) (body : List String) (quiet : Bool)

/-- What has been declared so far, and the first fault. -/
structure Draft where
  symbols : List Symbol
  rules : List Rule
  endMark : Option String
  defect : Option Defect

namespace Draft

def empty : Draft := ⟨[], [], none, none⟩

/-- Notes a fault, unless there is one already. -/
def fail (d : Draft) (e : Defect) : Draft := { d with defect := d.defect <|> some e }

def symbol? (d : Draft) (name : String) : Option Symbol := d.symbols.find? (·.name == name)

def lookup (d : Draft) (name : String) : Except Defect Symbol :=
  match d.symbol? name with
  | some s => .ok s
  | none => .error (.missingSymbol name)

/-- Declares a symbol; a name that is known already keeps its symbol. -/
def declareSymbol (d : Draft) (kind : Symbol.Kind) (name : String) (quiet : Bool) : Draft :=
  if (d.symbol? name).isNone then
    { d with symbols := d.symbols ++ [⟨d.symbols.length, kind, name⟩] }
  else if quiet then d
  else d.fail (.duplicateSymbol name)

/-- The rule of the given names, which is sound when its head is a nonterminal and all are declared. -/
def readRule (d : Draft) (head : String) (body : List String) : Except Defect Rule := do
  let lhs ← d.lookup head
  if lhs.isTerminal then throw (.terminalHead lhs.name)
  let rhs ← body.mapM d.lookup
  return ⟨d.rules.length, lhs, rhs⟩

/-- Declares a rule. -/
def declareRule (d : Draft) (head : String) (body : List String) (quiet : Bool) : Draft :=
  match d.readRule head body with
  | .error e => d.fail e
  | .ok r =>
    if !d.rules.contains r then { d with rules := d.rules ++ [r] }
    else if quiet then d
    else d.fail (.duplicateRule r.text)

/-- Takes one more declaration. -/
def declare (d : Draft) : Declaration → Draft
  | .symbol kind name quiet => d.declareSymbol kind name quiet
  | .endMark name => { d with endMark := some name }
  | .rule head body quiet => d.declareRule head body quiet

/-- The name of the end mark: a dollar sign unless it was declared. -/
def endName (d : Draft) : String := d.endMark.getD "$"

/-- The grammar declared, with the given start symbol. -/
def grammar (d : Draft) (start : String) : Except Defect Grammar := do
  let closed := d.declareSymbol .terminal d.endName true
  if let some e := d.defect then throw e
  let eof ← closed.lookup d.endName
  if !eof.isTerminal then throw (.duplicateSymbol d.endName)
  let start ← closed.lookup start
  if !closed.rules.any (·.lhs == start) then throw (.noStartRule start.name)
  return ⟨start, eof, closed.symbols, closed.rules⟩

end Draft

/-- The grammar of a list of declarations. -/
def Grammar.ofDeclarations (calls : List Declaration) (start : String) : Except Defect Grammar :=
  (calls.foldl Draft.declare .empty).grammar start

end Calcbook
