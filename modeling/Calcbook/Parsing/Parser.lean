import Calcbook.Parsing.Table
import Calcbook.Parsing.Tree

/-! A predictive parser that is fed one token at a time. Its stack holds the symbols still to be matched.
    The tree is laid out in slots as rules are expanded: a slot for every symbol of a right side, filled
    when the symbol is expanded or matched, so children lie behind the node that owns them. After a tree
    or a rejection the parser is as new. -/

namespace Calcbook

/-- A place of the tree under construction. -/
inductive Slot
  | empty
  | leaf (symbol : Symbol) (token : Token)
  | node (rule : Rule) (children : List Nat)

/-- A parser: its table, the symbols still to be matched with the slots they fill, the next one first,
    and the slots. -/
structure Parser where
  table : ParseTable
  stack : List (Symbol × Option Nat)
  slots : Array Slot

/-- What a token leads to. -/
inductive Outcome
  | awaiting
  | ready (tree : Tree)
  | rejected (why : Rejection)

/-! ### The tree from its slots -/

namespace Slot

/-- Takes the trees of some slots away from where they were built; none if one of them is not there. -/
def takeTrees : List Nat → Array (Option Tree) → Option (List Tree) × Array (Option Tree)
  | [], built => (some [], built)
  | c :: cs, built =>
    match built.getD c none with
    | none => (none, built)
    | some t =>
      let taken := takeTrees cs (built.setIfInBounds c none)
      (taken.1.map (t :: ·), taken.2)

/-- The tree of a slot, made of those of the slots behind it, and what is left of these. -/
def makeTree (built : Array (Option Tree)) : Slot → Option Tree × Array (Option Tree)
  | empty => (none, built)
  | leaf s token => (some (.leaf s token), built)
  | node r children =>
    let taken := takeTrees children built
    (taken.1.map (.node r), taken.2)

/-- Builds the trees of the first `n` slots from the last one down. -/
def build (slots : Array Slot) : Nat → Array (Option Tree) → Array (Option Tree)
  | 0, built => built
  | n + 1, built =>
    let made := (slots.getD n .empty).makeTree built
    build slots n (made.2.setIfInBounds n made.1)

/-- The tree of the first slot. -/
def assemble (slots : Array Slot) : Option Tree :=
  (build slots slots.size (Array.replicate slots.size none)).getD 0 none

end Slot

namespace Parser

/-- A parser at the start of an input: the start symbol fills the first slot, and the end mark none. -/
def ofTable (t : ParseTable) : Parser :=
  ⟨t, [(t.grammar.start, some 0), (t.grammar.eof, none)], #[.empty]⟩

/-- Forgets a parse that is not finished. -/
def reset (p : Parser) : Parser := ofTable p.table

/-! ### One step -/

/-- The name of what was found: that of its terminal, or the lexeme if it stands for none. -/
def foundName (g : Grammar) (token : Token) : String :=
  match g.symbols[token.terminal]? with
  | some s => if s.isTerminal then s.name else token.lexeme
  | none => token.lexeme

def rejection (t : ParseTable) (expected : List String) (token : Token) : Rejection :=
  ⟨expected, foundName t.grammar token, token.offset⟩

/-- Puts the right side of a rule on the stack, each symbol with a new slot, and fills the slot of the
    symbol expanded. -/
def expand (p : Parser) (r : Rule) (slot : Option Nat) (rest : List (Symbol × Option Nat)) : Parser :=
  let children := List.range' p.slots.size r.rhs.length
  let slots := p.slots ++ Array.replicate r.rhs.length .empty
  { table := p.table
    stack := r.rhs.zip (children.map some) ++ rest
    slots := match slot with
      | some i => slots.setIfInBounds i (.node r children)
      | none => slots }

/-- One step on a token: a match or a rejection answers it, an expansion leaves it to the next step. -/
def step (p : Parser) (token : Token) : Option Outcome × Parser :=
  match p.stack with
  | [] => (none, p.reset)
  | (top, slot) :: rest =>
    if top.isTerminal then
      if top.id = token.terminal then
        match slot with
        | some i =>
          (some .awaiting, { p with stack := rest, slots := p.slots.setIfInBounds i (.leaf top token) })
        | none =>
          match Slot.assemble p.slots with
          | some tree => (some (.ready tree), p.reset)
          | none => (some (.rejected (rejection p.table [] token)), p.reset)
      else (some (.rejected (rejection p.table [top.name] token)), p.reset)
    else
      match p.table.get? top.id token.terminal with
      | some r => (none, p.expand r slot rest)
      | none =>
        let expected := (p.table.expected top.id).map (·.name)
        (some (.rejected (rejection p.table expected token)), p.reset)

/-! ### Feeding -/

/-- Runs steps until one answers the token; none when that takes more than the given number. -/
def run? (token : Token) : Nat → Parser → Option (Outcome × Parser)
  | 0, _ => none
  | n + 1, p =>
    match p.step token with
    | (some outcome, p') => some (outcome, p')
    | (none, p') => run? token n p'

/-- More expansions than one symbol can undergo on one token. Under one lookahead no nonterminal comes
    up inside its own expansion, so these expansions form a tree that is no higher than there are rules
    to expand and no wider than their right sides are long. -/
def expansionLimit (g : Grammar) : Nat :=
  let longest := g.rules.foldl (fun n r => max n r.rhs.length) 0
  Nat.pow (longest + 2) (2 * g.rules.length + 1)

/-- More steps than a token can take: every symbol on the stack but the end mark has a slot. -/
def stepLimit (p : Parser) : Nat := (p.slots.size + 2) * expansionLimit p.table.grammar

/-- Takes the next token. -/
def feed (p : Parser) (token : Token) : Outcome × Parser :=
  let table := p.table
  match run? token p.stepLimit p with
  | some answer => answer
  | none => (.rejected (rejection table [] token), ofTable table)

/-! ### Whole inputs -/

/-- Takes the rest of an input, which ends at `stop` if there is none, and then an end mark. -/
def parseRest (p : Parser) (stop : Nat) : List Token → Except Rejection Tree × Parser
  | [] =>
    let eof := p.table.grammar.eof
    match p.feed ⟨eof.id, "", stop⟩ with
    | (.ready tree, p') => (.ok tree, p')
    | (.rejected why, p') => (.error why, p')
    | (.awaiting, p') => (.error ⟨[eof.name], eof.name, stop⟩, p'.reset)
  | token :: tokens =>
    let next := token.stop
    match p.feed token with
    | (.awaiting, p') => p'.parseRest next tokens
    | (.ready tree, p') => (.ok tree, p')
    | (.rejected why, p') => (.error why, p')

/-- Parses an input from its start. What comes behind a complete tree is not looked at. -/
def parse (p : Parser) (tokens : List Token) : Except Rejection Tree × Parser :=
  p.reset.parseRest 0 tokens

end Parser

end Calcbook
