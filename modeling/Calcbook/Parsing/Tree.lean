import Calcbook.Grammar.Symbol
import Calcbook.Parsing.Token
import Calcbook.Text.Quoted

/-! Parse trees. A tree can be as deep as its input is nested, so no function here descends into it: each one
    goes over a list of pending work, the next item first, and puts the children of a node in front of it. -/

namespace Calcbook

/-- A parse tree: a terminal with its token, or an expanded rule with a tree for each symbol of its right
    side. -/
inductive Tree
  | leaf (symbol : Symbol) (token : Token)
  | node (rule : Rule) (children : List Tree)

namespace Tree

mutual
/-- The number of leaves and nodes of a tree. -/
def count : Tree → Nat
  | leaf _ _ => 1
  | node _ children => 1 + countAll children

/-- The number of leaves and nodes of some trees. -/
def countAll : List Tree → Nat
  | [] => 0
  | t :: ts => count t + countAll ts
end

theorem countAll_append (ts us : List Tree) : countAll (ts ++ us) = countAll ts + countAll us := by
  induction ts with
  | nil => rw [List.nil_append, countAll, Nat.zero_add]
  | cons t ts ih => rw [List.cons_append, countAll, countAll, ih, Nat.add_assoc]

theorem countAll_reverse (ts : List Tree) : countAll ts.reverse = countAll ts := by
  induction ts with
  | nil => rfl
  | cons t ts ih => rw [List.reverse_cons, countAll_append, ih, countAll, countAll, countAll, Nat.add_zero, Nat.add_comm]

/-! ### Tokens -/

/-- Takes the tokens of the pending trees behind those found so far, the last one found first. -/
def collect (found : List Token) : List Tree → List Token
  | [] => found.reverse
  | leaf _ token :: rest => collect (token :: found) rest
  | node _ children :: rest => collect found (children ++ rest)
termination_by pending => countAll pending
decreasing_by
  all_goals simp only [countAll, countAll_append, count]
  all_goals omega

/-- The tokens, from left to right. -/
def leaves (t : Tree) : List Token := collect [] [t]

/-! ### Levels -/

/-- Puts trees on a level. -/
def onLevel (level : Nat) (ts : List Tree) : List (Tree × Nat) := ts.map fun t => (t, level)

theorem map_fst_onLevel (level : Nat) (ts : List Tree) : (onLevel level ts).map Prod.fst = ts := by
  rw [onLevel, List.map_map]
  exact List.map_id ts

/-- The deepest level so far and of the pending trees. The last child comes first. -/
def reach (deepest : Nat) : List (Tree × Nat) → Nat
  | [] => deepest
  | (leaf _ _, level) :: rest => reach (max deepest level) rest
  | (node _ children, level) :: rest => reach (max deepest level) ((onLevel (level + 1) children).reverse ++ rest)
termination_by pending => countAll (pending.map Prod.fst)
decreasing_by
  all_goals simp only [List.map_cons, List.map_append, List.map_reverse, map_fst_onLevel, countAll, countAll_append,
    countAll_reverse, count]
  all_goals omega

/-- The number of levels from the root down to the deepest leaf or node. -/
def depth (t : Tree) : Nat := reach 0 [(t, 1)]

/-- Writes the pending trees as lines of an outline, each indented by two blanks for every level. -/
def writeLines (outline : String) : List (Tree × Nat) → String
  | [] => outline
  | (leaf s token, level) :: rest =>
    writeLines (outline.pushn ' ' (2 * level) ++ "`-- " ++ s.name ++ " " ++ Text.quoted token.lexeme ++ "\n") rest
  | (node r children, level) :: rest =>
    writeLines (outline.pushn ' ' (2 * level) ++ "`-- " ++ r.text ++ "\n") (onLevel (level + 1) children ++ rest)
termination_by pending => countAll (pending.map Prod.fst)
decreasing_by
  all_goals simp only [List.map_cons, List.map_append, map_fst_onLevel, countAll, countAll_append, count]
  all_goals omega

/-- A tree as an outline, one leaf or node a line. -/
def outline (t : Tree) : String := writeLines "" [(t, 0)]

/-! ### Texts -/

/-- What is pending once a node is opened: its children, and a place without a tree where it is closed. -/
def opened (children : List Tree) (rest : List (Option Tree)) : List (Option Tree) :=
  children.map some ++ none :: rest

theorem filterMap_some (t : Tree) (rest : List (Option Tree)) :
    (some t :: rest).filterMap id = t :: rest.filterMap id := rfl

theorem filterMap_opened (children : List Tree) (rest : List (Option Tree)) :
    (opened children rest).filterMap id = children ++ rest.filterMap id := by
  simp [opened]

/-- Writes the pending trees behind the text so far, each after the separator, and closes the node opened last
    where there is no tree. The separator is a blank from the first tree on. -/
def writeItems (text separator : String) : List (Option Tree) → String
  | [] => text
  | none :: rest => writeItems (text ++ ")") separator rest
  | some (leaf _ token) :: rest => writeItems (text ++ separator ++ token.lexeme) " " rest
  | some (node r children) :: rest =>
    writeItems (text ++ separator ++ "(" ++ r.lhs.name) " " (opened children rest)
termination_by pending => (countAll (pending.filterMap id), pending.length)
decreasing_by
  · exact Prod.Lex.right _ (Nat.lt_succ_self _)
  · refine Prod.Lex.left _ _ ?_
    rw [filterMap_some, countAll, count]
    omega
  · refine Prod.Lex.left _ _ ?_
    rw [filterMap_opened, filterMap_some, countAll_append, countAll, count]
    omega

/-- A tree on one line: lexemes, and nodes in brackets that begin with the symbol expanded. -/
def text (t : Tree) : String := writeItems "" "" [some t]

end Tree

end Calcbook
