import Calcbook.Parsing.Tree

/-! Folding a parse tree from its leaves up. Actions are named by the texts of rules: a node is looked up
    before its children are folded, and its action is run on their values after that. A walk over a list of
    pending work gives the order of these visits. -/

namespace Calcbook

/-! ### The walk -/

namespace Tree

/-- A step of walking over a tree: a leaf, or a node before or after its children. -/
inductive Visit
  | leaf (symbol : Symbol) (token : Token)
  | enter (rule : Rule)
  | leave (rule : Rule) (arity : Nat)

/-- Work that a walk has put off. -/
inductive Pending
  | tree (t : Tree)
  | leave (rule : Rule) (arity : Nat)

/-- The number of visits that are still to come. -/
def visitsLeft : List Pending → Nat
  | [] => 0
  | .tree t :: rest => 2 * count t + visitsLeft rest
  | .leave _ _ :: rest => 1 + visitsLeft rest

/-- Puts off some trees until before the rest. -/
def putOff (ts : List Tree) (rest : List Pending) : List Pending := ts.map .tree ++ rest

theorem visitsLeft_putOff (ts : List Tree) (rest : List Pending) :
    visitsLeft (putOff ts rest) = 2 * countAll ts + visitsLeft rest := by
  induction ts with
  | nil => simp [putOff, countAll]
  | cons t ts ih =>
    rw [putOff] at ih ⊢
    simp only [List.map_cons, List.cons_append, visitsLeft, countAll, ih]
    omega

/-- Walks over the pending work, behind the visits already made. -/
def walk (made : List Visit) : List Pending → List Visit
  | [] => made.reverse
  | .leave r n :: rest => walk (.leave r n :: made) rest
  | .tree (leaf s t) :: rest => walk (.leaf s t :: made) rest
  | .tree (node r children) :: rest =>
    walk (.enter r :: made) (putOff children (.leave r children.length :: rest))
termination_by pending => visitsLeft pending
decreasing_by
  all_goals simp only [visitsLeft, visitsLeft_putOff, count]
  all_goals omega

/-- The visits of a walk over a tree. -/
def visits (t : Tree) : List Visit := walk [] [.tree t]

end Tree

/-! ### The fold -/

/-- Why a tree has no folded value. -/
inductive FoldFault
  | missingAction (rule : String)
  | action (rule reason : String)
  | tooDeep (depth limit : Nat)
  deriving DecidableEq

/-- The wording of a fault. -/
def FoldFault.message : FoldFault → String
  | missingAction rule => s!"Missing Action: {rule}"
  | action rule reason => s!"Action failed for {rule}: {reason}"
  | tooDeep depth limit => s!"Tree nests {depth} levels deep, limit is {limit}"

/-- What a rule makes of the values of its right side; it may refuse them for a reason. -/
abbrev Action (α : Type) := List α → Except String α

/-- How to fold a tree: the value of a leaf from the name of its terminal and its token, the actions by
    rules, and the greatest depth allowed. -/
structure Folder (α : Type) where
  leaf : String → Token → α
  actions : List (String × Action α)
  depthLimit : Option Nat

namespace Folder

variable {α : Type}

/-- A folder that has no actions yet. -/
def ofLeaf (leaf : String → Token → α) : Folder α := ⟨leaf, [], none⟩

/-- Sets the action of a rule, in place of an earlier one. -/
def on (f : Folder α) (rule : String) (act : Action α) : Folder α :=
  { f with actions := (rule, act) :: f.actions }

def action? (f : Folder α) (rule : String) : Option (Action α) := f.actions.lookup rule

/-- One visit of the walk, on the values folded so far, the last one first. -/
def visit (f : Folder α) (values : List α) : Tree.Visit → Except FoldFault (List α)
  | .leaf s token => .ok (f.leaf s.name token :: values)
  | .enter r =>
    match f.action? r.text with
    | some _ => .ok values
    | none => .error (.missingAction r.text)
  | .leave r arity =>
    match f.action? r.text with
    | some act =>
      match act (values.take arity).reverse with
      | .ok v => .ok (v :: values.drop arity)
      | .error reason => .error (.action r.text reason)
    | none => .error (.missingAction r.text)

/-- Refuses a tree that is too deep. -/
def checkDepth (f : Folder α) (t : Tree) : Except FoldFault Unit :=
  match f.depthLimit with
  | some limit => if t.depth > limit then .error (.tooDeep t.depth limit) else .ok ()
  | none => .ok ()

/-- Folds a tree. -/
def fold (f : Folder α) (t : Tree) : Except FoldFault α := do
  f.checkDepth t
  match ← t.visits.foldlM f.visit [] with
  | v :: _ => return v
  | [] => throw (.missingAction t.text)

end Folder

end Calcbook
