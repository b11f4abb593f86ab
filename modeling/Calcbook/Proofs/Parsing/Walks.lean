import Calcbook.Parsing.Tree
import Mathlib.Data.List.Basic

/-! Loops over trees. Each of them goes over a list of pending work: trees whose tokens are still to come, trees with
    their levels, or trees and closing brackets with the separator that is due. What a loop makes of any such list is
    what recursions over its trees make of it, and so for a single tree the tokens are those of the children one after
    the other, the depth is one more than the largest of a child, and the text is that of the children between
    brackets. -/

namespace Calcbook.Tree

/-- A property holds of every tree when it holds of a node as soon as it holds of all children. -/
@[induction_eliminator]
theorem induct {P : Tree → Prop} (leaf : ∀ s token, P (leaf s token))
    (node : ∀ r children, (∀ c ∈ children, P c) → P (node r children)) (t : Tree) : P t :=
  @Tree.rec P (fun children => ∀ c ∈ children, P c) leaf (fun _ _ h => node _ _ h)
    (fun _ h => nomatch h) (fun _ _ h hs => List.forall_mem_cons.mpr ⟨h, hs⟩) t

/-- The tokens of a tree: those of its children, in order. -/
def tokens : Tree → List Token
  | leaf _ token => [token]
  | node _ children => children.flatMap tokens

/-- The number of levels of a tree: one for a leaf and for a node without children, and otherwise one more than the
    largest number of a child. -/
def height : Tree → Nat
  | leaf _ _ => 1
  | node _ children => 1 + (children.map height).max?.getD 0

/-- A tree on one line: the lexeme of a leaf, and for a node in brackets the name of its left side and each child behind
    a blank. -/
def written : Tree → String
  | leaf _ token => token.lexeme
  | node r children => "(" ++ r.lhs.name ++ String.join (children.map fun c => " " ++ c.written) ++ ")"

/-! ### Tokens -/

theorem collect_eq (found : List Token) (pending : List Tree) :
    collect found pending = found.reverse ++ pending.flatMap tokens := by
  induction found, pending using collect.induct with
  | case1 found => rw [collect, List.flatMap_nil, List.append_nil]
  | case2 found s token rest ih => simp [collect, ih, tokens]
  | case3 found r children rest ih => rw [collect, ih, List.flatMap_append, List.flatMap_cons, tokens]

theorem leaves_eq_tokens (t : Tree) : t.leaves = t.tokens := by
  rw [leaves, collect_eq, List.flatMap_singleton]
  rfl

@[simp]
theorem leaves_leaf (s : Symbol) (token : Token) : (leaf s token).leaves = [token] := by
  rw [leaves_eq_tokens, tokens]

@[simp]
theorem leaves_node (r : Rule) (children : List Tree) : (node r children).leaves = children.flatMap leaves := by
  rw [leaves_eq_tokens, tokens]
  exact List.flatMap_congr fun c _ => (leaves_eq_tokens c).symm

/-! ### Levels -/

/-- A node with its children below a level stays within another one, if it stands there itself and each child does. -/
theorem height_node_le_iff {r : Rule} {children : List Tree} {level n : Nat} :
    level + (node r children).height ≤ n + 1 ↔ level ≤ n ∧ ∀ c ∈ children, level + 1 + c.height ≤ n + 1 := by
  rw [height]
  cases hmax : (children.map height).max? with
  | none =>
    obtain rfl : children = [] := by simpa using hmax
    simp
  | some m =>
    have hm : ∀ k, m ≤ k ↔ ∀ c ∈ children, c.height ≤ k := fun k => by
      rw [List.max?_le_iff hmax, List.forall_mem_map]
    rw [Option.getD_some]
    constructor
    · intro h
      refine ⟨by omega, fun c hc => ?_⟩
      have := (hm m).mp (Nat.le_refl m) c hc
      omega
    · rintro ⟨hlevel, h⟩
      have := (hm (n - level)).mpr fun c hc => by
        have := h c hc
        omega
      omega

/-- The loop reaches no deeper than a level exactly when it has not been deeper so far and none of the pending trees
    is. The order in which they are pending makes no difference to this. -/
theorem reach_le_iff (deepest : Nat) (pending : List (Tree × Nat)) (n : Nat) :
    reach deepest pending ≤ n ↔ deepest ≤ n ∧ ∀ e ∈ pending, e.2 + e.1.height ≤ n + 1 := by
  induction deepest, pending using reach.induct with
  | case1 deepest => simp [reach]
  | case2 deepest s token level rest ih =>
    rw [reach, ih, List.forall_mem_cons, height, Nat.max_le, Nat.succ_le_succ_iff, and_assoc]
  | case3 deepest r children level rest ih =>
    have hchildren : (∀ e ∈ (onLevel (level + 1) children).reverse, e.2 + e.1.height ≤ n + 1) ↔
        ∀ c ∈ children, level + 1 + c.height ≤ n + 1 := by
      simp [onLevel]
    rw [reach, ih, List.forall_mem_append, List.forall_mem_cons, hchildren, height_node_le_iff, Nat.max_le]
    simp only [and_assoc]

theorem depth_eq_height (t : Tree) : t.depth = t.height := by
  -- Levels are counted from one, so the bound on the pending tree is the one on its height.
  have hle : ∀ n, t.depth ≤ n ↔ t.height ≤ n := fun n => by
    rw [depth, reach_le_iff, List.forall_mem_singleton]
    show 0 ≤ n ∧ 1 + t.height ≤ n + 1 ↔ t.height ≤ n
    omega
  exact Nat.le_antisymm ((hle _).mpr (Nat.le_refl _)) ((hle _).mp (Nat.le_refl _))

/-- The depth of the deepest of some trees. -/
def deepest : List Tree → Nat
  | [] => 0
  | t :: ts => max t.depth (deepest ts)

theorem deepest_eq_max? (ts : List Tree) : deepest ts = (ts.map depth).max?.getD 0 := by
  induction ts with
  | nil => rfl
  | cons t ts ih =>
    rw [deepest, ih, List.map_cons, List.max?_cons]
    cases (ts.map depth).max? <;> simp

@[simp]
theorem depth_leaf (s : Symbol) (token : Token) : (leaf s token).depth = 1 := by
  rw [depth_eq_height, height]

@[simp]
theorem depth_node (r : Rule) (children : List Tree) : (node r children).depth = deepest children + 1 := by
  rw [depth_eq_height, height, deepest_eq_max?, List.map_congr_left fun c _ => depth_eq_height c, Nat.add_comm]

/-! ### Texts -/

/-- What is written of pending trees and closing brackets, with the separator that is due. -/
def writtenItems (separator : String) : List (Option Tree) → String
  | [] => ""
  | none :: rest => ")" ++ writtenItems separator rest
  | some t :: rest => separator ++ t.written ++ writtenItems " " rest

/-- Behind another item, each of some trees is written with a blank before it. -/
theorem writtenItems_trees (ts : List Tree) (rest : List (Option Tree)) :
    writtenItems " " (ts.map some ++ rest) =
      String.join (ts.map fun t => " " ++ t.written) ++ writtenItems " " rest := by
  induction ts with
  | nil => rw [List.map_nil, List.map_nil, List.nil_append, String.join_nil, String.empty_append]
  | cons t ts ih =>
    rw [List.map_cons, List.cons_append, writtenItems, ih, List.map_cons, String.join_cons]
    simp only [String.append_assoc]

theorem writeItems_eq (text separator : String) (pending : List (Option Tree)) :
    writeItems text separator pending = text ++ writtenItems separator pending := by
  -- The children of a node stand behind its name, so a blank is due before each of them, the first one included.
  induction text, separator, pending using writeItems.induct with
  | case1 text separator => rw [writeItems, writtenItems, String.append_empty]
  | case2 text separator rest ih => rw [writeItems, ih, writtenItems, String.append_assoc]
  | case3 text separator s token rest ih =>
    rw [writeItems, ih, writtenItems, written]
    simp only [String.append_assoc]
  | case4 text separator r children rest ih =>
    rw [writeItems, ih, opened, writtenItems_trees, writtenItems, writtenItems, written]
    simp only [String.append_assoc]

theorem text_eq_written (t : Tree) : t.text = t.written := by
  rw [text, writeItems_eq, writtenItems, writtenItems, String.empty_append, String.empty_append, String.append_empty]

/-- The tokens, the depth and the text of every tree are those of the recursion over it. -/
theorem walks_exact (t : Tree) : t.leaves = t.tokens ∧ t.depth = t.height ∧ t.text = t.written :=
  ⟨t.leaves_eq_tokens, t.depth_eq_height, t.text_eq_written⟩

end Calcbook.Tree
