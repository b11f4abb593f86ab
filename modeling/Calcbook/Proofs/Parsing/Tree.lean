import Calcbook.Proofs.Parsing.Walks
import Calcbook.Proofs.Grammar.Derivation

/-! Derivation trees. A derivation of terminals builds up a tree for each symbol that it starts with: every step puts
    the trees of a right side below a node of their own. -/

namespace Calcbook.Tree

/-- The symbol that a tree stands for. -/
def symbol : Tree → Symbol
  | leaf s _ => s
  | node r _ => r.lhs

/-- A derivation tree of a grammar: a leaf is a terminal with a token of it, and a node is a rule with a
    derivation tree for each symbol of its right side, in order. -/
inductive ValidFor (g : Grammar) : Tree → Prop
  | leaf {s : Symbol} {token : Token} (hs : s ∈ g.terminals) (hid : token.terminal = s.id) : ValidFor g (leaf s token)
  | node {r : Rule} {children : List Tree} (hr : r ∈ g.rules) (hsymbols : children.map symbol = r.rhs)
      (hchildren : ∀ c ∈ children, ValidFor g c) : ValidFor g (node r children)

variable {g : Grammar}

theorem ValidFor.exists_node {t : Tree} (h : t.ValidFor g) (hkind : t.symbol.isTerminal = false) :
    ∃ r children, t = .node r children ∧ r.lhs = t.symbol := by
  cases h with
  | leaf hs =>
    have hterm := (Grammar.mem_terminals.mp hs).2
    exact (Bool.false_ne_true (hkind.symm.trans hterm)).elim
  | node => exact ⟨_, _, rfl, rfl⟩

/-- Some symbols derive the terminals of some tokens. -/
def Yields (g : Grammar) (α : List Symbol) (tokens : List Token) : Prop :=
  ∃ w, g.Derives α w ∧ (∀ x ∈ w, x ∈ g.terminals) ∧ w.map (·.id) = tokens.map (·.terminal)

theorem yields_trees {ts : List Tree} (h : ∀ t ∈ ts, Yields g [t.symbol] t.leaves) :
    Yields g (ts.map symbol) (ts.flatMap leaves) := by
  induction ts with
  | nil => exact ⟨[], .refl _, by simp, rfl⟩
  | cons t ts ih =>
    obtain ⟨ht, hts⟩ := List.forall_mem_cons.mp h
    obtain ⟨u, hu, huterminals, huids⟩ := ht
    obtain ⟨v, hv, hvterminals, hvids⟩ := ih hts
    exact ⟨u ++ v, hu.append hv, List.forall_mem_append.mpr ⟨huterminals, hvterminals⟩, by simp [huids, hvids]⟩

/-- The symbol of a derivation tree derives its leaves. -/
theorem ValidFor.yields {t : Tree} (h : t.ValidFor g) : Yields g [t.symbol] t.leaves := by
  induction h with
  | @leaf s token hs hid => exact ⟨[s], .refl _, by simpa using hs, by simp [hid]⟩
  | @node r children hr hsymbols _ ih =>
    obtain ⟨w, hw, hterminals, hids⟩ := yields_trees ih
    rw [hsymbols] at hw
    exact ⟨w, (Grammar.Derives.of_rule hr).trans hw, hterminals, by rw [hids, leaves_node]⟩

/-- A step back puts the trees of a right side below a node. -/
theorem exists_trees_of_step {α β : List Symbol} (hs : g.Step α β) {ts : List Tree} (hsymbols : ts.map symbol = β)
    (hvalid : ∀ t ∈ ts, t.ValidFor g) : ∃ ts' : List Tree, ts'.map symbol = α ∧ (∀ t ∈ ts', t.ValidFor g) ∧
      ts'.flatMap leaves = ts.flatMap leaves := by
  obtain ⟨r, hr, u, v, rfl, rfl⟩ := hs
  obtain ⟨front, tsv, rfl, hfront, rfl⟩ := List.map_eq_append_iff.mp hsymbols
  obtain ⟨tsu, children, rfl, rfl, hchildren⟩ := List.map_eq_append_iff.mp hfront
  simp only [List.forall_mem_append] at hvalid
  obtain ⟨⟨hu, hc⟩, hv⟩ := hvalid
  refine ⟨tsu ++ node r children :: tsv, by simp [symbol], ?_, by simp⟩
  exact List.forall_mem_append.mpr ⟨hu, List.forall_mem_cons.mpr ⟨.node hr hchildren hc, hv⟩⟩

/-- Terminals that are derived have derivation trees over any tokens of them. -/
theorem exists_trees_of_derives {α w : List Symbol} (hd : g.Derives α w) (hw : ∀ x ∈ w, x ∈ g.terminals)
    {tokens : List Token} (htokens : tokens.map (·.terminal) = w.map (·.id)) :
    ∃ ts : List Tree, ts.map symbol = α ∧ (∀ t ∈ ts, t.ValidFor g) ∧ ts.flatMap leaves = tokens := by
  induction hd using Relation.ReflTransGen.head_induction_on with
  | refl =>
    induction w generalizing tokens with
    | nil =>
      obtain rfl : tokens = [] := by simpa using htokens
      exact ⟨[], rfl, by simp, rfl⟩
    | cons x w ih =>
      obtain ⟨token, tokens, rfl, hid, htokens⟩ := List.map_eq_cons_iff.mp htokens
      obtain ⟨hx, hw⟩ := List.forall_mem_cons.mp hw
      obtain ⟨ts, rfl, hvalid, rfl⟩ := ih hw htokens
      exact ⟨leaf x token :: ts, rfl, List.forall_mem_cons.mpr ⟨.leaf hx hid, hvalid⟩, by simp⟩
  | head hs _ ih =>
    obtain ⟨ts, hsymbols, hvalid, hleaves⟩ := ih
    obtain ⟨ts', hsymbols', hvalid', hleaves'⟩ := exists_trees_of_step hs hsymbols hvalid
    exact ⟨ts', hsymbols', hvalid', hleaves'.trans hleaves⟩

end Calcbook.Tree
