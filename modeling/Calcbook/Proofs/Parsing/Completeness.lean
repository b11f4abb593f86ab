import Calcbook.Proofs.Parsing.Arena
import Calcbook.Proofs.Parsing.Expansion

/-! Derivation trees are parsed. Fed the leaves of a derivation tree, a parser retraces the tree: the trees still
    to come for its pending symbols complete the one in its slots to the given tree, and the terminal that
    comes behind each of them is in the FOLLOW set of its symbol. So the lookahead is one of the rule at the
    top of the next tree, and the table, which has no other rule for it, chooses this rule. -/

namespace Calcbook
open Grammar

/-! ### What a tree begins with -/

/-- The terminal that comes next: that of the first token, or the end mark if there is none. -/
def lookahead (g : Grammar) : List Token → Nat
  | [] => g.eof.id
  | token :: _ => token.terminal

/-- Tokens open a string of symbols: the first one begins it, and without any it is nullable. -/
def Opens (g : Grammar) (α : List Symbol) : List Token → Prop
  | [] => g.nullable α = true
  | token :: _ => token.terminal ∈ g.first α

section Opens
variable {g : Grammar} {f : Family} {α β : List Symbol} {tokens tokens' rest : List Token}

theorem Opens.append (h : Opens g α tokens) (h' : Opens g β tokens') : Opens g (α ++ β) (tokens ++ tokens') := by
  cases tokens with
  | nil =>
    cases tokens' with
    | nil => exact nullable_append.mpr ⟨h, h'⟩
    | cons token _ => exact mem_first_append.mpr (Or.inr ⟨h, h'⟩)
  | cons token _ => exact mem_first_append.mpr (Or.inl h)

theorem opens_trees {ts : List Tree} (h : ∀ s ∈ ts, Opens g [s.symbol] s.leaves) :
    Opens g (ts.map Tree.symbol) (ts.flatMap Tree.leaves) := by
  induction ts with
  | nil => exact nullable_nil
  | cons s ts ih =>
    obtain ⟨hs, hts⟩ := List.forall_mem_cons.mp h
    exact hs.append (ih hts)

theorem Opens.of_rule (hg : g.WellFormed) {r : Rule} (hr : r ∈ g.rules) (h : Opens g r.rhs tokens) :
    Opens g [r.lhs] tokens := by
  cases tokens with
  | nil => exact nullable_of_rule hg hr h
  | cons token _ => exact mem_first_of_rule hg hr h

theorem opens_of_validFor (hg : g.WellFormed) {s : Tree} (h : s.ValidFor g) : Opens g [s.symbol] s.leaves := by
  induction h with
  | leaf hs hid =>
    obtain ⟨hs, hkind⟩ := mem_terminals.mp hs
    rw [Tree.leaves_leaf]
    show _ ∈ _
    exact hid ▸ mem_first_terminal hg hs hkind
  | node hr hsymbols _ ih =>
    rw [Tree.leaves_node]
    exact (hsymbols ▸ opens_trees ih).of_rule hg hr

theorem Opens.lookahead_mem (h : Opens g α tokens) {a : Nat} (ha : lookahead g rest ∈ f.get a) :
    lookahead g (tokens ++ rest) ∈ g.behind f a α := by
  cases tokens with
  | nil => exact mem_behind.mpr (Or.inr ⟨h, ha⟩)
  | cons token _ => exact mem_behind.mpr (Or.inl h)

end Opens

namespace Parser

/-! ### Answers and the rest of the input -/

section Rest
variable {t : ParseTable} {p p' q : Parser} {todo : List (Symbol × Nat)} {token : Token} {tokens : List Token} {outcome : Outcome}

theorem feed_of_step (hs : p.step token = (some outcome, p')) : p.feed token = (outcome, p') :=
  feed_of_expansions .refl (Nat.lt_of_le_of_lt (Nat.zero_le _) (limits_lt_stepLimit p)) hs

/-- Parsers that give the same answers to the terminal that comes next parse the rest of the input alike. -/
theorem parseRest_eq (htable : p.table = q.table) (stop : Nat)
    (h : ∀ token : Token, token.terminal = lookahead p.table.grammar tokens → p.feed token = q.feed token) :
    p.parseRest stop tokens = q.parseRest stop tokens := by
  cases tokens with
  | nil =>
    have hfeed := h ⟨p.table.grammar.eof.id, "", stop⟩ rfl
    rw [htable] at hfeed
    simp only [parseRest, htable, hfeed]
  | cons token tokens => simp only [parseRest, h token rfl]

end Rest

/-! ### The trees to come -/

/-- A steady parser with the derivation trees that are to come for its pending symbols: they complete the tree in
    the slots, and each stands before a terminal that follows its symbol. -/
structure Expects (t : ParseTable) (f : Family) (p : Parser) (todo : List (Symbol × Nat)) (ts : List Tree)
    (root : Tree) : Prop extends Steady t p todo where
  roots : ts.map Tree.symbol = todo.map (·.1)
  valid : ∀ s ∈ ts, s.ValidFor t.grammar
  holds : Slot.Holds p.slots (holesOf todo ts) 0 root
  followed : ∀ u s v, ts = u ++ s :: v → s.symbol.isTerminal = false →
    lookahead t.grammar (v.flatMap Tree.leaves) ∈ f.get s.symbol.id

variable {t : ParseTable} {g : Grammar} {f : Family} {p q : Parser} {todo rest : List (Symbol × Nat)} {ts : List Tree}
  {root : Tree} {x : Symbol} {i : Nat} {token : Token} {tokens : List Token} {stop : Nat}

theorem expects_ofTable (hc : t.Chooses g f) (hvalid : root.ValidFor t.grammar) (hroot : root.symbol = t.grammar.start) :
    Expects t f (ofTable t) [(t.grammar.start, 0)] [root] root where
  toSteady := steady_ofTable (hc.grammar ▸ hc.wellFormed.start_nonterminal.1)
  roots := by simp [hroot]
  valid := by simpa using hvalid
  holds := .hole rfl (List.mem_singleton.mpr rfl)
  followed u s v heq hs := by
    obtain ⟨-, rfl, rfl⟩ : u = [] ∧ s = root ∧ v = [] := by
      cases u with
      | nil => simpa [eq_comm] using heq
      | cons => simp at heq
    rw [hroot]
    exact hc.grammar ▸ hc.follow.eof

namespace Expects

theorem matched (h : Expects t f p ((x, i) :: rest) (.leaf x token :: ts) root) :
    Expects t f (p.matched x i token rest) rest ts root where
  toSteady := h.toSteady.matched
  roots := (List.cons.inj h.roots).2
  valid := (List.forall_mem_cons.mp h.valid).2
  holds := h.holds_matched h.holds
  followed u s v heq hs := h.followed (.leaf x token :: u) s v (congrArg _ heq) hs

/-- What begins the last of some children, or else follows the node, comes next before them. -/
theorem lookahead_mem (hc : t.Chooses g f) {r : Rule} {u v : List Tree}
    (h : Expects t f p todo (.node r (u ++ v) :: ts) root) :
    lookahead g ((v ++ ts).flatMap Tree.leaves) ∈ g.behind f r.lhs.id (v.map Tree.symbol) := by
  obtain rfl := hc.grammar
  obtain ⟨hnode, -⟩ := List.forall_mem_cons.mp h.valid
  cases hnode with
  | node hr _ hchildren =>
    have hopens : Opens t.grammar (v.map Tree.symbol) (v.flatMap Tree.leaves) :=
      opens_trees fun s hs => opens_of_validFor hc.wellFormed (hchildren s (List.mem_append_right u hs))
    rw [List.flatMap_append]
    exact hopens.lookahead_mem (h.followed [] _ ts rfl (hc.wellFormed.heads r hr).2)

theorem expanded (hc : t.Chooses g f) {r : Rule} {children : List Tree}
    (h : Expects t f p ((x, i) :: rest) (.node r children :: ts) root) :
    t.get? x.id (lookahead g ((children ++ ts).flatMap Tree.leaves)) = some r ∧
      Expects t f (p.expanded r i rest) (Parser.children p.slots.size r.rhs ++ rest) (children ++ ts) root := by
  obtain rfl := hc.grammar
  have hg := hc.wellFormed
  obtain ⟨hx, hrest⟩ := List.cons.inj h.roots
  obtain rfl : r.lhs = x := hx
  obtain ⟨hnode, hts⟩ := List.forall_mem_cons.mp h.valid
  cases hnode with
  | node hr hsymbols hchildren =>
    have hlen : children.length = r.rhs.length := by rw [← hsymbols, List.length_map]
    have hnext := lookahead_mem (u := []) hc h
    rw [hsymbols] at hnext
    refine ⟨hc.get?_of_mem hr hnext, ?_⟩
    refine { h.toSteady.expanded (hg.bodies r hr) with roots := ?_, valid := ?_, holds := ?_, followed := ?_ }
    · rw [List.map_append, List.map_append, map_fst_children, hsymbols, hrest]
    · exact List.forall_mem_append.mpr ⟨hchildren, hts⟩
    · exact h.holds_expanded hlen h.holds
    · intro u s v heq hs
      rcases append_eq_append_cons heq with ⟨c, rfl, rfl⟩ | ⟨a, -, rfl⟩
      · -- One of the children: what comes behind it is the demand of the rule on its symbol.
        have hplace : r.rhs = u.map Tree.symbol ++ s.symbol :: c.map Tree.symbol := by simp [← hsymbols]
        have hnext := lookahead_mem (u := u ++ [s]) (v := c) hc (by simpa using h)
        exact hc.follow.mem hg hr hplace hs hnext
      · exact h.followed (.node r children :: a) s v rfl hs

end Expects

/-! ### Retracing a tree -/

/-- A parser that expects a tree goes through its leaves and expects the rest of the trees after that. -/
def Retraces (t : ParseTable) (f : Family) (s : Tree) : Prop :=
  ∀ (p : Parser) (e : Symbol × Nat) (rest : List (Symbol × Nat)) (ts : List Tree) (root : Tree) (stop : Nat),
    Expects t f p (e :: rest) (s :: ts) root → ∃ q stop', Expects t f q rest ts root ∧
      p.parseRest stop (s.leaves ++ ts.flatMap Tree.leaves) = q.parseRest stop' (ts.flatMap Tree.leaves)

theorem retraces_trees {children : List Tree} (hall : ∀ c ∈ children, Retraces t f c)
    (h : Expects t f p (todo ++ rest) (children ++ ts) root) (hlen : todo.length = children.length) (stop : Nat) :
    ∃ q stop', Expects t f q rest ts root ∧
      p.parseRest stop ((children ++ ts).flatMap Tree.leaves) = q.parseRest stop' (ts.flatMap Tree.leaves) := by
  induction children generalizing p todo stop with
  | nil =>
    obtain rfl := List.length_eq_zero_iff.mp hlen
    exact ⟨p, stop, h, rfl⟩
  | cons c children ih =>
    obtain ⟨hc, hchildren⟩ := List.forall_mem_cons.mp hall
    cases todo with
    | nil => cases hlen
    | cons e todo =>
      obtain ⟨q₁, stop₁, h₁, heq₁⟩ := hc p e (todo ++ rest) (children ++ ts) root stop h
      obtain ⟨q₂, stop₂, h₂, heq₂⟩ := ih hchildren h₁ (Nat.succ.inj hlen) stop₁
      exact ⟨q₂, stop₂, h₂, by rw [List.cons_append, List.flatMap_cons, heq₁, heq₂]⟩

theorem retraces_leaf {s : Symbol} (hs : s ∈ t.grammar.terminals) (hid : token.terminal = s.id) :
    Retraces t f (.leaf s token) := by
  rintro p ⟨x, i⟩ rest ts root stop h
  obtain rfl : s = x := (List.cons.inj h.roots).1
  have hfeed := feed_of_step (h.step_match (mem_terminals.mp hs).2 hid.symm)
  refine ⟨_, token.stop, h.matched, ?_⟩
  rw [Tree.leaves_leaf, List.singleton_append, parseRest, hfeed]

theorem retraces_node (hc : t.Chooses g f) {r : Rule} {children : List Tree} (hr : r ∈ t.grammar.rules)
    (hsymbols : children.map Tree.symbol = r.rhs) (hall : ∀ c ∈ children, Retraces t f c) :
    Retraces t f (.node r children) := by
  rintro p ⟨x, i⟩ rest ts root stop h
  obtain rfl := hc.grammar
  obtain rfl : r.lhs = x := (List.cons.inj h.roots).1
  obtain ⟨hget, h'⟩ := h.expanded hc
  have hlen : (Parser.children p.slots.size r.rhs).length = children.length := by simp [Parser.children, ← hsymbols]
  obtain ⟨q, stop', hq, heq⟩ := retraces_trees hall h' hlen stop
  refine ⟨q, stop', hq, ?_⟩
  rw [Tree.leaves_node, ← List.flatMap_append, ← heq]
  -- The expansion does not take the token, which is fed to the expanded parser all the same.
  refine parseRest_eq (h.table.trans h'.table.symm) stop fun token htoken => ?_
  rw [h.table] at htoken
  exact h.feed_expanded hc (hc.wellFormed.heads r hr).2 hr (htoken ▸ hget)

theorem retraces_of_validFor (hc : t.Chooses g f) {s : Tree} (hs : s.ValidFor t.grammar) : Retraces t f s := by
  induction hs with
  | leaf hs hid => exact retraces_leaf hs hid
  | node hr hsymbols _ ih => exact retraces_node hc hr hsymbols ih

/-- Nothing is left to expect but the end mark, and it completes the tree. -/
theorem Expects.accepts (hc : t.Chooses g f) (h : Expects t f p [] [] root) (stop : Nat) :
    (p.parseRest stop []).1 = .ok root := by
  have heof : Token.terminal ⟨p.table.grammar.eof.id, "", stop⟩ = t.grammar.eof.id := by rw [h.table]
  have hstep := h.step_accept hc.eof_terminal heof (Slot.assemble_eq_some h.tidy h.holds)
  simp only [parseRest, feed_of_step hstep]

theorem parse_leaves (hc : t.Chooses g f) (hp : p.table = t) (hvalid : root.ValidFor t.grammar)
    (hroot : root.symbol = t.grammar.start) : (p.parse root.leaves).1 = .ok root := by
  obtain ⟨q, stop, hq, heq⟩ := retraces_of_validFor hc hvalid _ _ _ _ _ 0 (expects_ofTable hc hvalid hroot)
  rw [parse, reset, hp]
  simp only [List.flatMap_nil, List.append_nil] at heq
  rw [heq]
  exact hq.accepts hc stop

/-- A parser accepts the leaves of every derivation tree of the start symbol and answers this tree; it accepts
    everything that the start symbol derives; and no two derivation trees have the same leaves. -/
theorem parse_complete {calls : List Declaration} {start : String} (hg : Grammar.ofDeclarations calls start = .ok g)
    (ht : ParseTable.ofGrammar g = .ok t) (hp : p.table = t) :
    (∀ tree : Tree, tree.ValidFor g → tree.symbol = g.start → (p.parse tree.leaves).1 = .ok tree) ∧
    (∀ (w : List Symbol) (tokens : List Token), g.Derives [g.start] w → (∀ x ∈ w, x ∈ g.terminals) →
      tokens.map (·.terminal) = w.map (·.id) → ∃ tree : Tree, tree.ValidFor g ∧ tree.symbol = g.start ∧
        tree.leaves = tokens ∧ (p.parse tokens).1 = .ok tree) ∧
    ∀ tree tree' : Tree, tree.ValidFor g → tree'.ValidFor g → tree.symbol = g.start → tree'.symbol = g.start →
      tree.leaves = tree'.leaves → tree = tree' := by
  obtain ⟨f, hc⟩ := ParseTable.chooses_of_ofGrammar (wellFormed_of_ofDeclarations hg) ht
  obtain rfl := hc.grammar
  have hparse : ∀ tree : Tree, tree.ValidFor t.grammar → tree.symbol = t.grammar.start →
      (p.parse tree.leaves).1 = .ok tree := fun tree hvalid hroot => parse_leaves hc hp hvalid hroot
  refine ⟨hparse, fun w tokens hd hw htokens => ?_, fun tree tree' hvalid hvalid' hroot hroot' hleaves => ?_⟩
  · obtain ⟨ts, hsymbols, hvalid, rfl⟩ := Tree.exists_trees_of_derives hd hw htokens
    obtain ⟨tree, rfl, hroot⟩ := List.map_eq_singleton_iff.mp hsymbols
    have hvalid := hvalid tree List.mem_cons_self
    refine ⟨tree, hvalid, hroot, by simp, ?_⟩
    simpa using hparse tree hvalid hroot
  · have heq := hparse tree hvalid hroot
    rw [hleaves, hparse tree' hvalid' hroot'] at heq
    exact (Except.ok.inj heq).symm

theorem parse_complete_sums :
    ((ofTable Sums.table).parse [⟨3, "1", 0⟩]).1 =
      .ok (.node ⟨0, Sums.sum, [Sums.number, Sums.more]⟩ [.leaf Sums.number ⟨3, "1", 0⟩, .node ⟨2, Sums.more, []⟩ []]) := by
  have hnumber : Tree.ValidFor Sums.grammar (.leaf Sums.number ⟨3, "1", 0⟩) :=
    .leaf (mem_terminals.mpr ⟨by simp [Sums.grammar], rfl⟩) rfl
  have hmore : Tree.ValidFor Sums.grammar (.node ⟨2, Sums.more, []⟩ []) := .node (by simp [Sums.grammar]) rfl (by simp)
  have hsum := Tree.ValidFor.node (g := Sums.grammar) (r := ⟨0, Sums.sum, [Sums.number, Sums.more]⟩)
    (by simp [Sums.grammar]) rfl (List.forall_mem_cons.mpr ⟨hnumber, List.forall_mem_singleton.mpr hmore⟩)
  have hparse := (parse_complete (p := ofTable Sums.table) Sums.ofDeclarations_calls Sums.ofGrammar_grammar rfl).1 _ hsum rfl
  simpa using hparse

end Parser

end Calcbook
