import Calcbook.Proofs.Parsing.Arena
import Calcbook.Proofs.Parsing.Reachable

/-! Trees that a parser answers are derivation trees. Whatever derivation trees may come for the pending
    symbols, together with what is in the slots they make a derivation tree of the start symbol, and its
    leaves are the tokens taken so far and then theirs. A match takes its token for the tree of the top
    symbol, and an expansion puts the trees of the right side below a node, so every step keeps this; when
    nothing but the end mark is pending, the tree in the slots is complete and has the tokens as its leaves. -/

namespace Calcbook.Parser

/-- A steady parser that has taken some tokens: derivation trees of the pending symbols complete the tree in its
    slots to one with these tokens in front. -/
structure Taken (t : ParseTable) (p : Parser) (todo : List (Symbol × Nat)) (tokens : List Token) : Prop
    extends Steady t p todo where
  completes : ∀ ts : List Tree, ts.map Tree.symbol = todo.map (·.1) → (∀ s ∈ ts, s.ValidFor t.grammar) →
    ∃ root : Tree, root.ValidFor t.grammar ∧ root.symbol = t.grammar.start ∧
      root.leaves = tokens ++ ts.flatMap Tree.leaves ∧ Slot.Holds p.slots (holesOf todo ts) 0 root

/-- Feeding tokens one after the other while each of them is answered by awaiting more. -/
inductive Awaits : Parser → List Token → Parser → Prop
  | nil {p : Parser} : Awaits p [] p
  | cons {p q s : Parser} {token : Token} {tokens : List Token} (hfeed : p.feed token = (.awaiting, q))
      (hrest : Awaits q tokens s) : Awaits p (token :: tokens) s

variable {t : ParseTable} {g : Grammar} {f : Grammar.Family} {p q p' : Parser} {todo rest : List (Symbol × Nat)}
  {x : Symbol} {i n : Nat} {token : Token} {tokens : List Token} {r : Rule}

theorem taken_ofTable (hc : t.Chooses g f) : Taken t (ofTable t) [(t.grammar.start, 0)] [] where
  toSteady := steady_ofTable (hc.grammar ▸ hc.wellFormed.start_nonterminal.1)
  completes ts hsymbols hvalid := by
    obtain ⟨root, rest, rfl, hroot, hnil⟩ := List.map_eq_cons_iff.mp hsymbols
    obtain rfl := List.map_eq_nil_iff.mp hnil
    refine ⟨root, hvalid root List.mem_cons_self, hroot, by simp, .hole rfl ?_⟩
    exact List.mem_singleton.mpr rfl

namespace Taken

theorem matched (h : Taken t p ((x, i) :: rest) tokens) (hx : x.isTerminal = true) (hid : x.id = token.terminal) :
    Taken t (p.matched x i token rest) rest (tokens ++ [token]) where
  toSteady := h.toSteady.matched
  completes ts hsymbols hvalid := by
    have hxs : x ∈ t.grammar.symbols := h.symbols (x, i) List.mem_cons_self
    have hleaf : (Tree.leaf x token).ValidFor t.grammar := .leaf (Grammar.mem_terminals.mpr ⟨hxs, hx⟩) hid.symm
    obtain ⟨root, hroot, hstart, hleaves, hholds⟩ := h.completes (.leaf x token :: ts) (congrArg (x :: ·) hsymbols)
      (List.forall_mem_cons.mpr ⟨hleaf, hvalid⟩)
    exact ⟨root, hroot, hstart, by simpa using hleaves, h.holds_matched hholds⟩

theorem expanded (h : Taken t p ((x, i) :: rest) tokens) (hg : t.grammar.WellFormed) (hr : r ∈ t.grammar.rules)
    (hx : r.lhs = x) : Taken t (p.expanded r i rest) (children p.slots.size r.rhs ++ rest) tokens where
  toSteady := h.toSteady.expanded (hg.bodies r hr)
  completes ts hsymbols hvalid := by
    rw [List.map_append, map_fst_children] at hsymbols
    obtain ⟨children, ts, rfl, hchildren, hts⟩ := List.map_eq_append_iff.mp hsymbols
    obtain ⟨hc, hvalid⟩ := List.forall_mem_append.mp hvalid
    -- Below a node, the trees of the right side are the tree of the symbol expanded.
    have hnode : (Tree.node r children).ValidFor t.grammar := .node hr hchildren hc
    obtain ⟨root, hroot, hstart, hleaves, hholds⟩ := h.completes (.node r children :: ts)
      (by simp [Tree.symbol, hx, hts]) (List.forall_mem_cons.mpr ⟨hnode, hvalid⟩)
    have hlen : children.length = r.rhs.length := by rw [← hchildren, List.length_map]
    exact ⟨root, hroot, hstart, by simpa using hleaves, h.holds_expanded hlen hholds⟩

theorem expands (hc : t.Chooses g f) (h : Taken t p todo tokens) (he : Expands token p q) :
    ∃ todo', Taken t q todo' tokens := by
  obtain rfl := hc.grammar
  obtain ⟨x, i, rest, r, rfl, -, hget, rfl⟩ := h.exists_of_expands hc.eof_terminal he
  have hx : x ∈ t.grammar.symbols := h.symbols (x, i) List.mem_cons_self
  obtain ⟨hr, hlhs, -⟩ := (hc.get?_eq_some_iff hx).mp hget
  exact ⟨_, h.expanded hc.wellFormed hr hlhs⟩

theorem expansions (hc : t.Chooses g f) (h : Taken t p todo tokens) (he : Expansions token n p q) :
    ∃ todo', Taken t q todo' tokens := by
  induction he generalizing todo with
  | refl => exact ⟨todo, h⟩
  | head he _ ih =>
    obtain ⟨_, h'⟩ := h.expands hc he
    exact ih h'

/-- Feeding matches the token, completes the tree, or rejects the token. -/
theorem feed_cases (hc : t.Chooses g f) (h : Taken t p todo tokens) (token : Token) :
    (∃ todo' p', p.feed token = (.awaiting, p') ∧ Taken t p' todo' (tokens ++ [token])) ∨
    (∃ tree, p.feed token = (.ready tree, ofTable t) ∧ token.terminal = t.grammar.eof.id ∧
      tree.ValidFor t.grammar ∧ tree.symbol = t.grammar.start ∧ tree.leaves = tokens) ∨
    ∃ why, p.feed token = (.rejected why, ofTable t) := by
  obtain ⟨n, q, outcome, p', he, hs, hfeed⟩ := h.exists_feed hc token
  obtain ⟨todo', hq⟩ := h.expansions hc he
  rw [hfeed]
  rcases hq.step_cases hc.eof_terminal token with
    ⟨x, i, rest, rfl, hx, hid, hs'⟩ | ⟨_, _, _, _, -, -, -, hs'⟩ | ⟨tree, rfl, heof, htree, hs'⟩ | ⟨why, hs'⟩ <;>
    rw [hs] at hs' <;> cases hs'
  · exact Or.inl ⟨rest, _, rfl, hq.matched hx hid⟩
  · obtain ⟨root, hroot, hstart, hleaves, hholds⟩ := hq.completes [] rfl (by simp)
    obtain rfl : root = tree := Option.some.inj ((Slot.assemble_eq_some hq.tidy hholds).symm.trans htree)
    exact Or.inr (Or.inl ⟨root, rfl, heof, hroot, hstart, by simpa using hleaves⟩)
  · exact Or.inr (Or.inr ⟨why, rfl⟩)

theorem awaits (hc : t.Chooses g f) {before : List Token} (h : Taken t p todo before) (ha : Awaits p tokens q) :
    ∃ todo', Taken t q todo' (before ++ tokens) := by
  induction ha generalizing todo before with
  | nil => exact ⟨todo, by simpa using h⟩
  | @cons _ _ _ token _ hfeed _ ih =>
    rcases h.feed_cases hc token with ⟨_, _, hf, h'⟩ | ⟨_, hf, -⟩ | ⟨_, hf⟩ <;> rw [hfeed] at hf <;> cases hf
    obtain ⟨todo', h'⟩ := ih h'
    exact ⟨todo', by simpa using h'⟩

end Taken

/-- A tree that is answered to tokens fed to a new parser or to one that was reset comes with the end mark, is a
    derivation tree of the start symbol, and has the other tokens as its leaves. -/
theorem ready_sound {calls : List Declaration} {start : String} (hg : Grammar.ofDeclarations calls start = .ok g)
    (ht : ParseTable.ofGrammar g = .ok t) (hp : p = ofTable t ∨ ∃ s, Reachable t s ∧ p = s.reset)
    (hawaits : Awaits p tokens q) {last : Token} {tree : Tree} (hready : q.feed last = (.ready tree, p')) :
    last.terminal = g.eof.id ∧ tree.ValidFor g ∧ (∃ r children, tree = .node r children ∧ r.lhs = g.start) ∧
      tree.leaves = tokens := by
  obtain ⟨f, hc⟩ := ParseTable.chooses_of_ofGrammar (Grammar.wellFormed_of_ofDeclarations hg) ht
  have hnew : p = ofTable t := by
    rcases hp with hp | ⟨s, hs, rfl⟩
    · exact hp
    · obtain ⟨_, hsteady⟩ := hs.exists_steady hc
      rw [reset, hsteady.table]
  subst hnew
  obtain ⟨todo, h⟩ := (taken_ofTable hc).awaits hc hawaits
  obtain rfl := hc.grammar
  rcases h.feed_cases hc last with ⟨_, _, hf, -⟩ | ⟨root, hf, heof, hroot, hstart, hleaves⟩ | ⟨_, hf⟩ <;>
    rw [hready] at hf <;> cases hf
  obtain ⟨r, children, rfl, hlhs⟩ := hroot.exists_node (hstart ▸ hc.wellFormed.start_nonterminal.2)
  exact ⟨heof, hroot, ⟨r, children, rfl, hlhs.trans hstart⟩, hleaves⟩

theorem ready_sound_sums : ∃ tree p', ((ofTable Sums.table).feed ⟨3, "1", 0⟩).2.feed ⟨5, "", 1⟩ = (.ready tree, p') ∧
    tree.ValidFor Sums.grammar ∧ tree.leaves = [⟨3, "1", 0⟩] := by
  have hawaits : Awaits (ofTable Sums.table) [⟨3, "1", 0⟩] ((ofTable Sums.table).feed ⟨3, "1", 0⟩).2 := .cons rfl .nil
  have hready : ∃ tree p', ((ofTable Sums.table).feed ⟨3, "1", 0⟩).2.feed ⟨5, "", 1⟩ = (.ready tree, p') := ⟨_, _, rfl⟩
  obtain ⟨tree, p', hready⟩ := hready
  obtain ⟨-, hvalid, -, hleaves⟩ := ready_sound Sums.ofDeclarations_calls Sums.ofGrammar_grammar (Or.inl rfl) hawaits hready
  exact ⟨tree, p', hready, hvalid, hleaves⟩

end Calcbook.Parser
