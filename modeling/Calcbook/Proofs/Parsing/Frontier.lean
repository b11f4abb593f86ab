import Calcbook.Proofs.Parsing.Soundness

/-! The frontier of the tree in the slots. The leaves read so far, in the order of the tree, and then the pending
    symbols, in the order of the stack, stand at the ends of its branches, and they are a left sentential form of
    the start symbol. A match turns the first pending symbol into the last leaf. An expansion is the step of the
    derivation, and what comes up is the right side at new slots where its left side was pending. -/

namespace Calcbook

namespace Slot

/-- The ends of the branches below some slots, from left to right: the leaves and the empty slots. -/
inductive Ends (slots : Array Slot) : List Nat → List Nat → Prop
  | nil : Ends slots [] []
  | empty {i : Nat} {is es : List Nat} (hi : slots[i]? = some .empty) (his : Ends slots is es) :
      Ends slots (i :: is) (i :: es)
  | leaf {i : Nat} {s : Symbol} {token : Token} {is es : List Nat} (hi : slots[i]? = some (.leaf s token))
      (his : Ends slots is es) : Ends slots (i :: is) (i :: es)
  | node {i : Nat} {r : Rule} {children is cs es : List Nat} (hi : slots[i]? = some (.node r children))
      (hchildren : Ends slots children cs) (his : Ends slots is es) : Ends slots (i :: is) (cs ++ es)

namespace Ends
variable {slots slots' : Array Slot} {is js cs es es' : List Nat}

theorem append (h₁ : Ends slots is cs) (h₂ : Ends slots js es) : Ends slots (is ++ js) (cs ++ es) := by
  induction h₁ with
  | nil => exact h₂
  | empty hi _ ih => exact .empty hi ih
  | leaf hi _ ih => exact .leaf hi ih
  | node hi hchildren _ _ ih =>
    rw [List.append_assoc]
    exact .node hi hchildren ih

theorem exists_of_append (h : Ends slots (is ++ js) es) : ∃ e₁ e₂, es = e₁ ++ e₂ ∧ Ends slots is e₁ ∧ Ends slots js e₂ := by
  induction is generalizing es with
  | nil => exact ⟨[], es, rfl, .nil, h⟩
  | cons i is ih =>
    cases h with
    | empty hi his =>
      obtain ⟨e₁, e₂, rfl, h₁, h₂⟩ := ih his
      exact ⟨i :: e₁, e₂, rfl, .empty hi h₁, h₂⟩
    | leaf hi his =>
      obtain ⟨e₁, e₂, rfl, h₁, h₂⟩ := ih his
      exact ⟨i :: e₁, e₂, rfl, .leaf hi h₁, h₂⟩
    | @node _ _ _ _ cs _ hi hchildren his =>
      obtain ⟨e₁, e₂, rfl, h₁, h₂⟩ := ih his
      exact ⟨cs ++ e₁, e₂, (List.append_assoc ..).symm, .node hi hchildren h₁, h₂⟩

theorem exists_of_cons {i : Nat} (h : Ends slots (i :: is) es) :
    ∃ e₁ e₂, es = e₁ ++ e₂ ∧ Ends slots [i] e₁ ∧ Ends slots is e₂ := exists_of_append h

/-- Slots that are each the end of a branch are all of their ends. -/
theorem self (h : ∀ i ∈ is, Ends slots [i] [i]) : Ends slots is is := by
  induction is with
  | nil => exact .nil
  | cons i is ih =>
    obtain ⟨hi, his⟩ := List.forall_mem_cons.mp h
    exact hi.append (ih his)

/-- Where nodes stay as they are, the branches go on below the slots that have been their ends. -/
theorem trans (h : Ends slots is es)
    (hkeep : ∀ {i : Nat} {r : Rule} {children : List Nat}, slots[i]? = some (.node r children) →
      slots'[i]? = some (.node r children))
    (hes : Ends slots' es es') : Ends slots' is es' := by
  induction h generalizing es' with
  | nil => exact hes
  | empty _ _ ih =>
    obtain ⟨e₁, e₂, rfl, h₁, h₂⟩ := exists_of_cons hes
    exact h₁.append (ih h₂)
  | leaf _ _ ih =>
    obtain ⟨e₁, e₂, rfl, h₁, h₂⟩ := exists_of_cons hes
    exact h₁.append (ih h₂)
  | node hi _ _ ihchildren ih =>
    obtain ⟨e₁, e₂, rfl, h₁, h₂⟩ := exists_of_append hes
    exact .node (hkeep hi) (ihchildren h₁) (ih h₂)

end Ends

end Slot

namespace Parser
open Slot

/-- A slot stands for a symbol that is pending there or that it was filled for. -/
inductive StandsFor (p : Parser) (i : Nat) : Symbol → Prop
  | pending {x : Symbol} (hi : p.slots[i]? = some .empty) (hx : (x, some i) ∈ p.stack) : StandsFor p i x
  | leaf {x : Symbol} {token : Token} (hi : p.slots[i]? = some (.leaf x token)) : StandsFor p i x
  | node {r : Rule} {children : List Nat} (hi : p.slots[i]? = some (.node r children)) : StandsFor p i r.lhs

/-- A parser with the leaves that it has read, each with its slot, its symbol and its token. The slots are those of
    the leaves read, of the pending symbols, and of nodes with a child for each symbol of a right side. -/
structure Laid (t : ParseTable) (p : Parser) (todo : List (Symbol × Nat)) (read : List (Nat × Symbol × Token)) : Prop
    extends Taken t p todo (read.map (·.2.2)) where
  root : p.StandsFor 0 t.grammar.start
  empties : ∀ {i : Nat}, p.slots[i]? = some .empty → i ∈ todo.map (·.2)
  leaves : ∀ {i : Nat} {s : Symbol} {token : Token}, p.slots[i]? = some (.leaf s token) ↔ (i, s, token) ∈ read
  nodes : ∀ {i : Nat} {r : Rule} {children : List Nat}, p.slots[i]? = some (.node r children) →
    r ∈ t.grammar.rules ∧ List.Forall₂ p.StandsFor children r.rhs
  terminals : ∀ e ∈ read, e.2.1 ∈ t.grammar.terminals ∧ e.2.2.terminal = e.2.1.id
  ends : Ends p.slots [0] (read.map (·.1) ++ todo.map (·.2))
  derived : t.grammar.LeftDerives [t.grammar.start] (read.map (·.2.1) ++ todo.map (·.1))

variable {t : ParseTable} {g : Grammar} {f : Grammar.Family} {p p' q : Parser} {todo rest : List (Symbol × Nat)}
  {read : List (Nat × Symbol × Token)} {x : Symbol} {i n : Nat} {token : Token} {r : Rule}

theorem laid_ofTable (hc : t.Chooses g f) : Laid t (ofTable t) [(t.grammar.start, 0)] [] where
  toTaken := taken_ofTable hc
  root := .pending rfl List.mem_cons_self
  empties {i} hi := by
    cases i with
    | zero => exact List.mem_cons_self
    | succ i => simp [ofTable] at hi
  leaves {i _ _} := by cases i <;> simp [ofTable]
  nodes {i _ _} hi := by cases i <;> simp [ofTable] at hi
  terminals e he := by cases he
  ends := .empty rfl .nil
  derived := .refl

/-- Slots stand for the symbols they stood for, if the slot of the top symbol is filled for it. -/
theorem Steady.standsFor (h : Steady t p ((x, i) :: rest)) {s : Slot} (hslots : p'.slots = filled p.slots i s n)
    (hrest : ∀ e ∈ rest, (e.1, some e.2) ∈ p'.stack) (hself : p'.StandsFor i x) {c : Nat} {y : Symbol}
    (hc : p.StandsFor c y) : p'.StandsFor c y := by
  cases hc with
  | pending hi hy =>
    rw [h.stack] at hy
    rcases List.mem_append.mp hy with hy | hy
    · obtain ⟨e, he, heq⟩ := List.mem_map.mp hy
      cases heq
      rcases List.mem_cons.mp he with rfl | he
      · exact hself
      · exact .pending (hslots ▸ filled_of_ne (h.ne_of_mem_rest he) hi) (hrest e he)
    · cases List.mem_singleton.mp hy
  | leaf hi => exact .leaf (hslots ▸ filled_of_ne_empty h.top_empty hi (by simp))
  | node hi => exact .node (hslots ▸ filled_of_ne_empty h.top_empty hi (by simp))

theorem Steady.ends_pending (h : Steady t p todo) (hrest : ∀ e ∈ rest, e ∈ todo) :
    Ends p.slots (rest.map (·.2)) (rest.map (·.2)) := by
  refine .self fun j hj => ?_
  obtain ⟨e, he, rfl⟩ := List.mem_map.mp hj
  exact .empty (h.empty e (hrest e he)) .nil

namespace Laid

/-- The ends of the branches are those that were, but what is below the slot that is filled. -/
theorem ends_filled (h : Laid t p ((x, i) :: rest) read) {s : Slot} {es : List Nat}
    (hself : Ends (filled p.slots i s n) (i :: rest.map (·.2)) es) :
    Ends (filled p.slots i s n) [0] (read.map (·.1) ++ es) := by
  have hread : Ends (filled p.slots i s n) (read.map (·.1)) (read.map (·.1)) := .self fun j hj => by
    obtain ⟨⟨j, y, token⟩, he, rfl⟩ := List.mem_map.mp hj
    exact .leaf (filled_of_ne_empty h.top_empty (h.leaves.mpr he) (by simp)) .nil
  exact h.ends.trans (fun hj => filled_of_ne_empty h.top_empty hj (by simp)) (hread.append hself)

theorem matched (h : Laid t p ((x, i) :: rest) read) (hx : x.isTerminal = true) (hid : x.id = token.terminal) :
    Laid t (p.matched x i token rest) rest (read ++ [(i, x, token)]) := by
  have htaken := h.toTaken.matched hx hid
  have hslots : (p.matched x i token rest).slots = filled p.slots i (.leaf x token) 0 := slots_matched
  have hself : (filled p.slots i (.leaf x token) 0)[i]? = some (.leaf x token) := filled_self h.top_empty
  have hstands : ∀ c y, p.StandsFor c y → (p.matched x i token rest).StandsFor c y := fun _ _ =>
    h.standsFor hslots (fun e he => List.mem_append_left _ (List.mem_map_of_mem he)) (.leaf (hslots ▸ hself))
  refine { toTaken := by simpa using htaken, root := hstands _ _ h.root, empties := ?_, leaves := ?_, nodes := ?_,
           terminals := ?_, ends := ?_, derived := by simpa using h.derived }
  · intro j hj
    rcases filled_cases (hslots ▸ hj) with ⟨hne, hj⟩ | ⟨-, hleaf⟩ | ⟨hnew, -⟩
    · exact (List.mem_cons.mp (h.empties hj)).resolve_left hne
    · cases hleaf
    · cases hnew
  · intro j s token'
    rw [List.mem_append, List.mem_singleton, ← h.leaves, hslots]
    constructor
    · intro hj
      rcases filled_cases hj with ⟨-, hj⟩ | ⟨rfl, hleaf⟩ | ⟨hnew, -⟩
      · exact Or.inl hj
      · cases hleaf
        exact Or.inr rfl
      · cases hnew
    · rintro (hj | heq)
      · exact filled_of_ne_empty h.top_empty hj (by simp)
      · cases heq
        exact hself
  · intro j r children hj
    rcases filled_cases (hslots ▸ hj) with ⟨-, hj⟩ | ⟨-, hnode⟩ | ⟨hnew, -⟩
    · obtain ⟨hr, hchildren⟩ := h.nodes hj
      exact ⟨hr, hchildren.imp hstands⟩
    · cases hnode
    · cases hnew
  · have hxs : x ∈ t.grammar.symbols := h.symbols (x, i) List.mem_cons_self
    refine List.forall_mem_append.mpr ⟨h.terminals, fun e he => ?_⟩
    rw [List.mem_singleton.mp he]
    exact ⟨Grammar.mem_terminals.mpr ⟨hxs, hx⟩, hid.symm⟩
  · have hrest := htaken.ends_pending fun _ he => he
    rw [hslots] at hrest ⊢
    simpa using h.ends_filled (.leaf hself hrest)

theorem expanded (h : Laid t p ((x, i) :: rest) read) (hg : t.grammar.WellFormed) (hr : r ∈ t.grammar.rules)
    (hx : r.lhs = x) : Laid t (p.expanded r i rest) (children p.slots.size r.rhs ++ rest) read := by
  have htaken := h.toTaken.expanded hg hr hx
  have hself : (p.expanded r i rest).slots[i]? = some (.node r (List.range' p.slots.size r.rhs.length)) :=
    filled_self h.top_empty
  have hstack : ∀ e ∈ children p.slots.size r.rhs ++ rest, (e.1, some e.2) ∈ (p.expanded r i rest).stack := fun e he => by
    rw [htaken.stack]
    exact List.mem_append_left _ (List.mem_map_of_mem he)
  have hstands : ∀ c y, p.StandsFor c y → (p.expanded r i rest).StandsFor c y := fun _ _ =>
    h.standsFor slots_expanded (fun e he => hstack e (List.mem_append_right _ he)) (hx ▸ .node hself)
  refine { toTaken := htaken, root := hstands _ _ h.root, empties := ?_, leaves := ?_, nodes := ?_,
           terminals := h.terminals, ends := ?_, derived := ?_ }
  · intro j hj
    rw [List.map_append, map_snd_children, List.mem_append]
    rcases filled_cases hj with ⟨hne, hj⟩ | ⟨-, hnode⟩ | ⟨hnew, -⟩
    · exact Or.inr ((List.mem_cons.mp (h.empties hj)).resolve_left hne)
    · cases hnode
    · exact Or.inl hnew
  · intro j s token'
    rw [← h.leaves]
    refine ⟨fun hj => ?_, fun hj => filled_of_ne_empty h.top_empty hj (by simp)⟩
    rcases filled_cases hj with ⟨-, hj⟩ | ⟨-, hnode⟩ | ⟨-, hempty⟩
    · exact hj
    · cases hnode
    · cases hempty
  · intro j r' cs hj
    rcases filled_cases hj with ⟨-, hj⟩ | ⟨-, hnode⟩ | ⟨-, hempty⟩
    · obtain ⟨hr', hchildren⟩ := h.nodes hj
      exact ⟨hr', hchildren.imp hstands⟩
    · cases hnode
      -- The symbols of the right side are pending at the new slots.
      refine ⟨hr, List.Forall₂.flip (List.forall₂_iff_zip.mpr ⟨by simp, fun {y c} he => ?_⟩)⟩
      have hc : c ∈ List.range' p.slots.size r.rhs.length := (List.of_mem_zip he).2
      exact .pending (filled_new h.top_empty hc) (hstack (y, c) (List.mem_append_left _ he))
    · cases hempty
  · have hnew : Ends (p.expanded r i rest).slots _ _ := .self fun _ hc => .empty (filled_new h.top_empty hc) .nil
    have hrest := htaken.ends_pending fun _ => List.mem_append_right _
    rw [List.map_append, map_snd_children]
    exact h.ends_filled (.node hself hnew hrest)
  · have hterminals : ∀ y ∈ read.map (·.2.1), y ∈ t.grammar.terminals := fun y hy => by
      obtain ⟨e, he, rfl⟩ := List.mem_map.mp hy
      exact (h.terminals e he).1
    refine h.derived.tail ⟨r, hr, read.map (·.2.1), rest.map (·.1), hterminals, ?_, ?_⟩
    · rw [hx, List.map_cons]
    · rw [List.map_append, map_fst_children, List.append_assoc]

/-- Nothing but the end mark is pending, so all slots are filled and give their tree. -/
theorem exists_assemble (h : Laid t p [] read) : ∃ tree, assemble p.slots = some tree := by
  obtain ⟨root, -, -, -, hholds⟩ := h.completes [] rfl (by simp)
  exact ⟨root, assemble_eq_some h.tidy hholds⟩

end Laid

theorem lasts_laid (hc : t.Chooses g f) : Lasts t (fun p todo => ∃ read, Laid t p todo read) where
  steady := fun ⟨_, h⟩ => h.toSteady
  new := ⟨[], laid_ofTable hc⟩
  matched := fun ⟨_, h⟩ hx hid => ⟨_, h.matched hx hid⟩
  expanded := fun ⟨read, h⟩ hr hx => ⟨read, h.expanded (hc.grammar ▸ hc.wellFormed) hr hx⟩

/-- A parser that comes up is laid out between calls and after each expansion on a token. So a top symbol other than
    the end mark has a slot to fill, and the end mark finds a complete tree. -/
theorem laid_of_reachable {calls : List Declaration} {start : String} (hg : Grammar.ofDeclarations calls start = .ok g)
    (ht : ParseTable.ofGrammar g = .ok t) (hp : Reachable t p) (he : Expansions token n p q) :
    ∃ todo read, Laid t q todo read ∧ (∀ x i rest, q.stack = (x, some i) :: rest → i < q.slots.size) ∧
      ∀ x rest, q.stack = (x, none) :: rest → ∃ tree, assemble q.slots = some tree := by
  obtain ⟨f, hc⟩ := ParseTable.chooses_of_ofGrammar (Grammar.wellFormed_of_ofDeclarations hg) ht
  have hl := lasts_laid hc
  obtain ⟨todo, read, h⟩ := hl.expansions hc (hl.reachable hc hp) he
  refine ⟨todo, read, h, fun x i rest hstack => ?_, fun x rest hstack => ?_⟩ <;> rw [h.stack] at hstack
  · cases todo with
    | nil => cases hstack
    | cons e todo =>
      cases hstack
      exact h.lt_size List.mem_cons_self
  · cases todo with
    | nil => exact h.exists_assemble
    | cons e todo => cases hstack

theorem laid_of_reachable_sums : ∃ q, Reachable Sums.table ((ofTable Sums.table).feed ⟨3, "1", 0⟩).2 ∧
    Expansions ⟨5, "", 1⟩ 1 ((ofTable Sums.table).feed ⟨3, "1", 0⟩).2 q ∧ q.stack = [(Sums.table.grammar.eof, none)] ∧
    ∃ tree, assemble q.slots = some tree := by
  have hp : Reachable Sums.table ((ofTable Sums.table).feed ⟨3, "1", 0⟩).2 := .feed _ .new
  have he : Expansions ⟨5, "", 1⟩ 1 ((ofTable Sums.table).feed ⟨3, "1", 0⟩).2 _ :=
    .head ⟨_, _, _, _, rfl, rfl, rfl, rfl⟩ .refl
  obtain ⟨_, _, -, -, htree⟩ := laid_of_reachable Sums.ofDeclarations_calls Sums.ofGrammar_grammar hp he
  exact ⟨_, hp, he, rfl, htree _ _ rfl⟩

end Parser

end Calcbook
