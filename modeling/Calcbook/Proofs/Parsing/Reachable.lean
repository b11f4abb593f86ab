import Calcbook.Proofs.Parsing.Expansion

/-! The parsers that can come up. What a new parser has and matches and expansions keep, every step keeps, because
    all other steps leave a new parser; so it lasts along feeding, resetting and parsing. All parsers that come
    up are steady in this way, and none of them expands without end on any token. -/

namespace Calcbook.Parser

/-- The parsers of a table that can come up. -/
inductive Reachable (t : ParseTable) : Parser → Prop
  | new : Reachable t (ofTable t)
  | feed {p : Parser} (token : Token) : Reachable t p → Reachable t (p.feed token).2
  | reset {p : Parser} : Reachable t p → Reachable t p.reset
  | parse {p : Parser} (tokens : List Token) : Reachable t p → Reachable t (p.parse tokens).2

/-- A property of a parser with its pending symbols that a new parser has and that matches and expansions keep. -/
structure Lasts (t : ParseTable) (K : Parser → List (Symbol × Nat) → Prop) : Prop where
  steady : ∀ {p todo}, K p todo → Steady t p todo
  new : K (ofTable t) [(t.grammar.start, 0)]
  matched : ∀ {p x i rest} {token : Token}, K p ((x, i) :: rest) → x.isTerminal = true → x.id = token.terminal →
    K (p.matched x i token rest) rest
  expanded : ∀ {p x i rest r}, K p ((x, i) :: rest) → r ∈ t.grammar.rules → r.lhs = x →
    K (p.expanded r i rest) (children p.slots.size r.rhs ++ rest)

variable {t : ParseTable} {g : Grammar} {f : Grammar.Family} {p q : Parser} {token : Token} {n : Nat}

namespace Lasts
variable {K : Parser → List (Symbol × Nat) → Prop}

theorem step (hl : Lasts t K) (hc : t.Chooses g f) (h : ∃ todo, K p todo) (token : Token) :
    ∃ todo, K (p.step token).2 todo := by
  obtain ⟨todo, h⟩ := h
  have hs := hl.steady h
  obtain rfl := hc.grammar
  rcases hs.step_cases hc.eof_terminal token with
    ⟨x, i, rest, rfl, hx, hid, heq⟩ | ⟨x, i, rest, r, rfl, -, hget, heq⟩ | ⟨_, -, -, -, heq⟩ | ⟨_, heq⟩ <;> rw [heq]
  · exact ⟨rest, hl.matched h hx hid⟩
  · obtain ⟨hr, hlhs, -⟩ := (hc.get?_eq_some_iff (hs.symbols (x, i) List.mem_cons_self)).mp hget
    exact ⟨_, hl.expanded h hr hlhs⟩
  · exact ⟨_, hl.new⟩
  · exact ⟨_, hl.new⟩

theorem run? (hl : Lasts t K) (hc : t.Chooses g f) {outcome : Outcome} (h : ∃ todo, K p todo)
    (hrun : run? token n p = some (outcome, q)) : ∃ todo, K q todo := by
  induction n generalizing p with
  | zero => cases hrun
  | succ n ih =>
    have h' := hl.step hc h token
    rw [Parser.run?] at hrun
    split at hrun <;> rename_i hstep <;> rw [hstep] at h'
    · cases hrun
      exact h'
    · exact ih h' hrun

theorem reset (hl : Lasts t K) (h : ∃ todo, K p todo) : ∃ todo, K p.reset todo := by
  obtain ⟨_, h⟩ := h
  rw [Parser.reset, (hl.steady h).table]
  exact ⟨_, hl.new⟩

theorem feed (hl : Lasts t K) (hc : t.Chooses g f) (h : ∃ todo, K p todo) (token : Token) :
    ∃ todo, K (p.feed token).2 todo := by
  unfold Parser.feed
  dsimp only
  split
  · rename_i hrun
    exact hl.run? hc h hrun
  · exact hl.reset h

theorem parseRest (hl : Lasts t K) (hc : t.Chooses g f) {tokens : List Token} {stop : Nat} (h : ∃ todo, K p todo) :
    ∃ todo, K (p.parseRest stop tokens).2 todo := by
  induction tokens generalizing p stop with
  | nil =>
    have h' := hl.feed hc h ⟨p.table.grammar.eof.id, "", stop⟩
    unfold Parser.parseRest
    dsimp only
    split <;> rename_i hfeed <;> rw [hfeed] at h'
    · exact h'
    · exact h'
    · exact hl.reset h'
  | cons token tokens ih =>
    have h' := hl.feed hc h token
    unfold Parser.parseRest
    dsimp only
    split <;> rename_i hfeed <;> rw [hfeed] at h'
    · exact ih h'
    · exact h'
    · exact h'

theorem reachable (hl : Lasts t K) (hc : t.Chooses g f) (h : Reachable t p) : ∃ todo, K p todo := by
  induction h with
  | new => exact ⟨_, hl.new⟩
  | feed token _ ih => exact hl.feed hc ih token
  | reset _ ih => exact hl.reset ih
  | parse tokens _ ih => exact hl.parseRest hc (hl.reset ih)

theorem expansions (hl : Lasts t K) (hc : t.Chooses g f) (h : ∃ todo, K p todo) (he : Expansions token n p q) :
    ∃ todo, K q todo := by
  induction he with
  | refl => exact h
  | head he _ ih => exact ih (by simpa [he.step] using hl.step hc h token)

end Lasts

theorem lasts_steady (hc : t.Chooses g f) : Lasts t (Steady t) where
  steady h := h
  new := steady_ofTable (hc.grammar ▸ hc.wellFormed.start_nonterminal.1)
  matched h _ _ := h.matched
  expanded h hr _ := h.expanded (by obtain rfl := hc.grammar; exact hc.wellFormed.bodies _ hr)

theorem Reachable.exists_steady (hc : t.Chooses g f) (h : Reachable t p) : ∃ todo, Steady t p todo :=
  (lasts_steady hc).reachable hc h

/-- Every parser that can come up answers every token after a number of expansions beyond which there are none. -/
theorem feed_answers {calls : List Declaration} {start : String} (hg : Grammar.ofDeclarations calls start = .ok g)
    (ht : ParseTable.ofGrammar g = .ok t) (hp : Reachable t p) (token : Token) :
    ∃ n q outcome p', Expansions token n p q ∧ q.step token = (some outcome, p') ∧
      p.feed token = (outcome, p') ∧ ∀ m q', Expansions token m p q' → m ≤ n := by
  obtain ⟨f, hc⟩ := ParseTable.chooses_of_ofGrammar (Grammar.wellFormed_of_ofDeclarations hg) ht
  obtain ⟨todo, h⟩ := hp.exists_steady hc
  obtain ⟨n, q, outcome, p', he, hs, hfeed⟩ := h.exists_feed hc token
  exact ⟨n, q, outcome, p', he, hs, hfeed, fun _ _ he' => he.le_of_answer hs he'⟩

theorem feed_answers_sums : Reachable Sums.table ((ofTable Sums.table).feed ⟨3, "1", 0⟩).2 ∧
    ∃ n q outcome p', Expansions ⟨5, "", 1⟩ n ((ofTable Sums.table).feed ⟨3, "1", 0⟩).2 q ∧
      q.step ⟨5, "", 1⟩ = (some outcome, p') := by
  have hp : Reachable Sums.table ((ofTable Sums.table).feed ⟨3, "1", 0⟩).2 := .feed _ .new
  obtain ⟨n, q, outcome, p', he, hs, -⟩ := feed_answers Sums.ofDeclarations_calls Sums.ofGrammar_grammar hp ⟨5, "", 1⟩
  exact ⟨hp, n, q, outcome, p', he, hs⟩

end Calcbook.Parser
