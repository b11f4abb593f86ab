import Calcbook.Proofs.Parsing.Layout
import Mathlib.Tactic.Ring
import Mathlib.Tactic.Linarith

/-! Expansions on one token come to an end. A table without conflicts chooses the rule that begins with the
    token, or the rule that vanishes before it. A vanishing symbol in front of the token is expanded along
    its tree of rules and goes from the stack; one that begins with the token is expanded along a shortest
    path to it, behind vanishing symbols only. Heights of trees and lengths of paths are bounded by the number
    of rules, left recursion or not, and this bounds the number of expansions. -/

namespace Calcbook.Parser
open Grammar

/-- One expansion on a token: the top symbol gives way to the rule that the table chooses. -/
def Expands (token : Token) (p q : Parser) : Prop :=
  ∃ x slot rest r, p.stack = (x, slot) :: rest ∧ x.isTerminal = false ∧
    p.table.get? x.id token.terminal = some r ∧ q = p.expand r slot rest

/-- A number of expansions on a token, one after the other. -/
inductive Expansions (token : Token) : Nat → Parser → Parser → Prop
  | refl {p : Parser} : Expansions token 0 p p
  | head {n : Nat} {p q s : Parser} : Expands token p q → Expansions token n q s → Expansions token (n + 1) p s

variable {token : Token} {p q s : Parser} {n m : Nat} {outcome : Outcome}

theorem Expands.step (h : Expands token p q) : p.step token = (none, q) := by
  obtain ⟨x, slot, rest, r, hstack, hx, hr, rfl⟩ := h
  unfold Parser.step
  rw [hstack]
  simp [hx, hr]

namespace Expansions

theorem trans (h₁ : Expansions token n p q) (h₂ : Expansions token m q s) : Expansions token (n + m) p s := by
  induction h₁ with
  | refl => rwa [Nat.zero_add]
  | @head n _ _ _ he _ ih =>
    rw [Nat.add_right_comm]
    exact .head he (ih h₂)

theorem run? (h : Expansions token n p q) (m : Nat) : Parser.run? token (n + m) p = Parser.run? token m q := by
  induction h with
  | refl => rw [Nat.zero_add]
  | @head n _ _ _ he _ ih =>
    rw [Nat.add_right_comm, Parser.run?, he.step]
    exact ih

/-- No more expansions are possible than lead to a parser that answers the token. -/
theorem le_of_answer (h : Expansions token n p q) (ha : q.step token = (some outcome, s)) {q' : Parser}
    (h' : Expansions token m p q') : m ≤ n := by
  induction h generalizing m q' with
  | refl =>
    cases h' with
    | refl => exact Nat.le_refl _
    | head he _ =>
      rw [he.step] at ha
      cases ha
  | head he _ ih =>
    cases h' with
    | refl => exact Nat.zero_le _
    | head he' h' =>
      have heq := he'.step
      rw [he.step] at heq
      cases heq
      exact Nat.succ_le_succ (ih ha h')

end Expansions

/-! ### The number of expansions -/

def longest (g : Grammar) : Nat := g.rules.foldl (fun n r => max n r.rhs.length) 0

/-- More expansions than a symbol takes that vanishes by a tree of `n` levels. -/
def vanishLimit (g : Grammar) (n : Nat) : Nat := (longest g + 1) ^ n

/-- More expansions than a symbol takes that leads to the token by a path of `n` rules. -/
def beginLimit (g : Grammar) (n : Nat) : Nat := n * (1 + longest g * vanishLimit g g.levels)

variable {g : Grammar}

theorem length_le_longest {r : Rule} (hr : r ∈ g.rules) : r.rhs.length ≤ longest g := by
  have hmax : ∀ (rules : List Rule) (n : Nat), n ≤ rules.foldl (fun n r => max n r.rhs.length) n ∧
      ∀ s ∈ rules, s.rhs.length ≤ rules.foldl (fun n r => max n r.rhs.length) n := by
    intro rules
    induction rules with
    | nil => simp
    | cons r rules ih =>
      intro n
      obtain ⟨hn, hall⟩ := ih (max n r.rhs.length)
      simp only [List.foldl_cons, List.mem_cons, forall_eq_or_imp]
      exact ⟨by omega, by omega, hall⟩
  exact (hmax g.rules 0).2 r hr

theorem vanishLimit_succ (g : Grammar) (n : Nat) :
    1 + longest g * vanishLimit g n ≤ vanishLimit g (n + 1) := by
  have hpos : 1 ≤ vanishLimit g n := Nat.one_le_pow _ _ (by omega)
  have hsucc : vanishLimit g (n + 1) = longest g * vanishLimit g n + vanishLimit g n := by
    unfold vanishLimit
    ring
  omega

theorem limits_le_expansionLimit (g : Grammar) :
    vanishLimit g g.levels ≤ expansionLimit g ∧ beginLimit g g.levels ≤ expansionLimit g := by
  have hlimit : expansionLimit g = (longest g + 2) ^ g.levels * (longest g + 2) ^ (g.levels + 1) := by
    rw [← Nat.pow_add]
    show (longest g + 2) ^ (2 * g.levels + 1) = _
    congr 1
    omega
  have hvanish : ∀ n, vanishLimit g n ≤ (longest g + 2) ^ n := fun n => Nat.pow_le_pow_left (by omega) n
  have hlevels : g.levels ≤ (longest g + 2) ^ g.levels :=
    Nat.le_of_lt (Nat.lt_pow_self (by omega))
  rw [hlimit]
  constructor
  · calc vanishLimit g g.levels ≤ (longest g + 2) ^ g.levels * 1 := by simpa using hvanish g.levels
      _ ≤ _ := Nat.mul_le_mul_left _ (Nat.one_le_pow _ _ (by omega))
  · calc beginLimit g g.levels ≤ g.levels * vanishLimit g (g.levels + 1) :=
          Nat.mul_le_mul_left _ (vanishLimit_succ g g.levels)
      _ ≤ _ := Nat.mul_le_mul hlevels (hvanish _)

/-- All the expansions on a token fit into the number of steps that a parser is given. -/
theorem limits_lt_stepLimit (p : Parser) :
    p.slots.size * vanishLimit p.table.grammar p.table.grammar.levels +
      beginLimit p.table.grammar p.table.grammar.levels < p.stepLimit := by
  unfold stepLimit
  generalize p.table.grammar = g
  obtain ⟨hvanish, hbegin⟩ := limits_le_expansionLimit g
  have hpos : 1 ≤ vanishLimit g g.levels := Nat.one_le_pow _ _ (by omega)
  have hmul := Nat.mul_le_mul_left p.slots.size hvanish
  rw [Nat.add_mul]
  omega

/-! ### Expanding what vanishes and what begins -/

section Chooses
variable {t : ParseTable} {f : Grammar.Family} {todo rest : List (Symbol × Nat)} {x : Symbol} {i : Nat}

theorem Steady.answers_or_expands (h : Steady t p todo) (heof : t.grammar.eof.isTerminal = true) (token : Token) :
    (∃ outcome p', p.step token = (some outcome, p')) ∨
      ∃ x i rest r, todo = (x, i) :: rest ∧ x.isTerminal = false ∧ t.get? x.id token.terminal = some r := by
  rcases h.step_cases heof token with
    ⟨_, _, _, -, -, -, hs⟩ | ⟨x, i, rest, r, htodo, hx, hget, -⟩ | ⟨_, -, -, -, hs⟩ | ⟨_, hs⟩
  · exact Or.inl ⟨_, _, hs⟩
  · exact Or.inr ⟨x, i, rest, r, htodo, hx, hget⟩
  · exact Or.inl ⟨_, _, hs⟩
  · exact Or.inl ⟨_, _, hs⟩

theorem Steady.expands (h : Steady t p ((x, i) :: rest)) {r : Rule} (hx : x.isTerminal = false)
    (hr : t.get? x.id token.terminal = some r) : Expands token p (p.expanded r i rest) :=
  ⟨x, some i, stackOf t.grammar.eof rest, r, h.stack, hx, h.table ▸ hr, by rw [Parser.expanded, h.table]⟩

theorem Steady.exists_of_expands (h : Steady t p todo) (heof : t.grammar.eof.isTerminal = true)
    (he : Expands token p q) : ∃ x i rest r, todo = (x, i) :: rest ∧ x.isTerminal = false ∧
      t.get? x.id token.terminal = some r ∧ q = p.expanded r i rest := by
  have hstep := he.step
  rcases h.step_cases heof token with
    ⟨_, _, _, -, -, -, hs⟩ | ⟨x, i, rest, r, htodo, hx, hget, hs⟩ | ⟨_, -, -, -, hs⟩ | ⟨_, hs⟩ <;>
    rw [hs] at hstep <;> cases hstep
  exact ⟨x, i, rest, r, htodo, hx, hget, rfl⟩

/-- The left side of a rule is expanded by the rule on a lookahead of it. -/
theorem Steady.expands_of_mem (hc : t.Chooses g f) {r : Rule} (hr : r ∈ g.rules) (h : Steady t p ((r.lhs, i) :: rest))
    (hla : token.terminal ∈ g.lookaheads f r) :
    Expands token p (p.expanded r i rest) ∧ Steady t (p.expanded r i rest) (children p.slots.size r.rhs ++ rest) :=
  ⟨h.expands (hc.wellFormed.heads r hr).2 (hc.get?_of_mem hr hla),
    h.expanded (hc.grammar ▸ hc.wellFormed.bodies r hr)⟩

theorem length_children_le {r : Rule} (hr : r ∈ g.rules) (n : Nat) : (children n r.rhs).length ≤ longest g := by
  rw [children, List.length_zip, List.length_range', Nat.min_self]
  exact length_le_longest hr

/-- Symbols that vanish in front of the token are expanded until all of them are gone. -/
theorem Steady.expansions_of_vanishesIn (hc : t.Chooses g f) :
    ∀ {n : Nat} {todo rest : List (Symbol × Nat)} {p : Parser}, Steady t p (todo ++ rest) →
      (∀ e ∈ todo, g.VanishesIn n e.1 ∧ token.terminal ∈ f.get e.1.id) →
      ∃ k q, k ≤ todo.length * vanishLimit g n ∧ Expansions token k p q ∧ Steady t q rest := by
  -- The induction is on the levels of the trees, and for one number of levels along the pending symbols.
  intro n
  induction n with
  | zero =>
    intro todo rest p h hall
    cases todo with
    | nil => exact ⟨0, p, Nat.zero_le _, .refl, h⟩
    | cons e todo => exact (hall e List.mem_cons_self).1.elim
  | succ n ih =>
    intro todo
    induction todo with
    | nil => exact fun {_ p} h _ => ⟨0, p, Nat.zero_le _, .refl, h⟩
    | cons e todo ihtodo =>
      intro rest p h hall
      obtain ⟨x, i⟩ := e
      obtain ⟨⟨⟨r, hr, rfl, hvan⟩, hla⟩, htodo⟩ := List.forall_mem_cons.mp hall
      have hg := hc.wellFormed
      have hnull : g.nullable r.rhs = true := nullable_of_vanishesIn hg (hg.bodies r hr) hvan
      obtain ⟨hexp, h₁⟩ := h.expands_of_mem hc hr (mem_behind.mpr (Or.inr ⟨hnull, hla⟩))
      -- What follows the left side follows each symbol of the right side, because the others vanish.
      have hchildren : ∀ e ∈ children p.slots.size r.rhs, g.VanishesIn n e.1 ∧ token.terminal ∈ f.get e.1.id := by
        intro e he
        have hmem := (mem_children he).1
        obtain ⟨u, v, hrhs⟩ := List.append_of_mem hmem
        have hv : g.nullable v = true := (nullable_cons.mp (nullable_append.mp (hrhs ▸ hnull)).2).2
        exact ⟨hvan e.1 hmem, hc.follow.mem hg hr hrhs ((hvan e.1 hmem).nonterminal hg)
          (mem_behind.mpr (Or.inr ⟨hv, hla⟩))⟩
      obtain ⟨k₁, q₁, hk₁, he₁, h₁⟩ := ih h₁ hchildren
      obtain ⟨k₂, q₂, hk₂, he₂, h₂⟩ := ihtodo h₁ htodo
      refine ⟨k₁ + k₂ + 1, q₂, ?_, .head hexp (he₁.trans he₂), h₂⟩
      have hlen : k₁ ≤ longest g * vanishLimit g n :=
        Nat.le_trans hk₁ (Nat.mul_le_mul_right _ (length_children_le hr _))
      have hsucc := vanishLimit_succ g n
      rw [List.length_cons, Nat.succ_mul]
      omega

/-- A symbol that leads to the token is expanded, what comes before the token vanishes, and so on until the
    token's terminal is the top symbol. -/
theorem Steady.expansions_of_beginsIn (hc : t.Chooses g f) {n : Nat} {x : Symbol} {i : Nat}
    {rest : List (Symbol × Nat)} {p : Parser} (h : Steady t p ((x, i) :: rest))
    (hx : g.BeginsIn token.terminal n x) :
    ∃ k q y j rest', k ≤ beginLimit g n ∧ Expansions token k p q ∧ Steady t q ((y, j) :: rest') ∧
      y.isTerminal = true ∧ y.id = token.terminal := by
  induction n generalizing x i rest p with
  | zero => exact ⟨0, p, x, i, rest, Nat.zero_le _, .refl, h, hx⟩
  | succ n ih =>
    rcases hx with hx | ⟨r, hr, rfl, u, y, v, hrhs, hu, hy⟩
    · exact ⟨0, p, x, i, rest, Nat.zero_le _, .refl, h, hx⟩
    · have hg := hc.wellFormed
      have hsym : ∀ z ∈ u ++ y :: v, z ∈ g.symbols := hrhs ▸ hg.bodies r hr
      have hbegins : ∀ u' v', u' ++ v' = u → token.terminal ∈ g.first (v' ++ y :: v) := by
        rintro u' v' rfl
        have hyf := (mem_first_singleton_iff hg (hsym y (by simp))).mpr ⟨n, hy⟩
        exact mem_first_append.mpr (Or.inr ⟨(nullable_append.mp hu).2, mem_first_cons.mpr (Or.inl hyf)⟩)
      obtain ⟨hexp, h₁⟩ := h.expands_of_mem hc hr (mem_behind.mpr (Or.inl (hrhs ▸ hbegins [] u rfl)))
      have hlen := length_children_le hr p.slots.size
      rw [hrhs, children_append, children_cons] at h₁ hlen
      rw [List.append_assoc] at h₁
      -- The symbols before `y` vanish in front of the token, because it begins what is behind each of them.
      have hchildren : ∀ e ∈ children p.slots.size u, g.VanishesIn g.levels e.1 ∧ token.terminal ∈ f.get e.1.id := by
        intro e he
        have hmem := (mem_children he).1
        obtain ⟨u', v', rfl⟩ := List.append_of_mem hmem
        have hnull := nullable_iff_forall.mp hu e.1 hmem
        have hvan := vanishesIn_levels hg (hsym e.1 (by simp)) hnull
        have hplace : r.rhs = u' ++ e.1 :: (v' ++ y :: v) := by simpa using hrhs
        exact ⟨hvan, hc.follow.mem hg hr hplace (hvan.nonterminal hg)
          (mem_behind.mpr (Or.inl (hbegins (u' ++ [e.1]) v' (by simp))))⟩
      obtain ⟨k₁, q₁, hk₁, he₁, h₁⟩ := h₁.expansions_of_vanishesIn hc hchildren
      obtain ⟨k₂, q₂, z, j, rest₂, hk₂, he₂, h₂, hz⟩ := ih h₁ hy
      refine ⟨k₁ + k₂ + 1, q₂, z, j, rest₂, ?_, .head hexp (he₁.trans he₂), h₂, hz⟩
      rw [List.length_append] at hlen
      have hmul : k₁ ≤ longest g * vanishLimit g g.levels :=
        Nat.le_trans hk₁ (Nat.mul_le_mul_right _ (by omega))
      unfold beginLimit at hk₂ ⊢
      rw [Nat.succ_mul]
      omega

theorem Steady.exists_answer (hc : t.Chooses g f) (token : Token) {todo : List (Symbol × Nat)} {p : Parser}
    (h : Steady t p todo) :
    ∃ k q outcome p', k ≤ todo.length * vanishLimit g g.levels + beginLimit g g.levels ∧
      Expansions token k p q ∧ q.step token = (some outcome, p') := by
  induction todo generalizing p with
  | nil =>
    rcases h.answers_or_expands hc.eof_terminal token with ⟨outcome, p', hs⟩ | ⟨_, _, _, _, hnil, -⟩
    · exact ⟨0, p, outcome, p', Nat.zero_le _, .refl, hs⟩
    · cases hnil
  | cons e rest ih =>
    rcases h.answers_or_expands hc.eof_terminal token with ⟨outcome, p', hs⟩ | ⟨x, i, _, r, hcons, -, hget⟩
    · exact ⟨0, p, outcome, p', Nat.zero_le _, .refl, hs⟩
    · obtain ⟨rfl, rfl⟩ := List.cons.inj hcons
      have hg := hc.wellFormed
      have hx : x ∈ g.symbols := hc.grammar ▸ h.symbols (x, i) List.mem_cons_self
      obtain ⟨hr, rfl, hla⟩ := (hc.get?_eq_some_iff hx).mp hget
      rw [List.length_cons, Nat.succ_mul]
      -- The top symbol leads to the token, or it vanishes and leaves the token to the symbols below.
      rcases mem_behind.mp hla with hfirst | ⟨hnull, hfollow⟩
      · have hbegin := beginsIn_levels hg hx (mem_first_of_rule hg hr hfirst)
        obtain ⟨k, q, y, j, rest', hk, he, h', hy, hid⟩ := h.expansions_of_beginsIn hc hbegin
        exact ⟨k, q, _, _, by omega, he, h'.step_match hy hid⟩
      · have hvan := vanishesIn_levels hg hx (nullable_of_rule hg hr hnull)
        have h : Steady t p ([(r.lhs, i)] ++ rest) := h
        obtain ⟨k₁, q₁, hk₁, he₁, h₁⟩ := h.expansions_of_vanishesIn hc (n := g.levels)
          fun e he => by rw [List.mem_singleton.mp he]; exact ⟨hvan, hfollow⟩
        obtain ⟨k₂, q₂, outcome, p', hk₂, he₂, hs⟩ := ih h₁
        rw [List.length_singleton, Nat.one_mul] at hk₁
        exact ⟨k₁ + k₂, q₂, outcome, p', by omega, he₁.trans he₂, hs⟩

/-! ### Feeding -/

theorem feed_of_expansions {p' : Parser} (he : Expansions token n p q) (hn : n < p.stepLimit)
    (hs : q.step token = (some outcome, p')) : p.feed token = (outcome, p') := by
  obtain ⟨m, hm⟩ : ∃ m, p.stepLimit = n + (m + 1) := ⟨p.stepLimit - n - 1, by omega⟩
  unfold feed
  rw [hm, he.run?, Parser.run?, hs]

/-- The pending symbols have slots of their own, so there are no more of them than slots. -/
theorem Steady.length_le (h : Steady t p todo) : todo.length ≤ p.slots.size := by
  have hsub : todo.map (·.2) ⊆ List.range p.slots.size := by
    intro i hi
    obtain ⟨e, he, rfl⟩ := List.mem_map.mp hi
    exact List.mem_range.mpr (h.lt_size he)
  simpa using (h.distinct.subperm hsub).length_le

/-- Feeding goes through all the expansions that are possible and gives the answer that ends them. -/
theorem Steady.exists_feed (hc : t.Chooses g f) (h : Steady t p todo) (token : Token) :
    ∃ n q outcome p', Expansions token n p q ∧ q.step token = (some outcome, p') ∧ p.feed token = (outcome, p') := by
  obtain ⟨k, q, outcome, p', hk, he, hs⟩ := h.exists_answer hc token
  refine ⟨k, q, outcome, p', he, hs, feed_of_expansions he ?_ hs⟩
  have hlimit := limits_lt_stepLimit p
  rw [h.table, hc.grammar] at hlimit
  have hmul := Nat.mul_le_mul_right (vanishLimit g g.levels) h.length_le
  omega

/-- An expansion changes nothing about what a token leads to. -/
theorem Steady.feed_expanded (hc : t.Chooses g f) {r : Rule} (h : Steady t p ((x, i) :: rest))
    (hx : x.isTerminal = false) (hr : r ∈ g.rules) (hget : t.get? x.id token.terminal = some r) :
    p.feed token = (p.expanded r i rest).feed token := by
  have h₁ := h.expanded (r := r) (hc.grammar ▸ hc.wellFormed.bodies r hr)
  obtain ⟨n, q, outcome, p', he, hs, hfeed⟩ := h.exists_feed hc token
  obtain ⟨m, q₁, outcome₁, p₁, he₁, hs₁, hfeed₁⟩ := h₁.exists_feed hc token
  have he₁ := Expansions.head (h.expands hx hget) he₁
  obtain rfl : n = m + 1 := Nat.le_antisymm (he₁.le_of_answer hs₁ he) (he.le_of_answer hs he₁)
  have hrun := (he.run? 1).symm.trans (he₁.run? 1)
  simp only [run?, hs, hs₁, Option.some.injEq] at hrun
  rw [hfeed, hfeed₁, hrun]

end Chooses

end Calcbook.Parser
