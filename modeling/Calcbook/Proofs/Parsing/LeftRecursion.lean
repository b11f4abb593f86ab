import Calcbook.Proofs.Parsing.Criterion

/-! Left recursion and parse tables. A left recursive nonterminal leads to itself by rules that have only nullable
    symbols before the next one. Where no lookahead chooses between two rules, the shortest path from such a symbol
    to a terminal that begins it follows the loop, and so it would be shorter after every turn; if nothing
    begins the symbol, the lowest tree by which it vanishes does the same before a terminal that follows
    it. So a grammar whose nonterminals can all be used has no parse table when one of them is left recursive. -/

namespace Calcbook
open Grammar

namespace Grammar

/-- `x` gives way to a right side with only nullable symbols before `y`. -/
def Leads (g : Grammar) (x y : Symbol) : Prop :=
  ∃ r ∈ g.rules, r.lhs = x ∧ ∃ u v, r.rhs = u ++ y :: v ∧ g.nullable u = true

/-- A symbol comes up in a string that the start symbol derives. -/
def IsReachable (g : Grammar) (x : Symbol) : Prop := ∃ u v, g.Derives [g.start] (u ++ x :: v)

/-- A lookahead chooses between no two rules of a nonterminal. -/
def Decided (g : Grammar) (f : Family) : Prop :=
  ∀ r ∈ g.rules, ∀ s ∈ g.rules, r.lhs = s.lhs → ∀ la ∈ g.lookaheads f r, la ∈ g.lookaheads f s → r = s

variable {g : Grammar} {f : Family} {x y a : Symbol} {α β γ : List Symbol} {t n : Nat}

/-! ### Loops -/

/-- A string derives one that begins with a symbol when one of its own symbols leads to it, with only nullable
    ones before. -/
theorem leads_of_derives (hg : g.WellFormed) (h : g.Derives α (a :: γ)) :
    ∃ u x v, α = u ++ x :: v ∧ g.nullable u = true ∧ Relation.ReflTransGen g.Leads x a := by
  induction h using Relation.ReflTransGen.head_induction_on with
  | refl => exact ⟨[], a, γ, rfl, nullable_nil, .refl⟩
  | head hs _ ih =>
    obtain ⟨r, hr, p, q, rfl, rfl⟩ := hs
    obtain ⟨u, x, v, heq, hu, hx⟩ := ih
    rcases append_eq_append_cons heq with ⟨c, hpr, -⟩ | ⟨c, rfl, rfl⟩
    · rcases append_eq_append_cons hpr with ⟨c', rfl, -⟩ | ⟨c', rfl, hrhs⟩
      · exact ⟨u, x, c' ++ r.lhs :: q, by simp, hu, hx⟩
      · -- The symbol is one of the right side, so the left side leads to it.
        obtain ⟨hp, hc'⟩ := nullable_append.mp hu
        exact ⟨p, r.lhs, q, rfl, hp, .head ⟨r, hr, rfl, c', c, hrhs, hc'⟩ hx⟩
    · rw [nullable_append, nullable_append] at hu
      refine ⟨p ++ r.lhs :: c, x, v, by simp, ?_, hx⟩
      rw [nullable_append, nullable_cons]
      exact ⟨hu.1.1, nullable_of_rule hg hr hu.1.2, hu.2⟩

/-- A left recursive symbol leads to itself. -/
theorem leads_self (hg : g.WellFormed) (h : Relation.TransGen g.Step [a] (a :: γ)) : Relation.TransGen g.Leads a a := by
  obtain ⟨β, ⟨r, hr, u, v, ha, rfl⟩, hd⟩ := Relation.TransGen.head'_iff.mp h
  obtain ⟨rfl, hv⟩ : u = [] ∧ r.lhs :: v = [a] := by
    rcases List.append_eq_singleton_iff.mp ha.symm with h | ⟨-, h⟩
    · exact h
    · cases h
  obtain ⟨rfl, rfl⟩ := List.cons.inj hv
  rw [List.nil_append, List.append_nil] at hd
  obtain ⟨p, x, q, hrhs, hp, hx⟩ := leads_of_derives hg hd
  exact Relation.TransGen.head' ⟨r, hr, rfl, p, q, hrhs, hp⟩ hx

/-- What gets smaller at every step of a path does not hold on a loop. -/
theorem not_on_loop {R : Symbol → Symbol → Prop} {P : Nat → Symbol → Prop}
    (hstep : ∀ {n x y}, R x y → P n x → ∃ m, m < n ∧ P m y) (hloop : Relation.TransGen R x x) : ¬P n x := by
  have hpath : ∀ {n y}, Relation.TransGen R x y → P n x → ∃ m, m < n ∧ P m y := by
    intro n y hxy hx
    induction hxy with
    | single h => exact hstep h hx
    | tail _ h ih =>
      obtain ⟨m, hm, hP⟩ := ih
      obtain ⟨k, hk, hP⟩ := hstep h hP
      exact ⟨k, Nat.lt_trans hk hm, hP⟩
  induction n using Nat.strongRecOn with
  | ind n ih =>
    intro hx
    obtain ⟨m, hm, hx⟩ := hpath hloop hx
    exact ih m hm hx

theorem mem_first_of_leads (hg : g.WellFormed) (h : g.Leads x y) (ht : t ∈ g.first [y]) : t ∈ g.first [x] := by
  obtain ⟨r, hr, rfl, u, v, hrhs, hu⟩ := h
  refine mem_first_of_rule hg hr ?_
  rw [hrhs, mem_first_append, mem_first_cons]
  exact Or.inr ⟨hu, Or.inl ht⟩

/-! ### Loops through symbols that something begins -/

/-- A nullable symbol is not begun by what follows it: there would be two rules for it, or one that has such a
    symbol nearer to the terminal. -/
theorem not_beginsIn_of_follow (hg : g.WellFormed) (hf : g.IsFollow f) (hdecided : g.Decided f)
    (hnull : g.nullable [x] = true) (hx : x ∈ g.symbols) (ht : t ∈ f.get x.id) : ¬g.BeginsIn t n x := by
  induction n generalizing x with
  | zero =>
    intro hbegins
    have hkind := (vanishesIn_levels hg hx hnull).nonterminal hg
    exact Bool.false_ne_true (hkind.symm.trans hbegins.1)
  | succ n ih =>
    have hvanish := vanishesIn_levels hg hx hnull
    have hkind := hvanish.nonterminal hg
    rintro (hbegins | ⟨r, hr, rfl, u, y, v, hrhs, hu, hy⟩)
    · exact Bool.false_ne_true (hkind.symm.trans hbegins.1)
    · obtain ⟨s, hs, hlhs, hnulls⟩ := exists_nullable_rule hg hx hnull
      have hys : y ∈ g.symbols := hg.bodies r hr y (by simp [hrhs])
      have hyfirst : t ∈ g.first [y] := (mem_first_singleton_iff hg hys).mpr ⟨n, hy⟩
      have hfirst : t ∈ g.first r.rhs := mem_first_iff.mpr ⟨u, y, v, hrhs, hu, hyfirst⟩
      obtain rfl : r = s := hdecided r hr s hs hlhs.symm t (mem_behind.mpr (Or.inl hfirst))
        (mem_behind.mpr (Or.inr ⟨hnulls, hlhs ▸ ht⟩))
      rw [hrhs, nullable_append, nullable_cons] at hnulls
      have hykind := (vanishesIn_levels hg hys hnulls.2.1).nonterminal hg
      exact ih hnulls.2.1 hys (hf.mem hg hr hrhs hykind (mem_behind.mpr (Or.inr ⟨hnulls.2.2, ht⟩))) hy

/-- A shortest path to a terminal goes on along a loop whose next symbol the terminal begins too. -/
theorem beginsIn_of_leads (hg : g.WellFormed) (hf : g.IsFollow f) (hdecided : g.Decided f) (h : g.Leads x y)
    (ht : t ∈ g.first [y]) (hx : g.BeginsIn t n x) : ∃ m, m < n ∧ g.BeginsIn t m y := by
  obtain ⟨r, hr, rfl, u, v, hrhs, hu⟩ := h
  have hkind := (hg.heads r hr).2
  cases n with
  | zero => exact (Bool.false_ne_true (hkind.symm.trans hx.1)).elim
  | succ n =>
    rcases hx with hx | ⟨s, hs, hlhs, u', z, v', hrhs', hu', hz⟩
    · exact (Bool.false_ne_true (hkind.symm.trans hx.1)).elim
    have hzs : z ∈ g.symbols := hg.bodies s hs z (by simp [hrhs'])
    have hzfirst : t ∈ g.first [z] := (mem_first_singleton_iff hg hzs).mpr ⟨n, hz⟩
    have hys : y ∈ g.symbols := hg.bodies r hr y (by simp [hrhs])
    obtain rfl : r = s := hdecided r hr s hs hlhs.symm t
      (mem_behind.mpr (Or.inl (mem_first_iff.mpr ⟨u, y, v, hrhs, hu, ht⟩)))
      (mem_behind.mpr (Or.inl (mem_first_iff.mpr ⟨u', z, v', hrhs', hu', hzfirst⟩)))
    -- Of two places in the right side, the first is nullable and followed by the terminal.
    have hapart : ∀ {p q q' : List Symbol} {w w' : Symbol}, r.rhs = p ++ w :: (q ++ w' :: q') →
        g.nullable (p ++ w :: q) = true → t ∈ g.first [w] → t ∈ g.first [w'] → False := by
      intro p q q' w w' hplace hnull hw hw'
      have hws : w ∈ g.symbols := hg.bodies r hr w (by simp [hplace])
      rw [nullable_append, nullable_cons] at hnull
      have hwkind := (vanishesIn_levels hg hws hnull.2.1).nonterminal hg
      have hfollow := hf.mem hg hr hplace hwkind
        (mem_behind.mpr (Or.inl (mem_first_iff.mpr ⟨q, w', q', rfl, hnull.2.2, hw'⟩)))
      exact not_beginsIn_of_follow hg hf hdecided hnull.2.1 hws hfollow (beginsIn_levels hg hws hw)
    rcases append_eq_append_cons (hrhs.symm.trans hrhs') with ⟨c, rfl, rfl⟩ | ⟨c, rfl, hc⟩
    · exact (hapart (by simpa using hrhs) hu hzfirst ht).elim
    · cases c with
      | nil =>
        obtain ⟨rfl, -⟩ := List.cons.inj hc
        exact ⟨n, Nat.lt_succ_self n, hz⟩
      | cons w c =>
        obtain ⟨rfl, rfl⟩ := List.cons.inj hc
        exact (hapart hrhs hu' ht hzfirst).elim

theorem not_mem_first_of_loop (hg : g.WellFormed) (hf : g.IsFollow f) (hdecided : g.Decided f)
    (hloop : Relation.TransGen g.Leads x x) (hx : x ∈ g.symbols) : t ∉ g.first [x] := by
  intro ht
  have hback : ∀ {y}, Relation.TransGen g.Leads x y → t ∈ g.first [y] →
      Relation.TransGen (fun x y => g.Leads x y ∧ t ∈ g.first [y]) x y := by
    intro y hxy
    induction hxy with
    | single h => exact fun hy => .single ⟨h, hy⟩
    | tail _ h ih => exact fun hy => .tail (ih (mem_first_of_leads hg h hy)) ⟨h, hy⟩
  exact not_on_loop (P := g.BeginsIn t) (fun h hx => beginsIn_of_leads hg hf hdecided h.1 h.2 hx) (hback hloop ht)
    (beginsIn_levels hg hx ht)

/-! ### Loops through symbols that vanish -/

theorem nullable_of_not_mem_first (hg : g.WellFormed) (hproductive : ∀ x ∈ g.nonterminals, g.IsProductive x)
    (hα : ∀ x ∈ α, x ∈ g.symbols) (h : ∀ t, t ∉ g.first α) : g.nullable α = true := by
  obtain ⟨w, hw, hterminals⟩ := exists_terminals hproductive hα
  cases w with
  | nil => exact (nullable_iff_derives hg hα).mpr hw
  | cons s w =>
    obtain ⟨hs, hkind⟩ := mem_terminals.mp (hterminals s List.mem_cons_self)
    exact (h s.id ((mem_first_iff_derives hg hs hkind hα).mpr ⟨w, hw⟩)).elim

/-- `x` vanishes by a tree of at most `n` levels before a terminal that follows it, and nothing begins it. -/
structure VanishesBefore (g : Grammar) (f : Family) (t n : Nat) (x : Symbol) : Prop where
  vanishes : g.VanishesIn n x
  follows : t ∈ f.get x.id
  first : ∀ s, s ∉ g.first [x]

/-- A lowest tree of a symbol that nothing begins goes on along a loop. -/
theorem VanishesBefore.of_leads (hg : g.WellFormed) (hf : g.IsFollow f) (hdecided : g.Decided f)
    (hproductive : ∀ x ∈ g.nonterminals, g.IsProductive x) (h : g.Leads x y) (hx : g.VanishesBefore f t n x) :
    ∃ m, m < n ∧ g.VanishesBefore f t m y := by
  obtain ⟨r, hr, rfl, u, v, hrhs, -⟩ := h
  obtain ⟨hvanishes, hfollows, hfirst⟩ := hx
  have hnone : ∀ s, s ∉ g.first r.rhs := fun s hs => hfirst s (mem_first_of_rule hg hr hs)
  have hnull : g.nullable r.rhs = true := nullable_of_not_mem_first hg hproductive (hg.bodies r hr) hnone
  cases n with
  | zero => exact hvanishes.elim
  | succ n =>
    obtain ⟨s, hs, hlhs, hall⟩ := hvanishes
    have hnulls : g.nullable s.rhs = true := nullable_of_vanishesIn hg (hg.bodies s hs) hall
    obtain rfl : r = s := hdecided r hr s hs hlhs.symm t (mem_behind.mpr (Or.inr ⟨hnull, hfollows⟩))
      (mem_behind.mpr (Or.inr ⟨hnulls, hlhs ▸ hfollows⟩))
    have hy := hall y (by simp [hrhs])
    rw [hrhs, nullable_append, nullable_cons] at hnull
    refine ⟨n, Nat.lt_succ_self n, hy, ?_, fun s hs => hnone s (mem_first_iff.mpr ⟨u, y, v, hrhs, hnull.1, hs⟩)⟩
    exact hf.mem hg hr hrhs (hy.nonterminal hg) (mem_behind.mpr (Or.inr ⟨hnull.2.2, hfollows⟩))

/-- Something follows a symbol that can be used. -/
theorem exists_mem_follow (hg : g.WellFormed) (hf : g.IsFollow f) (hproductive : ∀ x ∈ g.nonterminals, g.IsProductive x)
    (hx : x ∈ g.nonterminals) (hreach : g.IsReachable x) : ∃ t, t ∈ f.get x.id := by
  obtain ⟨u, v, hd⟩ := hreach
  have hsymbols : ∀ y ∈ u ++ x :: v, y ∈ g.symbols :=
    hd.mem_symbols hg (by simpa using hg.start_nonterminal.1)
  obtain ⟨w, hw, hterminals⟩ := exists_terminals hproductive (α := v) fun y hy => hsymbols y (by simp [hy])
  have hd : g.Derives [g.start] (u ++ x :: w) := hd.trans (by simpa using hw.within (u ++ [x]) [])
  have hkind := (mem_nonterminals.mp hx).2
  cases w with
  | nil =>
    have heof : g.eof ∈ g.terminals := mem_terminals.mpr hg.eof
    exact ⟨g.eof.id, hf.mem_of_follows hg hkind heof (Or.inr ⟨rfl, u, hd⟩)⟩
  | cons s w =>
    have hstart := mem_nonterminals.mpr hg.start_nonterminal
    exact ⟨s.id, hf.mem_of_follows hg hkind (hterminals s List.mem_cons_self) (Or.inl ⟨g.start, hstart, u, w, hd⟩)⟩

end Grammar

/-- A table decides between rules by one lookahead. -/
theorem ParseTable.Chooses.decided {t : ParseTable} {g : Grammar} {f : Family} (h : t.Chooses g f) : g.Decided f := by
  intro r hr s hs hlhs la hlr hls
  have hget := h.get?_of_mem hr hlr
  rw [hlhs, h.get?_of_mem hs hls] at hget
  exact (Option.some.inj hget).symm

/-- A grammar has no parse table but a conflict when one of its symbols derives a string that begins with the symbol
    again, provided that every nonterminal can be reached from the start symbol and derives some terminals. -/
theorem ParseTable.conflict_of_left_recursive {calls : List Declaration} {start : String} {g : Grammar}
    (h : Grammar.ofDeclarations calls start = .ok g) (hreach : ∀ x ∈ g.nonterminals, g.IsReachable x)
    (hproductive : ∀ x ∈ g.nonterminals, g.IsProductive x) {a : Symbol} {γ : List Symbol}
    (hleft : Relation.TransGen g.Step [a] (a :: γ)) : ∃ nonterminal lookahead first second,
      ParseTable.ofGrammar g = .error (.conflict nonterminal lookahead first second) := by
  have hg := wellFormed_of_ofDeclarations h
  cases htable : ParseTable.ofGrammar g with
  | error e =>
    obtain ⟨_, _, _, _, rfl⟩ := ParseTable.exists_conflict hg htable
    exact ⟨_, _, _, _, rfl⟩
  | ok t =>
    exfalso
    obtain ⟨f, hc⟩ := ParseTable.chooses_of_ofGrammar hg htable
    have hloop := leads_self hg hleft
    obtain ⟨x, ⟨r, hr, hlhs, -⟩, -⟩ := Relation.TransGen.head'_iff.mp hloop
    obtain ⟨has, hkind⟩ := hlhs ▸ hg.heads r hr
    have ha : a ∈ g.nonterminals := mem_nonterminals.mpr ⟨has, hkind⟩
    have hfirst : ∀ t, t ∉ g.first [a] := fun t => not_mem_first_of_loop hg hc.follow hc.decided hloop has
    have hnull : g.nullable [a] = true := nullable_of_not_mem_first hg hproductive (by simpa using has) hfirst
    obtain ⟨t, ht⟩ := exists_mem_follow hg hc.follow hproductive ha (hreach a ha)
    exact not_on_loop (P := g.VanishesBefore f t) (VanishesBefore.of_leads hg hc.follow hc.decided hproductive) hloop
      ⟨vanishesIn_levels hg has hnull, ht, hfirst⟩

/-- Sums that begin with sums are left recursive. -/
theorem ParseTable.conflict_of_left_recursive_sums :
    Relation.TransGen LeftSums.grammar.Step [LeftSums.sum] [LeftSums.sum, LeftSums.plus, LeftSums.number] ∧
    ∃ nonterminal lookahead first second,
      ParseTable.ofGrammar LeftSums.grammar = .error (.conflict nonterminal lookahead first second) := by
  have hleft : Relation.TransGen LeftSums.grammar.Step [LeftSums.sum] [LeftSums.sum, LeftSums.plus, LeftSums.number] :=
    .single ⟨⟨0, LeftSums.sum, [LeftSums.sum, LeftSums.plus, LeftSums.number]⟩, by simp [LeftSums.grammar], [], [], rfl,
      rfl⟩
  have hnumber : LeftSums.grammar.Derives [LeftSums.sum] [LeftSums.number] :=
    .of_rule (r := ⟨1, LeftSums.sum, [LeftSums.number]⟩) (by simp [LeftSums.grammar])
  have hsum : ∀ x ∈ LeftSums.grammar.nonterminals, x = LeftSums.sum := fun x hx => List.mem_singleton.mp hx
  refine ⟨hleft, ParseTable.conflict_of_left_recursive LeftSums.ofDeclarations_calls (fun x hx => ?_)
    (fun x hx => ?_) hleft⟩
  · rw [hsum x hx]
    exact ⟨[], [], .refl _⟩
  · rw [hsum x hx]
    refine ⟨_, hnumber, fun y hy => ?_⟩
    rw [List.mem_singleton.mp hy]
    exact mem_terminals.mpr ⟨by simp [LeftSums.grammar], rfl⟩

end Calcbook
