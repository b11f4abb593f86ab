import Calcbook.Parsing.Table
import Calcbook.Proofs.Grammar.Follow

/-! Parse tables. Entering a rule under a lookahead keeps what was chosen before, and fails when that is
    another rule. So the table of a grammar chooses a rule exactly for the lookaheads of the rule, and no two
    rules of a nonterminal have a lookahead in common. -/

namespace Calcbook

namespace Choices

/-- The second choices are the first ones with rules entered under lookaheads. -/
structure Enters (P : Rule → Nat → Prop) (c c' : Choices) : Prop where
  keeps : ∀ k s, c.lookup k = some s → c'.lookup k = some s
  back : ∀ k s, c'.lookup k = some s → c.lookup k = some s ∨ k.1 = s.lhs.id ∧ P s k.2
  covers : ∀ r la, P r la → ∃ s, c'.lookup (r.lhs.id, la) = some s ∧ (s == r) = true

variable {c c' : Choices}

theorem enters_of_enter {g : Grammar} {r : Rule} {la : Nat} (h : enter g r c la = .ok c') :
    Enters (fun s l => s = r ∧ l = la) c c' := by
  unfold enter at h
  split at h
  · rename_i hnone
    cases h
    refine ⟨fun k s hk => ?_, fun k s hk => ?_, ?_⟩
    · rw [List.lookup_cons]
      split
      · rename_i heq
        rw [eq_of_beq heq, hnone] at hk
        cases hk
      · exact hk
    · rw [List.lookup_cons] at hk
      split at hk
      · rename_i heq
        cases hk
        rw [eq_of_beq heq]
        exact Or.inr ⟨rfl, rfl, rfl⟩
      · exact Or.inl hk
    · rintro _ _ ⟨rfl, rfl⟩
      exact ⟨_, by rw [List.lookup_cons, BEq.rfl], BEq.rfl⟩
  · rename_i earlier hsome
    split at h
    · rename_i heq
      cases h
      refine ⟨fun _ _ hk => hk, fun _ _ hk => Or.inl hk, ?_⟩
      rintro _ _ ⟨rfl, rfl⟩
      exact ⟨earlier, hsome, heq⟩
    · cases h

/-- Steps that each enter something enter all of it one after the other. -/
theorem enters_of_foldlM {ι : Type} {enterOne : Choices → ι → Except Defect Choices} {P : ι → Rule → Nat → Prop}
    (hone : ∀ i c c', enterOne c i = .ok c' → Enters (P i) c c') {items : List ι}
    (h : items.foldlM enterOne c = .ok c') : Enters (fun r la => ∃ i ∈ items, P i r la) c c' := by
  induction items generalizing c with
  | nil =>
    cases h
    exact ⟨fun _ _ hk => hk, fun _ _ hk => Or.inl hk, fun _ _ ⟨_, hi, _⟩ => by cases hi⟩
  | cons i items ih =>
    rw [List.foldlM_cons] at h
    obtain ⟨c₁, h₁, h⟩ := bind_eq_ok.mp h
    have hi := hone i c c₁ h₁
    have hrest := ih h
    refine ⟨fun k s hk => hrest.keeps k s (hi.keeps k s hk), fun k s hk => ?_, ?_⟩
    · rcases hrest.back k s hk with hk | ⟨hid, j, hj, hp⟩
      · rcases hi.back k s hk with hk | ⟨hid, hp⟩
        · exact Or.inl hk
        · exact Or.inr ⟨hid, i, List.mem_cons_self, hp⟩
      · exact Or.inr ⟨hid, j, List.mem_cons_of_mem i hj, hp⟩
    · rintro r la ⟨j, hj, hp⟩
      rcases List.mem_cons.mp hj with rfl | hj
      · obtain ⟨s, hs, hsr⟩ := hi.covers r la hp
        exact ⟨s, hrest.keeps _ s hs, hsr⟩
      · exact hrest.covers r la ⟨j, hj, hp⟩

/-- Rules that are entered one after the other, each under its lookaheads. -/
def enterAll (g : Grammar) (look : Rule → Grammar.IdSet) (rules : List Rule) : Except Defect Choices :=
  rules.foldlM (fun choices r => (look r).toList.foldlM (enter g r) choices) []

/-- What has been entered without a conflict is chosen exactly by its left sides and lookaheads. -/
theorem lookup_eq_some_iff {g : Grammar} (hg : g.WellFormed) {look : Rule → Grammar.IdSet} {rules : List Rule}
    (hrules : ∀ r ∈ rules, r ∈ g.rules) (h : enterAll g look rules = .ok c) {a la : Nat} {r : Rule} :
    c.lookup (a, la) = some r ↔ r ∈ rules ∧ r.lhs.id = a ∧ la ∈ look r := by
  have henters := enters_of_foldlM (fun r c c' hr => enters_of_foldlM (fun la c c' hla => enters_of_enter hla) hr) h
  have hback : ∀ {s}, c.lookup (a, la) = some s → s ∈ rules ∧ s.lhs.id = a ∧ la ∈ look s := fun hs => by
    rcases henters.back _ _ hs with hnil | ⟨hid, _, hs, _, hla, rfl, rfl⟩
    · cases hnil
    · exact ⟨hs, hid.symm, hla⟩
  refine ⟨hback, ?_⟩
  rintro ⟨hr, rfl, hla⟩
  obtain ⟨s, hs, hsr⟩ := henters.covers r la ⟨r, hr, la, hla, rfl, rfl⟩
  have heq : s = r := hg.rule_eq_of_beq (hrules s (hback hs).1) (hrules r hr) hsr
  rwa [heq] at hs

end Choices

namespace ParseTable
variable {t : ParseTable} {g : Grammar} {f : Grammar.Family}

/-- The table chooses the rules of a grammar for their lookaheads. -/
structure Chooses (t : ParseTable) (g : Grammar) (f : Grammar.Family) : Prop where
  grammar : t.grammar = g
  wellFormed : g.WellFormed
  follow : g.IsFollow f
  get?_eq_some_iff : ∀ {x : Symbol} {la : Nat} {r : Rule}, x ∈ g.symbols →
    (t.get? x.id la = some r ↔ r ∈ g.rules ∧ r.lhs = x ∧ la ∈ g.lookaheads f r)

theorem lookaheadsOf_eq {a : Analysis} (h : Analysis.ofGrammar g = .ok a) (hg : g.WellFormed) :
    a.grammar = g ∧ g.follow = .ok a.follow ∧ ∀ r ∈ g.rules, a.lookaheadsOf r = g.lookaheads a.follow r := by
  obtain ⟨f, hf, h⟩ := bind_eq_ok.mp h
  cases h
  refine ⟨rfl, hf, fun r hr => ?_⟩
  obtain ⟨i, hi⟩ := List.mem_iff_getElem?.mp hr
  simp [Analysis.lookaheadsOf, hg.places i r hi, hi]

/-- The table of a grammar has the rules entered under their lookaheads, in order. -/
theorem exists_enterAll (hg : g.WellFormed) : ∃ f look, g.follow = .ok f ∧ g.IsFollow f ∧
    (∀ r ∈ g.rules, look r = g.lookaheads f r) ∧
    ParseTable.ofGrammar g = Choices.enterAll g look g.rules >>= fun choices => .ok ⟨g, choices⟩ := by
  obtain ⟨f, hf, -⟩ := Grammar.exists_follow hg
  obtain ⟨a, ha⟩ : ∃ a, Analysis.ofGrammar g = .ok a := ⟨_, by rw [Analysis.ofGrammar, hf]; rfl⟩
  obtain ⟨hgrammar, hfollow, hlook⟩ := lookaheadsOf_eq ha hg
  refine ⟨a.follow, a.lookaheadsOf, hfollow, Grammar.isFollow_of_follow hg hfollow, hlook, ?_⟩
  rw [ParseTable.ofGrammar, ha]
  show ofAnalysis a = _
  rw [ofAnalysis, hgrammar]
  rfl

/-- A table chooses a rule exactly for its lookaheads. -/
theorem chooses_of_ofGrammar (hg : g.WellFormed) (h : ParseTable.ofGrammar g = .ok t) : ∃ f, t.Chooses g f := by
  obtain ⟨f, look, -, hfollow, hlook, heq⟩ := exists_enterAll hg
  obtain ⟨choices, hc, ht⟩ := bind_eq_ok.mp (heq.symm.trans h)
  cases ht
  refine ⟨f, rfl, hg, hfollow, fun {x la r} hx => ?_⟩
  rw [get?, Choices.lookup_eq_some_iff hg (fun _ hr => hr) hc]
  constructor
  · rintro ⟨hr, hid, hla⟩
    exact ⟨hr, hg.eq_of_id_eq (hg.heads r hr).1 hx hid, hlook r hr ▸ hla⟩
  · rintro ⟨hr, rfl, hla⟩
    exact ⟨hr, rfl, (hlook r hr).symm ▸ hla⟩

namespace Chooses

theorem eof_terminal (h : t.Chooses g f) : t.grammar.eof.isTerminal = true := h.grammar ▸ h.wellFormed.eof.2

theorem get?_of_mem (h : t.Chooses g f) {r : Rule} (hr : r ∈ g.rules) {la : Nat} (hla : la ∈ g.lookaheads f r) :
    t.get? r.lhs.id la = some r :=
  (h.get?_eq_some_iff (h.wellFormed.heads r hr).1).mpr ⟨hr, rfl, hla⟩

end Chooses

end ParseTable

def Sums.table : ParseTable where
  grammar := grammar
  choices := [((1, 5), ⟨2, more, []⟩), ((1, 4), ⟨1, more, [plus, number, more]⟩), ((0, 3), ⟨0, sum, [number, more]⟩)]

theorem Sums.ofGrammar_grammar : ParseTable.ofGrammar grammar = .ok table := by rfl

end Calcbook
