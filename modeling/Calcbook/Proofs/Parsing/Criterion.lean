import Calcbook.Proofs.Parsing.Table

/-! When a grammar has a parse table. Entering rules fails at the first rule that has a lookahead in common with
    an earlier rule of its nonterminal, under the least such lookahead, and nowhere else. Lookaheads are what
    derivations make of them, so a table exists exactly when no terminal predicts two rules of a
    nonterminal, and it then chooses the one rule that a terminal predicts. -/

namespace Calcbook
open Grammar

/-! ### Conflicts -/

/-- A fold that fails does so at one of the items, behind others that go well. -/
theorem foldlM_eq_error {ε σ ι : Type} {f : σ → ι → Except ε σ} {items : List ι} {s : σ} {e : ε}
    (h : items.foldlM f s = .error e) :
    ∃ before i after s', items = before ++ i :: after ∧ before.foldlM f s = .ok s' ∧ f s' i = .error e := by
  induction items generalizing s with
  | nil => cases h
  | cons i items ih =>
    rw [List.foldlM_cons] at h
    cases hi : f s i with
    | error e' =>
      rw [hi] at h
      cases h
      exact ⟨[], i, items, s, rfl, rfl, hi⟩
    | ok s₁ =>
      rw [hi] at h
      obtain ⟨before, j, after, s', rfl, hbefore, hj⟩ := ih h
      refine ⟨i :: before, j, after, s', rfl, ?_, hj⟩
      rw [List.foldlM_cons, hi]
      exact hbefore

theorem bind_ok_eq_error {ε α β : Type} {x : Except ε α} {f : α → β} {e : ε} :
    (x >>= fun a => .ok (f a)) = .error e ↔ x = .error e := by
  cases x <;> simp [bind, Except.bind]

namespace Choices
variable {g : Grammar} {look : Rule → IdSet} {rules : List Rule} {c : Choices} {r s : Rule} {la : Nat} {e : Defect}

theorem enter_eq_error (h : enter g r c la = .error e) : ∃ earlier, c.lookup (r.lhs.id, la) = some earlier ∧
    earlier ≠ r ∧ e = .conflict r.lhs.name (g.nameOf la) earlier.text r.text := by
  unfold enter at h
  split at h
  · cases h
  · rename_i earlier hsome
    split at h
    · cases h
    · rename_i hne
      cases h
      exact ⟨earlier, hsome, fun heq => hne (heq ▸ BEq.rfl), rfl⟩

/-- Rules that have been entered without a conflict have no lookahead in common. -/
theorem eq_of_enterAll (hg : g.WellFormed) (hrules : ∀ r ∈ rules, r ∈ g.rules) (h : enterAll g look rules = .ok c)
    (hr : r ∈ rules) (hs : s ∈ rules) (hid : r.lhs.id = s.lhs.id) (hlr : la ∈ look r) (hls : la ∈ look s) : r = s := by
  have hchosen := (lookup_eq_some_iff hg hrules h).mpr ⟨hr, hid, hlr⟩
  rw [(lookup_eq_some_iff hg hrules h).mpr ⟨hs, rfl, hls⟩] at hchosen
  exact (Option.some.inj hchosen).symm

/-- A conflict comes up at a rule, behind rules without one, under the least lookahead that the rule shares with one
    of them. -/
theorem enterAll_eq_error (hg : g.WellFormed) (hrules : ∀ r ∈ rules, r ∈ g.rules) (hnodup : rules.Nodup)
    (h : enterAll g look rules = .error e) : ∃ before first second after la, rules = before ++ second :: after ∧
      e = .conflict second.lhs.name (g.nameOf la) first.text second.text ∧
      (∃ c, enterAll g look before = .ok c) ∧ first ∈ before ∧ first.lhs.id = second.lhs.id ∧
      la ∈ look first ∧ la ∈ look second ∧
      ∀ r ∈ before, ∀ l, r.lhs.id = second.lhs.id → l ∈ look r → l ∈ look second → la ≤ l := by
  obtain ⟨before, second, after, c₁, rfl, hbefore, h⟩ := foldlM_eq_error h
  obtain ⟨las, la, las', c₂, hlas, hentered, h⟩ := foldlM_eq_error h
  obtain ⟨first, hfirst, hne, rfl⟩ := enter_eq_error h
  have hmem : ∀ r ∈ before, r ∈ g.rules := fun r hr => hrules r (List.mem_append_left _ hr)
  have henters := enters_of_foldlM (fun l c c' hl => enters_of_enter hl) hentered
  have hla : la ∈ look second := by
    rw [OrdSet.mem_iff, hlas]
    exact List.mem_append_right _ List.mem_cons_self
  -- The rule under the lookahead was there before the second rule was entered.
  have hthere : c₁.lookup (second.lhs.id, la) = some first := by
    rcases henters.back _ _ hfirst with hthere | ⟨-, _, -, rfl, -⟩
    · exact hthere
    · exact (hne rfl).elim
  obtain ⟨hfirst, hid, hlf⟩ := (lookup_eq_some_iff hg hmem hbefore).mp hthere
  refine ⟨before, first, second, after, la, rfl, rfl, ⟨c₁, hbefore⟩, hfirst, hid, hlf, hla, ?_⟩
  intro r hr l hlhs hlr hls
  by_contra hlt
  -- A lesser lookahead has been entered for the second rule, and would have met the other rule then.
  have hearlier : l ∈ las := by
    have hpairs := (look second).ascending
    rw [hlas, List.pairwise_append] at hpairs
    rw [OrdSet.mem_iff, hlas] at hls
    rcases List.mem_append.mp hls with hls | hls
    · exact hls
    · rcases List.mem_cons.mp hls with rfl | hls
      · exact (hlt (Nat.le_refl _)).elim
      · have := Nat.compare_eq_lt.mp ((List.pairwise_cons.mp hpairs.2.1).1 l hls)
        omega
  obtain ⟨s, hs, hsr⟩ := henters.covers second l ⟨l, hearlier, rfl, rfl⟩
  rw [henters.keeps _ _ ((lookup_eq_some_iff hg hmem hbefore).mpr ⟨hr, hlhs, hlr⟩)] at hs
  cases hs
  have heq : r = second := hg.rule_eq_of_beq (hmem r hr) (hrules second (by simp)) hsr
  rw [List.nodup_append] at hnodup
  exact hnodup.2.2 r hr second List.mem_cons_self heq

end Choices

/-! ### Predicted rules -/

namespace Grammar
variable {g : Grammar} {f : Family} {r s : Rule} {x y : Symbol}

/-- A terminal predicts a rule: the right side derives a string that begins with the terminal, or it derives the
    empty string and the terminal is one of those that follow the left side. -/
def Predicts (g : Grammar) (f : Family) (r : Rule) (x : Symbol) : Prop :=
  (∃ γ, g.Derives r.rhs (x :: γ)) ∨ g.Derives r.rhs [] ∧ x.id ∈ f.get r.lhs.id

/-- Two different rules of a nonterminal are predicted by the same terminal. -/
structure Clash (g : Grammar) (f : Family) (r s : Rule) (x : Symbol) : Prop where
  rules : r ∈ g.rules ∧ s ∈ g.rules
  terminal : x ∈ g.terminals
  lhs : r.lhs = s.lhs
  ne : r ≠ s
  predicts : g.Predicts f r x ∧ g.Predicts f s x

theorem mem_lookaheads_iff (hg : g.WellFormed) (hr : r ∈ g.rules) (hx : x ∈ g.terminals) :
    x.id ∈ g.lookaheads f r ↔ g.Predicts f r x := by
  obtain ⟨hxs, hkind⟩ := mem_terminals.mp hx
  have hbody := hg.bodies r hr
  rw [lookaheads, mem_behind, mem_first_iff_derives hg hxs hkind hbody, nullable_iff_derives hg hbody, Predicts]

theorem exists_terminal_of_mem_lookaheads (hg : g.WellFormed) (hf : g.Fits f) (hr : r ∈ g.rules) {la : Nat}
    (h : la ∈ g.lookaheads f r) : ∃ x ∈ g.terminals, x.id = la := by
  rcases mem_behind.mp h with hfirst | ⟨-, hfollow⟩
  · exact exists_terminal_of_mem_first hg (hg.bodies r hr) hfirst
  · exact List.mem_map.mp (hf.mem_terminals hfollow)

theorem pairwise_terminals (hg : g.WellFormed) : g.terminals.Pairwise (·.id < ·.id) := by
  refine List.Pairwise.filter _ (List.pairwise_iff_getElem.mpr fun i j hi hj hij => ?_)
  rwa [hg.ids i _ (List.getElem?_eq_getElem hi), hg.ids j _ (List.getElem?_eq_getElem hj)]

theorem nameOf_eq (hg : g.WellFormed) (hx : x ∈ g.symbols) : g.nameOf x.id = x.name := by
  obtain ⟨i, hi⟩ := List.mem_iff_getElem?.mp hx
  rw [nameOf, hg.ids i x hi, hi]

theorem nodup_rules (hg : g.WellFormed) : g.rules.Nodup := hg.distinct.of_map _

/-- The rules before a place are those with a lesser index. -/
theorem mem_before_iff (hg : g.WellFormed) {before after : List Rule} (hrules : g.rules = before ++ s :: after)
    (hr : r ∈ g.rules) : r ∈ before ↔ r.index < s.index := by
  have hs : s.index = before.length := hg.places _ _ (by rw [hrules, List.getElem?_append_right (Nat.le_refl _)]; simp)
  obtain ⟨i, hi⟩ := List.mem_iff_getElem?.mp hr
  rw [hs, hg.places i r hi]
  constructor
  · intro hmem
    obtain ⟨j, hj⟩ := List.mem_iff_getElem?.mp hmem
    have hlt := (List.getElem?_eq_some_iff.mp hj).1
    rw [← hg.places j r (by rw [hrules, List.getElem?_append_left hlt, hj]), hg.places i r hi] at hlt
    exact hlt
  · intro hlt
    rw [hrules, List.getElem?_append_left hlt] at hi
    exact List.mem_of_getElem? hi

end Grammar

/-! ### The criterion -/

section Criterion
variable {g : Grammar} {f : Family} {look : Rule → IdSet} {choices : Choices} {r s : Rule} {x : Symbol} {e : Defect}

namespace Choices

/-- Entered rules are chosen exactly for the terminals that predict them. -/
theorem lookup_iff_predicts (hg : g.WellFormed) (hf : g.Fits f) (hlook : ∀ r ∈ g.rules, look r = g.lookaheads f r)
    (h : enterAll g look g.rules = .ok choices) {a la : Nat} : choices.lookup (a, la) = some r ↔
      r ∈ g.rules ∧ r.lhs.id = a ∧ ∃ x ∈ g.terminals, x.id = la ∧ g.Predicts f r x := by
  rw [lookup_eq_some_iff hg (fun _ hr => hr) h]
  refine and_congr_right fun hr => and_congr_right fun _ => ?_
  rw [hlook r hr]
  constructor
  · intro hla
    obtain ⟨x, hx, rfl⟩ := exists_terminal_of_mem_lookaheads hg hf hr hla
    exact ⟨x, hx, rfl, (mem_lookaheads_iff hg hr hx).mp hla⟩
  · rintro ⟨x, hx, rfl, hpredicts⟩
    exact (mem_lookaheads_iff hg hr hx).mpr hpredicts

/-- Rules that are entered without a conflict do not clash, and none before a conflict do. -/
theorem not_clash (hg : g.WellFormed) (hlook : ∀ r ∈ g.rules, look r = g.lookaheads f r) {rules : List Rule}
    (hrules : ∀ r ∈ rules, r ∈ g.rules) (h : enterAll g look rules = .ok choices) (hr : r ∈ rules) (hs : s ∈ rules) :
    ¬g.Clash f r s x := by
  rintro ⟨⟨hr', hs'⟩, hx, hlhs, hne, hpr, hps⟩
  have hlr : x.id ∈ look r := hlook r hr' ▸ (mem_lookaheads_iff hg hr' hx).mpr hpr
  have hls : x.id ∈ look s := hlook s hs' ▸ (mem_lookaheads_iff hg hs' hx).mpr hps
  exact hne (eq_of_enterAll hg hrules h hr hs (congrArg Symbol.id hlhs) hlr hls)

/-- A conflict is the clash of the first rule that clashes with an earlier one, under the least terminal. -/
theorem clash_of_conflict (hg : g.WellFormed) (hf : g.Fits f) (hlook : ∀ r ∈ g.rules, look r = g.lookaheads f r)
    (h : enterAll g look g.rules = .error e) : ∃ first second x,
      e = .conflict second.lhs.name x.name first.text second.text ∧ g.Clash f first second x ∧
      first.index < second.index ∧ ∀ r s y, g.Clash f r s y → r.index < s.index →
        second.index ≤ s.index ∧ (s = second → x.id ≤ y.id ∧ (y = x → r = first)) := by
  obtain ⟨before, first, second, after, la, hsplit, he, ⟨c, hbefore⟩, hfirst, hid, hlf, hls, hleast⟩ :=
    enterAll_eq_error hg (fun _ hr => hr) (nodup_rules hg) h
  have hmem : ∀ r ∈ before, r ∈ g.rules := fun r hr => hsplit ▸ List.mem_append_left _ hr
  have hsecond : second ∈ g.rules := hsplit ▸ List.mem_append_right _ List.mem_cons_self
  have hlookaheads : ∀ r ∈ g.rules, ∀ y ∈ g.terminals, (y.id ∈ look r ↔ g.Predicts f r y) := fun r hr y hy => by
    rw [hlook r hr, mem_lookaheads_iff hg hr hy]
  obtain ⟨x, hx, rfl⟩ := exists_terminal_of_mem_lookaheads hg hf hsecond (hlook second hsecond ▸ hls)
  have hlt : first.index < second.index := (mem_before_iff hg hsplit (hmem first hfirst)).mp hfirst
  have hclash : g.Clash f first second x := {
    rules := ⟨hmem first hfirst, hsecond⟩
    terminal := hx
    lhs := hg.eq_of_id_eq (hg.heads first (hmem first hfirst)).1 (hg.heads second hsecond).1 hid
    ne := fun heq => Nat.lt_irrefl _ (heq ▸ hlt)
    predicts := ⟨(hlookaheads _ (hmem first hfirst) x hx).mp hlf, (hlookaheads _ hsecond x hx).mp hls⟩ }
  refine ⟨first, second, x, by rw [he, nameOf_eq hg (mem_terminals.mp hx).1], hclash, hlt, fun r s y hrs hindex => ?_⟩
  obtain ⟨hr, hs⟩ := hrs.rules
  have hearlier : ∀ q ∈ g.rules, q.index < second.index → q ∈ before := fun q hq => (mem_before_iff hg hsplit hq).mpr
  constructor
  · by_contra hlow
    exact not_clash hg hlook hmem hbefore (hearlier r hr (by omega)) (hearlier s hs (by omega)) hrs
  · rintro rfl
    have hrb := hearlier r hr hindex
    have hlr := (hlookaheads r hr y hrs.terminal).mpr hrs.predicts.1
    have hls' := (hlookaheads s hs y hrs.terminal).mpr hrs.predicts.2
    refine ⟨hleast r hrb y.id (congrArg Symbol.id hrs.lhs) hlr hls', ?_⟩
    rintro rfl
    exact eq_of_enterAll hg hmem hbefore hrb hfirst (congrArg Symbol.id (hrs.lhs.trans hclash.lhs.symm)) hlr hlf

end Choices

/-- A grammar without a table has a conflict. -/
theorem ParseTable.exists_conflict (hg : g.WellFormed) (h : ParseTable.ofGrammar g = .error e) :
    ∃ nonterminal lookahead first second, e = .conflict nonterminal lookahead first second := by
  obtain ⟨f, look, -, hf, hlook, htable⟩ := ParseTable.exists_enterAll hg
  rw [htable, bind_ok_eq_error] at h
  obtain ⟨first, second, x, he, -⟩ := Choices.clash_of_conflict hg hf.fits hlook h
  exact ⟨_, _, _, _, he⟩

/-- A grammar has a parse table exactly when no two rules clash. The table chooses the rule that a terminal predicts
    and has no other choices, and it expects of a nonterminal the terminals that predict a rule of it, in
    order. A grammar without a table has a conflict: that of the first rule that clashes with an earlier one, under the
    least terminal that predicts both, and with the one rule before it that this terminal predicts. -/
theorem ParseTable.criterion_exact {calls : List Declaration} {start : String}
    (h : Grammar.ofDeclarations calls start = .ok g) : ∃ f, g.follow = .ok f ∧
      ((∃ t, ParseTable.ofGrammar g = .ok t) ↔ ¬∃ r s x, g.Clash f r s x) ∧
      (∀ t, ParseTable.ofGrammar g = .ok t →
        (∀ a la r, t.get? a la = some r ↔
          r ∈ g.rules ∧ r.lhs.id = a ∧ ∃ x ∈ g.terminals, x.id = la ∧ g.Predicts f r x) ∧
        ∀ a, (t.expected a).Pairwise (·.id < ·.id) ∧
          ∀ x, x ∈ t.expected a ↔ x ∈ g.terminals ∧ ∃ r ∈ g.rules, r.lhs.id = a ∧ g.Predicts f r x) ∧
      ∀ e, ParseTable.ofGrammar g = .error e → ∃ first second x,
        e = .conflict second.lhs.name x.name first.text second.text ∧ g.Clash f first second x ∧
        first.index < second.index ∧ ∀ r s y, g.Clash f r s y → r.index < s.index →
          second.index ≤ s.index ∧ (s = second → x.id ≤ y.id ∧ (y = x → r = first)) := by
  have hg := wellFormed_of_ofDeclarations h
  obtain ⟨f, look, hfollow, hf, hlook, htable⟩ := ParseTable.exists_enterAll hg
  rw [htable]
  refine ⟨f, hfollow, ?_, fun t ht => ?_, fun e he => ?_⟩
  · cases hentered : Choices.enterAll g look g.rules with
    | ok choices =>
      refine iff_of_true ⟨_, rfl⟩ ?_
      rintro ⟨r, s, x, hclash⟩
      exact Choices.not_clash hg hlook (fun _ hr => hr) hentered hclash.rules.1 hclash.rules.2 hclash
    | error e =>
      obtain ⟨first, second, x, -, hclash, -⟩ := Choices.clash_of_conflict hg hf.fits hlook hentered
      refine iff_of_false ?_ fun hnone => hnone ⟨first, second, x, hclash⟩
      rintro ⟨_, ⟨⟩⟩
  · obtain ⟨choices, hentered, ht⟩ := bind_eq_ok.mp ht
    cases ht
    have hlookup : ∀ a la r, choices.lookup (a, la) = some r ↔
        r ∈ g.rules ∧ r.lhs.id = a ∧ ∃ x ∈ g.terminals, x.id = la ∧ g.Predicts f r x :=
      fun _ _ _ => Choices.lookup_iff_predicts hg hf.fits hlook hentered
    refine ⟨hlookup, fun a => ⟨(pairwise_terminals hg).filter _, fun x => ?_⟩⟩
    rw [ParseTable.expected, List.mem_filter, Option.isSome_iff_exists]
    refine and_congr_right fun hx => exists_congr fun r => ?_
    refine (hlookup a x.id r).trans (and_congr_right fun _ => and_congr_right fun _ => ?_)
    constructor
    · rintro ⟨y, hy, hid, hpredicts⟩
      exact hg.eq_of_id_eq (mem_terminals.mp hy).1 (mem_terminals.mp hx).1 hid ▸ hpredicts
    · exact fun hpredicts => ⟨x, hx, rfl, hpredicts⟩
  · exact Choices.clash_of_conflict hg hf.fits hlook (bind_ok_eq_error.mp he)

end Criterion

/-! ### A grammar of sums that begin with sums -/

namespace LeftSums

def sum : Symbol := ⟨0, .nonterminal, "Sum"⟩

def number : Symbol := ⟨1, .terminal, "n"⟩

def plus : Symbol := ⟨2, .terminal, "+"⟩

def dollar : Symbol := ⟨3, .terminal, "$"⟩

/-- A number, or a sum and a number behind a sign. A number begins both. -/
def grammar : Grammar where
  start := sum
  eof := dollar
  symbols := [sum, number, plus, dollar]
  rules := [⟨0, sum, [sum, plus, number]⟩, ⟨1, sum, [number]⟩]

def calls : List Declaration :=
  [.symbol .nonterminal "Sum" false, .symbol .terminal "n" false, .symbol .terminal "+" false,
    .rule "Sum" ["Sum", "+", "n"] false, .rule "Sum" ["n"] false]

theorem ofDeclarations_calls : Grammar.ofDeclarations calls "Sum" = .ok grammar := by rfl

end LeftSums

theorem ParseTable.criterion_exact_leftSums : ∃ f, LeftSums.grammar.follow = .ok f ∧ ∃ first second x,
    ParseTable.ofGrammar LeftSums.grammar = .error (.conflict second.lhs.name x.name first.text second.text) ∧
    LeftSums.grammar.Clash f first second x ∧ first.text = "Sum -> Sum + n" ∧ second.text = "Sum -> n" ∧
    x.name = "n" := by
  obtain ⟨f, hf, -, -, hconflict⟩ := ParseTable.criterion_exact LeftSums.ofDeclarations_calls
  have htable : ParseTable.ofGrammar LeftSums.grammar =
      .error (.conflict "Sum" "n" "Sum -> Sum + n" "Sum -> n") := by rfl
  obtain ⟨first, second, x, heq, hclash, -⟩ := hconflict _ htable
  obtain ⟨-, hx, hfirst, hsecond⟩ := Defect.conflict.inj heq
  exact ⟨f, hf, first, second, x, heq ▸ htable, hclash, hfirst.symm, hsecond.symm, hx.symm⟩

end Calcbook
