import Calcbook.Grammar.Declare
import Mathlib.Data.List.Nodup

/-! What declarations make of a grammar. Numbers are places, no name and no rule comes twice, and the
    symbols of the rules are those of the grammar, so a number stands for one symbol and two sides for
    one rule. A faulty declaration changes nothing but the defect, hence every declaration keeps this. -/

namespace Calcbook

instance : ReflBEq Symbol := ⟨by simp [BEq.beq]⟩

instance : ReflBEq Rule := ⟨Bool.and_eq_true_iff.mpr ⟨BEq.rfl, BEq.rfl⟩⟩

theorem Symbol.beq_iff_id_eq {x y : Symbol} : (x == y) = true ↔ x.id = y.id := beq_iff_eq (α := Nat)

theorem Symbol.isTerminal_iff {x : Symbol} : x.isTerminal = true ↔ x.kind = .terminal := beq_iff_eq

theorem Symbol.isTerminal_eq_false_iff {x : Symbol} : x.isTerminal = false ↔ x.kind = .nonterminal := by
  cases hkind : x.kind <;> simp [isTerminal, hkind]

theorem bind_eq_ok {ε α β : Type} {x : Except ε α} {f : α → Except ε β} {b : β} :
    (x >>= f) = .ok b ↔ ∃ a, x = .ok a ∧ f a = .ok b := by
  cases x with
  | error e => simp [bind, Except.bind]
  | ok a => simp [bind, Except.bind]

/-- A computation goes on behind a check when the check does not refuse. -/
theorem check_eq_ok {ε α : Type} {c : Prop} [Decidable c] {e : ε} {f : PUnit → Except ε α} {x : Except ε α} {b : α} :
    (if c then throw e >>= f else x) = .ok b ↔ ¬c ∧ x = .ok b := by
  by_cases hc : c
  · simp [hc, bind, Except.bind, throw, throwThe, MonadExceptOf.throw]
  · simp [hc]

theorem bind_eq_error {ε α β : Type} {x : Except ε α} {f : α → Except ε β} {e : ε} :
    (x >>= f) = .error e ↔ x = .error e ∨ ∃ a, x = .ok a ∧ f a = .error e := by
  cases x with
  | error e => simp [bind, Except.bind]
  | ok a => simp [bind, Except.bind]

theorem check_eq_error {ε α : Type} {c : Prop} [Decidable c] {e e' : ε} {f : PUnit → Except ε α} {x : Except ε α} :
    (if c then throw e >>= f else x) = .error e' ↔ c ∧ e = e' ∨ ¬c ∧ x = .error e' := by
  by_cases hc : c
  · simp [hc, bind, Except.bind, throw, throwThe, MonadExceptOf.throw]
  · simp [hc]

/-! ### Symbols and rules -/

/-- Symbols and rules as declarations make them. -/
structure Sound (symbols : List Symbol) (rules : List Rule) : Prop where
  ids : ∀ (i : Nat) (x : Symbol), symbols[i]? = some x → x.id = i
  names : (symbols.map (·.name)).Nodup
  places : ∀ (i : Nat) (r : Rule), rules[i]? = some r → r.index = i
  distinct : (rules.map fun r => (r.lhs, r.rhs)).Nodup
  heads : ∀ r ∈ rules, r.lhs ∈ symbols ∧ r.lhs.isTerminal = false
  bodies : ∀ r ∈ rules, ∀ x ∈ r.rhs, x ∈ symbols

namespace Sound
variable {symbols : List Symbol} {rules : List Rule}

/-- The number of a symbol leads back to it. -/
theorem getElem?_id (h : Sound symbols rules) {x : Symbol} (hx : x ∈ symbols) : symbols[x.id]? = some x := by
  obtain ⟨i, hi⟩ := List.mem_iff_getElem?.mp hx
  rw [h.ids i x hi, hi]

/-- A number stands for one symbol. -/
theorem eq_of_id_eq (h : Sound symbols rules) {x y : Symbol} (hx : x ∈ symbols) (hy : y ∈ symbols)
    (hid : x.id = y.id) : x = y :=
  Option.some.inj ((h.getElem?_id hx).symm.trans (hid ▸ h.getElem?_id hy))

/-- A name stands for one symbol. -/
theorem find?_name_eq_some_iff (h : Sound symbols rules) {name : String} {x : Symbol} :
    symbols.find? (·.name == name) = some x ↔ x ∈ symbols ∧ x.name = name := by
  constructor
  · intro hx
    exact ⟨List.mem_of_find?_eq_some hx, by simpa using List.find?_some hx⟩
  · rintro ⟨hx, rfl⟩
    cases hy : symbols.find? (·.name == x.name) with
    | none => exact absurd (List.find?_eq_none.mp hy x hx) (by simp)
    | some y =>
      have hname : y.name = x.name := by simpa using List.find?_some hy
      rw [List.inj_on_of_nodup_map h.names (List.mem_of_find?_eq_some hy) hx hname]

theorem eq_of_beq (h : Sound symbols rules) : ∀ {α β : List Symbol}, (∀ x ∈ α, x ∈ symbols) →
    (∀ x ∈ β, x ∈ symbols) → (α == β) = true → α = β
  | [], [], _, _, _ => rfl
  | [], _ :: _, _, _, hb => by cases hb
  | _ :: _, [], _, _, hb => by cases hb
  | x :: α, y :: β, hα, hβ, hb => by
    obtain ⟨hxy, hb⟩ := Bool.and_eq_true_iff.mp hb
    rw [List.forall_mem_cons] at hα hβ
    rw [h.eq_of_id_eq hα.1 hβ.1 (Symbol.beq_iff_id_eq.mp hxy), h.eq_of_beq hα.2 hβ.2 hb]

theorem rule_eq_of_beq (h : Sound symbols rules) {r s : Rule} (hr : r ∈ rules) (hs : s ∈ rules)
    (hb : (r == s) = true) : r = s := by
  obtain ⟨hl, hb⟩ := Bool.and_eq_true_iff.mp hb
  have hlhs : r.lhs = s.lhs :=
    h.eq_of_id_eq (h.heads r hr).1 (h.heads s hs).1 (Symbol.beq_iff_id_eq.mp hl)
  have hrhs : r.rhs = s.rhs := h.eq_of_beq (h.bodies r hr) (h.bodies s hs) hb
  exact List.inj_on_of_nodup_map h.distinct hr hs (by rw [hlhs, hrhs])

theorem pairwise_rules (h : Sound symbols rules) : rules.Pairwise fun r s => (r == s) = false := by
  have hne : rules.Pairwise fun r s => (r.lhs, r.rhs) ≠ (s.lhs, s.rhs) := List.pairwise_map.mp h.distinct
  refine hne.imp_of_mem fun {r s} hr hs hsides => Bool.eq_false_iff.mpr fun hb => hsides ?_
  rw [h.rule_eq_of_beq hr hs hb]

theorem appendSymbol (h : Sound symbols rules) {kind : Symbol.Kind} {name : String}
    (hnew : name ∉ symbols.map (·.name)) : Sound (symbols ++ [⟨symbols.length, kind, name⟩]) rules where
  ids i x hx := by
    rw [List.getElem?_append] at hx
    split at hx
    · exact h.ids i x hx
    · obtain ⟨hlt, rfl⟩ := List.getElem?_eq_some_iff.mp hx
      simp only [List.length_singleton] at hlt
      simp only [List.getElem_singleton]
      omega
  names := by
    rw [List.map_append, List.nodup_append]
    refine ⟨h.names, List.nodup_singleton _, ?_⟩
    rintro a ha b hb rfl
    rw [List.map_singleton, List.mem_singleton] at hb
    exact hnew (by rwa [hb] at ha)
  places := h.places
  distinct := h.distinct
  heads r hr := ⟨List.mem_append_left _ (h.heads r hr).1, (h.heads r hr).2⟩
  bodies r hr x hx := List.mem_append_left _ (h.bodies r hr x hx)

theorem appendRule (h : Sound symbols rules) {r : Rule} (hplace : r.index = rules.length)
    (hhead : r.lhs ∈ symbols ∧ r.lhs.isTerminal = false) (hbody : ∀ x ∈ r.rhs, x ∈ symbols)
    (hnew : rules.contains r = false) : Sound symbols (rules ++ [r]) where
  ids := h.ids
  names := h.names
  places i s hs := by
    rw [List.getElem?_append] at hs
    split at hs
    · exact h.places i s hs
    · obtain ⟨hlt, rfl⟩ := List.getElem?_eq_some_iff.mp hs
      simp only [List.length_singleton] at hlt
      simp only [List.getElem_singleton]
      omega
  distinct := by
    rw [List.map_append, List.nodup_append]
    refine ⟨h.distinct, List.nodup_singleton _, ?_⟩
    rintro a ha b hb rfl
    rw [List.map_singleton, List.mem_singleton] at hb
    obtain ⟨s, hs, hsr⟩ := List.mem_map.mp ha
    -- A rule with the same two sides counts as the same rule.
    have hsame : (r == s) = true := by
      obtain ⟨hl, hb⟩ := Prod.mk.inj (hsr.trans hb)
      exact Bool.and_eq_true_iff.mpr ⟨by rw [hl, BEq.rfl], by rw [hb, BEq.rfl]⟩
    rw [List.contains_eq_any_beq, List.any_eq_false] at hnew
    exact hnew s hs hsame
  heads s hs := by
    rcases List.mem_append.mp hs with hs | hs
    · exact h.heads s hs
    · rwa [List.mem_singleton.mp hs]
  bodies s hs := by
    rcases List.mem_append.mp hs with hs | hs
    · exact h.bodies s hs
    · rwa [List.mem_singleton.mp hs]

end Sound

/-! ### Drafts -/

namespace Draft
variable {d : Draft}

/-- The symbols and rules of a draft are as declarations make them. -/
abbrev IsSound (d : Draft) : Prop := Sound d.symbols d.rules

theorem symbol?_eq_none {name : String} (h : d.symbol? name = none) : name ∉ d.symbols.map (·.name) := by
  intro hm
  obtain ⟨x, hx, hn⟩ := List.mem_map.mp hm
  have := List.find?_eq_none.mp h x hx
  exact this (by simpa using hn)

theorem lookup_eq_ok_iff_symbol? {name : String} {x : Symbol} : d.lookup name = .ok x ↔ d.symbol? name = some x := by
  rw [lookup]
  cases d.symbol? name <;> simp

theorem lookup_eq_ok_iff (h : d.IsSound) {name : String} {x : Symbol} :
    d.lookup name = .ok x ↔ x ∈ d.symbols ∧ x.name = name :=
  lookup_eq_ok_iff_symbol?.trans h.find?_name_eq_some_iff

theorem mapM_lookup_eq_ok_iff (h : d.IsSound) {names : List String} {body : List Symbol} :
    names.mapM d.lookup = .ok body ↔ (∀ x ∈ body, x ∈ d.symbols) ∧ body.map (·.name) = names := by
  induction names generalizing body with
  | nil =>
    rw [List.mapM_nil, List.map_eq_nil_iff]
    constructor
    · intro hbody
      cases hbody
      exact ⟨nofun, rfl⟩
    · rintro ⟨-, rfl⟩
      rfl
  | cons name names ih =>
    rw [List.mapM_cons, List.map_eq_cons_iff, bind_eq_ok]
    constructor
    · rintro ⟨x, hx, hrest⟩
      obtain ⟨rest, hnames, hbody⟩ := bind_eq_ok.mp hrest
      cases hbody
      obtain ⟨hx, hname⟩ := (lookup_eq_ok_iff h).mp hx
      obtain ⟨hmem, hnames⟩ := ih.mp hnames
      exact ⟨List.forall_mem_cons.mpr ⟨hx, hmem⟩, x, rest, rfl, hname, hnames⟩
    · rintro ⟨hmem, x, rest, rfl, hname, hnames⟩
      obtain ⟨hx, hmem⟩ := List.forall_mem_cons.mp hmem
      exact ⟨x, (lookup_eq_ok_iff h).mpr ⟨hx, hname⟩, bind_eq_ok.mpr ⟨rest, ih.mpr ⟨hmem, hnames⟩, rfl⟩⟩

theorem readRule_eq_ok_iff (h : d.IsSound) {head : String} {body : List String} {r : Rule} :
    d.readRule head body = .ok r ↔ r.index = d.rules.length ∧
      (r.lhs ∈ d.symbols ∧ r.lhs.isTerminal = false) ∧ (∀ x ∈ r.rhs, x ∈ d.symbols) ∧
      r.lhs.name = head ∧ r.rhs.map (·.name) = body := by
  rw [readRule, bind_eq_ok]
  constructor
  · rintro ⟨lhs, hlhs, hrest⟩
    obtain ⟨hkind, hrest⟩ := check_eq_ok.mp hrest
    obtain ⟨rhs, hrhs, hr⟩ := bind_eq_ok.mp hrest
    cases hr
    obtain ⟨hlhs, hhead⟩ := (lookup_eq_ok_iff h).mp hlhs
    obtain ⟨hrhs, hbody⟩ := (mapM_lookup_eq_ok_iff h).mp hrhs
    exact ⟨rfl, ⟨hlhs, Bool.not_eq_true _ ▸ hkind⟩, hrhs, hhead, hbody⟩
  · rintro ⟨hplace, ⟨hlhs, hkind⟩, hrhs, hhead, hbody⟩
    obtain ⟨index, lhs, rhs⟩ := r
    obtain rfl : index = d.rules.length := hplace
    exact ⟨lhs, (lookup_eq_ok_iff h).mpr ⟨hlhs, hhead⟩,
      check_eq_ok.mpr ⟨by simp [hkind], bind_eq_ok.mpr ⟨rhs, (mapM_lookup_eq_ok_iff h).mpr ⟨hrhs, hbody⟩, rfl⟩⟩⟩

theorem IsSound.fail (h : d.IsSound) {e : Defect} : (d.fail e).IsSound := h

theorem IsSound.declareSymbol (h : d.IsSound) {kind : Symbol.Kind} {name : String} {quiet : Bool} :
    (d.declareSymbol kind name quiet).IsSound := by
  unfold Draft.declareSymbol
  split
  · rename_i hnone
    exact h.appendSymbol (symbol?_eq_none (Option.isNone_iff_eq_none.mp hnone))
  · split
    · exact h
    · exact h.fail

theorem IsSound.declareRule (h : d.IsSound) {head : String} {body : List String} {quiet : Bool} :
    (d.declareRule head body quiet).IsSound := by
  unfold Draft.declareRule
  split
  · exact h.fail
  · rename_i r hr
    obtain ⟨hplace, hhead, hbody, -⟩ := (readRule_eq_ok_iff h).mp hr
    split
    · rename_i hnew
      exact h.appendRule hplace hhead hbody (by simpa using hnew)
    · split
      · exact h
      · exact h.fail

theorem IsSound.declare (h : d.IsSound) : ∀ call : Declaration, (d.declare call).IsSound
  | .symbol _ _ _ => h.declareSymbol
  | .endMark _ => h
  | .rule _ _ _ => h.declareRule

theorem IsSound.foldl_declare (h : d.IsSound) (calls : List Declaration) : (calls.foldl Draft.declare d).IsSound := by
  induction calls generalizing d with
  | nil => exact h
  | cons call calls ih => exact ih (h.declare call)

theorem empty_isSound : empty.IsSound where
  ids := by simp [empty]
  names := List.nodup_nil
  places := by simp [empty]
  distinct := List.nodup_nil
  heads := by simp [empty]
  bodies := by simp [empty]

end Draft

/-! ### Grammars -/

/-- A grammar as declarations make it: sound, with a start symbol that has rules and an end mark that is
    a terminal. -/
structure Grammar.WellFormed (g : Grammar) : Prop extends Sound g.symbols g.rules where
  start : ∃ r ∈ g.rules, r.lhs = g.start
  eof : g.eof ∈ g.symbols ∧ g.eof.isTerminal = true

namespace Grammar

theorem wellFormed_of_ofDeclarations {calls : List Declaration} {start : String} {g : Grammar}
    (h : Grammar.ofDeclarations calls start = .ok g) : g.WellFormed := by
  have hd := Draft.empty_isSound.foldl_declare calls
  unfold Grammar.ofDeclarations Draft.grammar at h
  generalize calls.foldl Draft.declare .empty = d at h hd
  have hd : (d.declareSymbol .terminal d.endName true).IsSound := hd.declareSymbol
  generalize d.declareSymbol .terminal d.endName true = closed at h hd
  cases hdef : d.defect with
  | some e =>
    rw [hdef] at h
    cases h
  | none =>
    simp only [hdef] at h
    obtain ⟨eof, heof, h⟩ := bind_eq_ok.mp h
    obtain ⟨hterm, h⟩ := check_eq_ok.mp h
    obtain ⟨start, hstart, h⟩ := bind_eq_ok.mp h
    obtain ⟨hrule, h⟩ := check_eq_ok.mp h
    cases h
    obtain ⟨heof, -⟩ := (Draft.lookup_eq_ok_iff hd).mp heof
    obtain ⟨hstart, -⟩ := (Draft.lookup_eq_ok_iff hd).mp hstart
    refine ⟨hd, ?_, heof, by simpa using hterm⟩
    obtain ⟨r, hr, hrs⟩ := List.any_eq_true.mp (by simpa using hrule)
    exact ⟨r, hr, hd.eq_of_id_eq (hd.heads r hr).1 hstart (Symbol.beq_iff_id_eq.mp hrs)⟩

/-- The start symbol has a rule, so it is a nonterminal. -/
theorem WellFormed.start_nonterminal {g : Grammar} (h : g.WellFormed) :
    g.start ∈ g.symbols ∧ g.start.isTerminal = false := by
  obtain ⟨r, hr, hs⟩ := h.start
  exact hs ▸ h.heads r hr

/-- The grammars that declarations make are well formed. Symbols and rules are numbered by their places, every name
    finds its one symbol, no rule comes twice, every symbol of a rule is the one of its number, the start symbol is a
    nonterminal with a rule, and the end mark is a terminal. -/
theorem declared_wellFormed {calls : List Declaration} {start : String} {g : Grammar}
    (h : Grammar.ofDeclarations calls start = .ok g) :
    (∀ (i : Nat) (x : Symbol), g.symbols[i]? = some x → x.id = i) ∧
    g.symbols.Pairwise (fun x y => x.name ≠ y.name) ∧
    (∀ name x, g.symbol? name = some x ↔ x ∈ g.symbols ∧ x.name = name) ∧
    (∀ (i : Nat) (r : Rule), g.rules[i]? = some r → r.index = i) ∧
    g.rules.Pairwise (fun r s => (r == s) = false) ∧
    (∀ r ∈ g.rules, r.lhs.isTerminal = false ∧ ∀ x ∈ r.lhs :: r.rhs, g.symbols[x.id]? = some x) ∧
    (g.start.isTerminal = false ∧ g.symbols[g.start.id]? = some g.start ∧ ∃ r ∈ g.rules, r.lhs = g.start) ∧
    g.eof.isTerminal = true ∧ g.symbols[g.eof.id]? = some g.eof := by
  have hg := wellFormed_of_ofDeclarations h
  obtain ⟨hstart, hnonterminal⟩ := hg.start_nonterminal
  refine ⟨hg.ids, List.pairwise_map.mp hg.names, fun name x => hg.find?_name_eq_some_iff, hg.places, hg.pairwise_rules,
    fun r hr => ⟨(hg.heads r hr).2, fun x hx => hg.getElem?_id ?_⟩,
    ⟨hnonterminal, hg.getElem?_id hstart, hg.start⟩, hg.eof.2, hg.getElem?_id hg.eof.1⟩
  rcases List.mem_cons.mp hx with rfl | hx
  · exact (hg.heads r hr).1
  · exact hg.bodies r hr x hx

/-- Quiet declarations that repeat a name, with the other kind, and a rule, and an end mark that is declared already. -/
def quietCalls : List Declaration :=
  [.symbol .nonterminal "S" false, .symbol .terminal "S" true, .symbol .terminal "end" false,
    .rule "S" ["end", "S"] false, .rule "S" [] false, .rule "S" [] true, .endMark "end"]

theorem declared_wellFormed_quiet : ∃ g, Grammar.ofDeclarations quietCalls "S" = .ok g ∧
    g.symbols.Pairwise (fun x y => x.name ≠ y.name) ∧ g.rules.Pairwise (fun r s => (r == s) = false) ∧
    g.eof.isTerminal = true := by
  obtain ⟨g, hg⟩ : ∃ g, Grammar.ofDeclarations quietCalls "S" = .ok g := ⟨_, rfl⟩
  obtain ⟨-, hnames, -, -, hrules, -, -, heof, -⟩ := declared_wellFormed hg
  exact ⟨g, hg, hnames, hrules, heof⟩

theorem mem_terminals {g : Grammar} {x : Symbol} : x ∈ g.terminals ↔ x ∈ g.symbols ∧ x.isTerminal = true := by
  simp [terminals]

theorem mem_nonterminals {g : Grammar} {x : Symbol} :
    x ∈ g.nonterminals ↔ x ∈ g.symbols ∧ x.isTerminal = false := by
  simp [nonterminals]

end Grammar

/-! ### A grammar of sums -/

namespace Sums

def sum : Symbol := ⟨0, .nonterminal, "Sum"⟩

def more : Symbol := ⟨1, .nonterminal, "More"⟩

def loop : Symbol := ⟨2, .nonterminal, "Loop"⟩

def number : Symbol := ⟨3, .terminal, "n"⟩

def plus : Symbol := ⟨4, .terminal, "+"⟩

def dollar : Symbol := ⟨5, .terminal, "$"⟩

/-- A number and more of them, each behind a sign. What a loop derives never ends, and nothing needs it. -/
def grammar : Grammar where
  start := sum
  eof := dollar
  symbols := [sum, more, loop, number, plus, dollar]
  rules := [⟨0, sum, [number, more]⟩, ⟨1, more, [plus, number, more]⟩, ⟨2, more, []⟩, ⟨3, loop, [loop]⟩]

def calls : List Declaration :=
  [.symbol .nonterminal "Sum" false, .symbol .nonterminal "More" false, .symbol .nonterminal "Loop" false,
    .symbol .terminal "n" false, .symbol .terminal "+" false, .rule "Sum" ["n", "More"] false,
    .rule "More" ["+", "n", "More"] false, .rule "More" [] false, .rule "Loop" ["Loop"] false]

theorem ofDeclarations_calls : Grammar.ofDeclarations calls "Sum" = .ok grammar := by rfl

end Sums

end Calcbook
