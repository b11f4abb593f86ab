import Calcbook.Formula.Rules
import Calcbook.Proofs.Lexeme.Written
import Calcbook.Proofs.Parsing.Acceptance

/-! Parsing texts. A lexeme stands for a terminal of the grammar other than the end mark, or for no symbol at all,
    whatever the symbols are called. So a parser that accepts a text has not met an end mark before the last
    lexeme, and the leaves of its tree are all the lexemes. -/

namespace Calcbook

variable {g : Grammar}

/-! ### The terminals of lexemes -/

theorem Grammar.terminalOf_cases (g : Grammar) (name : String) : g.terminalOf name = noTerminal ∨
    ∃ x ∈ g.terminals, x.id ≠ g.eof.id ∧ g.terminalOf name = x.id := by
  rw [terminalOf]
  cases hx : g.symbol? name with
  | none => exact Or.inl rfl
  | some x =>
    dsimp only
    split
    · rename_i h
      obtain ⟨hterminal, hne⟩ := Bool.and_eq_true_iff.mp h
      have heof : x.id ≠ g.eof.id := by
        intro hid
        simp [Symbol.beq_iff_id_eq.mpr hid, bne] at hne
      exact Or.inr ⟨x, mem_terminals.mpr ⟨List.mem_of_find?_eq_some hx, hterminal⟩, heof, rfl⟩
    · exact Or.inl rfl

/-- As the numbers of symbols are words, the last word numbers none when the symbols are no more than that. -/
theorem Sound.id_ne_noTerminal {symbols : List Symbol} {rules : List Rule} (h : Sound symbols rules)
    (hsize : symbols.length ≤ Word.last) {x : Symbol} (hx : x ∈ symbols) : x.id ≠ noTerminal := by
  obtain ⟨i, hi⟩ := List.mem_iff_getElem?.mp hx
  have hlt : i < symbols.length := (List.getElem?_eq_some_iff.mp hi).1
  rw [h.ids i x hi]
  exact Nat.ne_of_lt (Nat.lt_of_lt_of_le hlt hsize)

namespace Lexeme

theorem terminal_cases (g : Grammar) (l : Lexeme) : l.terminal g = noTerminal ∨
    ∃ x ∈ g.terminals, x.id ≠ g.eof.id ∧ l.terminal g = x.id := by
  rw [terminal]
  cases l.kind with
  | unknown => exact Or.inl rfl
  | number => exact g.terminalOf_cases "num"
  | ident => exact g.terminalOf_cases "ident"
  | operator | openParen | closeParen | comma => exact g.terminalOf_cases l.text

theorem terminal_ne_eof (hg : g.WellFormed) (hsize : g.symbols.length ≤ Word.last) (l : Lexeme) :
    l.terminal g ≠ g.eof.id := by
  rcases l.terminal_cases g with h | ⟨x, -, hne, h⟩ <;> rw [h]
  · exact (hg.id_ne_noTerminal hsize hg.eof.1).symm
  · exact hne

theorem terminal_ne_nonterminal (hg : g.WellFormed) (hsize : g.symbols.length ≤ Word.last) (l : Lexeme) {y : Symbol}
    (hy : y ∈ g.nonterminals) : l.terminal g ≠ y.id := by
  obtain ⟨hy, hkind⟩ := Grammar.mem_nonterminals.mp hy
  rcases l.terminal_cases g with h | ⟨x, hx, -, h⟩ <;> rw [h]
  · exact (hg.id_ne_noTerminal hsize hy).symm
  · obtain ⟨hx, hterminal⟩ := Grammar.mem_terminals.mp hx
    intro hid
    rw [hg.eq_of_id_eq hx hy hid, hkind] at hterminal
    cases hterminal

end Lexeme

/-! ### Accepted texts -/

namespace Parser

/-- A text is accepted exactly when there is a derivation tree over all its lexemes. -/
theorem parse_tokensOf_eq_ok_iff {t : ParseTable} {f : Grammar.Family} (hc : t.Chooses g f)
    (hsize : g.symbols.length ≤ Word.last) {text : String} {tree : Tree} :
    ((ofTable t).parse (g.tokensOf text)).1 = .ok tree ↔
      tree.ValidFor g ∧ tree.symbol = g.start ∧ tree.leaves = g.tokensOf text := by
  refine parse_eq_ok_iff hc fun token htoken => ?_
  obtain ⟨l, -, rfl⟩ := List.mem_map.mp htoken
  exact l.terminal_ne_eof hc.wellFormed hsize

/-- No lexeme of a text stands for the end mark or a nonterminal, and when a parser accepts the text, the leaves of
    the tree are all its lexemes. The bound is that of the numbers of symbols, which are words. -/
theorem parse_keeps_text {calls : List Declaration} {start : String} {p : Parser}
    (hg : Grammar.ofDeclarations calls start = .ok g) (ht : ParseTable.ofGrammar g = .ok p.table)
    (hsize : g.symbols.length ≤ Word.last) (text : String) :
    (∀ l ∈ Lexeme.ofText text, l.terminal g ≠ g.eof.id ∧ ∀ x ∈ g.nonterminals, l.terminal g ≠ x.id) ∧
      ∀ tree, (p.parse (g.tokensOf text)).1 = .ok tree →
        tree.leaves.map (fun token => (token.lexeme, token.offset)) =
          (Lexeme.ofText text).map fun l => (l.text, l.offset) := by
  have hwell := Grammar.wellFormed_of_ofDeclarations hg
  obtain ⟨f, hc⟩ := ParseTable.chooses_of_ofGrammar hwell ht
  refine ⟨fun l _ => ⟨l.terminal_ne_eof hwell hsize, fun x hx => l.terminal_ne_nonterminal hwell hsize hx⟩, ?_⟩
  intro tree hok
  -- A parse begins by making the parser as new.
  have hnew : ((ofTable p.table).parse (g.tokensOf text)).1 = .ok tree := hok
  obtain ⟨-, -, hleaves⟩ := (parse_tokensOf_eq_ok_iff hc hsize).mp hnew
  rw [hleaves, Grammar.tokensOf, List.map_map]
  rfl

end Parser

/-! ### A grammar with names that lexemes could be taken for -/

namespace Roll

def names : Symbol := ⟨0, .nonterminal, "Names"⟩

def plus : Symbol := ⟨1, .nonterminal, "+"⟩

def ident : Symbol := ⟨2, .terminal, "ident"⟩

def num : Symbol := ⟨3, .terminal, "num"⟩

/-- A list of names. The end mark is called as numbers are and comes up in a rule, and a sign is a nonterminal. -/
def grammar : Grammar where
  start := names
  eof := num
  symbols := [names, plus, ident, num]
  rules := [⟨0, names, [ident, names]⟩, ⟨1, names, []⟩, ⟨2, plus, [num]⟩]

def calls : List Declaration :=
  [.symbol .nonterminal "Names" false, .symbol .nonterminal "+" false, .symbol .terminal "ident" false,
    .endMark "num", .symbol .terminal "num" false, .rule "Names" ["ident", "Names"] false, .rule "Names" [] false,
    .rule "+" ["num"] false]

theorem ofDeclarations_calls : Grammar.ofDeclarations calls "Names" = .ok grammar := by rfl

def table : ParseTable where
  grammar := grammar
  choices := [((1, 3), ⟨2, plus, [num]⟩), ((0, 3), ⟨1, names, []⟩), ((0, 2), ⟨0, names, [ident, names]⟩)]

theorem ofGrammar_grammar : ParseTable.ofGrammar grammar = .ok table := by rfl

end Roll

theorem Parser.parse_keeps_text_roll : ∃ tree,
    ((Parser.ofTable Roll.table).parse (Roll.grammar.tokensOf "a bc")).1 = .ok tree ∧
      tree.leaves.map (fun token => (token.lexeme, token.offset)) = [("a", 0), ("bc", 2)] := by
  have hlexemes : Lexeme.ofText "a bc" = [⟨.ident, "a", 0⟩, ⟨.ident, "bc", 2⟩] := by
    rw [Lexeme.ofText_eq_cutAll, show "a bc".toList = ['a'] ++ ' ' :: (['b', 'c'] ++ []) by decide,
      Lexeme.cutAll_identifier (by decide) (Lexeme.stops_cons (by decide) (by decide)), Lexeme.cutAll_blank (by decide),
      Lexeme.cutAll_identifier (by decide) Lexeme.stops_nil, Lexeme.cutAll_nil]
    rfl
  have hparse : ∃ tree, ((Parser.ofTable Roll.table).parse (Roll.grammar.tokensOf "a bc")).1 = .ok tree := by
    rw [Grammar.tokensOf, hlexemes]
    exact ⟨_, rfl⟩
  obtain ⟨tree, hparse⟩ := hparse
  have hleaves := (Parser.parse_keeps_text (p := .ofTable Roll.table) Roll.ofDeclarations_calls Roll.ofGrammar_grammar
    (by decide) "a bc").2 tree hparse
  rw [hlexemes] at hleaves
  exact ⟨tree, hparse, hleaves⟩

end Calcbook
