import Calcbook.Proofs.Formula.Phrase
import Calcbook.Proofs.Formula.Terminals
import Calcbook.Proofs.Parsing.Texts
import Calcbook.Proofs.Parsing.Fold

/-! The trees of phrases. Lexemes that spell a phrase are the leaves of a derivation tree of its nonterminal, which
    folds to the meaning of the phrase, and every derivation tree over lexemes of a text comes from a phrase
    that they spell. As no two trees have the same leaves, a text is read as what its lexemes spell. -/

namespace Calcbook.Formula

/-! ### Nonterminals and values of phrases -/

def Chain.symbol : Chain → Symbol
  | sum => Sym.sum
  | product => Sym.product

def Chain.operandSymbol : Chain → Symbol
  | sum => Sym.product
  | product => Sym.factor

def Chain.tailSymbol : Chain → Symbol
  | sum => Sym.sumTail
  | product => Sym.productTail

namespace Phrase

def symbol : Phrase → Symbol
  | chain c _ => c.symbol
  | links c _ _ => c.tailSymbol
  | factor _ => Sym.factor
  | power _ => Sym.power
  | exponent _ _ => Sym.powerTail
  | atom _ => Sym.atom
  | behind _ _ => Sym.nameTail
  | args _ => Sym.args
  | moreArgs _ => Sym.argsTail

/-- Whether a piece is what the tree of a phrase folds to. The piece of what is behind something is handed to the
    action of the rule that puts the two together. -/
def IsValue (v : Piece) : Phrase → Prop
  | chain _ f | factor f | power f | atom f => v = .formula f
  | links _ first f => applyChain [.formula first, v] = .ok (.formula f)
  | exponent base f => Formula.power [.formula base, v] = .ok (.formula f)
  | behind name f => identifier [.lexeme name, v] = .ok (.formula f)
  | args fs | moreArgs fs => v = .args fs

theorem symbol_operand (c : Chain) (f : Formula) : (c.operand f).symbol = c.operandSymbol := by
  cases c <;> rfl

theorem isValue_operand {v : Piece} {c : Chain} {f : Formula} : IsValue v (c.operand f) ↔ v = .formula f := by
  cases c <;> rfl

end Phrase

/-- The lexemes that are operators of a chain, with the rule for each of them. -/
theorem Chain.exists_rule {c : Chain} {op : Lexeme} {head : String} (h : c.head? op = some head) :
    ∃ s ∈ marks, ∃ r ∈ language.rules, op.isMark s.name = true ∧ r.lhs = c.tailSymbol ∧
      r.rhs = [s, c.operandSymbol, c.tailSymbol] ∧ folder.action? r.text = some chainCons ∧
      chainHead op.text = .ok head := by
  obtain ⟨hmark, hmem⟩ := Chain.mem_operators h
  have hrule {s : Symbol} {r : Rule} (i : Nat) (hs : s ∈ marks) (htext : op.text = s.name)
      (hr : language.rules[i]? = some r) (hlhs : r.lhs = c.tailSymbol)
      (hrhs : r.rhs = [s, c.operandSymbol, c.tailSymbol]) (hact : folder.action? r.text = some chainCons)
      (hhead : chainHead s.name = .ok head) : ∃ s ∈ marks, ∃ r ∈ language.rules, op.isMark s.name = true ∧
        r.lhs = c.tailSymbol ∧ r.rhs = [s, c.operandSymbol, c.tailSymbol] ∧
        folder.action? r.text = some chainCons ∧ chainHead op.text = .ok head :=
    ⟨s, hs, r, List.mem_of_getElem? hr, htext ▸ hmark, hlhs, hrhs, hact, htext ▸ hhead⟩
  cases c <;> simp only [operators, List.mem_cons, List.not_mem_nil, or_false, Prod.mk.injEq] at hmem
  · rcases hmem with ⟨htext, rfl⟩ | ⟨htext, rfl⟩
    · exact hrule (s := Sym.plus) 2 (by simp [marks]) htext rfl rfl rfl rfl rfl
    · exact hrule (s := Sym.minus) 3 (by simp [marks]) htext rfl rfl rfl rfl rfl
  · rcases hmem with ⟨htext, rfl⟩ | ⟨htext, rfl⟩ | ⟨htext, rfl⟩
    · exact hrule (s := Sym.times) 6 (by simp [marks]) htext rfl rfl rfl rfl rfl
    · exact hrule (s := Sym.divide) 7 (by simp [marks]) htext rfl rfl rfl rfl rfl
    · exact hrule (s := Sym.mod) 8 (by simp [marks]) htext rfl rfl rfl rfl rfl

theorem applyChain_cons {op head : String} (hop : chainHead op = .ok head) (first next : Formula)
    (links : List (String × Formula)) : applyChain [.formula first, .chain ((op, next) :: links)] =
      applyChain [.formula (.call head [first, next]), .chain links] := by
  simp only [applyChain, List.foldlM_cons, hop]
  rfl

theorem exists_chain {v : Piece} {first f : Formula} (h : applyChain [.formula first, v] = .ok (.formula f)) :
    ∃ links, v = .chain links := by
  cases v with
  | chain links => exact ⟨links, rfl⟩
  | _ => cases h

/-! ### From phrases to trees -/

/-- A derivation tree of a symbol over some lexemes, with its depth and the piece it folds to. -/
structure TreeOf (s : Symbol) (ls : List Lexeme) (d : Nat) (v : Piece) (t : Tree) : Prop where
  valid : t.ValidFor language
  symbol : t.symbol = s
  leaves : t.leaves = ls.map (·.token language)
  depth : t.depth = d
  value : folder.value t = .ok v

/-- Derivation trees of the symbols of a right side. -/
structure TreesOf (ss : List Symbol) (ls : List Lexeme) (d : Nat) (vs : List Piece) (ts : List Tree) : Prop where
  valid : ∀ t ∈ ts, t.ValidFor language
  symbols : ts.map Tree.symbol = ss
  leaves : ts.flatMap Tree.leaves = ls.map (·.token language)
  deepest : Tree.deepest ts = d
  values : folder.values ts = .ok vs

theorem treesOf_nil : TreesOf [] [] 0 [] [] :=
  ⟨by simp, rfl, rfl, rfl, rfl⟩

variable {s : Symbol} {ss : List Symbol} {ls ms : List Lexeme} {d e : Nat} {v : Piece} {vs : List Piece} {t : Tree} {ts : List Tree}

theorem TreeOf.cons (h : TreeOf s ls d v t) (hs : TreesOf ss ms e vs ts) :
    TreesOf (s :: ss) (ls ++ ms) (max d e) (v :: vs) (t :: ts) where
  valid := List.forall_mem_cons.mpr ⟨h.valid, hs.valid⟩
  symbols := by rw [List.map_cons, h.symbol, hs.symbols]
  leaves := by rw [List.flatMap_cons, h.leaves, hs.leaves, List.map_append]
  deepest := by rw [Tree.deepest, h.depth, hs.deepest]
  values := by rw [Folder.values, h.value, hs.values]; rfl

theorem TreeOf.single (h : TreeOf s ls d v t) : TreesOf [s] ls d [v] [t] := by
  simpa using h.cons treesOf_nil

theorem treeOf_leaf {l : Lexeme} (hs : s ∈ language.terminals) (hl : l.terminal language = s.id) :
    TreeOf s [l] 1 (.lexeme l.text) (.leaf s (l.token language)) where
  valid := .leaf hs hl
  symbol := rfl
  leaves := Tree.leaves_leaf _ _
  depth := Tree.depth_leaf _ _
  value := rfl

theorem mem_marks : Sym.minus ∈ marks ∧ Sym.caret ∈ marks ∧ Sym.openParen ∈ marks ∧ Sym.closeParen ∈ marks ∧
    Sym.comma ∈ marks := by
  simp [marks]

theorem mem_terminals_of_mem_marks (hs : s ∈ marks) : s ∈ language.terminals := by
  have hplace : s ∈ (language.symbols.drop 12).take 9 := hs
  have hkind : ∀ s ∈ marks, s.isTerminal = true := by decide
  exact Grammar.mem_terminals.mpr ⟨List.mem_of_mem_drop (List.mem_of_mem_take hplace), hkind s hs⟩

theorem treeOf_mark {l : Lexeme} (hs : s ∈ marks) (hl : l.isMark s.name = true) :
    TreeOf s [l] 1 (.lexeme l.text) (.leaf s (l.token language)) :=
  treeOf_leaf (mem_terminals_of_mem_marks hs) (terminal_of_mark hs hl)

/-- A rule puts the trees of its right side below a node, and its action makes the piece of theirs. -/
theorem TreesOf.node {r : Rule} {act : Action Piece} (h : TreesOf r.rhs ls d vs ts) (hr : r ∈ language.rules)
    (hact : folder.action? r.text = some act) (hv : act vs = .ok v) : TreeOf r.lhs ls (d + 1) v (.node r ts) where
  valid := .node hr h.symbols h.valid
  symbol := rfl
  leaves := by rw [Tree.leaves_node, h.leaves]
  depth := by rw [Tree.depth_node, h.deepest]
  value := by
    rw [Folder.value, hact]
    dsimp only
    rw [h.values]
    show (act vs).mapError _ = _
    rw [hv]
    rfl

theorem TreesOf.rule {r : Rule} {act : Action Piece} (i : Nat) (h : TreesOf r.rhs ls d vs ts)
    (hr : language.rules[i]? = some r) (hact : folder.action? r.text = some act) (hv : act vs = .ok v) :
    ∃ t, TreeOf r.lhs ls (d + 1) v t :=
  ⟨_, h.node (List.mem_of_getElem? hr) hact hv⟩

/-- Lexemes that spell a phrase are the leaves of a tree that folds to its meaning. -/
theorem Phrase.Spelled.exists_tree {p : Phrase} (h : p.Spelled ls d) :
    ∃ v, p.IsValue v ∧ ∃ t, TreeOf p.symbol ls d v t := by
  obtain ⟨hminus, hcaret, hopenParen, hcloseParen, hcommaMark⟩ := mem_marks
  induction h with
  | @chain c _ _ _ _ _ _ _ _ ihfirst ihlinks =>
    obtain ⟨v, hv, t, ht⟩ := ihfirst
    obtain ⟨w, hw, u, hu⟩ := ihlinks
    obtain rfl := isValue_operand.mp hv
    rw [symbol_operand] at ht
    cases c with
    | sum => exact ⟨_, rfl, (ht.cons hu.single).rule (r := ⟨1, _, _⟩) 1 rfl rfl hw⟩
    | product => exact ⟨_, rfl, (ht.cons hu.single).rule (r := ⟨5, _, _⟩) 5 rfl rfl hw⟩
  | @link c _ _ first next _ _ _ _ _ hop _ _ ihnext ihlinks =>
    obtain ⟨v, hv, t, ht⟩ := ihnext
    obtain ⟨w, hw, u, hu⟩ := ihlinks
    obtain rfl := isValue_operand.mp hv
    obtain ⟨links, rfl⟩ := exists_chain hw
    obtain ⟨s, hs, r, hr, hmark, hlhs, hrhs, hact, hhead⟩ := Chain.exists_rule hop
    rw [symbol_operand] at ht
    have hts := (treeOf_mark hs hmark).cons (ht.cons hu.single)
    have hnode := TreesOf.node (hrhs ▸ hts) hr hact rfl
    rw [hlhs] at hnode
    exact ⟨_, (applyChain_cons hhead first next links).trans hw, _, hnode⟩
  | @noLink c _ =>
    cases c with
    | sum => exact ⟨.chain [], rfl, treesOf_nil.rule (r := ⟨4, _, []⟩) 4 rfl rfl rfl⟩
    | product => exact ⟨.chain [], rfl, treesOf_nil.rule (r := ⟨9, _, []⟩) 9 rfl rfl rfl⟩
  | negation hop _ ih =>
    obtain ⟨v, rfl, t, ht⟩ := ih
    exact ⟨_, rfl, ((treeOf_mark hminus hop).cons ht.single).rule (r := ⟨10, _, _⟩) 10 rfl rfl rfl⟩
  | factor _ ih =>
    obtain ⟨v, rfl, t, ht⟩ := ih
    exact ⟨_, rfl, ht.single.rule (r := ⟨11, _, _⟩) 11 rfl rfl rfl⟩
  | power _ _ ihbase ihexponent =>
    obtain ⟨v, rfl, t, ht⟩ := ihbase
    obtain ⟨w, hw, u, hu⟩ := ihexponent
    exact ⟨_, rfl, (ht.cons hu.single).rule (r := ⟨12, _, _⟩) 12 rfl rfl hw⟩
  | exponent hop _ ih =>
    obtain ⟨v, rfl, t, ht⟩ := ih
    exact ⟨.formula _, rfl, ((treeOf_mark hcaret hop).cons ht.single).rule (r := ⟨13, _, _⟩) 13 rfl rfl rfl⟩
  | noExponent => exact ⟨.nothing, rfl, treesOf_nil.rule (r := ⟨14, _, []⟩) 14 rfl rfl rfl⟩
  | number hkind hread =>
    have hleaf := treeOf_leaf (s := Sym.number) (Grammar.mem_terminals.mpr ⟨by simp [language], rfl⟩) (terminal_of_number hkind)
    exact ⟨_, rfl, hleaf.single.rule (r := ⟨15, _, _⟩) 15 rfl rfl (by rw [numeral, hread])⟩
  | brackets hopen _ hclose ih =>
    obtain ⟨v, rfl, t, ht⟩ := ih
    have hts := (treeOf_mark hopenParen hopen).cons (ht.cons (treeOf_mark hcloseParen hclose).single)
    exact ⟨_, rfl, hts.rule (r := ⟨16, _, _⟩) 16 rfl rfl rfl⟩
  | name hkind _ ih =>
    obtain ⟨v, hv, t, ht⟩ := ih
    have hleaf := treeOf_leaf (s := Sym.ident) (Grammar.mem_terminals.mpr ⟨by simp [language], rfl⟩) (terminal_of_ident hkind)
    exact ⟨_, rfl, (hleaf.cons ht.single).rule (r := ⟨17, _, _⟩) 17 rfl rfl hv⟩
  | call hopen _ hclose ih =>
    obtain ⟨v, rfl, t, ht⟩ := ih
    have hts := (treeOf_mark hopenParen hopen).cons (ht.cons (treeOf_mark hcloseParen hclose).single)
    exact ⟨.args _, rfl, hts.rule (r := ⟨18, _, _⟩) 18 rfl rfl rfl⟩
  | symbol => exact ⟨.nothing, rfl, treesOf_nil.rule (r := ⟨19, _, []⟩) 19 rfl rfl rfl⟩
  | args _ _ ihsum ihmore =>
    obtain ⟨v, rfl, t, ht⟩ := ihsum
    obtain ⟨w, rfl, u, hu⟩ := ihmore
    exact ⟨_, rfl, (ht.cons hu.single).rule (r := ⟨20, _, _⟩) 20 rfl rfl rfl⟩
  | noArgs => exact ⟨_, rfl, treesOf_nil.rule (r := ⟨21, _, []⟩) 21 rfl rfl rfl⟩
  | moreArgs hcomma _ _ ihsum ihmore =>
    obtain ⟨v, rfl, t, ht⟩ := ihsum
    obtain ⟨w, rfl, u, hu⟩ := ihmore
    exact ⟨_, rfl, ((treeOf_mark hcommaMark hcomma).cons (ht.cons hu.single)).rule (r := ⟨22, _, _⟩) 22 rfl rfl rfl⟩
  | noMoreArgs => exact ⟨_, rfl, treesOf_nil.rule (r := ⟨23, _, []⟩) 23 rfl rfl rfl⟩

/-! ### From trees to phrases -/

/-- What the lexemes below a symbol are: for a nonterminal they spell a phrase, whatever it stands behind, and for a
    terminal they are one lexeme of it. -/
def Readable (ls : List Lexeme) (d : Nat) (s : Symbol) : Prop :=
  match s.id with
  | 0 => ∃ f e, (Phrase.chain .sum f).Spelled ls e ∧ d = e + 1
  | 1 => ∃ f, (Phrase.chain .sum f).Spelled ls d
  | 2 => ∀ first, ∃ f, (Phrase.links .sum first f).Spelled ls d
  | 3 => ∃ f, (Phrase.chain .product f).Spelled ls d
  | 4 => ∀ first, ∃ f, (Phrase.links .product first f).Spelled ls d
  | 5 => ∃ f, (Phrase.factor f).Spelled ls d
  | 6 => ∃ f, (Phrase.power f).Spelled ls d
  | 7 => ∀ base, ∃ f, (Phrase.exponent base f).Spelled ls d
  | 8 => ∃ f, (Phrase.atom f).Spelled ls d
  | 9 => ∀ name, ∃ f, (Phrase.behind name f).Spelled ls d
  | 10 => ∃ fs, (Phrase.args fs).Spelled ls d
  | 11 => ∃ fs, (Phrase.moreArgs fs).Spelled ls d
  | _ => ∃ l : Lexeme, l.Regular ∧ l.terminal language = s.id ∧ ls = [l] ∧ d = 1

/-- The lexemes below the symbols of a right side. -/
inductive ReadableAll : List Symbol → List Lexeme → Nat → Prop
  | nil : ReadableAll [] [] 0
  | cons {s : Symbol} {ss : List Symbol} {ls ms : List Lexeme} {d e : Nat} (h : Readable ls d s)
      (hs : ReadableAll ss ms e) : ReadableAll (s :: ss) (ls ++ ms) (max d e)

theorem readable_symbol {c : Chain} : Readable ls d c.symbol ↔ ∃ f, (Phrase.chain c f).Spelled ls d := by
  cases c <;> rfl

theorem readable_operandSymbol {c : Chain} : Readable ls d c.operandSymbol ↔ ∃ f, (c.operand f).Spelled ls d := by
  cases c <;> rfl

theorem readable_tailSymbol {c : Chain} :
    Readable ls d c.tailSymbol ↔ ∀ first, ∃ f, (Phrase.links c first f).Spelled ls d := by
  cases c <;> rfl

theorem readable_mark (hs : s ∈ marks) (h : Readable ls d s) : ∃ l, l.isMark s.name = true ∧ ls = [l] ∧ d = 1 := by
  have hread : ∃ l : Lexeme, l.Regular ∧ l.terminal language = s.id ∧ ls = [l] ∧ d = 1 := by
    simp only [marks, List.mem_cons, List.not_mem_nil, or_false] at hs
    rcases hs with rfl | rfl | rfl | rfl | rfl | rfl | rfl | rfl | rfl <;> exact h
  obtain ⟨l, hl, hterminal, hls, hd⟩ := hread
  exact ⟨l, isMark_of_terminal hl hs hterminal, hls, hd⟩

theorem ReadableAll.cons_cases (h : ReadableAll (s :: ss) ls d) : ∃ ls₁ ls₂ d₁ d₂, Readable ls₁ d₁ s ∧
    ReadableAll ss ls₂ d₂ ∧ ls = ls₁ ++ ls₂ ∧ d = max d₁ d₂ := by
  cases h with
  | cons h hs => exact ⟨_, _, _, _, h, hs, rfl, rfl⟩

theorem ReadableAll.single_cases (h : ReadableAll [s] ls d) : Readable ls d s := by
  obtain ⟨ls₁, ls₂, d₁, d₂, h, hnil, rfl, rfl⟩ := h.cons_cases
  cases hnil
  rwa [List.append_nil, Nat.max_zero]

theorem ReadableAll.mark_cases (hs : s ∈ marks) (h : ReadableAll (s :: ss) ls d) : ∃ l ms e, l.isMark s.name = true ∧
    ReadableAll ss ms e ∧ ls = l :: ms ∧ d = max 1 e := by
  obtain ⟨ls₁, ls₂, d₁, d₂, hmark, hss, rfl, rfl⟩ := h.cons_cases
  obtain ⟨l, hl, rfl, rfl⟩ := readable_mark hs hmark
  exact ⟨l, ls₂, d₂, hl, hss, rfl, rfl⟩

theorem readable_chain {c : Chain} (h : ReadableAll [c.operandSymbol, c.tailSymbol] ls d) : Readable ls (d + 1) c.symbol := by
  obtain ⟨ls₁, ls₂, d₁, d₂, hoperand, htail, rfl, rfl⟩ := h.cons_cases
  obtain ⟨first, hfirst⟩ := readable_operandSymbol.mp hoperand
  obtain ⟨f, hlinks⟩ := readable_tailSymbol.mp htail.single_cases first
  exact readable_symbol.mpr ⟨f, .chain hfirst hlinks⟩

theorem readable_link {c : Chain} {head : String} (hs : s ∈ marks) (hop : c.operators.lookup s.name = some head)
    (h : ReadableAll [s, c.operandSymbol, c.tailSymbol] ls d) : Readable ls (d + 1) c.tailSymbol := by
  obtain ⟨op, ms, e, hmark, hrest, rfl, rfl⟩ := h.mark_cases hs
  obtain ⟨ls₁, ls₂, d₁, d₂, hoperand, htail, rfl, rfl⟩ := hrest.cons_cases
  obtain ⟨next, hnext⟩ := readable_operandSymbol.mp hoperand
  refine readable_tailSymbol.mpr fun first => ?_
  obtain ⟨f, hlinks⟩ := readable_tailSymbol.mp htail.single_cases (.call head [first, next])
  exact ⟨f, .link (Chain.head?_of_isMark hmark hop) hnext hlinks⟩

theorem readable_of_rule {r : Rule} (hr : r ∈ language.rules) (h : ReadableAll r.rhs ls d) : Readable ls (d + 1) r.lhs := by
  obtain ⟨hminus, hcaret, hopenParen, hcloseParen, hcomma⟩ := mem_marks
  simp only [language, List.mem_cons, List.not_mem_nil, or_false] at hr
  rcases hr with rfl | rfl | rfl | rfl | rfl | rfl | rfl | rfl | rfl | rfl | rfl | rfl | rfl | rfl | rfl | rfl | rfl |
    rfl | rfl | rfl | rfl | rfl | rfl | rfl
  -- The whole formula.
  · obtain ⟨f, hsum⟩ := h.single_cases
    exact ⟨f, d, hsum, rfl⟩
  -- Sums and products, with the operators behind their first operands.
  · exact readable_chain (c := .sum) h
  · exact readable_link (c := .sum) (s := Sym.plus) (by simp [marks]) rfl h
  · exact readable_link (c := .sum) (s := Sym.minus) (by simp [marks]) rfl h
  · cases h
    exact fun first => ⟨first, .noLink⟩
  · exact readable_chain (c := .product) h
  · exact readable_link (c := .product) (s := Sym.times) (by simp [marks]) rfl h
  · exact readable_link (c := .product) (s := Sym.divide) (by simp [marks]) rfl h
  · exact readable_link (c := .product) (s := Sym.mod) (by simp [marks]) rfl h
  · cases h
    exact fun first => ⟨first, .noLink⟩
  -- Factors, with the exponents behind their atoms.
  · obtain ⟨op, ms, e, hmark, hrest, rfl, rfl⟩ := h.mark_cases hminus
    obtain ⟨f, hfactor⟩ := hrest.single_cases
    exact ⟨_, .negation hmark hfactor⟩
  · obtain ⟨f, hpower⟩ := h.single_cases
    exact ⟨f, .factor hpower⟩
  · obtain ⟨ls₁, ls₂, d₁, d₂, ⟨base, hbase⟩, hlast, rfl, rfl⟩ := h.cons_cases
    obtain ⟨f, hexponent⟩ := hlast.single_cases base
    exact ⟨f, .power hbase hexponent⟩
  · obtain ⟨op, ms, e, hmark, hrest, rfl, rfl⟩ := h.mark_cases hcaret
    obtain ⟨f, hfactor⟩ := hrest.single_cases
    exact fun base => ⟨_, .exponent hmark hfactor⟩
  · cases h
    exact fun base => ⟨base, .noExponent⟩
  -- Atoms, with the calls behind their names.
  · obtain ⟨l, hl, hterminal, rfl, rfl⟩ := h.single_cases
    have hkind := kind_of_terminal_number hl hterminal
    obtain ⟨x, hx⟩ := Option.isSome_iff_exists.mp (hl.number hkind)
    exact ⟨_, .number hkind hx⟩
  · obtain ⟨o, ms, e, hopen, hrest, rfl, rfl⟩ := h.mark_cases hopenParen
    obtain ⟨ls₁, ls₂, d₁, d₂, ⟨f, hsum⟩, hlast, rfl, rfl⟩ := hrest.cons_cases
    obtain ⟨c, hclose, rfl, rfl⟩ := readable_mark hcloseParen hlast.single_cases
    exact ⟨f, .brackets hopen hsum hclose⟩
  · obtain ⟨ls₁, ls₂, d₁, d₂, ⟨l, hl, hterminal, rfl, rfl⟩, hlast, rfl, rfl⟩ := h.cons_cases
    obtain ⟨f, hbehind⟩ := hlast.single_cases l.text
    exact ⟨f, .name (kind_of_terminal_ident hl hterminal) hbehind⟩
  · obtain ⟨o, ms, e, hopen, hrest, rfl, rfl⟩ := h.mark_cases hopenParen
    obtain ⟨ls₁, ls₂, d₁, d₂, ⟨fs, hargs⟩, hlast, rfl, rfl⟩ := hrest.cons_cases
    obtain ⟨c, hclose, rfl, rfl⟩ := readable_mark hcloseParen hlast.single_cases
    exact fun name => ⟨_, .call hopen hargs hclose⟩
  · cases h
    exact fun name => ⟨_, .symbol⟩
  -- Arguments.
  · obtain ⟨ls₁, ls₂, d₁, d₂, ⟨f, hsum⟩, hlast, rfl, rfl⟩ := h.cons_cases
    obtain ⟨fs, hmore⟩ := hlast.single_cases
    exact ⟨_, .args hsum hmore⟩
  · cases h
    exact ⟨[], .noArgs⟩
  · obtain ⟨op, ms, e, hmark, hrest, rfl, rfl⟩ := h.mark_cases hcomma
    obtain ⟨ls₁, ls₂, d₁, d₂, ⟨f, hsum⟩, hlast, rfl, rfl⟩ := hrest.cons_cases
    obtain ⟨fs, hmore⟩ := hlast.single_cases
    exact ⟨_, .moreArgs hmark hsum hmore⟩
  · cases h
    exact ⟨[], .noMoreArgs⟩

theorem readableAll_trees {ts : List Tree} (h : ∀ t ∈ ts, ∀ ls : List Lexeme, t.leaves = ls.map (·.token language) →
    (∀ l ∈ ls, l.Regular) → Readable ls t.depth t.symbol) {ls : List Lexeme}
    (hleaves : ts.flatMap Tree.leaves = ls.map (·.token language)) (hls : ∀ l ∈ ls, l.Regular) :
    ReadableAll (ts.map Tree.symbol) ls (Tree.deepest ts) := by
  induction ts generalizing ls with
  | nil =>
    obtain rfl := List.map_eq_nil_iff.mp hleaves.symm
    exact .nil
  | cons t ts ih =>
    obtain ⟨ht, hts⟩ := List.forall_mem_cons.mp h
    obtain ⟨front, rest, rfl, hfront, hrest⟩ := List.map_eq_append_iff.mp (hleaves.symm.trans List.flatMap_cons)
    obtain ⟨hregular, hregular'⟩ := List.forall_mem_append.mp hls
    exact .cons (ht front hfront.symm hregular) (ih hts hrest.symm hregular')

theorem readable_terminal {l : Lexeme} (hs : s ∈ language.terminals) (hl : l.Regular) (h : l.terminal language = s.id) :
    Readable [l] 1 s := by
  have hlow : ∀ s ∈ language.terminals, 12 ≤ s.id := by decide
  have hid := hlow s hs
  have hlexeme : ∃ l' : Lexeme, l'.Regular ∧ l'.terminal language = s.id ∧ [l] = [l'] ∧ 1 = 1 := ⟨l, hl, h, rfl, rfl⟩
  unfold Readable
  split
  case h_13 => exact hlexeme
  all_goals omega

/-- A derivation tree over lexemes of a text comes from what they spell. -/
theorem readable_of_validFor (h : t.ValidFor language) (hleaves : t.leaves = ls.map (·.token language))
    (hls : ∀ l ∈ ls, l.Regular) : Readable ls t.depth t.symbol := by
  induction h generalizing ls with
  | @leaf s token hs hid =>
    rw [Tree.leaves_leaf, eq_comm, List.map_eq_singleton_iff] at hleaves
    obtain ⟨l, rfl, rfl⟩ := hleaves
    rw [Tree.depth_leaf]
    exact readable_terminal hs (hls l List.mem_cons_self) hid
  | @node r children hr hsymbols _ ih =>
    rw [Tree.leaves_node] at hleaves
    rw [Tree.depth_node]
    exact readable_of_rule hr (hsymbols ▸ readableAll_trees (fun c hc _ hms hregular => ih c hc hms hregular) hleaves hls)

/-! ### Reading texts -/

section Reading
variable {p : ParseTable} {text : String}

theorem parseText_ok_iff (hp : table = .ok p) : parseText p text = .ok t ↔
    t.ValidFor language ∧ t.symbol = Sym.start ∧ t.leaves = (Lexeme.ofText text).map (·.token language) := by
  obtain ⟨f, hc⟩ := chooses_of_table hp
  rw [parseText, hc.grammar]
  exact Parser.parse_tokensOf_eq_ok_iff hc (by decide)

/-- A text that spells a formula is parsed, and the tree is that of the formula. -/
theorem exists_parseText (hp : table = .ok p) {f : Formula} {d : Nat}
    (h : (Phrase.chain .sum f).Spelled (Lexeme.ofText text) d) :
    ∃ t, parseText p text = .ok t ∧ t.depth = d + 1 ∧ folder.value t = .ok (.formula f) := by
  obtain ⟨v, rfl, t, ht⟩ := h.exists_tree
  obtain ⟨u, hu⟩ := ht.single.rule (r := ⟨0, _, _⟩) 0 rfl rfl rfl
  exact ⟨u, (parseText_ok_iff hp).mpr ⟨hu.valid, hu.symbol, hu.leaves⟩, hu.depth, hu.value⟩

/-- A text is parsed if it spells a formula and rejected otherwise. -/
theorem parseText_cases (hp : table = .ok p) (text : String) : (∃ why, parseText p text = .error why ∧
      ∀ f d, ¬(Phrase.chain .sum f).Spelled (Lexeme.ofText text) d) ∨
    ∃ t f d, parseText p text = .ok t ∧ (Phrase.chain .sum f).Spelled (Lexeme.ofText text) d ∧
      t.depth = d + 1 ∧ folder.value t = .ok (.formula f) := by
  cases hparse : parseText p text with
  | error why =>
    refine Or.inl ⟨why, rfl, fun f d h => ?_⟩
    obtain ⟨t, ht, -⟩ := exists_parseText hp h
    cases hparse.symm.trans ht
  | ok t =>
    obtain ⟨hvalid, hstart, hleaves⟩ := (parseText_ok_iff hp).mp hparse
    have hread := readable_of_validFor hvalid hleaves fun l => Lexeme.regular_of_mem_ofText
    rw [hstart] at hread
    obtain ⟨f, d, h, hdepth⟩ := hread
    obtain ⟨u, hu, -, hvalue⟩ := exists_parseText hp h
    cases hparse.symm.trans hu
    exact Or.inr ⟨t, f, d, rfl, h, hdepth, hvalue⟩

theorem read_of_parseText {f : Formula} (hparse : parseText p text = .ok t) (hvalue : folder.value t = .ok (.formula f)) :
    read p text = if t.depth ≤ maxDepth then .ok f else .error (.eval (.unreadable (.tooDeep t.depth maxDepth))) := by
  have hcheck : folder.checkDepth t = if t.depth > maxDepth then .error (.tooDeep t.depth maxDepth) else .ok () := rfl
  rw [read, hparse]
  dsimp only
  rw [ofTree, Folder.fold_eq, hcheck, hvalue]
  by_cases hdepth : t.depth ≤ maxDepth
  · rw [if_neg (Nat.not_lt.mpr hdepth), if_pos hdepth]
    rfl
  · rw [if_pos (Nat.not_le.mp hdepth), if_neg hdepth]
    rfl

end Reading

end Calcbook.Formula
