import Calcbook.Formula.Basic
import Calcbook.Proofs.Lexeme.Regular

/-! What lexemes are read as, without trees. A phrase is what a nonterminal stands for together with its meaning;
    the nonterminals that hold what is behind something mean what they make of it. Lexemes spell a phrase
    in one way for each rule of the grammar, and the spelling keeps the depth that its tree has. -/

namespace Calcbook.Formula

/-- Operators that group to the left, by how tightly they bind. -/
inductive Chain
  | sum | product
  deriving DecidableEq

/-- The operators of a chain, by their texts and heads. -/
def Chain.operators : Chain → List (String × String)
  | sum => [("+", "Plus"), ("-", "Minus")]
  | product => [("*", "Times"), ("/", "Divide"), ("%", "Mod")]

/-- The head of the operator that a lexeme is. -/
def Chain.head? (c : Chain) (l : Lexeme) : Option String :=
  if l.kind.isMark then c.operators.lookup l.text else none

theorem Chain.mem_operators {c : Chain} {l : Lexeme} {head : String} (h : c.head? l = some head) :
    l.isMark l.text = true ∧ (l.text, head) ∈ c.operators := by
  rw [head?] at h
  split at h
  · rename_i hkind
    obtain ⟨before, after, heq, -⟩ := List.lookup_eq_some_iff.mp h
    exact ⟨Bool.and_eq_true_iff.mpr ⟨hkind, beq_self_eq_true _⟩, by rw [heq]; simp⟩
  · cases h

theorem Chain.head?_of_isMark {c : Chain} {l : Lexeme} {text head : String} (h : l.isMark text = true)
    (hop : c.operators.lookup text = some head) : c.head? l = some head := by
  obtain ⟨hkind, htext⟩ := Bool.and_eq_true_iff.mp h
  rw [head?, if_pos hkind, eq_of_beq htext, hop]

/-- A part of a text that has a meaning. -/
inductive Phrase
  | chain (c : Chain) (f : Formula)
  | links (c : Chain) (first f : Formula)
  | factor (f : Formula)
  | power (f : Formula)
  | exponent (base f : Formula)
  | atom (f : Formula)
  | behind (name : String) (f : Formula)
  | args (fs : List Formula)
  | moreArgs (fs : List Formula)

/-- The operands of sums are products, and those of products are factors. -/
def Chain.operand : Chain → Formula → Phrase
  | sum, f => .chain product f
  | product, f => .factor f

/-- Lexemes that spell a phrase, by a tree of some depth. -/
inductive Phrase.Spelled : Phrase → List Lexeme → Nat → Prop
  | chain {c : Chain} {first f : Formula} {ls ms : List Lexeme} {d e : Nat} (hfirst : Spelled (c.operand first) ls d)
      (hlinks : Spelled (.links c first f) ms e) : Spelled (.chain c f) (ls ++ ms) (max d e + 1)
  | link {c : Chain} {op : Lexeme} {head : String} {first next f : Formula} {ls ms : List Lexeme} {d e : Nat}
      (hop : c.head? op = some head) (hnext : Spelled (c.operand next) ls d)
      (hlinks : Spelled (.links c (.call head [first, next]) f) ms e) :
      Spelled (.links c first f) (op :: (ls ++ ms)) (max 1 (max d e) + 1)
  | noLink {c : Chain} {f : Formula} : Spelled (.links c f f) [] 1
  | negation {op : Lexeme} {f : Formula} {ls : List Lexeme} {d : Nat} (hop : op.isMark "-" = true)
      (hfactor : Spelled (.factor f) ls d) : Spelled (.factor (.call "Negate" [f])) (op :: ls) (max 1 d + 1)
  | factor {f : Formula} {ls : List Lexeme} {d : Nat} (hpower : Spelled (.power f) ls d) : Spelled (.factor f) ls (d + 1)
  | power {base f : Formula} {ls ms : List Lexeme} {d e : Nat} (hbase : Spelled (.atom base) ls d)
      (hexponent : Spelled (.exponent base f) ms e) : Spelled (.power f) (ls ++ ms) (max d e + 1)
  | exponent {op : Lexeme} {base f : Formula} {ls : List Lexeme} {d : Nat} (hop : op.isMark "^" = true)
      (hfactor : Spelled (.factor f) ls d) : Spelled (.exponent base (.call "Power" [base, f])) (op :: ls) (max 1 d + 1)
  | noExponent {f : Formula} : Spelled (.exponent f f) [] 1
  | number {l : Lexeme} {x : Float} (hkind : l.kind = .number) (hread : Decimal.read? l.text = some x) :
      Spelled (.atom (.number x)) [l] 2
  | brackets {o c : Lexeme} {f : Formula} {ls : List Lexeme} {d : Nat} (hopen : o.isMark "(" = true)
      (hsum : Spelled (.chain .sum f) ls d) (hclose : c.isMark ")" = true) :
      Spelled (.atom f) (o :: (ls ++ [c])) (max 1 (max d 1) + 1)
  | name {l : Lexeme} {f : Formula} {ls : List Lexeme} {d : Nat} (hkind : l.kind = .ident)
      (hbehind : Spelled (.behind l.text f) ls d) : Spelled (.atom f) (l :: ls) (max 1 d + 1)
  | call {o c : Lexeme} {name : String} {fs : List Formula} {ls : List Lexeme} {d : Nat} (hopen : o.isMark "(" = true)
      (hargs : Spelled (.args fs) ls d) (hclose : c.isMark ")" = true) :
      Spelled (.behind name (.call name fs)) (o :: (ls ++ [c])) (max 1 (max d 1) + 1)
  | symbol {name : String} : Spelled (.behind name (.symbol name)) [] 1
  | args {f : Formula} {fs : List Formula} {ls ms : List Lexeme} {d e : Nat} (hsum : Spelled (.chain .sum f) ls d)
      (hmore : Spelled (.moreArgs fs) ms e) : Spelled (.args (f :: fs)) (ls ++ ms) (max d e + 1)
  | noArgs : Spelled (.args []) [] 1
  | moreArgs {op : Lexeme} {f : Formula} {fs : List Formula} {ls ms : List Lexeme} {d e : Nat}
      (hcomma : op.isMark "," = true) (hsum : Spelled (.chain .sum f) ls d) (hmore : Spelled (.moreArgs fs) ms e) :
      Spelled (.moreArgs (f :: fs)) (op :: (ls ++ ms)) (max 1 (max d e) + 1)
  | noMoreArgs : Spelled (.moreArgs []) [] 1

namespace Phrase.Spelled

variable {f : Formula} {ls : List Lexeme} {d : Nat}

/-! A phrase is one of the levels above it, with nothing behind it. -/

theorem power_of_atom (h : (atom f).Spelled ls d) : (Phrase.power f).Spelled ls (max d 1 + 1) :=
  List.append_nil ls ▸ h.power .noExponent

theorem product_of_factor (h : (Phrase.factor f).Spelled ls d) : (Phrase.chain .product f).Spelled ls (max d 1 + 1) :=
  List.append_nil ls ▸ .chain (c := .product) h .noLink

theorem sum_of_product (h : (Phrase.chain .product f).Spelled ls d) : (Phrase.chain .sum f).Spelled ls (max d 1 + 1) :=
  List.append_nil ls ▸ .chain (c := .sum) h .noLink

end Phrase.Spelled

end Calcbook.Formula
