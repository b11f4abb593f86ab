import Calcbook.Formula.Reading
import Calcbook.Proofs.Parsing.Table

/-! The grammar of formulas, worked out from its declarations, and that it has a parse table. A formula is a sum
    of products of factors; tails hold what follows the first operand of a sum, of a product or of a power,
    the first argument of a call, or the name of a symbol or call. -/

namespace Calcbook.Formula

/-! ### Symbols -/

namespace Sym

def start : Symbol := ⟨0, .nonterminal, "S"⟩
def sum : Symbol := ⟨1, .nonterminal, "E"⟩
def sumTail : Symbol := ⟨2, .nonterminal, "E'"⟩
def product : Symbol := ⟨3, .nonterminal, "T"⟩
def productTail : Symbol := ⟨4, .nonterminal, "T'"⟩
def factor : Symbol := ⟨5, .nonterminal, "F"⟩
def power : Symbol := ⟨6, .nonterminal, "P"⟩
def powerTail : Symbol := ⟨7, .nonterminal, "P'"⟩
def atom : Symbol := ⟨8, .nonterminal, "A"⟩
def nameTail : Symbol := ⟨9, .nonterminal, "A'"⟩
def args : Symbol := ⟨10, .nonterminal, "Args"⟩
def argsTail : Symbol := ⟨11, .nonterminal, "Args'"⟩
def plus : Symbol := ⟨12, .terminal, "+"⟩
def minus : Symbol := ⟨13, .terminal, "-"⟩
def times : Symbol := ⟨14, .terminal, "*"⟩
def divide : Symbol := ⟨15, .terminal, "/"⟩
def mod : Symbol := ⟨16, .terminal, "%"⟩
def caret : Symbol := ⟨17, .terminal, "^"⟩
def openParen : Symbol := ⟨18, .terminal, "("⟩
def closeParen : Symbol := ⟨19, .terminal, ")"⟩
def comma : Symbol := ⟨20, .terminal, ","⟩
def number : Symbol := ⟨21, .terminal, "num"⟩
def ident : Symbol := ⟨22, .terminal, "ident"⟩
def eof : Symbol := ⟨23, .terminal, "$"⟩

end Sym

/-! ### The grammar -/

/-- The grammar that the declarations make. -/
def language : Grammar where
  start := Sym.start
  eof := Sym.eof
  symbols := [
    Sym.start, Sym.sum, Sym.sumTail, Sym.product, Sym.productTail, Sym.factor, Sym.power, Sym.powerTail, Sym.atom,
    Sym.nameTail, Sym.args, Sym.argsTail, Sym.plus, Sym.minus, Sym.times, Sym.divide, Sym.mod, Sym.caret,
    Sym.openParen, Sym.closeParen, Sym.comma, Sym.number, Sym.ident, Sym.eof]
  rules := [
    ⟨0, Sym.start, [Sym.sum]⟩,
    ⟨1, Sym.sum, [Sym.product, Sym.sumTail]⟩,
    ⟨2, Sym.sumTail, [Sym.plus, Sym.product, Sym.sumTail]⟩,
    ⟨3, Sym.sumTail, [Sym.minus, Sym.product, Sym.sumTail]⟩,
    ⟨4, Sym.sumTail, []⟩,
    ⟨5, Sym.product, [Sym.factor, Sym.productTail]⟩,
    ⟨6, Sym.productTail, [Sym.times, Sym.factor, Sym.productTail]⟩,
    ⟨7, Sym.productTail, [Sym.divide, Sym.factor, Sym.productTail]⟩,
    ⟨8, Sym.productTail, [Sym.mod, Sym.factor, Sym.productTail]⟩,
    ⟨9, Sym.productTail, []⟩,
    ⟨10, Sym.factor, [Sym.minus, Sym.factor]⟩,
    ⟨11, Sym.factor, [Sym.power]⟩,
    ⟨12, Sym.power, [Sym.atom, Sym.powerTail]⟩,
    ⟨13, Sym.powerTail, [Sym.caret, Sym.factor]⟩,
    ⟨14, Sym.powerTail, []⟩,
    ⟨15, Sym.atom, [Sym.number]⟩,
    ⟨16, Sym.atom, [Sym.openParen, Sym.sum, Sym.closeParen]⟩,
    ⟨17, Sym.atom, [Sym.ident, Sym.nameTail]⟩,
    ⟨18, Sym.nameTail, [Sym.openParen, Sym.args, Sym.closeParen]⟩,
    ⟨19, Sym.nameTail, []⟩,
    ⟨20, Sym.args, [Sym.sum, Sym.argsTail]⟩,
    ⟨21, Sym.args, []⟩,
    ⟨22, Sym.argsTail, [Sym.comma, Sym.sum, Sym.argsTail]⟩,
    ⟨23, Sym.argsTail, []⟩]

set_option maxRecDepth 20000 in
theorem grammar_eq_language : grammar = .ok language := by rfl

theorem isOk_table : table.isOk = true := by decide +kernel

theorem exists_table : ∃ t, table = .ok t := by
  cases h : table with
  | error why =>
    have hok := isOk_table
    rw [h] at hok
    cases hok
  | ok t => exact ⟨t, rfl⟩

theorem chooses_of_table {t : ParseTable} (h : table = .ok t) : ∃ f, t.Chooses language f := by
  obtain ⟨g, hg, ht⟩ := bind_eq_ok.mp h
  obtain rfl : g = language := Except.ok.inj (hg.symm.trans grammar_eq_language)
  exact ParseTable.chooses_of_ofGrammar (Grammar.wellFormed_of_ofDeclarations hg) ht

end Calcbook.Formula
