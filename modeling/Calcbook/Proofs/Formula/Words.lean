import Calcbook.Proofs.Formula.Trees
import Calcbook.Proofs.Lexeme.Spaced

/-! Places do not matter for what is read. Lexemes of the same words spell the same phrases, with trees of the same
    depth, so two texts of the same words are read alike up to the places named in a refusal; a text and its
    lexemes with spaces between are such texts. -/

namespace Calcbook.Formula
open Lexeme (word spaced)

/-! ### Words -/

section Words
variable {l m : Lexeme} {ls ms : List Lexeme}

theorem word_eq_iff : m.word = l.word ↔ m.kind = l.kind ∧ m.text = l.text := Prod.mk_inj

theorem isMark_of_word {text : String} (h : m.word = l.word) (hl : l.isMark text = true) : m.isMark text = true := by
  obtain ⟨hkind, htext⟩ := word_eq_iff.mp h
  rwa [Lexeme.isMark, hkind, htext]

theorem head?_of_word {c : Chain} {head : String} (h : m.word = l.word) (hl : c.head? l = some head) :
    c.head? m = some head := by
  obtain ⟨hkind, htext⟩ := word_eq_iff.mp h
  rwa [Chain.head?, hkind, htext]

/-- Lexemes between brackets. -/
theorem words_brackets {o c : Lexeme} (h : ms.map word = (o :: (ls ++ [c])).map word) :
    ∃ o' ms' c', ms = o' :: (ms' ++ [c']) ∧ o'.word = o.word ∧ ms'.map word = ls.map word ∧ c'.word = c.word := by
  obtain ⟨o', rest, rfl, ho, h⟩ := List.map_eq_cons_iff.mp h
  obtain ⟨ms', last, rfl, hms, h⟩ := List.map_eq_append_iff.mp (h.trans List.map_append)
  obtain ⟨c', rfl, hc⟩ := List.map_eq_singleton_iff.mp h
  exact ⟨o', ms', c', rfl, ho, hms, hc⟩

end Words

/-- Lexemes of the same words spell the same phrases. -/
theorem Phrase.Spelled.of_words {p : Phrase} {ls : List Lexeme} {d : Nat} (h : p.Spelled ls d) {ms : List Lexeme}
    (hms : ms.map word = ls.map word) : p.Spelled ms d := by
  induction h generalizing ms with
  | chain _ _ ihfirst ihlinks =>
    obtain ⟨front, rest, rfl, hfront, hrest⟩ := List.map_eq_append_iff.mp (hms.trans List.map_append)
    exact .chain (ihfirst hfront) (ihlinks hrest)
  | link hop _ _ ihnext ihlinks =>
    obtain ⟨op, ms, rfl, hop', hms⟩ := List.map_eq_cons_iff.mp hms
    obtain ⟨front, rest, rfl, hfront, hrest⟩ := List.map_eq_append_iff.mp (hms.trans List.map_append)
    exact .link (head?_of_word hop' hop) (ihnext hfront) (ihlinks hrest)
  | noLink =>
    obtain rfl := List.map_eq_nil_iff.mp hms
    exact .noLink
  | negation hop _ ih =>
    obtain ⟨op, ms, rfl, hop', hms⟩ := List.map_eq_cons_iff.mp hms
    exact .negation (isMark_of_word hop' hop) (ih hms)
  | factor _ ih => exact .factor (ih hms)
  | power _ _ ihbase ihexponent =>
    obtain ⟨front, rest, rfl, hfront, hrest⟩ := List.map_eq_append_iff.mp (hms.trans List.map_append)
    exact .power (ihbase hfront) (ihexponent hrest)
  | exponent hop _ ih =>
    obtain ⟨op, ms, rfl, hop', hms⟩ := List.map_eq_cons_iff.mp hms
    exact .exponent (isMark_of_word hop' hop) (ih hms)
  | noExponent =>
    obtain rfl := List.map_eq_nil_iff.mp hms
    exact .noExponent
  | number hkind hread =>
    obtain ⟨m, rfl, hm⟩ := List.map_eq_singleton_iff.mp hms
    obtain ⟨hkind', htext⟩ := word_eq_iff.mp hm
    exact .number (hkind'.trans hkind) (htext ▸ hread)
  | brackets hopen _ hclose ih =>
    obtain ⟨o, ms, c, rfl, ho, hms, hc⟩ := words_brackets hms
    exact .brackets (isMark_of_word ho hopen) (ih hms) (isMark_of_word hc hclose)
  | name hkind _ ih =>
    obtain ⟨m, ms, rfl, hm, hms⟩ := List.map_eq_cons_iff.mp hms
    obtain ⟨hkind', htext⟩ := word_eq_iff.mp hm
    exact .name (hkind'.trans hkind) (htext ▸ ih hms)
  | call hopen _ hclose ih =>
    obtain ⟨o, ms, c, rfl, ho, hms, hc⟩ := words_brackets hms
    exact .call (isMark_of_word ho hopen) (ih hms) (isMark_of_word hc hclose)
  | symbol =>
    obtain rfl := List.map_eq_nil_iff.mp hms
    exact .symbol
  | args _ _ ihsum ihmore =>
    obtain ⟨front, rest, rfl, hfront, hrest⟩ := List.map_eq_append_iff.mp (hms.trans List.map_append)
    exact .args (ihsum hfront) (ihmore hrest)
  | noArgs =>
    obtain rfl := List.map_eq_nil_iff.mp hms
    exact .noArgs
  | moreArgs hcomma _ _ ihsum ihmore =>
    obtain ⟨op, ms, rfl, hop, hms⟩ := List.map_eq_cons_iff.mp hms
    obtain ⟨front, rest, rfl, hfront, hrest⟩ := List.map_eq_append_iff.mp (hms.trans List.map_append)
    exact .moreArgs (isMark_of_word hop hcomma) (ihsum hfront) (ihmore hrest)
  | noMoreArgs =>
    obtain rfl := List.map_eq_nil_iff.mp hms
    exact .noMoreArgs

/-! ### Reading -/

/-- Texts of the same words are read alike: either both give the same answer or the parser rejects both. -/
theorem read_of_words {p : ParseTable} (hp : table = .ok p) {s t : String}
    (h : (Lexeme.ofText s).map word = (Lexeme.ofText t).map word) : read p s = read p t ∨
      ∃ why why', read p s = .error (.rejected why) ∧ read p t = .error (.rejected why') := by
  rcases parseText_cases hp t with ⟨why', ht, hnone⟩ | ⟨u, f, d, ht, hspelled, hdepth, hvalue⟩
  · rcases parseText_cases hp s with ⟨why, hs, -⟩ | ⟨-, f, d, -, hspelled, -, -⟩
    · exact Or.inr ⟨why, why', by rw [read, hs], by rw [read, ht]⟩
    · exact (hnone f d (hspelled.of_words h.symm)).elim
  · obtain ⟨v, hs, hdepth', hvalue'⟩ := exists_parseText hp (hspelled.of_words h)
    refine Or.inl ?_
    rw [read_of_parseText hs hvalue', read_of_parseText ht hvalue, hdepth, hdepth']

/-- Every text keeps its words when its lexemes are put apart by single spaces, and it is read as before: it gives the
    same formula, it is refused for the same depth, or it is rejected as it was. -/
theorem read_spaced : (∀ text, (Lexeme.ofText (spaced (Lexeme.ofText text))).map word = (Lexeme.ofText text).map word) ∧
    ∃ p, table = .ok p ∧ ∀ text,
      (∀ f, read p (spaced (Lexeme.ofText text)) = .ok f ↔ read p text = .ok f) ∧
      ((∃ why, read p (spaced (Lexeme.ofText text)) = .error (.rejected why)) ↔
        ∃ why, read p text = .error (.rejected why)) ∧
      ∀ depth limit, read p (spaced (Lexeme.ofText text)) = .error (.eval (.unreadable (.tooDeep depth limit))) ↔
        read p text = .error (.eval (.unreadable (.tooDeep depth limit))) := by
  obtain ⟨p, hp⟩ := exists_table
  refine ⟨Lexeme.words_spaced, p, hp, fun text => ?_⟩
  rcases read_of_words hp (Lexeme.words_spaced text) with hsame | ⟨why, why', hspaced, htext⟩
  · rw [hsame]
    exact ⟨fun _ => Iff.rfl, Iff.rfl, fun _ _ => Iff.rfl⟩
  · simp [hspaced, htext]

end Calcbook.Formula
