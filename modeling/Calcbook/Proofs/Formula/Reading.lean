import Calcbook.Proofs.Formula.Descent
import Calcbook.Proofs.Formula.Trees
import Calcbook.Proofs.Lexeme.Written

/-! Reading a text is recursive descent. The parser that goes by the table and the fold of its tree give the formula
    that recursive descent gives, unless the tree is too deep. -/

namespace Calcbook.Formula

variable {p : ParseTable}

/-- What recursive descent makes of a text decides whether it is parsed, and the tree folds to the formula read. -/
theorem descent_cases (hp : table = .ok p) (text : String) :
    (Descent.read? (Lexeme.ofText text) = none ∧ ∃ why, parseText p text = .error why ∧
      read p text = .error (.rejected why)) ∨
    ∃ f t, Descent.read? (Lexeme.ofText text) = some f ∧ parseText p text = .ok t ∧ read p text =
      if t.depth ≤ maxDepth then .ok f else .error (.eval (.unreadable (.tooDeep t.depth maxDepth))) := by
  rcases parseText_cases hp text with ⟨why, hparse, hnone⟩ | ⟨t, f, d, hparse, hspelled, -, hvalue⟩
  · refine Or.inl ⟨Option.eq_none_iff_forall_ne_some.mpr fun f hread => ?_, why, hparse, by rw [read, hparse]⟩
    obtain ⟨d, hspelled⟩ := Descent.read?_eq_some_iff.mp hread
    exact hnone f d hspelled
  · exact Or.inr ⟨f, t, Descent.read?_eq_some_iff.mpr ⟨d, hspelled⟩, hparse, read_of_parseText hparse hvalue⟩

theorem read_identifier (hp : table = .ok p) {name : String} (hname : Lexeme.IsIdentifier name.toList) :
    read p name = .ok (.symbol name) := by
  have hlexemes : Lexeme.ofText name = [⟨.ident, name, 0⟩] := by
    rw [Lexeme.ofText_eq_cutAll, ← List.append_nil name.toList, Lexeme.cutAll_identifier hname Lexeme.stops_nil,
      Lexeme.cutAll_nil, String.ofList_toList]
  have hatom : (Phrase.atom (.symbol name)).Spelled [⟨.ident, name, 0⟩] 2 := .name (l := ⟨.ident, name, 0⟩) rfl .symbol
  have hsum := (Phrase.Spelled.factor hatom.power_of_atom).product_of_factor.sum_of_product
  obtain ⟨t, hparse, hdepth, hvalue⟩ := exists_parseText hp (hlexemes ▸ hsum)
  rw [read_of_parseText hparse hvalue, if_pos (by rw [hdepth]; decide)]

/-- There is a table of formulas, and with it every text is read as recursive descent over its lexemes reads it, as long
    as its tree is not too deep; what recursive descent refuses is rejected, and a tree that is too deep is
    refused for its depth. -/
theorem read_iff_descent : ∃ p, table = .ok p ∧ ∀ text : String,
    (∀ f, read p text = .ok f ↔ Descent.read? (Lexeme.ofText text) = some f ∧
      ∃ t, parseText p text = .ok t ∧ t.depth ≤ maxDepth) ∧
    ((∃ why, read p text = .error (.rejected why)) ↔ Descent.read? (Lexeme.ofText text) = none) ∧
    ∀ depth limit, read p text = .error (.eval (.unreadable (.tooDeep depth limit))) ↔
      (∃ f, Descent.read? (Lexeme.ofText text) = some f) ∧
        ∃ t, parseText p text = .ok t ∧ t.depth = depth ∧ maxDepth < depth ∧ limit = maxDepth := by
  obtain ⟨p, hp⟩ := exists_table
  refine ⟨p, hp, fun text => ?_⟩
  rcases descent_cases hp text with ⟨hdescent, why, hparse, hread⟩ | ⟨f, t, hdescent, hparse, hread⟩
  · simp [hdescent, hparse, hread]
  · by_cases hdepth : t.depth ≤ maxDepth
    · rw [if_pos hdepth] at hread
      refine ⟨fun g => by simp [hdescent, hparse, hread, hdepth], by simp [hdescent, hread], fun depth limit => ?_⟩
      simp only [hread, reduceCtorEq, false_iff]
      rintro ⟨-, u, hu, rfl, hlt, -⟩
      cases hparse.symm.trans hu
      exact hdepth.not_gt hlt
    · rw [if_neg hdepth] at hread
      refine ⟨fun g => by simp [hparse, hread, hdepth], by simp [hdescent, hread], fun depth limit => ⟨fun h => ?_, ?_⟩⟩
      · cases hread.symm.trans h
        exact ⟨⟨f, hdescent⟩, t, hparse, rfl, Nat.lt_of_not_le hdepth, rfl⟩
      · rintro ⟨-, u, hu, rfl, -, rfl⟩
        cases hparse.symm.trans hu
        exact hread

end Calcbook.Formula
