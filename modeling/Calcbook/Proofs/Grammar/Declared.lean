import Calcbook.Proofs.Grammar.Derivation
import Mathlib.Tactic.MkIffOfInductiveProp

/-! What stands declared behind some declarations, and what is wrong with one more. Both can be read off the
    list: a name has the kind of the first declaration of it, and a rule is there when it was given behind
    declarations of all its symbols. Nothing that a faulty declaration says adds to it. -/

namespace Calcbook

/-! ### What stands declared -/

namespace Declaration

/-- The kind under which a declaration brings in a name. -/
def kindOf? (name : String) : Declaration → Option Symbol.Kind
  | symbol kind other _ => if other = name then some kind else none
  | _ => none

/-- The name that a declaration gives to the end mark. -/
def endName? : Declaration → Option String
  | endMark name => some name
  | _ => none

end Declaration

namespace Declared

/-- The kind of a name: that of its first declaration. -/
def kindOf? (calls : List Declaration) (name : String) : Option Symbol.Kind := calls.findSome? (·.kindOf? name)

/-- The name of the end mark: the last one that was given to it, or a dollar sign. -/
def endName (calls : List Declaration) : String := (calls.filterMap Declaration.endName?).getLast?.getD "$"

/-- Whether the symbols of a rule stand declared, its head as a nonterminal. -/
def Admits (calls : List Declaration) (head : String) (body : List String) : Prop :=
  kindOf? calls head = some .nonterminal ∧ ∀ name ∈ body, kindOf? calls name ≠ none

/-- Whether a rule stands declared. -/
def HasRule (calls : List Declaration) (head : String) (body : List String) : Prop :=
  ∃ before quiet after, calls = before ++ .rule head body quiet :: after ∧ Admits before head body

/-! ### Mistakes -/

/-- What is wrong with a declaration behind others. -/
inductive Faulty (calls : List Declaration) : Declaration → Defect → Prop
  | duplicateSymbol {kind : Symbol.Kind} {name : String} (hname : kindOf? calls name ≠ none) :
      Faulty calls (.symbol kind name false) (.duplicateSymbol name)
  | missingHead {head : String} {body : List String} {quiet : Bool} (hhead : kindOf? calls head = none) :
      Faulty calls (.rule head body quiet) (.missingSymbol head)
  | terminalHead {head : String} {body : List String} {quiet : Bool} (hhead : kindOf? calls head = some .terminal) :
      Faulty calls (.rule head body quiet) (.terminalHead head)
  | missingSymbol {head name : String} {front back : List String} {quiet : Bool}
      (hhead : kindOf? calls head = some .nonterminal) (hfront : ∀ other ∈ front, kindOf? calls other ≠ none)
      (hname : kindOf? calls name = none) :
      Faulty calls (.rule head (front ++ name :: back) quiet) (.missingSymbol name)
  | duplicateRule {head : String} {body : List String} (hrule : HasRule calls head body) :
      Faulty calls (.rule head body false) (.duplicateRule (head ++ " -> " ++ " ".intercalate body))

/-- None of the declarations is faulty behind those before it. -/
def Faultless (calls : List Declaration) : Prop :=
  ∀ before call after, calls = before ++ call :: after → ∀ e, ¬Faulty before call e

/-- The first faulty declaration has this mistake. -/
def FirstFault (calls : List Declaration) (e : Defect) : Prop :=
  ∃ before call after, calls = before ++ call :: after ∧ Faulty before call e ∧ Faultless before

/-- What is wrong with the declarations as a whole, for a grammar with a start symbol: the end mark is a nonterminal,
    there is no symbol to start from, or it has no rules. -/
@[mk_iff]
inductive Unfit (calls : List Declaration) (start : String) : Defect → Prop
  | endMark (hend : kindOf? calls (endName calls) = some .nonterminal) :
      Unfit calls start (.duplicateSymbol (endName calls))
  | missingStart (hend : kindOf? calls (endName calls) ≠ some .nonterminal) (hstart : kindOf? calls start = none)
      (hne : start ≠ endName calls) : Unfit calls start (.missingSymbol start)
  | noStartRule (hend : kindOf? calls (endName calls) ≠ some .nonterminal)
      (hstart : kindOf? calls start ≠ none ∨ start = endName calls) (hrules : ∀ body, ¬HasRule calls start body) :
      Unfit calls start (.noStartRule start)

variable {calls more : List Declaration} {call : Declaration} {head name : String} {body : List String} {e : Defect}

theorem kindOf?_concat : kindOf? (calls ++ [call]) name = (kindOf? calls name).or (call.kindOf? name) := by
  rw [kindOf?, List.findSome?_append, List.findSome?_singleton]
  rfl

theorem endName_concat : endName (calls ++ [call]) = call.endName?.getD (endName calls) := by
  rw [endName, List.filterMap_append]
  cases h : call.endName? with
  | none => simp [h, endName]
  | some name => simp [h]

theorem hasRule_concat : HasRule (calls ++ [call]) head body ↔
    HasRule calls head body ∨ ∃ quiet, call = .rule head body quiet ∧ Admits calls head body := by
  constructor
  · rintro ⟨before, quiet, after, heq, hadmits⟩
    rcases Grammar.concat_eq_append_cons heq with ⟨after, rfl⟩ | ⟨rfl, rfl⟩
    · exact Or.inl ⟨before, quiet, after, rfl, hadmits⟩
    · exact Or.inr ⟨quiet, rfl, hadmits⟩
  · rintro (⟨before, quiet, after, rfl, hadmits⟩ | ⟨quiet, rfl, hadmits⟩)
    · exact ⟨before, quiet, after ++ [call], by simp, hadmits⟩
    · exact ⟨calls, quiet, [], rfl, hadmits⟩

theorem faultless_nil : Faultless [] := by
  intro before call after h
  simp at h

theorem not_firstFault_nil : ¬FirstFault [] e := by
  rintro ⟨before, call, after, h, -⟩
  simp at h

theorem faultless_concat : Faultless (calls ++ [call]) ↔ Faultless calls ∧ ∀ e, ¬Faulty calls call e := by
  constructor
  · intro h
    exact ⟨fun before c after heq => h before c (after ++ [call]) (by simp [heq]), h calls call [] rfl⟩
  · rintro ⟨hcalls, hcall⟩ before c after heq
    rcases Grammar.concat_eq_append_cons heq with ⟨after, rfl⟩ | ⟨rfl, rfl⟩
    · exact hcalls before c after rfl
    · exact hcall

theorem firstFault_concat : FirstFault (calls ++ [call]) e ↔ FirstFault calls e ∨ Faultless calls ∧ Faulty calls call e := by
  constructor
  · rintro ⟨before, c, after, heq, hfaulty, hbefore⟩
    rcases Grammar.concat_eq_append_cons heq with ⟨after, rfl⟩ | ⟨rfl, rfl⟩
    · exact Or.inl ⟨before, c, after, rfl, hfaulty, hbefore⟩
    · exact Or.inr ⟨hbefore, hfaulty⟩
  · rintro (⟨before, c, after, rfl, hfaulty, hbefore⟩ | ⟨hcalls, hcall⟩)
    · exact ⟨before, c, after ++ [call], by simp, hfaulty, hbefore⟩
    · exact ⟨calls, call, [], rfl, hcall, hcalls⟩

/-- The declarations with that of the end mark behind them. -/
def closed (calls : List Declaration) : List Declaration := calls ++ [.symbol .terminal (endName calls) true]

theorem kindOf?_closed : kindOf? (closed calls) name =
    (kindOf? calls name).or (if endName calls = name then some .terminal else none) := kindOf?_concat

theorem kindOf?_closed_eq_none_iff :
    kindOf? (closed calls) name = none ↔ kindOf? calls name = none ∧ name ≠ endName calls := by
  rw [kindOf?_closed, Option.or_eq_none_iff]
  simp [eq_comm]

theorem kindOf?_closed_eq_nonterminal_iff :
    kindOf? (closed calls) name = some .nonterminal ↔ kindOf? calls name = some .nonterminal := by
  rw [kindOf?_closed, Option.or_eq_some_iff]
  simp

theorem hasRule_closed : HasRule (closed calls) head body ↔ HasRule calls head body := by
  rw [closed, hasRule_concat]
  simp

end Declared

end Calcbook
