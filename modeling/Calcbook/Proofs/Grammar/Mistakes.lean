import Calcbook.Proofs.Grammar.Declared
import Mathlib.Data.List.Induction

/-! The mistake that is reported of some declarations. A draft holds what stands declared and judges by it, and whatever
    it finds fault with leaves it as it is but for the defect. Hence the first fault is the one reported, and what comes
    behind it is judged as if it had not been made. -/

namespace Calcbook

/-! ### What a draft finds wrong -/

namespace Draft
open Calcbook.Symbol

variable {d : Draft} {calls : List Declaration} {call : Declaration} {e : Defect} {head name : String}
  {body : List String}

/-- What a draft finds wrong with a declaration. -/
def fault? (d : Draft) : Declaration → Option Defect
  | .symbol _ name quiet =>
    if (d.symbol? name).isNone then none else if quiet then none else some (.duplicateSymbol name)
  | .endMark _ => none
  | .rule head body quiet =>
    match d.readRule head body with
    | .error e => some e
    | .ok r => if !d.rules.contains r then none else if quiet then none else some (.duplicateRule r.text)

@[simp]
theorem defect_fail (d : Draft) (e : Defect) : (d.fail e).defect = d.defect.or (some e) := by
  rw [fail]
  cases d.defect <;> rfl

/-- A faulty declaration changes nothing but the defect. -/
theorem declare_of_fault? (h : d.fault? call = some e) : d.declare call = d.fail e := by
  cases call with
  | symbol kind name quiet =>
    rw [fault?] at h
    rw [declare, declareSymbol]
    split at h
    · cases h
    · rename_i hknown
      split at h <;> cases h
      rename_i hloud
      rw [if_neg hknown, if_neg hloud]
  | endMark name => cases h
  | rule head body quiet =>
    rw [fault?] at h
    rw [declare, declareRule]
    cases hr : d.readRule head body with
    | error why =>
      rw [hr] at h
      cases h
      rfl
    | ok r =>
      rw [hr] at h
      dsimp only at h ⊢
      split at h
      · cases h
      · rename_i hold
        split at h <;> cases h
        rename_i hloud
        rw [if_neg hold, if_neg hloud]

theorem defect_declare (d : Draft) (call : Declaration) : (d.declare call).defect = d.defect.or (d.fault? call) := by
  cases call with
  | symbol kind name quiet =>
    rw [declare, declareSymbol, fault?]
    cases (d.symbol? name).isNone <;> cases quiet <;> simp
  | endMark name => simp [declare, fault?]
  | rule head body quiet =>
    rw [declare, declareRule, fault?]
    cases d.readRule head body with
    | error why => simp
    | ok r => cases hold : d.rules.contains r <;> cases quiet <;> simp [hold]

/-! ### What a declaration adds to a draft -/

section Additions

variable {kind : Symbol.Kind} {quiet : Bool}

@[simp]
theorem rules_declareSymbol : (d.declareSymbol kind name quiet).rules = d.rules := by
  rw [declareSymbol]
  split
  · rfl
  · split <;> rfl

@[simp]
theorem endMark_declareSymbol : (d.declareSymbol kind name quiet).endMark = d.endMark := by
  rw [declareSymbol]
  split
  · rfl
  · split <;> rfl

theorem symbol?_concat (d : Draft) (x : Symbol) (other : String) :
    ({ d with symbols := d.symbols ++ [x] } : Draft).symbol? other =
      (d.symbol? other).or (if x.name = other then some x else none) := by
  rw [symbol?, List.find?_append]
  by_cases hname : x.name = other <;> simp [hname, symbol?]

/-- A symbol is added unless its name is known. -/
theorem map_kind_declareSymbol (other : String) : ((d.declareSymbol kind name quiet).symbol? other).map (·.kind) =
    ((d.symbol? other).map (·.kind)).or (if name = other then some kind else none) := by
  rw [declareSymbol]
  split
  · rw [symbol?_concat, Option.map_or]
    by_cases hname : name = other <;> simp [hname]
  · rename_i hknown
    have hsame : (d.symbol? other).map (·.kind) =
        ((d.symbol? other).map (·.kind)).or (if name = other then some kind else none) := by
      by_cases hname : name = other
      · subst hname
        have hsome : ((d.symbol? name).map (·.kind)).isSome = true := by
          simpa [Option.isSome_iff_ne_none] using hknown
        rw [Option.or_of_isSome hsome]
      · rw [if_neg hname, Option.or_none]
    split <;> exact hsame

@[simp]
theorem symbols_declareRule : (d.declareRule head body quiet).symbols = d.symbols := by
  rw [declareRule]
  split
  · rfl
  · split
    · rfl
    · split <;> rfl

@[simp]
theorem endMark_declareRule : (d.declareRule head body quiet).endMark = d.endMark := by
  rw [declareRule]
  split
  · rfl
  · split
    · rfl
    · split <;> rfl

end Additions

/-! ### Reading a rule -/

theorem lookup_eq_error_iff : d.lookup name = .error e ↔ d.symbol? name = none ∧ .missingSymbol name = e := by
  rw [lookup]
  cases d.symbol? name <;> simp

theorem mapM_lookup_eq_error_iff {names : List String} : names.mapM d.lookup = .error e ↔
    ∃ front name back, names = front ++ name :: back ∧ (∀ other ∈ front, d.symbol? other ≠ none) ∧
      d.symbol? name = none ∧ .missingSymbol name = e := by
  constructor
  · intro herror
    induction names with
    | nil => cases herror
    | cons name names ih =>
      rw [List.mapM_cons] at herror
      rcases bind_eq_error.mp herror with hmissing | ⟨x, hx, hrest⟩
      · obtain ⟨hname, rfl⟩ := lookup_eq_error_iff.mp hmissing
        exact ⟨[], name, names, rfl, List.forall_mem_nil _, hname, rfl⟩
      · rcases bind_eq_error.mp hrest with hnames | ⟨_, -, hpure⟩
        · obtain ⟨front, missing, back, rfl, hfront, hmissing, hwhy⟩ := ih hnames
          refine ⟨name :: front, missing, back, rfl, List.forall_mem_cons.mpr ⟨?_, hfront⟩, hmissing, hwhy⟩
          simp [lookup_eq_ok_iff_symbol?.mp hx]
        · cases hpure
  · rintro ⟨front, name, back, rfl, hfront, hname, rfl⟩
    induction front with
    | nil =>
      rw [List.nil_append, List.mapM_cons, lookup_eq_error_iff.mpr ⟨hname, rfl⟩]
      rfl
    | cons other front ih =>
      obtain ⟨hother, hfront⟩ := List.forall_mem_cons.mp hfront
      obtain ⟨x, hx⟩ := Option.ne_none_iff_exists'.mp hother
      rw [List.cons_append, List.mapM_cons, ih hfront, lookup, hx]
      rfl

/-- A rule has a head that is missing or a terminal, or a body with a name that is missing. -/
theorem readRule_eq_error_iff : d.readRule head body = .error e ↔
    (d.symbol? head = none ∧ .missingSymbol head = e) ∨ ∃ x, d.symbol? head = some x ∧
      (x.isTerminal = true ∧ .terminalHead x.name = e ∨ x.isTerminal = false ∧ body.mapM d.lookup = .error e) := by
  rw [readRule, bind_eq_error, lookup_eq_error_iff]
  refine or_congr_right (exists_congr fun x => and_congr lookup_eq_ok_iff_symbol? ?_)
  rw [check_eq_error, bind_eq_error, Bool.not_eq_true]
  simp [pure, Except.pure]

/-! ### Drafts and what stands declared -/

/-- A draft holds what stands declared behind some declarations. -/
structure Reflects (d : Draft) (calls : List Declaration) : Prop extends Sound d.symbols d.rules where
  kinds : ∀ name, (d.symbol? name).map (·.kind) = Declared.kindOf? calls name
  rules : ∀ head body, (∃ r ∈ d.rules, r.lhs.name = head ∧ r.rhs.map (·.name) = body) ↔ Declared.HasRule calls head body
  endName : d.endName = Declared.endName calls

theorem reflects_empty : empty.Reflects [] where
  toSound := empty_isSound
  kinds name := rfl
  rules head body := by simp [empty, Declared.HasRule]
  endName := rfl

namespace Reflects

variable (h : d.Reflects calls)
include h

theorem kindOf?_eq_none_iff : Declared.kindOf? calls name = none ↔ d.symbol? name = none := by
  rw [← h.kinds, Option.map_eq_none_iff]

theorem kindOf?_eq_some_iff {kind : Symbol.Kind} :
    Declared.kindOf? calls name = some kind ↔ ∃ x, d.symbol? name = some x ∧ x.kind = kind := by
  rw [← h.kinds, Option.map_eq_some_iff]

theorem kindOf?_of_mem {x : Symbol} {kind : Symbol.Kind} (hx : x ∈ d.symbols) (hkind : x.kind = kind) :
    Declared.kindOf? calls x.name = some kind :=
  h.kindOf?_eq_some_iff.mpr ⟨x, h.find?_name_eq_some_iff.mpr ⟨hx, rfl⟩, hkind⟩

/-- A rule stands declared when the draft has one of these names. -/
theorem readRule_of_hasRule (hrule : Declared.HasRule calls head body) :
    ∃ r, d.readRule head body = .ok r ∧ d.rules.contains r = true := by
  obtain ⟨r, hr, hhead, hbody⟩ := (h.rules head body).mpr hrule
  refine ⟨⟨d.rules.length, r.lhs, r.rhs⟩, (readRule_eq_ok_iff h.toSound).mpr
    ⟨rfl, h.heads r hr, h.bodies r hr, hhead, hbody⟩, ?_⟩
  exact List.contains_iff_exists_mem_beq.mpr ⟨r, hr, Bool.and_eq_true_iff.mpr ⟨BEq.rfl, BEq.rfl⟩⟩

theorem hasRule_of_contains {r : Rule} (hr : d.readRule head body = .ok r) (hold : d.rules.contains r = true) :
    Declared.HasRule calls head body := by
  obtain ⟨-, ⟨hlhs, -⟩, hrhs, hhead, hbody⟩ := (readRule_eq_ok_iff h.toSound).mp hr
  obtain ⟨s, hs, hrs⟩ := List.contains_iff_exists_mem_beq.mp hold
  obtain ⟨hl, hb⟩ := Bool.and_eq_true_iff.mp hrs
  have hsides : r.lhs = s.lhs ∧ r.rhs = s.rhs :=
    ⟨h.eq_of_id_eq hlhs (h.heads s hs).1 (Symbol.beq_iff_id_eq.mp hl), h.eq_of_beq hrhs (h.bodies s hs) hb⟩
  exact (h.rules head body).mp ⟨s, hs, by rw [← hsides.1, hhead], by rw [← hsides.2, hbody]⟩

theorem admits_iff : Declared.Admits calls head body ↔ ∃ r, d.readRule head body = .ok r := by
  constructor
  · rintro ⟨hhead, hbody⟩
    cases hr : d.readRule head body with
    | ok r => exact ⟨r, rfl⟩
    | error e =>
      obtain ⟨x, hx, hkind⟩ := h.kindOf?_eq_some_iff.mp hhead
      rcases readRule_eq_error_iff.mp hr with ⟨hnone, -⟩ | ⟨y, hy, ⟨hterminal, -⟩ | ⟨-, hnames⟩⟩
      · cases hx.symm.trans hnone
      · cases hx.symm.trans hy
        cases hkind.symm.trans (isTerminal_iff.mp hterminal)
      · obtain ⟨front, name, back, rfl, -, hnone, -⟩ := mapM_lookup_eq_error_iff.mp hnames
        exact absurd (h.kindOf?_eq_none_iff.mpr hnone) (hbody name (by simp))
  · rintro ⟨r, hr⟩
    obtain ⟨-, ⟨hlhs, hkind⟩, hrhs, rfl, rfl⟩ := (readRule_eq_ok_iff h.toSound).mp hr
    refine ⟨h.kindOf?_of_mem hlhs (isTerminal_eq_false_iff.mp hkind), fun name hname => ?_⟩
    obtain ⟨x, hx, rfl⟩ := List.mem_map.mp hname
    rw [h.kindOf?_of_mem (hrhs x hx) rfl]
    nofun

theorem fault?_of_faulty (hfaulty : Declared.Faulty calls call e) : d.fault? call = some e := by
  cases hfaulty with
  | @duplicateSymbol kind name hname =>
    have hknown : (d.symbol? name).isNone = false := by
      rw [Ne, h.kindOf?_eq_none_iff] at hname
      simpa [Option.isSome_iff_ne_none] using hname
    simp [fault?, hknown]
  | missingHead hhead =>
    rw [fault?, readRule_eq_error_iff.mpr (Or.inl ⟨h.kindOf?_eq_none_iff.mp hhead, rfl⟩)]
  | terminalHead hhead =>
    obtain ⟨x, hx, hkind⟩ := h.kindOf?_eq_some_iff.mp hhead
    obtain ⟨-, rfl⟩ := h.find?_name_eq_some_iff.mp hx
    rw [fault?, readRule_eq_error_iff.mpr (Or.inr ⟨x, hx, Or.inl ⟨isTerminal_iff.mpr hkind, rfl⟩⟩)]
  | @missingSymbol head name front back quiet hhead hfront hname =>
    obtain ⟨x, hx, hkind⟩ := h.kindOf?_eq_some_iff.mp hhead
    have hnames : (front ++ name :: back).mapM d.lookup = .error (.missingSymbol name) :=
      mapM_lookup_eq_error_iff.mpr ⟨front, name, back, rfl,
        fun other ho => mt h.kindOf?_eq_none_iff.mpr (hfront other ho), h.kindOf?_eq_none_iff.mp hname, rfl⟩
    rw [fault?, readRule_eq_error_iff.mpr (Or.inr ⟨x, hx, Or.inr ⟨isTerminal_eq_false_iff.mpr hkind, hnames⟩⟩)]
  | duplicateRule hrule =>
    obtain ⟨r, hr, hold⟩ := h.readRule_of_hasRule hrule
    obtain ⟨-, -, -, hhead, hbody⟩ := (readRule_eq_ok_iff h.toSound).mp hr
    rw [fault?, hr]
    simp only [hold, Bool.not_true, Bool.false_eq_true, if_false, Rule.text, Symbol.names, hhead, hbody]

theorem faulty_of_readRule {quiet : Bool} (hr : d.readRule head body = .error e) :
    Declared.Faulty calls (.rule head body quiet) e := by
  rcases readRule_eq_error_iff.mp hr with ⟨hnone, rfl⟩ | ⟨x, hx, ⟨hterminal, rfl⟩ | ⟨hkind, hnames⟩⟩
  · exact .missingHead (h.kindOf?_eq_none_iff.mpr hnone)
  · obtain ⟨hmem, rfl⟩ := h.find?_name_eq_some_iff.mp hx
    exact .terminalHead (h.kindOf?_of_mem hmem (isTerminal_iff.mp hterminal))
  · obtain ⟨hmem, rfl⟩ := h.find?_name_eq_some_iff.mp hx
    obtain ⟨front, name, back, rfl, hfront, hnone, rfl⟩ := mapM_lookup_eq_error_iff.mp hnames
    exact .missingSymbol (h.kindOf?_of_mem hmem (isTerminal_eq_false_iff.mp hkind))
      (fun other ho => mt h.kindOf?_eq_none_iff.mp (hfront other ho)) (h.kindOf?_eq_none_iff.mpr hnone)

theorem faulty_of_fault? (hfault : d.fault? call = some e) : Declared.Faulty calls call e := by
  cases call with
  | symbol kind name quiet =>
    rw [fault?] at hfault
    split at hfault
    · cases hfault
    · rename_i hknown
      split at hfault <;> cases hfault
      rename_i hloud
      obtain rfl : quiet = false := Bool.eq_false_iff.mpr hloud
      refine .duplicateSymbol fun hnone => hknown ?_
      rw [h.kindOf?_eq_none_iff.mp hnone]
      rfl
  | endMark name => cases hfault
  | rule head body quiet =>
    rw [fault?] at hfault
    cases hr : d.readRule head body with
    | error why =>
      rw [hr] at hfault
      cases hfault
      exact h.faulty_of_readRule hr
    | ok r =>
      rw [hr] at hfault
      dsimp only at hfault
      split at hfault
      · cases hfault
      · rename_i hold
        split at hfault <;> cases hfault
        rename_i hloud
        obtain rfl : quiet = false := Bool.eq_false_iff.mpr hloud
        obtain ⟨-, -, -, hhead, hbody⟩ := (readRule_eq_ok_iff h.toSound).mp hr
        rw [Rule.text, Symbol.names, hhead, hbody]
        exact .duplicateRule (h.hasRule_of_contains hr (by simpa using hold))

/-- A draft finds fault with the declarations that are faulty, for the same reason. -/
theorem faulty_iff : Declared.Faulty calls call e ↔ d.fault? call = some e :=
  ⟨h.fault?_of_faulty, h.faulty_of_fault?⟩

/-! ### Drafts keep in step -/

theorem hasRule_declareRule {head' : String} {body' : List String} {quiet : Bool} :
    (∃ r ∈ (d.declareRule head body quiet).rules, r.lhs.name = head' ∧ r.rhs.map (·.name) = body') ↔
      Declared.HasRule calls head' body' ∨
        ∃ loud, Declaration.rule head body quiet = .rule head' body' loud ∧ Declared.Admits calls head' body' := by
  rw [← h.rules, declareRule]
  cases hr : d.readRule head body with
  | error why =>
    refine (or_iff_left ?_).symm
    rintro ⟨_, ⟨⟩, hadmits⟩
    obtain ⟨r, hr'⟩ := h.admits_iff.mp hadmits
    cases hr.symm.trans hr'
  | ok r =>
    obtain ⟨-, -, -, hhead, hbody⟩ := (readRule_eq_ok_iff h.toSound).mp hr
    have hadmits : Declared.Admits calls head body := h.admits_iff.mpr ⟨r, hr⟩
    cases hold : d.rules.contains r with
    | true =>
      -- The rule stands declared already, so the draft need not change.
      have hsame : (∃ s ∈ d.rules, s.lhs.name = head' ∧ s.rhs.map (·.name) = body') ↔
          (∃ s ∈ d.rules, s.lhs.name = head' ∧ s.rhs.map (·.name) = body') ∨
            ∃ loud, Declaration.rule head body quiet = .rule head' body' loud ∧ Declared.Admits calls head' body' := by
        refine (or_iff_left_of_imp ?_).symm
        rintro ⟨_, ⟨⟩, -⟩
        exact (h.rules head body).mpr (h.hasRule_of_contains hr hold)
      dsimp only
      rw [hold]
      cases quiet <;> exact hsame
    | false =>
      simp only [hold, Bool.not_false, if_true, List.mem_append, List.mem_singleton, or_and_right, exists_or,
        exists_eq_left]
      refine or_congr_right ⟨?_, ?_⟩
      · rintro ⟨rfl, rfl⟩
        rw [hhead, hbody]
        exact ⟨quiet, rfl, hadmits⟩
      · rintro ⟨_, ⟨⟩, -⟩
        exact ⟨hhead, hbody⟩

/-- Every declaration keeps the draft in step with what stands declared. -/
theorem declare (call : Declaration) : (d.declare call).Reflects (calls ++ [call]) where
  toSound := IsSound.declare h.toSound call
  kinds other := by
    rw [Declared.kindOf?_concat, ← h.kinds]
    cases call with
    | symbol kind name quiet => exact map_kind_declareSymbol other
    | endMark name => exact Option.or_none.symm
    | rule head body quiet =>
      rw [Draft.declare, symbol?, symbols_declareRule]
      exact Option.or_none.symm
  rules head body := by
    rw [Declared.hasRule_concat]
    cases call with
    | symbol kind name quiet => simpa [Draft.declare] using h.rules head body
    | endMark name => simpa [Draft.declare] using h.rules head body
    | rule head' body' quiet => exact h.hasRule_declareRule
  endName := by
    rw [Declared.endName_concat, ← h.endName]
    cases call with
    | symbol kind name quiet => rw [Draft.declare, Draft.endName, endMark_declareSymbol]; rfl
    | endMark name => rfl
    | rule head body quiet => rw [Draft.declare, Draft.endName, endMark_declareRule]; rfl

end Reflects

/-- The draft behind some declarations. -/
theorem reflects_foldl (calls : List Declaration) : (calls.foldl Draft.declare empty).Reflects calls := by
  induction calls using List.reverseRecOn with
  | nil => exact reflects_empty
  | append_singleton calls call ih =>
    rw [List.foldl_concat]
    exact ih.declare call

theorem defect_eq_none_iff : (calls.foldl Draft.declare empty).defect = none ↔ Declared.Faultless calls := by
  induction calls using List.reverseRecOn with
  | nil => exact iff_of_true rfl Declared.faultless_nil
  | append_singleton calls call ih =>
    rw [List.foldl_concat, defect_declare, Option.or_eq_none_iff, ih, Declared.faultless_concat,
      Option.eq_none_iff_forall_ne_some]
    exact and_congr_right' (forall_congr' fun e => not_congr (reflects_foldl calls).faulty_iff.symm)

/-- The defect is what is wrong with the first faulty declaration. -/
theorem defect_eq_some_iff : (calls.foldl Draft.declare empty).defect = some e ↔ Declared.FirstFault calls e := by
  induction calls using List.reverseRecOn with
  | nil => exact iff_of_false nofun Declared.not_firstFault_nil
  | append_singleton calls call ih =>
    rw [List.foldl_concat, defect_declare, Option.or_eq_some_iff, ih, defect_eq_none_iff,
      ← (reflects_foldl calls).faulty_iff, Declared.firstFault_concat]

/-! ### Closing a draft -/

theorem Reflects.any_rules_iff (h : d.Reflects calls) {x : Symbol} (hx : x ∈ d.symbols) :
    d.rules.any (·.lhs == x) = true ↔ ∃ body, Declared.HasRule calls x.name body := by
  rw [List.any_eq_true]
  constructor
  · rintro ⟨r, hr, hrx⟩
    have hlhs : r.lhs = x := h.eq_of_id_eq (h.heads r hr).1 hx (Symbol.beq_iff_id_eq.mp hrx)
    exact ⟨r.rhs.map (·.name), (h.rules _ _).mp ⟨r, hr, by rw [hlhs], rfl⟩⟩
  · rintro ⟨body, hrule⟩
    obtain ⟨r, hr, hname, -⟩ := (h.rules _ _).mpr hrule
    have hlhs : r.lhs = x := List.inj_on_of_nodup_map h.names (h.heads r hr).1 hx hname
    exact ⟨r, hr, by rw [hlhs, BEq.rfl]⟩

/-- Without a defect, the grammar is refused when the declarations as a whole are unfit for it. -/
theorem Reflects.grammar_eq_error_iff {start : String} (h : d.Reflects calls) (hd : d.defect = none) :
    d.grammar start = .error e ↔ Declared.Unfit calls start e := by
  have hc : (d.declareSymbol .terminal d.endName true).Reflects (Declared.closed calls) :=
    h.endName ▸ h.declare (.symbol .terminal d.endName true)
  rw [grammar, hd, h.endName]
  rw [h.endName] at hc
  generalize d.declareSymbol .terminal (Declared.endName calls) true = closed at hc ⊢
  -- The end mark is there by now, so looking it up cannot fail.
  have hmark : Declared.kindOf? (Declared.closed calls) (Declared.endName calls) ≠ none := fun hnone =>
    (Declared.kindOf?_closed_eq_none_iff.mp hnone).2 rfl
  obtain ⟨eof, heof⟩ := Option.ne_none_iff_exists'.mp (mt hc.kindOf?_eq_none_iff.mpr hmark)
  have hend : Declared.kindOf? calls (Declared.endName calls) = some .nonterminal ↔ eof.isTerminal = false := by
    rw [← Declared.kindOf?_closed_eq_nonterminal_iff, hc.kindOf?_eq_some_iff, isTerminal_eq_false_iff]
    simp [heof]
  have hmissing : closed.symbol? start = none ↔ Declared.kindOf? calls start = none ∧ start ≠ Declared.endName calls :=
    hc.kindOf?_eq_none_iff.symm.trans Declared.kindOf?_closed_eq_none_iff
  rw [Declared.unfit_iff, Ne, hend, lookup_eq_ok_iff_symbol?.mpr heof, lookup]
  cases hkind : eof.isTerminal with
  | false => simp [hkind, bind, Except.bind, throw, throwThe, MonadExceptOf.throw, eq_comm]
  | true =>
    cases hstart : closed.symbol? start with
    | none =>
      obtain ⟨hnone, hne⟩ := hmissing.mp hstart
      simp [hkind, bind, Except.bind, hnone, hne, eq_comm]
    | some x =>
      have hknown : ¬(Declared.kindOf? calls start = none ∧ start ≠ Declared.endName calls) :=
        mt hmissing.mpr (by simp [hstart])
      obtain ⟨hx, rfl⟩ := hc.find?_name_eq_some_iff.mp hstart
      have hrules := hc.any_rules_iff hx
      simp only [Declared.hasRule_closed] at hrules
      cases hany : closed.rules.any (·.lhs == x) with
      | false =>
        rw [hany] at hrules
        simp only [hkind, bind, Except.bind, throw, throwThe, MonadExceptOf.throw, hany]
        grind
      | true =>
        simp only [hkind, bind, Except.bind, hany, pure, Except.pure]
        grind

/-! ### Judging as if a faulty declaration had not been made -/

/-- Two drafts hold the same but for the defect. -/
structure Alike (d d' : Draft) : Prop where
  symbols : d.symbols = d'.symbols
  rules : d.rules = d'.rules
  endMark : d.endMark = d'.endMark

theorem alike_fail : (d.fail e).Alike d := ⟨rfl, rfl, rfl⟩

namespace Alike

variable {d' : Draft}

theorem symbol?_eq (h : d.Alike d') (name : String) : d.symbol? name = d'.symbol? name := by
  rw [symbol?, h.symbols, symbol?]

theorem readRule_eq (h : d.Alike d') (head : String) (body : List String) :
    d.readRule head body = d'.readRule head body := by
  have hlookup : d.lookup = d'.lookup := by
    funext name
    rw [lookup, h.symbol?_eq, lookup]
  rw [readRule, hlookup, h.rules, readRule]

theorem declare (h : d.Alike d') (call : Declaration) : (d.declare call).Alike (d'.declare call) := by
  cases call with
  | symbol kind name quiet =>
    rw [Draft.declare, declareSymbol, h.symbol?_eq, h.symbols, Draft.declare, declareSymbol]
    split
    · exact ⟨rfl, h.rules, h.endMark⟩
    · split <;> exact ⟨h.symbols, h.rules, h.endMark⟩
  | endMark name => exact ⟨h.symbols, h.rules, rfl⟩
  | rule head body quiet =>
    rw [Draft.declare, declareRule, h.readRule_eq, h.rules, Draft.declare, declareRule]
    split
    · exact ⟨h.symbols, h.rules, h.endMark⟩
    · split
      · exact ⟨h.symbols, rfl, h.endMark⟩
      · split <;> exact ⟨h.symbols, h.rules, h.endMark⟩

theorem foldl_declare (h : d.Alike d') (calls : List Declaration) :
    (calls.foldl Draft.declare d).Alike (calls.foldl Draft.declare d') := by
  induction calls generalizing d d' with
  | nil => exact h
  | cons call calls ih => exact ih (h.declare call)

/-- What a draft holds is a matter of its symbols, its rules and its end mark. -/
theorem reflects (h : d.Alike d') (hd : d.Reflects calls) : d'.Reflects calls where
  toSound := by
    rw [← h.symbols, ← h.rules]
    exact hd.toSound
  kinds name := by rw [← h.symbol?_eq, hd.kinds]
  rules head body := by rw [← h.rules, hd.rules]
  endName := by rw [Draft.endName, ← h.endMark, ← hd.endName, Draft.endName]

end Alike

/-- The declarations are unfit when the draft is refused without looking at its defect. -/
theorem Reflects.unfit_iff {start : String} (h : d.Reflects calls) :
    Declared.Unfit calls start e ↔ ({ d with defect := none } : Draft).grammar start = .error e := by
  have halike : d.Alike { d with defect := none } := ⟨rfl, rfl, rfl⟩
  exact ((halike.reflects h).grammar_eq_error_iff rfl).symm

end Draft

/-! ### The mistake reported -/

namespace Declared

variable {calls before after : List Declaration} {call : Declaration} {e : Defect}

theorem faultless_or_firstFault (calls : List Declaration) : Faultless calls ∨ ∃ e, FirstFault calls e := by
  cases hd : (calls.foldl Draft.declare .empty).defect with
  | none => exact Or.inl (Draft.defect_eq_none_iff.mp hd)
  | some e => exact Or.inr ⟨e, Draft.defect_eq_some_iff.mp hd⟩

theorem alike_of_faulty (h : Faulty before call e) (after : List Declaration) :
    ((before ++ call :: after).foldl Draft.declare .empty).Alike ((before ++ after).foldl Draft.declare .empty) := by
  have hfault := (Draft.reflects_foldl before).fault?_of_faulty h
  rw [List.foldl_append, List.foldl_cons, Draft.declare_of_fault? hfault, List.foldl_append]
  exact Draft.alike_fail.foldl_declare after

end Declared

namespace Grammar

variable {calls : List Declaration} {start : String} {e : Defect}

theorem ofDeclarations_eq_error_iff : ofDeclarations calls start = .error e ↔
    Declared.FirstFault calls e ∨ Declared.Faultless calls ∧ Declared.Unfit calls start e := by
  rw [ofDeclarations, ← Draft.defect_eq_some_iff, ← Draft.defect_eq_none_iff]
  cases hd : (calls.foldl Draft.declare .empty).defect with
  | none => simp [(Draft.reflects_foldl calls).grammar_eq_error_iff hd]
  | some first => simp [Draft.grammar, hd, bind, Except.bind, throw, throwThe, MonadExceptOf.throw]

theorem exists_error_iff : (∃ e, ofDeclarations calls start = .error e) ↔
    (∃ before call after e, calls = before ++ call :: after ∧ Declared.Faulty before call e) ∨
      ∃ e, Declared.Unfit calls start e := by
  simp only [ofDeclarations_eq_error_iff]
  constructor
  · rintro ⟨e, ⟨before, call, after, hcalls, hfaulty, -⟩ | ⟨-, hunfit⟩⟩
    · exact Or.inl ⟨before, call, after, e, hcalls, hfaulty⟩
    · exact Or.inr ⟨e, hunfit⟩
  · intro h
    rcases Declared.faultless_or_firstFault calls with hcalls | ⟨e, hfirst⟩
    · rcases h with ⟨before, call, after, e, hsplit, hfaulty⟩ | ⟨e, hunfit⟩
      · exact absurd hfaulty (hcalls before call after hsplit e)
      · exact ⟨e, Or.inr ⟨hcalls, hunfit⟩⟩
    · exact ⟨e, Or.inl hfirst⟩

/-- There is no grammar when a declaration is faulty or all of them are unfit for one, and what is reported is the
    fault of the first faulty declaration, or else what makes them unfit. A faulty declaration leaves the symbols, the
    rules and the end mark as they would be without it, and whatever comes later is judged as it would be without it. -/
theorem reports_first_mistake (calls : List Declaration) (start : String) :
    ((∃ e, ofDeclarations calls start = .error e) ↔
      (∃ before call after e, calls = before ++ call :: after ∧ Declared.Faulty before call e) ∨
        ∃ e, Declared.Unfit calls start e) ∧
    (∀ e, ofDeclarations calls start = .error e ↔
      Declared.FirstFault calls e ∨ Declared.Faultless calls ∧ Declared.Unfit calls start e) ∧
    ∀ before call after e, calls = before ++ call :: after → Declared.Faulty before call e →
      (calls.foldl Draft.declare .empty).Alike ((before ++ after).foldl Draft.declare .empty) ∧
      (∀ later e', Declared.Faulty calls later e' ↔ Declared.Faulty (before ++ after) later e') ∧
      ∀ e', Declared.Unfit calls start e' ↔ Declared.Unfit (before ++ after) start e' := by
  refine ⟨exists_error_iff, fun e => ofDeclarations_eq_error_iff, ?_⟩
  rintro before call after e rfl hfaulty
  have halike := Declared.alike_of_faulty hfaulty after
  have hwith := halike.reflects (Draft.reflects_foldl _)
  have hwithout := Draft.reflects_foldl (before ++ after)
  exact ⟨halike, fun later e' => hwith.faulty_iff.trans hwithout.faulty_iff.symm,
    fun e' => hwith.unfit_iff.trans hwithout.unfit_iff.symm⟩

/-- A rule that is given before the terminal it needs. -/
def hastyCalls : List Declaration :=
  [.symbol .nonterminal "S" false, .rule "S" ["a"] false, .symbol .terminal "a" false]

/-- The hasty rule is what is reported, and to give it again is no mistake. -/
theorem reports_first_mistake_hasty : Declared.FirstFault hastyCalls (.missingSymbol "a") ∧
    ∀ e, ¬Declared.Faulty hastyCalls (.rule "S" ["a"] false) e := by
  obtain ⟨-, hreport, hjudge⟩ := reports_first_mistake hastyCalls "S"
  constructor
  · refine ((hreport _).mp rfl).resolve_right fun hunfit => ?_
    simp [Declared.unfit_iff] at hunfit
  · intro e hfaulty
    have hrule : Declared.Faulty [.symbol .nonterminal "S" false] (.rule "S" ["a"] false) (.missingSymbol "a") :=
      (Draft.reflects_foldl _).faulty_iff.mpr rfl
    have hagain := ((hjudge _ _ [.symbol .terminal "a" false] _ rfl hrule).2.1 _ e).mp hfaulty
    cases (Draft.reflects_foldl _).faulty_iff.mp hagain

end Grammar

end Calcbook
