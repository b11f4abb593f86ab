import Calcbook.Proofs.Formula.Phrase

/-! Reading lexemes by recursive descent, with a function for each part of a formula, as one would write it from the
    rules

        sum     = product { ("+" | "-") product }
        product = factor { ("*" | "/" | "%") factor }
        factor  = "-" factor | atom [ "^" factor ]
        atom    = number | "(" sum ")" | name | name "(" [ sum { "," sum } ] ")"

    Each function takes a part off the front as far as it goes and answers the lexemes behind it, which are fewer.
    What it takes spells a phrase, and a phrase is taken wherever nothing behind it could carry on with it, so
    the lexemes that are read as a formula are those that spell it. -/

namespace Calcbook.Formula

/-- Lexemes that are left over when some were taken. -/
abbrev Shorter (ls : List Lexeme) := { rest : List Lexeme // rest.length < ls.length }

/-- Lexemes that are left over when some or none were taken. -/
abbrev NotLonger (ls : List Lexeme) := { rest : List Lexeme // rest.length ≤ ls.length }

namespace Descent

/-- The operands of sums and products are read on the same lexemes, further down these levels. -/
@[simp]
def level : Chain → Nat
  | .sum => 4
  | .product => 2

/-- The operator, bracket or comma of a text. -/
def mark (text : String) : (ls : List Lexeme) → Option (Shorter ls)
  | [] => none
  | l :: ls => if l.isMark text then some ⟨ls, Nat.lt_succ_self _⟩ else none

/-- The head of an operator of a sum or product. -/
def operator (c : Chain) : (ls : List Lexeme) → Option (String × Shorter ls)
  | [] => none
  | l :: ls => (c.head? l).map (·, ⟨ls, Nat.lt_succ_self _⟩)

mutual
/-- A sum or a product: an operand, and operators with an operand behind each. -/
def chain (c : Chain) (ls : List Lexeme) : Option (Formula × Shorter ls) := do
  let (first, rest) ← operand c ls
  let (f, rest') ← links c first rest.1
  return (f, ⟨rest'.1, Nat.lt_of_le_of_lt rest'.2 rest.2⟩)
termination_by (ls.length, level c + 1)

/-- An operand of a sum or of a product. -/
def operand (c : Chain) (ls : List Lexeme) : Option (Formula × Shorter ls) :=
  match c with
  | .sum => chain .product ls
  | .product => factor ls
termination_by (ls.length, level c)

/-- The operators of a sum or product with their operands, put on what is in front of them one after the other. -/
def links (c : Chain) (first : Formula) (ls : List Lexeme) : Option (Formula × NotLonger ls) :=
  match operator c ls with
  | some (head, rest) => do
    let (next, rest') ← operand c rest.1
    let (f, rest'') ← links c (.call head [first, next]) rest'.1
    return (f, ⟨rest''.1, Nat.le_of_lt (Nat.lt_trans (Nat.lt_of_le_of_lt rest''.2 rest'.2) rest.2)⟩)
  | none => some (first, ⟨ls, Nat.le_refl _⟩)
termination_by (ls.length, 0)

/-- A minus sign and a factor, or an atom and what is behind it. -/
def factor (ls : List Lexeme) : Option (Formula × Shorter ls) :=
  match mark "-" ls with
  | some rest => do
    let (f, rest') ← factor rest.1
    return (.call "Negate" [f], ⟨rest'.1, Nat.lt_trans rest'.2 rest.2⟩)
  | none => do
    let (base, rest) ← atom ls
    let (f, rest') ← exponent base rest.1
    return (f, ⟨rest'.1, Nat.lt_of_le_of_lt rest'.2 rest.2⟩)
termination_by (ls.length, 1)

/-- What is behind an atom: a power sign and a factor, or nothing. -/
def exponent (base : Formula) (ls : List Lexeme) : Option (Formula × NotLonger ls) :=
  match mark "^" ls with
  | some rest => do
    let (f, rest') ← factor rest.1
    return (.call "Power" [base, f], ⟨rest'.1, Nat.le_of_lt (Nat.lt_trans rest'.2 rest.2)⟩)
  | none => some (base, ⟨ls, Nat.le_refl _⟩)
termination_by (ls.length, 0)

/-- A number, a name with what is behind it, or a sum in brackets. -/
def atom (ls : List Lexeme) : Option (Formula × Shorter ls) :=
  match mark "(" ls with
  | some rest => do
    let (f, rest') ← chain .sum rest.1
    let close ← mark ")" rest'.1
    return (f, ⟨close.1, Nat.lt_trans (Nat.lt_trans close.2 rest'.2) rest.2⟩)
  | none =>
    match ls with
    | [] => none
    | l :: ls =>
      match l.kind with
      | .number => do
        let x ← Decimal.read? l.text
        return (.number x, ⟨ls, Nat.lt_succ_self _⟩)
      | .ident => do
        let (f, rest) ← behind l.text ls
        return (f, ⟨rest.1, Nat.lt_succ_of_le rest.2⟩)
      | _ => none
termination_by (ls.length, 0)

/-- What is behind a name: the arguments of a call in brackets, or nothing. -/
def behind (name : String) (ls : List Lexeme) : Option (Formula × NotLonger ls) :=
  match mark "(" ls with
  | some rest => do
    let (fs, rest') ← args rest.1
    let close ← mark ")" rest'.1
    return (.call name fs, ⟨close.1, Nat.le_of_lt (Nat.lt_trans (Nat.lt_of_lt_of_le close.2 rest'.2) rest.2)⟩)
  | none => some (.symbol name, ⟨ls, Nat.le_refl _⟩)
termination_by (ls.length, 0)

/-- The arguments of a call. There are none if the bracket that closes them comes first. -/
def args (ls : List Lexeme) : Option (List Formula × NotLonger ls) :=
  match mark ")" ls with
  | some _ => some ([], ⟨ls, Nat.le_refl _⟩)
  | none => do
    let (f, rest) ← chain .sum ls
    let (fs, rest') ← moreArgs rest.1
    return (f :: fs, ⟨rest'.1, Nat.le_of_lt (Nat.lt_of_le_of_lt rest'.2 rest.2)⟩)
termination_by (ls.length, 6)

/-- The arguments behind the first one, with a comma before each. -/
def moreArgs (ls : List Lexeme) : Option (List Formula × NotLonger ls) :=
  match mark "," ls with
  | some rest => do
    let (f, rest') ← chain .sum rest.1
    let (fs, rest'') ← moreArgs rest'.1
    return (f :: fs, ⟨rest''.1, Nat.le_of_lt (Nat.lt_trans (Nat.lt_of_le_of_lt rest''.2 rest'.2) rest.2)⟩)
  | none => some ([], ⟨ls, Nat.le_refl _⟩)
termination_by (ls.length, 0)
end

/-- Reads lexemes as a formula, none of them left over. -/
def read? (ls : List Lexeme) : Option Formula :=
  match chain .sum ls with
  | some (f, ⟨[], _⟩) => some f
  | _ => none

/-! ### What is taken spells a phrase -/

variable {c : Chain} {ls rest used : List Lexeme} {text : String} {d : Nat} {p : Phrase}

theorem mark_eq_some {more : Shorter ls} (h : mark text ls = some more) : ∃ l, ls = [l] ++ more.1 ∧ l.isMark text = true := by
  cases ls with
  | nil => cases h
  | cons l ls =>
    rw [mark] at h
    split at h
    · cases h
      exact ⟨l, rfl, ‹_›⟩
    · cases h

theorem operator_eq_some {head : String} {more : Shorter ls} (h : operator c ls = some (head, more)) :
    ∃ l, ls = [l] ++ more.1 ∧ c.head? l = some head := by
  cases ls with
  | nil => cases h
  | cons l ls =>
    obtain ⟨head, hop, heq⟩ := Option.map_eq_some_iff.mp h
    cases heq
    exact ⟨l, rfl, hop⟩

/-- Lexemes up to some rest spell a phrase. -/
def Spells (p : Phrase) (ls rest : List Lexeme) : Prop := ∃ used d, ls = used ++ rest ∧ p.Spelled used d

theorem append_trans {used' mid : List Lexeme} (h : ls = used ++ mid) (h' : mid = used' ++ rest) :
    ls = used ++ used' ++ rest := by
  rw [h, h', List.append_assoc]

/-- All that the functions take spells what they answer. -/
theorem spells_of_descent :
    (∀ c ls, ∀ f rest, chain c ls = some (f, rest) → Spells (.chain c f) ls rest.1) ∧
    (∀ c first ls, ∀ f rest, links c first ls = some (f, rest) → Spells (.links c first f) ls rest.1) ∧
    (∀ c ls, ∀ f rest, operand c ls = some (f, rest) → Spells (c.operand f) ls rest.1) ∧
    (∀ ls, ∀ f rest, factor ls = some (f, rest) → Spells (.factor f) ls rest.1) ∧
    (∀ base ls, ∀ f rest, exponent base ls = some (f, rest) → Spells (.exponent base f) ls rest.1) ∧
    (∀ ls, ∀ f rest, atom ls = some (f, rest) → Spells (.atom f) ls rest.1) ∧
    (∀ name ls, ∀ f rest, behind name ls = some (f, rest) → Spells (.behind name f) ls rest.1) ∧
    (∀ ls, ∀ fs rest, args ls = some (fs, rest) → Spells (.args fs) ls rest.1) ∧
    ∀ ls, ∀ fs rest, moreArgs ls = some (fs, rest) → Spells (.moreArgs fs) ls rest.1 := by
  apply chain.mutual_induct
  -- Sums and products, and their operands.
  case case1 =>
    intro c ls ihoperand ihlinks f rest h
    rw [chain] at h
    simp only [Option.bind_eq_bind, Option.bind_eq_some_iff, Prod.exists] at h
    obtain ⟨first, mid, hoperand, f, rest, hlinks, ⟨⟩⟩ := h
    obtain ⟨used, d, hls, hfirst⟩ := ihoperand _ _ hoperand
    obtain ⟨used', e, hmid, hlinks⟩ := ihlinks _ _ _ _ hlinks
    exact ⟨_, _, append_trans hls hmid, .chain hfirst hlinks⟩
  case case2 =>
    intro c first ls head more hoperator ihoperand ihlinks f rest h
    rw [links, hoperator] at h
    simp only [Option.bind_eq_bind, Option.bind_eq_some_iff, Prod.exists] at h
    obtain ⟨next, mid, hoperand, f, rest, hlinks, ⟨⟩⟩ := h
    obtain ⟨op, hls, hop⟩ := operator_eq_some hoperator
    obtain ⟨used, d, hmore, hnext⟩ := ihoperand _ _ hoperand
    obtain ⟨used', e, hmid, hlinks⟩ := ihlinks _ _ _ _ hlinks
    exact ⟨op :: (used ++ used'), _, append_trans hls (append_trans hmore hmid), .link hop hnext hlinks⟩
  case case3 =>
    intro c first ls hoperator f rest h
    rw [links, hoperator] at h
    cases h
    exact ⟨[], _, rfl, .noLink⟩
  case case4 =>
    intro ls ih f rest h
    rw [operand] at h
    exact ih f rest h
  case case5 =>
    intro ls ih f rest h
    rw [operand] at h
    exact ih f rest h
  -- Factors and exponents.
  case case6 =>
    intro ls more hmark ih f rest h
    rw [factor, hmark] at h
    simp only [Option.bind_eq_bind, Option.bind_eq_some_iff, Prod.exists] at h
    obtain ⟨f, rest, hfactor, ⟨⟩⟩ := h
    obtain ⟨op, hls, hop⟩ := mark_eq_some hmark
    obtain ⟨used, d, hmore, hfactor⟩ := ih _ _ hfactor
    exact ⟨_, _, append_trans hls hmore, .negation hop hfactor⟩
  case case7 =>
    intro ls hmark ihatom ihexponent f rest h
    rw [factor, hmark] at h
    simp only [Option.bind_eq_bind, Option.bind_eq_some_iff, Prod.exists] at h
    obtain ⟨base, mid, hatom, f, rest, hexponent, ⟨⟩⟩ := h
    obtain ⟨used, d, hls, hbase⟩ := ihatom _ _ hatom
    obtain ⟨used', e, hmid, hexponent⟩ := ihexponent _ _ _ _ hexponent
    exact ⟨_, _, append_trans hls hmid, .factor (.power hbase hexponent)⟩
  case case8 =>
    intro base ls more hmark ih f rest h
    rw [exponent, hmark] at h
    simp only [Option.bind_eq_bind, Option.bind_eq_some_iff, Prod.exists] at h
    obtain ⟨f, rest, hfactor, ⟨⟩⟩ := h
    obtain ⟨op, hls, hop⟩ := mark_eq_some hmark
    obtain ⟨used, d, hmore, hfactor⟩ := ih _ _ hfactor
    exact ⟨_, _, append_trans hls hmore, .exponent hop hfactor⟩
  case case9 =>
    intro base ls hmark f rest h
    rw [exponent, hmark] at h
    cases h
    exact ⟨[], _, rfl, .noExponent⟩
  -- Atoms, and what is behind a name. The equations of atoms split the lexemes first, so brackets go by the definition.
  case case10 =>
    intro ls more hmark ih f rest h
    rw [atom.eq_def, hmark] at h
    simp only [Option.bind_eq_bind, Option.bind_eq_some_iff, Prod.exists] at h
    obtain ⟨f, mid, hsum, close, hclose, ⟨⟩⟩ := h
    obtain ⟨o, hls, hopen⟩ := mark_eq_some hmark
    obtain ⟨used, d, hmore, hsum⟩ := ih _ _ hsum
    obtain ⟨c, hmid, hclose⟩ := mark_eq_some hclose
    exact ⟨_, _, append_trans hls (append_trans hmore hmid), .brackets hopen hsum hclose⟩
  case case11 =>
    intro _ f rest _
    exact absurd rest.2 (Nat.not_lt_zero _)
  case case12 =>
    intro l ls hkind hmark f rest h
    rw [atom, hmark] at h
    simp only [hkind, Option.bind_eq_bind, Option.bind_eq_some_iff] at h
    obtain ⟨x, hread, ⟨⟩⟩ := h
    exact ⟨[l], _, rfl, .number hkind hread⟩
  case case13 =>
    intro l ls hkind hmark ih f rest h
    rw [atom, hmark] at h
    simp only [hkind, Option.bind_eq_bind, Option.bind_eq_some_iff, Prod.exists] at h
    obtain ⟨f, rest, hbehind, ⟨⟩⟩ := h
    obtain ⟨used, d, hls, hbehind⟩ := ih _ _ hbehind
    exact ⟨l :: used, _, congrArg (l :: ·) hls, .name hkind hbehind⟩
  case case14 =>
    intro l ls hnumber hident hmark f rest h
    rw [atom, hmark] at h
    simp only at h
    cases h
  case case15 =>
    intro name ls more hmark ih f rest h
    rw [behind, hmark] at h
    simp only [Option.bind_eq_bind, Option.bind_eq_some_iff, Prod.exists] at h
    obtain ⟨fs, mid, hargs, close, hclose, ⟨⟩⟩ := h
    obtain ⟨o, hls, hopen⟩ := mark_eq_some hmark
    obtain ⟨used, d, hmore, hargs⟩ := ih _ _ hargs
    obtain ⟨c, hmid, hclose⟩ := mark_eq_some hclose
    exact ⟨_, _, append_trans hls (append_trans hmore hmid), .call hopen hargs hclose⟩
  case case16 =>
    intro name ls hmark f rest h
    rw [behind, hmark] at h
    cases h
    exact ⟨[], _, rfl, .symbol⟩
  -- Arguments.
  case case17 =>
    intro ls more hmark fs rest h
    rw [args, hmark] at h
    cases h
    exact ⟨[], _, rfl, .noArgs⟩
  case case18 =>
    intro ls hmark ihsum ihmore fs rest h
    rw [args, hmark] at h
    simp only [Option.bind_eq_bind, Option.bind_eq_some_iff, Prod.exists] at h
    obtain ⟨f, mid, hsum, fs, rest, hmore, ⟨⟩⟩ := h
    obtain ⟨used, d, hls, hsum⟩ := ihsum _ _ hsum
    obtain ⟨used', e, hmid, hmore⟩ := ihmore _ _ _ hmore
    exact ⟨_, _, append_trans hls hmid, .args hsum hmore⟩
  case case19 =>
    intro ls more hmark ihsum ihmore fs rest h
    rw [moreArgs, hmark] at h
    simp only [Option.bind_eq_bind, Option.bind_eq_some_iff, Prod.exists] at h
    obtain ⟨f, mid, hsum, fs, rest, hmore, ⟨⟩⟩ := h
    obtain ⟨op, hls, hcomma⟩ := mark_eq_some hmark
    obtain ⟨used, d, hused, hsum⟩ := ihsum _ _ hsum
    obtain ⟨used', e, hmid, hmore⟩ := ihmore _ _ _ hmore
    exact ⟨op :: (used ++ used'), _, append_trans hls (append_trans hused hmid), .moreArgs hcomma hsum hmore⟩
  case case20 =>
    intro ls hmark fs rest h
    rw [moreArgs, hmark] at h
    cases h
    exact ⟨[], _, rfl, .noMoreArgs⟩

/-! ### What spells a phrase is taken -/

/-- No operator, bracket or comma of some texts comes first. -/
def Clear (texts : List String) (ls : List Lexeme) : Prop := ∀ l ∈ ls.head?, ∀ text ∈ texts, l.isMark text = false

theorem isMark_eq_false {l : Lexeme} {text' : String} (h : l.isMark text = true) (hne : text' ≠ text) :
    l.isMark text' = false := by
  rw [Lexeme.isMark, eq_of_beq (Bool.and_eq_true_iff.mp h).2]
  simp [hne.symm]

theorem isMark_eq_false_of_kind {l : Lexeme} (h : l.kind.isMark = false) : l.isMark text = false := by
  rw [Lexeme.isMark, h, Bool.false_and]

theorem clear_cons_of_isMark {texts : List String} {l : Lexeme} (h : l.isMark text = true) (hnot : text ∉ texts) :
    Clear texts (l :: ls) := by
  rintro _ ⟨⟩ text' htext'
  exact isMark_eq_false h fun heq => hnot (heq ▸ htext')

theorem Clear.mono {texts texts' : List String} (h : Clear texts ls) (hsub : texts' ⊆ texts) : Clear texts' ls :=
  fun l hl text htext => h l hl text (hsub htext)

theorem Clear.mark_eq_none {texts : List String} (h : Clear texts ls) (htext : text ∈ texts) : mark text ls = none := by
  cases ls with
  | nil => rfl
  | cons l ls => exact if_neg (Bool.eq_false_iff.mp (h l rfl text htext))

theorem mark_cons {l : Lexeme} (h : l.isMark text = true) : mark text (l :: ls) = some ⟨ls, Nat.lt_succ_self _⟩ :=
  if_pos h

theorem mark_cons_of_kind {l : Lexeme} (h : l.kind.isMark = false) : mark text (l :: ls) = none :=
  if_neg (Bool.eq_false_iff.mp (isMark_eq_false_of_kind h))

/-- The lexemes that would carry on with a phrase of operators of a level. -/
def stops : Chain → List String
  | .product => ["(", "^", "*", "/", "%"]
  | .sum => ["(", "^", "*", "/", "%", "+", "-"]

theorem Clear.operator_eq_none (h : Clear (stops c) ls) : operator c ls = none := by
  cases ls with
  | nil => rfl
  | cons l ls =>
    have hnone : c.head? l = none := by
      rw [Chain.head?]
      split
      · rename_i hkind
        refine List.lookup_eq_none_iff.mpr fun x hx => ?_
        have hclear := h l rfl x.1 (by cases c <;> revert x <;> decide)
        rw [Lexeme.isMark, hkind, Bool.true_and] at hclear
        rw [bne, hclear]
        rfl
      · rfl
    rw [operator, hnone]
    rfl

/-- What may stand behind a phrase, or comes first there. -/
def Ends (rest : List Lexeme) : Phrase → Prop
  | .chain c _ | .links c _ _ => Clear (stops c) rest
  | .factor _ | .power _ | .exponent _ _ => Clear ["(", "^"] rest
  | .atom _ | .behind _ _ => Clear ["("] rest
  | .args _ | .moreArgs _ => ∃ close rest', rest = close :: rest' ∧ close.isMark ")" = true

/-- A phrase is taken off the front, and the rest is left over. -/
def Takes (ls rest : List Lexeme) : Phrase → Prop
  | .chain c f => ∃ h, chain c ls = some (f, ⟨rest, h⟩)
  | .links c first f => ∃ h, links c first ls = some (f, ⟨rest, h⟩)
  | .factor f | .power f => ∃ h, factor ls = some (f, ⟨rest, h⟩)
  | .exponent base f => ∃ h, exponent base ls = some (f, ⟨rest, h⟩)
  | .atom f => ∃ h, atom ls = some (f, ⟨rest, h⟩)
  | .behind name f => ∃ h, behind name ls = some (f, ⟨rest, h⟩)
  | .args fs => ∃ h, args ls = some (fs, ⟨rest, h⟩)
  | .moreArgs fs => ∃ h, moreArgs ls = some (fs, ⟨rest, h⟩)

/-- Sums, products and all below them begin with a lexeme, which is no closing bracket, and no minus sign either from
    powers on downwards. -/
def Begins (ls : List Lexeme) : Phrase → Prop
  | .chain _ _ | .factor _ => ∃ l ls', ls = l :: ls' ∧ l.isMark ")" = false
  | .power _ | .atom _ => ∃ l ls', ls = l :: ls' ∧ l.isMark ")" = false ∧ l.isMark "-" = false
  | _ => True

theorem begins_of_spelled (h : p.Spelled ls d) : Begins ls p := by
  induction h with
  | @chain c first f ls ms d e _ _ ih _ =>
    obtain ⟨l, ls', rfl, hl⟩ : ∃ l ls', ls = l :: ls' ∧ l.isMark ")" = false := by cases c <;> exact ih
    exact ⟨l, ls' ++ ms, rfl, hl⟩
  | negation hop => exact ⟨_, _, rfl, isMark_eq_false hop (by decide)⟩
  | factor _ ih =>
    obtain ⟨l, ls', rfl, hl, -⟩ := ih
    exact ⟨l, ls', rfl, hl⟩
  | @power _ _ _ ms _ _ _ _ ih =>
    obtain ⟨l, ls', rfl, hl⟩ := ih
    exact ⟨l, ls' ++ ms, rfl, hl⟩
  | number hkind => exact ⟨_, _, rfl, isMark_eq_false_of_kind (by rw [hkind]; rfl), isMark_eq_false_of_kind (by rw [hkind]; rfl)⟩
  | name hkind => exact ⟨_, _, rfl, isMark_eq_false_of_kind (by rw [hkind]; rfl), isMark_eq_false_of_kind (by rw [hkind]; rfl)⟩
  | brackets hopen => exact ⟨_, _, rfl, isMark_eq_false hopen (by decide), isMark_eq_false hopen (by decide)⟩
  | _ => trivial

/-- What comes behind an operand, be it an operator or what is behind them all, does not carry on with it. -/
theorem ends_operand {f first : Formula} (hlinks : (Phrase.links c first f).Spelled used d) (hrest : Clear (stops c) rest)
    (g : Formula) : Ends (used ++ rest) (c.operand g) := by
  have hsub : stops .product ⊆ stops .sum ∧ ["(", "^"] ⊆ stops .product := by decide
  cases hlinks with
  | @link _ op head _ _ _ _ _ _ _ hop =>
    obtain ⟨hmark, hmem⟩ := Chain.mem_operators hop
    have hnot : ∀ x ∈ Chain.sum.operators, x.1 ∉ stops .product := by decide
    have hnot' : ∀ x ∈ Chain.product.operators, x.1 ∉ ["(", "^"] := by decide
    cases c with
    | sum => exact clear_cons_of_isMark hmark (hnot _ hmem)
    | product => exact clear_cons_of_isMark hmark (hnot' _ hmem)
  | noLink =>
    cases c with
    | sum => exact hrest.mono hsub.1
    | product => exact hrest.mono hsub.2

theorem ends_atom {base f : Formula} (hexponent : (Phrase.exponent base f).Spelled used d) (hrest : Clear ["(", "^"] rest) :
    Clear ["("] (used ++ rest) := by
  cases hexponent with
  | exponent hop => exact clear_cons_of_isMark hop (by decide)
  | noExponent => exact hrest.mono (by decide)

/-- A closing bracket or a comma carries on with nothing but arguments. -/
theorem ends_sum {fs : List Formula} (hmore : (Phrase.moreArgs fs).Spelled used d)
    (hrest : ∃ close rest', rest = close :: rest' ∧ close.isMark ")" = true) : Clear (stops .sum) (used ++ rest) := by
  cases hmore with
  | moreArgs hcomma => exact clear_cons_of_isMark hcomma (by decide)
  | noMoreArgs =>
    obtain ⟨close, rest', rfl, hclose⟩ := hrest
    exact clear_cons_of_isMark hclose (by decide)

theorem takes_operand {f : Formula} (h : Takes ls rest (c.operand f)) : ∃ h, operand c ls = some (f, ⟨rest, h⟩) := by
  cases c with
  | sum =>
    rw [operand]
    exact h
  | product =>
    rw [operand]
    exact h

/-- What spells a phrase is taken when nothing behind it carries on with it. -/
theorem takes_of_spelled (h : p.Spelled ls d) (rest : List Lexeme) (hends : Ends rest p) : Takes (ls ++ rest) rest p := by
  -- What is behind a part begins with the part after it, or with the rest if that is empty.
  induction h generalizing rest with
  | @chain c first f ls ms d e hfirst hlinks ihfirst ihlinks =>
    obtain ⟨h₁, hoperand⟩ := takes_operand (ihfirst (ms ++ rest) (ends_operand hlinks hends first))
    obtain ⟨h₂, hlinks⟩ := ihlinks rest hends
    rw [List.append_assoc]
    exact ⟨_, by rw [chain, hoperand]; exact congrArg (· >>= _) hlinks⟩
  | @link c op head first next f ls ms d e hop _ hlinks ihnext ihlinks =>
    obtain ⟨h₁, hoperand⟩ := takes_operand (ihnext (ms ++ rest) (ends_operand hlinks hends next))
    obtain ⟨h₂, hlinks⟩ := ihlinks rest hends
    have hoperator : operator c (op :: (ls ++ (ms ++ rest))) = some (head, ⟨_, Nat.lt_succ_self _⟩) := by
      rw [operator, hop]
      rfl
    rw [List.cons_append, List.append_assoc]
    refine ⟨Nat.le_of_lt (Nat.lt_succ_of_lt (Nat.lt_of_le_of_lt h₂ h₁)), ?_⟩
    rw [links, hoperator]
    dsimp only
    rw [hoperand]
    exact congrArg (· >>= _) hlinks
  | noLink =>
    rw [List.nil_append]
    refine ⟨Nat.le_refl _, ?_⟩
    rw [links, hends.operator_eq_none]
  | negation hop _ ih =>
    obtain ⟨h, hfactor⟩ := ih rest hends
    rw [List.cons_append]
    refine ⟨Nat.lt_succ_of_lt h, ?_⟩
    rw [factor, mark_cons hop]
    exact congrArg (· >>= _) hfactor
  | factor _ ih => exact ih rest hends
  | @power base f ls ms d e hbase hexponent ihbase ihexponent =>
    obtain ⟨h₁, hatom⟩ := ihbase (ms ++ rest) (ends_atom hexponent hends)
    obtain ⟨h₂, hexponent⟩ := ihexponent rest hends
    -- An atom is not taken for a negation.
    have hminus : mark "-" (ls ++ (ms ++ rest)) = none := by
      obtain ⟨l, ls', rfl, -, hl⟩ := begins_of_spelled hbase
      exact if_neg (Bool.eq_false_iff.mp hl)
    rw [List.append_assoc]
    refine ⟨Nat.lt_of_le_of_lt h₂ h₁, ?_⟩
    rw [factor, hminus]
    dsimp only
    rw [hatom]
    exact congrArg (· >>= _) hexponent
  | exponent hop _ ih =>
    obtain ⟨h, hfactor⟩ := ih rest hends
    rw [List.cons_append]
    refine ⟨Nat.le_of_lt (Nat.lt_succ_of_lt h), ?_⟩
    rw [exponent, mark_cons hop]
    exact congrArg (· >>= _) hfactor
  | noExponent =>
    rw [List.nil_append]
    refine ⟨Nat.le_refl _, ?_⟩
    rw [exponent, hends.mark_eq_none (by decide)]
  | number hkind hread =>
    rw [List.singleton_append]
    refine ⟨Nat.lt_succ_self _, ?_⟩
    rw [atom.eq_def, mark_cons_of_kind (by rw [hkind]; rfl)]
    simp only [hkind, hread]
    rfl
  | @brackets o close f ls d hopen _ hclose ih =>
    obtain ⟨h, hsum⟩ := ih (close :: rest) (clear_cons_of_isMark hclose (by decide))
    rw [List.cons_append, List.append_assoc, List.singleton_append]
    refine ⟨Nat.lt_succ_of_lt (Nat.lt_of_succ_lt h), ?_⟩
    rw [atom.eq_def, mark_cons hopen]
    dsimp only
    rw [hsum]
    exact congrArg (· >>= _) (mark_cons hclose)
  | name hkind _ ih =>
    obtain ⟨h, hbehind⟩ := ih rest hends
    rw [List.cons_append]
    refine ⟨Nat.lt_succ_of_le h, ?_⟩
    rw [atom.eq_def, mark_cons_of_kind (by rw [hkind]; rfl)]
    simp only [hkind, hbehind]
    rfl
  | @call o close name fs ls d hopen _ hclose ih =>
    obtain ⟨h, hargs⟩ := ih (close :: rest) ⟨close, rest, rfl, hclose⟩
    rw [List.cons_append, List.append_assoc, List.singleton_append]
    refine ⟨Nat.le_of_lt (Nat.lt_succ_of_lt (Nat.lt_of_succ_le h)), ?_⟩
    rw [behind, mark_cons hopen]
    dsimp only
    rw [hargs]
    exact congrArg (· >>= _) (mark_cons hclose)
  | symbol =>
    rw [List.nil_append]
    refine ⟨Nat.le_refl _, ?_⟩
    rw [behind, hends.mark_eq_none (by decide)]
  | @args f fs ls ms d e hsum hmore ihsum ihmore =>
    obtain ⟨h₁, hchain⟩ := ihsum (ms ++ rest) (ends_sum hmore hends)
    obtain ⟨h₂, hmore⟩ := ihmore rest hends
    -- Nor is an argument taken for the end of the arguments.
    have hclose : mark ")" (ls ++ (ms ++ rest)) = none := by
      obtain ⟨l, ls', rfl, hl⟩ := begins_of_spelled hsum
      exact if_neg (Bool.eq_false_iff.mp hl)
    rw [List.append_assoc]
    refine ⟨Nat.le_of_lt (Nat.lt_of_le_of_lt h₂ h₁), ?_⟩
    rw [args, hclose]
    dsimp only
    rw [hchain]
    exact congrArg (· >>= _) hmore
  | noArgs =>
    obtain ⟨close, rest', rfl, hclose⟩ := hends
    rw [List.nil_append]
    refine ⟨Nat.le_refl _, ?_⟩
    rw [args, mark_cons hclose]
  | @moreArgs op f fs ls ms d e hcomma hsum hmore ihsum ihmore =>
    obtain ⟨h₁, hchain⟩ := ihsum (ms ++ rest) (ends_sum hmore hends)
    obtain ⟨h₂, hmore⟩ := ihmore rest hends
    rw [List.cons_append, List.append_assoc]
    refine ⟨Nat.le_of_lt (Nat.lt_succ_of_lt (Nat.lt_of_le_of_lt h₂ h₁)), ?_⟩
    rw [moreArgs, mark_cons hcomma]
    dsimp only
    rw [hchain]
    exact congrArg (· >>= _) hmore
  | noMoreArgs =>
    obtain ⟨close, rest', rfl, hclose⟩ := hends
    rw [List.nil_append]
    refine ⟨Nat.le_refl _, ?_⟩
    have hclear : Clear [","] (close :: rest') := clear_cons_of_isMark hclose (by decide)
    rw [moreArgs, hclear.mark_eq_none (by decide)]

/-- The lexemes that are read as a formula are those that spell it. -/
theorem read?_eq_some_iff {f : Formula} : read? ls = some f ↔ ∃ d, (Phrase.chain .sum f).Spelled ls d := by
  constructor
  · intro h
    rw [read?] at h
    split at h
    · rename_i _ _ hchain
      cases h
      obtain ⟨used, d, hls, hspelled⟩ := spells_of_descent.1 _ _ _ _ hchain
      rw [List.append_nil] at hls
      exact ⟨d, hls ▸ hspelled⟩
    · cases h
  · rintro ⟨d, h⟩
    have htakes := takes_of_spelled h [] nofun
    rw [List.append_nil] at htakes
    obtain ⟨hlt, hchain⟩ := htakes
    rw [read?, hchain]

end Descent

end Calcbook.Formula
