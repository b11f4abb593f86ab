import Calcbook.Formula.Text
import Calcbook.Proofs.Decimal.Text
import Calcbook.Proofs.Formula.Parts
import Calcbook.Proofs.Formula.Spelling
import Calcbook.Proofs.Formula.Trees

/-! Reading the text of a formula gives the formula back. Negative numbers are the exception: their text begins with a minus
    sign, and they are read as negations of what is behind it. An operand is put in brackets wherever it would not be
    a phrase that may stand there, and how loosely a formula holds together says which phrase its text is. -/

namespace Calcbook.Formula
open Double

/-! ### Formulas with a text that can be read -/

mutual
/-- Each negative number replaced by the negation of its magnitude. -/
def norm : Formula → Formula
  | number x => if x < 0 then call "Negate" [number (-x)] else number x
  | symbol name => symbol name
  | call head args => call head (normAll args)

/-- Negative numbers replaced in all of some formulas. -/
def normAll : List Formula → List Formula
  | [] => []
  | a :: as => norm a :: normAll as
end

theorem normAll_eq_map (args : List Formula) : normAll args = args.map norm := by
  induction args with
  | nil => rfl
  | cons a args ih => rw [normAll, ih, List.map_cons]

theorem argTexts_eq_map (args : List Formula) : argTexts args = args.map fun a => (looseness a, text a) := by
  induction args with
  | nil => rfl
  | cons a args ih => rw [argTexts, ih, List.map_cons]

/-- Formulas of finite numbers, none of them a negative zero, whose symbols and heads are identifiers. -/
structure Printable (f : Formula) : Prop where
  numbers : ∀ x, number x ∈ f.parts → x.isFinite = true ∧ x ≠ -0.0
  symbols : ∀ name, symbol name ∈ f.parts → Lexeme.IsIdentifier name.toList
  heads : ∀ head args, call head args ∈ f.parts → Lexeme.IsIdentifier head.toList

variable {f g : Formula} {args : List Formula} {head : String}

theorem Printable.of_mem_args (h : (call head args).Printable) {a : Formula} (ha : a ∈ args) : a.Printable where
  numbers x hx := h.numbers x (mem_parts_of_mem_args ha hx)
  symbols name hname := h.symbols name (mem_parts_of_mem_args ha hname)
  heads head args hcall := h.heads head args (mem_parts_of_mem_args ha hcall)

/-! ### Levels -/

/-- The phrases that formulas are, from those that hold together the tightest. -/
def level : Nat → Formula → Phrase
  | 0, f => .atom f
  | 1, f => .power f
  | 2, f => .factor f
  | 3, f => .chain .product f
  | _, f => .chain .sum f

/-- The level of formulas that hold together so loosely. -/
def rank (looseness : Nat) : Nat :=
  if looseness < 40 then 0 else if looseness < 45 then 1 else if looseness < 60 then 2 else if looseness < 70 then 3 else 4

theorem rank_mono {l l' : Nat} (h : l ≤ l') : rank l ≤ rank l' := by
  grind [rank]

variable {cs : List Char} {i j : Nat}

theorem Writes.mono (hij : i ≤ j) (h : Writes (level i f) cs) : Writes (level j f) cs := by
  induction hij with
  | refl => exact h
  | @step j _ ih =>
    refine Cuts.mono ih fun ls ⟨d, hls⟩ => ?_
    match j, hls with
    | 0, hls => exact ⟨_, hls.power_of_atom⟩
    | 1, hls => exact ⟨_, .factor hls⟩
    | 2, hls => exact ⟨_, hls.product_of_factor⟩
    | 3, hls => exact ⟨_, hls.sum_of_product⟩
    | _ + 4, hls => exact ⟨_, hls⟩

theorem rank_le (l : Nat) : rank l ≤ 4 := by
  grind [rank]

/-- What a formula is in the place of an operand: of any level in brackets, and of the level of the place without. -/
theorem writes_operand {a : Formula} (h : Writes (level (rank (looseness a)) a.norm) a.text.toList) {brackets : Bool}
    (hb : brackets = false → rank (looseness a) ≤ j) : Writes (level j a.norm) (bracketed brackets a.text).toList := by
  cases brackets with
  | false => exact Writes.mono (hb rfl) h
  | true =>
    have hsum : Writes (.chain .sum a.norm) a.text.toList := Writes.mono (rank_le _) h
    refine Writes.mono (Nat.zero_le j) ?_
    rw [bracketed, if_pos rfl, String.toList_append, String.toList_append, List.append_assoc]
    exact hsum.brackets

/-! ### Calls -/

variable {a b : Formula}

theorem writes_negate (h : Writes (level (rank (looseness a)) a.norm) a.text.toList) :
    Writes (.factor (call "Negate" [a.norm])) (text (call "Negate" [a])).toList := by
  have htext : text (call "Negate" [a]) = "-" ++ bracketed (looseness a > 45) a.text := rfl
  have hoperand : Writes (.factor a.norm) (bracketed (looseness a > 45) a.text).toList :=
    writes_operand (j := 2) h fun hb => rank_mono (by simpa using hb : looseness a ≤ 45)
  rw [htext, String.toList_append]
  exact hoperand.negation

theorem writes_power (ha : Writes (level (rank (looseness a)) a.norm) a.text.toList)
    (hb : Writes (level (rank (looseness b)) b.norm) b.text.toList) :
    Writes (.power (call "Power" [a.norm, b.norm])) (text (call "Power" [a, b])).toList := by
  have htext : text (call "Power" [a, b]) = bracketed (looseness a > 40 || (looseness a == 40 && true)) a.text ++ " ^ " ++
    bracketed (looseness b > 40 || (looseness b == 40 && false)) b.text := rfl
  have hbase : Writes (.atom a.norm) (bracketed (looseness a > 40 || (looseness a == 40 && true)) a.text).toList :=
    writes_operand (j := 0) ha fun hb => rank_mono (by simp at hb; omega : looseness a ≤ 39)
  have hexponent : Writes (.factor b.norm) (bracketed (looseness b > 40 || (looseness b == 40 && false)) b.text).toList :=
    writes_operand (j := 2) hb fun hb => rank_mono (by simp at hb; omega : looseness b ≤ 45)
  rw [htext, String.toList_append, String.toList_append, List.append_assoc]
  exact hbase.power hexponent

/-- How loosely a chain holds together. -/
def Chain.looseness : Chain → Nat
  | sum => 70
  | product => 60

theorem Chain.level_looseness (k : Chain) (f : Formula) : level (rank k.looseness) f = .chain k f := by
  cases k <;> rfl

theorem Chain.level_operand (k : Chain) (f : Formula) : level (rank (k.looseness - 1)) f = k.operand f := by
  cases k <;> rfl

/-- An operator of a chain is one character, and stands between blanks and the operands. -/
theorem Chain.text_call {k : Chain} {op head : String} (h : (op, head) ∈ k.operators) (a b : Formula) :
    callLooseness head 2 = k.looseness ∧ ∃ c, isOperator c = true ∧ k.operators.lookup (String.ofList [c]) = some head ∧
      text (call head [a, b]) =
        bracketed (Formula.looseness a > k.looseness || (Formula.looseness a == k.looseness && false)) a.text ++
          String.ofList [' ', c, ' '] ++
        bracketed (Formula.looseness b > k.looseness || (Formula.looseness b == k.looseness && true)) b.text := by
  cases k <;> simp only [operators, List.mem_cons, List.not_mem_nil, or_false, Prod.mk.injEq] at h
  · rcases h with ⟨-, rfl⟩ | ⟨-, rfl⟩
    · exact ⟨rfl, '+', rfl, rfl, rfl⟩
    · exact ⟨rfl, '-', rfl, rfl, rfl⟩
  · rcases h with ⟨-, rfl⟩ | ⟨-, rfl⟩ | ⟨-, rfl⟩
    · exact ⟨rfl, '*', rfl, rfl, rfl⟩
    · exact ⟨rfl, '/', rfl, rfl, rfl⟩
    · exact ⟨rfl, '%', rfl, rfl, rfl⟩

theorem writes_chain {k : Chain} {op head : String} (h : (op, head) ∈ k.operators)
    (ha : Writes (level (rank (looseness a)) a.norm) a.text.toList)
    (hb : Writes (level (rank (looseness b)) b.norm) b.text.toList) :
    Writes (.chain k (call head [a.norm, b.norm])) (text (call head [a, b])).toList := by
  obtain ⟨-, c, hop, hhead, htext⟩ := Chain.text_call h a b
  rw [htext, String.toList_append, String.toList_append, String.toList_ofList, List.append_assoc]
  have hfirst : Writes (.chain k a.norm)
      (bracketed (looseness a > k.looseness || (looseness a == k.looseness && false)) a.text).toList := by
    rw [← k.level_looseness]
    exact writes_operand ha fun hle => rank_mono (by simpa using hle)
  have hnext : Writes (k.operand b.norm)
      (bracketed (looseness b > k.looseness || (looseness b == k.looseness && true)) b.text).toList := by
    rw [← k.level_operand]
    refine writes_operand hb fun hlt => rank_mono ?_
    simp only [Bool.and_true, Bool.or_eq_false_iff, decide_eq_false_iff_not, beq_eq_false_iff_ne] at hlt
    omega
  exact hfirst.chain hop hhead hnext

/-- A call that no operator is written for has its head in front of its arguments, and holds together by itself. -/
theorem text_call_plain (hnegate : head = "Negate" → args.length ≠ 1) (hsign : (sign? head).isSome → args.length ≠ 2) :
    callLooseness head args.length = 0 ∧
      text (call head args) = head ++ "(" ++ ", ".intercalate (args.map text) ++ ")" := by
  constructor
  · unfold callLooseness
    split <;> rename_i harity
    case h_2 => exact (hnegate rfl harity).elim
    case h_8 => rfl
    all_goals exact (hsign rfl harity).elim
  · rw [text, argTexts_eq_map, callText]
    · rw [List.map_map]
      rfl
    · intro p arg hhead hargs
      exact hnegate hhead (by simpa using congrArg List.length hargs)
    · intro sign l left r right hhead hargs
      exact hsign (Option.isSome_iff_exists.mpr ⟨sign, hhead⟩) (by simpa using congrArg List.length hargs)

theorem exists_operator (h : (sign? head).isSome = true) : head = "Power" ∨ ∃ k op, (op, head) ∈ Chain.operators k := by
  unfold sign? at h
  split at h
  · exact Or.inr ⟨.sum, "+", by simp [Chain.operators]⟩
  · exact Or.inr ⟨.sum, "-", by simp [Chain.operators]⟩
  · exact Or.inr ⟨.product, "*", by simp [Chain.operators]⟩
  · exact Or.inr ⟨.product, "/", by simp [Chain.operators]⟩
  · exact Or.inr ⟨.product, "%", by simp [Chain.operators]⟩
  · exact Or.inl rfl
  · cases h

/-- How a call is written: as an operator with its operands, or with its head in front of its arguments. -/
theorem text_call_cases (head : String) (args : List Formula) :
    (∃ a, head = "Negate" ∧ args = [a]) ∨ (∃ a b, head = "Power" ∧ args = [a, b]) ∨
    (∃ k op a b, (op, head) ∈ Chain.operators k ∧ args = [a, b]) ∨
    (callLooseness head args.length = 0 ∧
      text (call head args) = head ++ "(" ++ ", ".intercalate (args.map text) ++ ")") := by
  by_cases hnegate : head = "Negate" ∧ args.length = 1
  · obtain ⟨a, ha⟩ := List.length_eq_one_iff.mp hnegate.2
    exact Or.inl ⟨a, hnegate.1, ha⟩
  · by_cases hsign : (sign? head).isSome ∧ args.length = 2
    · obtain ⟨a, b, hab⟩ := List.length_eq_two.mp hsign.2
      rcases exists_operator hsign.1 with hpower | ⟨k, op, hop⟩
      · exact Or.inr (Or.inl ⟨a, b, hpower, hab⟩)
      · exact Or.inr (Or.inr (Or.inl ⟨k, op, a, b, hop, hab⟩))
    · exact Or.inr (Or.inr (Or.inr (text_call_plain (fun h hone => hnegate ⟨h, hone⟩) fun h htwo => hsign ⟨h, htwo⟩)))

/-! ### Formulas -/

/-- The text of a number is the number, or a minus sign in front of its magnitude. -/
theorem writes_text_number {x : Float} (hfinite : x.isFinite = true) (hzero : x ≠ -0.0) :
    Writes (level (rank (looseness (number x))) (norm (number x))) (text (number x)).toList := by
  obtain ⟨negative, m, e, hx⟩ := isFinite_iff.mp hfinite
  rw [looseness, norm, text]
  cases negative with
  | false =>
    have hnot : ¬x < 0 := fun h => absurd ((lt_zero_iff hx).mp h).1 Bool.false_ne_true
    obtain ⟨hdecimal, hread⟩ := Decimal.read?_text hx
    rw [if_neg hnot, if_neg hnot]
    exact writes_number hdecimal (by rwa [String.ofList_toList])
  | true =>
    have hm : 0 < m := by
      refine Nat.pos_of_ne_zero fun hm => hzero (ofFloat_injective ?_)
      subst hm
      rw [hx, (canonical_of_ofFloat hx).2.2.2 (by decide), ofFloat_negative_zero]
    have hlt : x < 0 := (lt_zero_iff hx).mpr ⟨rfl, hm⟩
    have hneg : ofFloat (-x) = finite false m e := by rw [ofFloat_neg, hx]; rfl
    obtain ⟨hdecimal, hread⟩ := Decimal.read?_text hneg
    have hnumber : Writes (level 0 (number (-x))) (Decimal.text (-x)).toList :=
      writes_number hdecimal (by rwa [String.ofList_toList])
    rw [if_pos hlt, if_pos hlt, Decimal.text_of_negative hx, String.toList_append]
    exact (Writes.mono (j := 2) (Nat.zero_le 2) hnumber).negation

/-- The text of a formula spells it, negative numbers as negations. -/
theorem writes_text (h : f.Printable) : Writes (level (rank (looseness f)) f.norm) f.text.toList := by
  induction f with
  | number x => exact writes_text_number (h.numbers x (self_mem_parts _)).1 (h.numbers x (self_mem_parts _)).2
  | symbol name => exact writes_symbol (h.symbols name (self_mem_parts _))
  | call head args ih =>
    have hargs : ∀ a ∈ args, Writes (level (rank (looseness a)) a.norm) a.text.toList := fun a ha => ih a ha (h.of_mem_args ha)
    rw [norm, normAll_eq_map, looseness]
    rcases text_call_cases head args with ⟨a, rfl, rfl⟩ | ⟨a, b, rfl, rfl⟩ | ⟨k, op, a, b, hop, rfl⟩ | ⟨hlooseness, htext⟩
    · exact writes_negate (hargs a (by simp))
    · exact writes_power (hargs a (by simp)) (hargs b (by simp))
    · have hlevel : level (rank (callLooseness head [a, b].length)) = Phrase.chain k := by
        rw [show callLooseness head [a, b].length = k.looseness from (Chain.text_call hop a b).1]
        exact funext k.level_looseness
      rw [hlevel]
      exact writes_chain hop (hargs a (by simp)) (hargs b (by simp))
    · have hsums : ∀ a ∈ args, Writes (.chain .sum a.norm) a.text.toList := fun a ha => Writes.mono (rank_le _) (hargs a ha)
      rw [hlooseness, htext]
      simp only [String.toList_append, List.append_assoc]
      exact (writes_args hsums).call (h.heads head args (self_mem_parts _))

/-! ### What is read -/

/-- What the number, the name or the head of a formula is that comes out of a text: numbers have no minus sign, and names and
    heads are identifiers. -/
def Textual : Formula → Prop
  | number x => ∃ bits, ofFloat x = ofMagnitude false bits
  | symbol name => Lexeme.IsIdentifier name.toList
  | call head _ => Lexeme.IsIdentifier head.toList

/-- Formulas all of whose parts can come out of a text. -/
def Plain (f : Formula) : Prop := ∀ g ∈ f.parts, g.Textual

theorem plain_number {x : Float} {s : String} (h : Decimal.read? s = some x) : (number x).Plain := by
  intro g hg
  obtain rfl := List.mem_singleton.mp hg
  exact Decimal.ofFloat_of_read? h

theorem plain_symbol {name : String} (h : Lexeme.IsIdentifier name.toList) : (symbol name).Plain := by
  intro g hg
  obtain rfl := List.mem_singleton.mp hg
  exact h

theorem plain_call (hhead : Lexeme.IsIdentifier head.toList) (hargs : ∀ a ∈ args, a.Plain) : (call head args).Plain := by
  intro g hg
  rcases mem_parts_call.mp hg with rfl | ⟨a, ha, hga⟩
  · exact hhead
  · exact hargs a ha g hga

theorem plain_call_two (hhead : Lexeme.IsIdentifier head.toList) (ha : a.Plain) (hb : b.Plain) : (call head [a, b]).Plain :=
  plain_call hhead (List.forall_mem_cons.mpr ⟨ha, List.forall_mem_singleton.mpr hb⟩)

/-- Whether what a phrase means is plain, as long as what is in front of it is. -/
def Phrase.IsPlain : Phrase → Prop
  | .chain _ f | .factor f | .power f | .atom f => f.Plain
  | .links _ first f => first.Plain → f.Plain
  | .exponent base f => base.Plain → f.Plain
  | .behind name f => Lexeme.IsIdentifier name.toList → f.Plain
  | .args fs | .moreArgs fs => ∀ f ∈ fs, f.Plain

theorem Phrase.isPlain_operand {k : Chain} : (k.operand f).IsPlain ↔ f.Plain := by
  cases k <;> rfl

theorem Chain.isIdentifier_head {k : Chain} {l : Lexeme} (h : k.head? l = some head) : Lexeme.IsIdentifier head.toList := by
  have hall : ∀ k ∈ [Chain.sum, Chain.product], ∀ op ∈ k.operators, Lexeme.IsIdentifier op.2.toList := by decide
  exact hall k (by cases k <;> simp) _ (Chain.mem_operators h).2

theorem Phrase.Spelled.isPlain {p : Phrase} {ls : List Lexeme} {d : Nat} (h : p.Spelled ls d) (hls : ∀ l ∈ ls, l.Regular) :
    p.IsPlain := by
  induction h with
  | chain _ _ ihfirst ihlinks =>
    obtain ⟨hfirst, hlinks⟩ := List.forall_mem_append.mp hls
    exact ihlinks hlinks (isPlain_operand.mp (ihfirst hfirst))
  | link hop _ _ ihnext ihlinks =>
    obtain ⟨hnext, hlinks⟩ := List.forall_mem_append.mp (List.forall_mem_cons.mp hls).2
    exact fun hfirst => ihlinks hlinks (plain_call_two (Chain.isIdentifier_head hop) hfirst (isPlain_operand.mp (ihnext hnext)))
  | noLink => exact id
  | negation _ _ ih =>
    exact plain_call (by decide) (List.forall_mem_singleton.mpr (ih (List.forall_mem_cons.mp hls).2))
  | factor _ ih => exact ih hls
  | power _ _ ihbase ihexponent =>
    obtain ⟨hbase, hexponent⟩ := List.forall_mem_append.mp hls
    exact ihexponent hexponent (ihbase hbase)
  | exponent _ _ ih => exact fun hbase => plain_call_two (by decide) hbase (ih (List.forall_mem_cons.mp hls).2)
  | noExponent => exact id
  | number _ hread => exact plain_number hread
  | brackets _ _ _ ih => exact ih (List.forall_mem_append.mp (List.forall_mem_cons.mp hls).2).1
  | name hkind _ ih =>
    obtain ⟨hl, hbehind⟩ := List.forall_mem_cons.mp hls
    exact ih hbehind (hl.ident hkind)
  | call _ _ _ ih => exact fun hname => plain_call hname (ih (List.forall_mem_append.mp (List.forall_mem_cons.mp hls).2).1)
  | symbol => exact plain_symbol
  | args _ _ ihsum ihmore =>
    obtain ⟨hsum, hmore⟩ := List.forall_mem_append.mp hls
    exact List.forall_mem_cons.mpr ⟨ihsum hsum, ihmore hmore⟩
  | noArgs => exact nofun
  | moreArgs _ _ _ ihsum ihmore =>
    obtain ⟨hsum, hmore⟩ := List.forall_mem_append.mp (List.forall_mem_cons.mp hls).2
    exact List.forall_mem_cons.mpr ⟨ihsum hsum, ihmore hmore⟩
  | noMoreArgs => exact nofun

theorem not_lt_zero_of_ofMagnitude {x : Float} {bits : Nat} (hfinite : x.isFinite = true) (h : ofFloat x = ofMagnitude false bits) :
    ¬x < 0 ∧ x ≠ -0.0 := by
  obtain ⟨negative, m, e, hx⟩ := isFinite_iff.mp hfinite
  obtain ⟨-, rfl⟩ := canonical_of_ofMagnitude (h.symm.trans hx)
  refine ⟨fun hlt => absurd ((lt_zero_iff hx).mp hlt).1 Bool.false_ne_true, ?_⟩
  rintro rfl
  rw [ofFloat_negative_zero] at hx
  cases hx

/-- A plain formula of finite numbers can be printed, and none of its numbers is negative. -/
theorem Plain.printable (h : f.Plain) (hfinite : ∀ x, number x ∈ f.parts → x.isFinite = true) :
    f.Printable ∧ ∀ x, number x ∈ f.parts → ¬x < 0 := by
  have hnumbers : ∀ x, number x ∈ f.parts → ¬x < 0 ∧ x ≠ -0.0 := fun x hx => by
    obtain ⟨bits, hbits⟩ := h _ hx
    exact not_lt_zero_of_ofMagnitude (hfinite x hx) hbits
  exact ⟨⟨fun x hx => ⟨hfinite x hx, (hnumbers x hx).2⟩, fun name hname => h _ hname, fun head args hcall => h _ hcall⟩,
    fun x hx => (hnumbers x hx).1⟩

theorem norm_eq_self (h : ∀ x, number x ∈ f.parts → ¬x < 0) : f.norm = f := by
  induction f with
  | number x => rw [norm, if_neg (h x (self_mem_parts _))]
  | symbol name => rfl
  | call head args ih =>
    have hargs : args.map norm = args :=
      (List.map_congr_left fun a ha => ih a ha fun x hx => h x (mem_parts_of_mem_args ha hx)).trans (List.map_id args)
    rw [norm, normAll_eq_map, hargs]

/-- There is a table of formulas, and with it the text of a formula is parsed and, as long as its tree is not too deep, read as
    that formula, with negations in place of its negative numbers. A formula without negative numbers is read as itself, and
    what is read from a text with finite numbers only is such a formula. -/
theorem read_text : ∃ p, table = .ok p ∧
    (∀ f : Formula, f.Printable → ∃ t, parseText p f.text = .ok t ∧ read p f.text =
      if t.depth ≤ maxDepth then .ok f.norm else .error (.eval (.unreadable (.tooDeep t.depth maxDepth)))) ∧
    (∀ f : Formula, (∀ x, number x ∈ f.parts → ¬x < 0) → f.norm = f) ∧
    ∀ (s : String) (f : Formula), read p s = .ok f → (∀ x, number x ∈ f.parts → x.isFinite = true) →
      f.Printable ∧ ∀ x, number x ∈ f.parts → ¬x < 0 := by
  obtain ⟨p, hp⟩ := exists_table
  refine ⟨p, hp, fun f hf => ?_, fun f hf => norm_eq_self hf, fun s f hread hfinite => ?_⟩
  · have hsum : Writes (.chain .sum f.norm) f.text.toList := Writes.mono (rank_le _) (writes_text hf)
    obtain ⟨ls, hls, d, hspelled⟩ := hsum 0 [] Lexeme.stops_nil
    rw [List.append_nil, Lexeme.cutAll_nil, List.append_nil, ← Lexeme.ofText_eq_cutAll] at hls
    obtain ⟨t, hparse, -, hvalue⟩ := exists_parseText hp (hls ▸ hspelled)
    exact ⟨t, hparse, read_of_parseText hparse hvalue⟩
  · rcases parseText_cases hp s with ⟨why, hparse, -⟩ | ⟨t, g, d, hparse, hspelled, -, hvalue⟩
    · rw [read, hparse] at hread
      cases hread
    · rw [read_of_parseText hparse hvalue] at hread
      split at hread
      · cases hread
        have hplain : f.Plain := hspelled.isPlain fun l hl => Lexeme.regular_of_mem_ofText hl
        exact hplain.printable hfinite
      · cases hread

/-- A power of a negative number and a call. -/
theorem read_text_power : Printable (call "Power" [number (-2.5), call "f" [symbol "x", number 1.0]]) ∧
    ∃ p t, table = .ok p ∧ parseText p "(-2.5) ^ f(x, 1)" = .ok t ∧ read p "(-2.5) ^ f(x, 1)" =
      if t.depth ≤ maxDepth then .ok (call "Power" [call "Negate" [number (- -2.5)], call "f" [symbol "x", number 1.0]])
      else .error (.eval (.unreadable (.tooDeep t.depth maxDepth))) := by
  obtain ⟨p, hp, hread, -, -⟩ := read_text
  have hprintable : Printable (call "Power" [number (-2.5), call "f" [symbol "x", number 1.0]]) := by
    constructor <;> simp only [parts, partsAll, List.append_nil, List.cons_append, List.nil_append, List.mem_cons,
      List.not_mem_nil, or_false, reduceCtorEq, false_or, number.injEq, symbol.injEq, call.injEq]
    · rintro x (rfl | rfl) <;> decide
    · rintro name rfl
      decide
    · rintro head args (⟨rfl, -⟩ | ⟨rfl, -⟩) <;> decide
  have htext : text (call "Power" [number (-2.5), call "f" [symbol "x", number 1.0]]) = "(-2.5) ^ f(x, 1)" := by
    decide +kernel
  obtain ⟨t, hparse, h⟩ := hread _ hprintable
  rw [htext] at hparse h
  exact ⟨hprintable, p, t, hp, hparse, h⟩

end Calcbook.Formula
