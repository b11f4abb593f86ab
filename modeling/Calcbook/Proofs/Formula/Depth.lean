import Calcbook.Proofs.Formula.Parts
import Calcbook.Proofs.Formula.Reading
import Mathlib.Tactic.Linarith

/-! How deep the formula of a tree can be. A chain of operators nests to the right in its tree and to the left in its
    formula, so its links all come on top of its first operand: the depth of a formula is not bounded by that
    of its tree, but by the square of it. -/

namespace Calcbook.Formula

mutual
/-- The number of levels of a formula. -/
def depth : Formula → Nat
  | number _ | symbol _ => 1
  | call _ args => deepest args + 1

/-- The depth of the deepest of some formulas. -/
def deepest : List Formula → Nat
  | [] => 0
  | a :: as => max (depth a) (deepest as)
end

theorem depth_call_one (head : String) (f : Formula) : (call head [f]).depth = f.depth + 1 := by
  rw [depth, deepest, deepest, Nat.max_zero]

theorem depth_call_two (head : String) (f g : Formula) : (call head [f, g]).depth = max f.depth g.depth + 1 := by
  rw [depth, deepest, deepest, deepest, Nat.max_zero]

theorem one_le_depth (f : Formula) : 1 ≤ f.depth := by
  cases f with
  | number | symbol => rw [depth]
  | call => exact Nat.succ_le_succ (Nat.zero_le _)

/-! ### Bounds from the depth of a tree -/

/-- Bounds for a sum, a product and a factor by the depth of their trees, which have some levels at least. -/
def SumWithin (f : Formula) (d : Nat) : Prop := 6 ≤ d ∧ 5 * f.depth ≤ d * d + d + 3

def ProductWithin (f : Formula) (d : Nat) : Prop := 5 ≤ d ∧ 5 * f.depth + 2 * d ≤ d * d + 10

def FactorWithin (f : Formula) (d : Nat) : Prop :=
  4 ≤ d ∧ (d = 4 → f.depth = 1) ∧ 5 * f.depth + 5 * d ≤ d * d + 14

def Chain.Within : Chain → Formula → Nat → Prop
  | sum => SumWithin
  | product => ProductWithin

def Chain.OperandWithin : Chain → Formula → Nat → Prop
  | sum => ProductWithin
  | product => FactorWithin

/-- A bound for all formulas that have a property at less than some depth. -/
def Bounds (P : Formula → Nat → Prop) (b d : Nat) : Prop := ∀ g n, P g n → n < d → 5 * g.depth ≤ b

/-- Bounds of the depth of a formula by that of its tree. What is behind something adds to the bound of what is in front
    of it and of its own operands: one level for an exponent or a call, and one for each link of a chain. -/
def Phrase.Within (d : Nat) : Phrase → Prop
  | chain c f => c.Within f d
  | links c first f => 1 ≤ d ∧ ∀ b, 5 * first.depth ≤ b → Bounds c.OperandWithin b d → 5 * f.depth + 5 ≤ b + 5 * d
  | factor f => FactorWithin f d
  | power f => 3 ≤ d ∧ (d = 3 → f.depth = 1) ∧ 5 * f.depth + 3 * d ≤ d * d + 10
  | exponent base f => 1 ≤ d ∧ (d < 5 → f = base) ∧
    ∀ b, 5 * base.depth ≤ b → Bounds FactorWithin b d → 5 * f.depth ≤ b + 5
  | atom f => 2 ≤ d ∧ (d = 2 → f.depth = 1) ∧ 5 * f.depth + d ≤ d * d + 3
  | behind _ f => 1 ≤ d ∧ (d = 1 → f.depth = 1) ∧ ∀ b, Bounds SumWithin b (d - 1) → 5 * f.depth ≤ b + 5
  | args fs | moreArgs fs => 1 ≤ d ∧ ∀ b, Bounds SumWithin b d → 5 * deepest fs ≤ b

theorem Bounds.mono {P : Formula → Nat → Prop} {b b' d d' : Nat} (h : Bounds P b d) (hb : b ≤ b') (hd : d' ≤ d) :
    Bounds P b' d' :=
  fun g n hg hn => Nat.le_trans (h g n hg (Nat.lt_of_lt_of_le hn hd)) hb

theorem bounds_sums (d : Nat) : Bounds SumWithin (d * d + d + 3 - 2 * d) d := by
  rintro g n ⟨-, hg⟩ hn
  have hsq : (n + 1) * (n + 1) ≤ d * d := Nat.mul_self_le_mul_self hn
  have : n * n + n + 3 + 2 * d ≤ d * d + d + 3 := by nlinarith
  omega

theorem bounds_products (d : Nat) : Bounds ProductWithin (d * d + 10 - 2 * d) (d + 1) := by
  rintro g n ⟨hlow, hg⟩ hn
  obtain ⟨k, rfl⟩ := Nat.exists_eq_add_of_le (Nat.le_of_lt_succ hn)
  have : n * n + 2 * (n + k) ≤ (n + k) * (n + k) + 2 * n := by nlinarith
  omega

theorem bounds_factors (d : Nat) : Bounds FactorWithin (d * d + 14 - 5 * d) (d + 1) := by
  rintro g n ⟨hlow, -, hg⟩ hn
  obtain ⟨k, rfl⟩ := Nat.exists_eq_add_of_le (Nat.le_of_lt_succ hn)
  have : n * n + 5 * (n + k) ≤ (n + k) * (n + k) + 5 * n := by nlinarith
  omega

theorem succ_mul_succ_self (d : Nat) : (d + 1) * (d + 1) = d * d + 2 * d + 1 := by ring

/-- The operands of a chain have a bound that leaves room for its links. -/
theorem bounds_operands {c : Chain} {first : Formula} {m d : Nat} (hfirst : c.OperandWithin first m) (hm : m ≤ d) :
    ∃ b, Bounds c.OperandWithin b (d + 1) ∧ ∀ f : Formula, 5 * f.depth + 5 ≤ b + 5 * d → c.Within f (d + 1) := by
  have hsq := succ_mul_succ_self d
  cases c with
  | sum =>
    obtain ⟨hlow, -⟩ := hfirst
    refine ⟨_, bounds_products d, fun f hf => ⟨by omega, ?_⟩⟩
    have : 2 * d ≤ d * d := Nat.mul_le_mul_right d (by omega)
    omega
  | product =>
    obtain ⟨hlow, -⟩ := hfirst
    refine ⟨_, bounds_factors d, fun f hf => ⟨by omega, ?_⟩⟩
    have : 5 * d ≤ d * d + 4 := by nlinarith
    omega

theorem Phrase.Spelled.within {p : Phrase} {ls : List Lexeme} {d : Nat} (h : p.Spelled ls d) : p.Within d := by
  -- The least depths are cases of their own: the square of the depth of a tree says too little about them.
  induction h with
  | @chain c first f ls ms d e _ _ ihfirst ihlinks =>
    have hfirst : c.OperandWithin first d := by cases c <;> exact ihfirst
    obtain ⟨hlow, hlinks⟩ := ihlinks
    obtain ⟨b, hbounds, hwithin⟩ := bounds_operands hfirst (Nat.le_max_left d e)
    have hlinks := hlinks b (hbounds first d hfirst (by omega)) (hbounds.mono (Nat.le_refl b) (by omega))
    exact hwithin f (by omega)
  | @link c op head first next f ls ms d e hop _ _ ihnext ihlinks =>
    obtain ⟨hlow, hlinks⟩ := ihlinks
    refine ⟨by omega, fun b hfirst hbounds => ?_⟩
    have hnext := hbounds next d (by cases c <;> exact ihnext) (by omega)
    have hdepth := depth_call_two head first next
    have hlinks := hlinks (b + 5) (by omega) (hbounds.mono (by omega) (by omega))
    omega
  | noLink => exact ⟨Nat.le_refl 1, fun b hfirst _ => by omega⟩
  | @negation op f ls d _ _ ih =>
    obtain ⟨hlow, hleast, hfactor⟩ := ih
    have hdepth := depth_call_one "Negate" f
    have hsq := succ_mul_succ_self d
    rw [Nat.max_eq_right (by omega)]
    refine ⟨by omega, by omega, ?_⟩
    rcases Nat.eq_or_lt_of_le hlow with rfl | hlt
    · rw [hdepth, hleast rfl]
      decide
    · omega
  | @factor f ls d _ ih =>
    obtain ⟨hlow, hleast, hpower⟩ := ih
    have hsq := succ_mul_succ_self d
    exact ⟨by omega, by omega, by omega⟩
  | @power base f ls ms d e _ _ ihbase ihexponent =>
    obtain ⟨hlow, hleast, hbase⟩ := ihbase
    obtain ⟨hlow', hnone, hexponent⟩ := ihexponent
    have hd := Nat.le_max_left d e
    have he := Nat.le_max_right d e
    have hleast' : max d e = 2 → f.depth = 1 := fun hmax => by
      rw [hnone (by omega)]
      exact hleast (by omega)
    generalize max d e = n at hd he hleast'
    have hatoms : d * d + n ≤ n * n + d := by
      obtain ⟨k, rfl⟩ := Nat.exists_eq_add_of_le hd
      nlinarith
    have hsq := succ_mul_succ_self n
    refine ⟨by omega, by omega, ?_⟩
    rcases Nat.eq_or_lt_of_le (Nat.le_trans hlow hd) with rfl | hlt
    · rw [hleast' rfl]
      decide
    · have hfactors := (bounds_factors n).mono (show _ ≤ n * n + 3 - n by omega) (show e ≤ _ by omega)
      have hexponent := hexponent (n * n + 3 - n) (by omega) hfactors
      omega
  | @exponent op base f ls d _ _ ih =>
    refine ⟨by omega, fun hd => ?_, fun b hbase hbounds => ?_⟩
    · have := ih.1
      omega
    · have hfactor := hbounds f d ih (by omega)
      have hdepth := depth_call_two "Power" base f
      omega
  | noExponent => exact ⟨Nat.le_refl 1, fun _ => rfl, fun b hbase _ => by omega⟩
  | number => exact ⟨Nat.le_refl 2, fun _ => by rw [depth], by rw [depth]⟩
  | @brackets o c f ls d _ _ _ ih =>
    obtain ⟨hlow, hsum⟩ := ih
    have hsq := succ_mul_succ_self d
    rw [Nat.max_eq_left (by omega : 1 ≤ d), Nat.max_eq_right (by omega : 1 ≤ d)]
    exact ⟨by omega, by omega, by omega⟩
  | @name l f ls d _ _ ih =>
    obtain ⟨hlow, hleast, hbehind⟩ := ih
    rw [Nat.max_eq_right hlow]
    refine ⟨by omega, by omega, ?_⟩
    obtain ⟨n, rfl⟩ := Nat.exists_eq_succ_of_ne_zero (by omega : d ≠ 0)
    have hbehind := hbehind _ (bounds_sums n)
    have hsq := succ_mul_succ_self n
    have hsq' := succ_mul_succ_self (n + 1)
    rcases Nat.eq_zero_or_pos n with rfl | hpos
    · rw [hleast rfl]
    · rw [Nat.succ_eq_add_one]
      omega
  | @call o c name fs ls d _ _ _ ih =>
    obtain ⟨hlow, hargs⟩ := ih
    refine ⟨by omega, by omega, fun b hbounds => ?_⟩
    have hargs := hargs b (hbounds.mono (Nat.le_refl b) (by omega))
    rw [depth]
    omega
  | symbol => exact ⟨Nat.le_refl 1, fun _ => by rw [depth], fun b _ => by rw [depth]; omega⟩
  | @args f fs ls ms d e _ _ ihsum ihmore =>
    refine ⟨by omega, fun b hbounds => ?_⟩
    have hsum := hbounds f d ihsum (by omega)
    have hmore := ihmore.2 b (hbounds.mono (Nat.le_refl b) (by omega))
    rw [deepest]
    omega
  | noArgs => exact ⟨Nat.le_refl 1, fun b _ => Nat.zero_le b⟩
  | @moreArgs op f fs ls ms d e _ _ _ ihsum ihmore =>
    refine ⟨by omega, fun b hbounds => ?_⟩
    have hsum := hbounds f d ihsum (by omega)
    have hmore := ihmore.2 b (hbounds.mono (Nat.le_refl b) (by omega))
    rw [deepest]
    omega
  | noMoreArgs => exact ⟨Nat.le_refl 1, fun b _ => Nat.zero_le b⟩

/-! ### Formulas that do not nest to the left -/

/-- The operators that chain have nothing with arguments on their left. -/
def LeftFlat (f : Formula) : Prop := ∀ (c : Chain) (op : String × String) (a b : Formula), op ∈ c.operators →
  call op.2 [a, b] ∈ f.parts → a.depth = 1

theorem LeftFlat.of_mem {f g : Formula} (h : LeftFlat f) (hg : g ∈ f.parts) : LeftFlat g :=
  fun c op a b hop hmem => h c op a b hop (mem_parts_trans hmem hg)

/-- What the trees of formulas that do not nest to the left are worth in levels. -/
def Phrase.Level (d : Nat) : Phrase → Prop
  | chain _ f | factor f | power f | atom f => LeftFlat f → f.depth + 1 ≤ d
  | links _ first f => first ∈ f.parts ∧ (LeftFlat f → f = first ∨ f.depth + 1 ≤ d ∧ first.depth = 1)
  | exponent base f => f = base ∨ ∃ g, f = call "Power" [base, g] ∧ (LeftFlat g → g.depth + 2 ≤ d)
  | behind _ f => LeftFlat f → f.depth ≤ d
  | args fs | moreArgs fs => (∀ f ∈ fs, LeftFlat f) → deepest fs + 1 ≤ d

theorem level_operand {c : Chain} {f : Formula} {d : Nat} :
    (c.operand f).Level d ↔ (LeftFlat f → f.depth + 1 ≤ d) := by
  cases c <;> rfl

theorem Phrase.Spelled.level {p : Phrase} {ls : List Lexeme} {d : Nat} (h : p.Spelled ls d) : p.Level d := by
  induction h with
  | @chain c first f ls ms d e _ _ ihfirst ihlinks =>
    obtain ⟨hmem, hlinks⟩ := ihlinks
    intro hflat
    have hfirst := level_operand.mp ihfirst (hflat.of_mem hmem)
    rcases hlinks hflat with rfl | ⟨hlast, -⟩ <;> omega
  | @link c op head first next f ls ms d e hop _ _ ihnext ihlinks =>
    obtain ⟨hmem, hlinks⟩ := ihlinks
    have hcall := depth_call_two head first next
    refine ⟨mem_parts_trans (mem_parts_of_mem_args (by simp) (self_mem_parts first)) hmem, fun hflat => ?_⟩
    have hnext := level_operand.mp ihnext
      (hflat.of_mem (mem_parts_trans (mem_parts_of_mem_args (by simp) (self_mem_parts next)) hmem))
    have hfirst : first.depth = 1 := hflat c (op.text, head) first next (Chain.mem_operators hop).2 hmem
    have := one_le_depth next
    -- A second link would have the first one on its left.
    rcases hlinks hflat with rfl | ⟨-, hone⟩
    · exact Or.inr ⟨by omega, hfirst⟩
    · omega
  | @noLink c f => exact ⟨self_mem_parts f, fun _ => Or.inl rfl⟩
  | @negation op f ls d _ _ ih =>
    intro hflat
    have := ih (hflat.of_mem (mem_parts_of_mem_args (by simp) (self_mem_parts f)))
    rw [depth_call_one]
    omega
  | factor _ ih => exact fun hflat => Nat.le_succ_of_le (ih hflat)
  | @power base f ls ms d e _ _ ihbase ihexponent =>
    intro hflat
    rcases ihexponent with rfl | ⟨g, rfl, hexponent⟩
    · have := ihbase hflat
      omega
    · have hbase := ihbase (hflat.of_mem (mem_parts_of_mem_args (by simp) (self_mem_parts base)))
      have hexponent := hexponent (hflat.of_mem (mem_parts_of_mem_args (by simp) (self_mem_parts g)))
      rw [depth_call_two]
      omega
  | @exponent op base f ls d _ _ ih =>
    refine Or.inr ⟨f, rfl, fun hflat => ?_⟩
    have := ih hflat
    omega
  | noExponent => exact Or.inl rfl
  | number => exact fun _ => by rw [depth]
  | brackets _ _ _ ih =>
    intro hflat
    have := ih hflat
    omega
  | name _ _ ih =>
    intro hflat
    have := ih hflat
    omega
  | @call o c name fs ls d _ _ _ ih =>
    intro hflat
    have := ih fun f hf => hflat.of_mem (mem_parts_of_mem_args hf (self_mem_parts f))
    rw [depth]
    omega
  | symbol => exact fun _ => by rw [depth]
  | args _ _ ihsum ihmore =>
    intro hflat
    obtain ⟨hf, hfs⟩ := List.forall_mem_cons.mp hflat
    have hsum := ihsum hf
    have hmore := ihmore hfs
    rw [deepest]
    omega
  | noArgs => exact fun _ => Nat.le_refl 1
  | moreArgs _ _ _ ihsum ihmore =>
    intro hflat
    obtain ⟨hf, hfs⟩ := List.forall_mem_cons.mp hflat
    have hsum := ihsum hf
    have hmore := ihmore hfs
    rw [deepest]
    omega
  | noMoreArgs => exact fun _ => Nat.le_refl 1

/-! ### A chain in front of a chain -/

/-- Operands behind an operator each. -/
def operands (op : Char) : Nat → List Char
  | 0 => []
  | n + 1 => op :: 'x' :: operands op n

/-- A product of some operands more than one, and some more operands of a sum behind it. -/
def chainsText (k m : Nat) : String := String.ofList ('x' :: (operands '*' k ++ operands '+' m))

theorem stops_operands {op : Char} (hop : isOperator op = true) {n : Nat} {rest : List Char} (hrest : Lexeme.Stops rest) :
    Lexeme.Stops (operands op n ++ rest) := by
  cases n with
  | zero => exact hrest
  | succ n => exact Lexeme.stops_cons (Lexeme.isIdentPart_eq_false (Or.inl hop)).1 (Lexeme.isIdentPart_eq_false (Or.inl hop)).2

/-- Links are as many levels of a formula as there are, on top of what is in front of them. -/
theorem spelled_operands {c : Chain} {head : String} {w : Nat} (op : Char) (hop : isOperator op = true)
    (hhead : c.operators.lookup (String.ofList [op]) = some head)
    (hoperand : ∀ start, (c.operand (.symbol "x")).Spelled [⟨.ident, "x", start⟩] w) (n start : Nat) (first : Formula)
    {rest : List Char} (hrest : Lexeme.Stops rest) : ∃ ls f d stop,
      Lexeme.cutAll start (operands op n ++ rest) = ls ++ Lexeme.cutAll stop rest ∧
        (Phrase.links c first f).Spelled ls d ∧ f.depth = first.depth + n ∧ d ≤ w + n + 1 := by
  induction n generalizing start first with
  | zero => exact ⟨[], first, 1, start, rfl, .noLink, rfl, by omega⟩
  | succ n ih =>
    obtain ⟨ls, f, d, stop, hls, hlinks, hdepth, hd⟩ := ih (start + 1 + 1) (.call head [first, .symbol "x"])
    have hx : Lexeme.IsIdentifier ['x'] := ⟨'x', [], rfl, by decide, rfl⟩
    have hcut : Lexeme.cutAll start (operands op (n + 1) ++ rest) =
        ⟨.ofOperator (String.ofList [op]), String.ofList [op], start⟩ :: ⟨.ident, "x", start + 1⟩ ::
          (ls ++ Lexeme.cutAll stop rest) := by
      rw [← hls]
      exact (Lexeme.cutAll_operator hop).trans (congrArg _ (Lexeme.cutAll_identifier hx (stops_operands hop hrest)))
    have hmark : Lexeme.isMark ⟨.ofOperator (String.ofList [op]), String.ofList [op], start⟩ (String.ofList [op]) = true :=
      Bool.and_eq_true_iff.mpr ⟨Lexeme.isMark_ofOperator _, beq_self_eq_true _⟩
    refine ⟨_, f, _, stop, hcut, .link (Chain.head?_of_isMark hmark hhead) (hoperand (start + 1)) hlinks, ?_, by omega⟩
    have := one_le_depth first
    rw [hdepth, depth_call_two, depth]
    omega

theorem read_chainsText {p : ParseTable} (hp : table = .ok p) {k m : Nat} (h : max k m + 8 ≤ maxDepth) :
    ∃ f, read p (chainsText k m) = .ok f ∧ f.depth = k + m + 1 := by
  have hfactor (start : Nat) : (Phrase.factor (.symbol "x")).Spelled [⟨.ident, "x", start⟩] 4 :=
    .factor (Phrase.Spelled.power_of_atom (.name (l := ⟨.ident, "x", start⟩) rfl .symbol))
  have hx : Lexeme.IsIdentifier ['x'] := ⟨'x', [], rfl, by decide, rfl⟩
  have hstops : Lexeme.Stops (operands '+' m) := List.append_nil (operands '+' m) ▸ stops_operands rfl Lexeme.stops_nil
  obtain ⟨ls, f, d, stop, hls, hlinks, hdepth, hd⟩ := spelled_operands (c := .product) '*' rfl rfl
    hfactor k 1 (.symbol "x") hstops
  obtain ⟨ms, g, e, stop', hms, hlinks', hdepth', he⟩ := spelled_operands (c := .sum) '+' rfl rfl
    (fun start => (hfactor start).product_of_factor) m stop f Lexeme.stops_nil
  rw [Lexeme.cutAll_nil, List.append_nil, List.append_nil] at hms
  have hlexemes : Lexeme.ofText (chainsText k m) = ⟨.ident, "x", 0⟩ :: ls ++ ms := by
    rw [Lexeme.ofText_eq_cutAll, chainsText, String.toList_ofList]
    refine (Lexeme.cutAll_identifier hx (stops_operands rfl hstops)).trans ?_
    exact congrArg (_ :: ·) (hls.trans (congrArg (ls ++ ·) hms))
  have hspelled := Phrase.Spelled.chain (c := .sum) (.chain (c := .product) (hfactor 0) hlinks) hlinks'
  rw [List.singleton_append, ← hlexemes] at hspelled
  obtain ⟨t, hparse, ht, hvalue⟩ := exists_parseText hp hspelled
  refine ⟨g, by rw [read_of_parseText hparse hvalue, if_pos (by omega)], ?_⟩
  rw [hdepth', hdepth, depth]
  omega

/-! ### What is read -/

/-- Five times the depth of what is read is at most the square of the depth of its tree, which is limited. When no chain
    nests to the left, the limit holds of the formula as well. -/
theorem read_depth_bounded {p : ParseTable} (hp : table = .ok p) {text : String} {f : Formula}
    (h : read p text = .ok f) : (∃ t, parseText p text = .ok t ∧ t.depth ≤ maxDepth ∧ 5 * f.depth ≤ t.depth * t.depth) ∧
      (LeftFlat f → f.depth ≤ maxDepth) := by
  rcases parseText_cases hp text with ⟨why, hparse, -⟩ | ⟨t, g, d, hparse, hspelled, hdepth, hvalue⟩
  · rw [read, hparse] at h
    cases h
  · rw [read_of_parseText hparse hvalue] at h
    split at h
    · cases h
      obtain ⟨hlow, hbound⟩ := hspelled.within
      have hlevel := hspelled.level
      have hsq := succ_mul_succ_self d
      exact ⟨⟨t, hparse, ‹_›, by rw [hdepth]; omega⟩, fun hflat => by have := hlevel hflat; omega⟩
    · cases h

/-- A product in front of a sum nests to the left; a symbol does not. -/
theorem read_depth_bounded_chains : ∃ p, table = .ok p ∧
    (∃ f t, read p (chainsText 512 512) = .ok f ∧ parseText p (chainsText 512 512) = .ok t ∧ t.depth ≤ maxDepth ∧
      5 * f.depth ≤ t.depth * t.depth) ∧
    read p "x" = .ok (.symbol "x") ∧ (symbol "x").depth ≤ maxDepth := by
  obtain ⟨p, hp⟩ := exists_table
  obtain ⟨f, hread, -⟩ := read_chainsText hp (k := 512) (m := 512) (by decide)
  obtain ⟨⟨t, hparse, hlimit, hbound⟩, -⟩ := read_depth_bounded hp hread
  have hx : read p "x" = .ok (.symbol "x") := read_identifier hp ⟨'x', [], rfl, by decide, rfl⟩
  have hflat : LeftFlat (symbol "x") := fun c op a b _ hmem => by cases List.mem_singleton.mp hmem
  exact ⟨p, hp, ⟨f, t, hread, hparse, hlimit, hbound⟩, hx, (read_depth_bounded hp hx).2 hflat⟩

/-- The limit of the depth of trees does not hold of the formulas read. -/
theorem read_deeper_than_limit : ∃ p, table = .ok p ∧ ∃ f, read p (chainsText 512 512) = .ok f ∧ maxDepth < f.depth := by
  obtain ⟨p, hp⟩ := exists_table
  obtain ⟨f, hread, hdepth⟩ := read_chainsText hp (k := 512) (m := 512) (by decide)
  exact ⟨p, hp, f, hread, by rw [hdepth]; decide⟩

end Calcbook.Formula
