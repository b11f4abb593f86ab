import Calcbook.Proofs.Formula.Phrase
import Calcbook.Proofs.Lexeme.Numeral

/-! Characters that spell a phrase wherever they stand. What is behind them matters only as far as it could carry on with
    their last lexeme, so the spellings of phrases are put together from those of their parts, with operators,
    brackets and blanks between. -/

namespace Calcbook.Formula
open Lexeme (Stops cutAll)

/-! ### Characters with known lexemes -/

/-- Characters whose lexemes have a property, wherever they start and whatever stops them behind. -/
def Cuts (P : List Lexeme → Prop) (cs : List Char) : Prop := ∀ start rest, Stops rest →
  ∃ ls, cutAll start (cs ++ rest) = ls ++ cutAll (start + cs.length) rest ∧ P ls

variable {P Q R : List Lexeme → Prop} {c : Char} {cs cs' : List Char}

theorem Cuts.mono (h : Cuts P cs) (hPQ : ∀ ls, P ls → Q ls) : Cuts Q cs := fun start rest hrest => by
  obtain ⟨ls, hls, hP⟩ := h start rest hrest
  exact ⟨ls, hls, hPQ ls hP⟩

theorem cuts_nil (h : P []) : Cuts P [] := fun _ _ _ => ⟨[], rfl, h⟩

theorem Cuts.blank (hc : isBlank c = true) (h : Cuts P cs) : Cuts P (c :: cs) := fun start rest hrest => by
  obtain ⟨ls, hls, hP⟩ := h (start + 1) rest hrest
  refine ⟨ls, ?_, hP⟩
  rw [List.cons_append, Lexeme.cutAll_blank hc, hls, List.length_cons, Nat.add_right_comm, Nat.add_assoc start]

theorem Cuts.operator (hc : isOperator c = true) (h : Cuts Q cs)
    (hP : ∀ l ms, l.isMark (String.ofList [c]) = true → Q ms → P (l :: ms)) : Cuts P (c :: cs) := fun start rest hrest => by
  obtain ⟨ls, hls, hQ⟩ := h (start + 1) rest hrest
  refine ⟨_ :: ls, ?_, hP ⟨.ofOperator (String.ofList [c]), String.ofList [c], start⟩ ls ?_ hQ⟩
  · rw [List.cons_append, Lexeme.cutAll_operator hc, hls, List.length_cons, Nat.add_right_comm, Nat.add_assoc start]
    rfl
  · exact Bool.and_eq_true_iff.mpr ⟨Lexeme.isMark_ofOperator _, beq_self_eq_true _⟩

theorem cuts_identifier (hcs : Lexeme.IsIdentifier cs)
    (hP : ∀ l : Lexeme, l.kind = .ident → l.text = String.ofList cs → P [l]) : Cuts P cs := fun _ _ hrest =>
  ⟨_, Lexeme.cutAll_identifier hcs hrest, hP _ rfl rfl⟩

theorem cuts_decimal (hcs : Lexeme.IsDecimal cs)
    (hP : ∀ l : Lexeme, l.kind = .number → l.text = String.ofList cs → P [l]) : Cuts P cs := fun _ _ hrest =>
  ⟨_, Lexeme.cutAll_numeral hcs.isNumeral hrest, hP _ rfl rfl⟩

/-- Characters that stop what is in front of them, by themselves or by what is behind them. -/
def Halting (cs : List Char) : Prop := ∀ rest, Stops rest → Stops (cs ++ rest)

theorem halting_nil : Halting [] := fun _ hrest => hrest

theorem halting_cons (hc : isOperator c = true ∨ isBlank c = true) : Halting (c :: cs) := fun _ _ => by
  rw [List.cons_append]
  exact Lexeme.stops_cons (Lexeme.isIdentPart_eq_false hc).1 (Lexeme.isIdentPart_eq_false hc).2

theorem Cuts.append (h : Cuts P cs) (h' : Cuts Q cs') (hstops : Halting cs')
    (hR : ∀ ls ms, P ls → Q ms → R (ls ++ ms)) : Cuts R (cs ++ cs') := fun start rest hrest => by
  obtain ⟨ls, hls, hP⟩ := h start (cs' ++ rest) (hstops rest hrest)
  obtain ⟨ms, hms, hQ⟩ := h' (start + cs.length) rest hrest
  refine ⟨ls ++ ms, ?_, hR ls ms hP hQ⟩
  rw [List.append_assoc, hls, hms, List.append_assoc, List.length_append, Nat.add_assoc]

/-! ### Phrases -/

/-- Characters that spell a phrase. -/
def Writes (p : Phrase) : List Char → Prop := Cuts fun ls => ∃ d, p.Spelled ls d

variable {f g : Formula} {fs : List Formula} {name : String}

theorem writes_number {x : Float} (hcs : Lexeme.IsDecimal cs) (hread : Decimal.read? (String.ofList cs) = some x) :
    Writes (.atom (.number x)) cs :=
  cuts_decimal hcs fun _ hkind htext => ⟨_, .number hkind (htext ▸ hread)⟩

/-- A name is an atom together with what is behind it. -/
theorem writes_name (hname : Lexeme.IsIdentifier name.toList) (hbehind : Writes (.behind name f) cs) (hcs : Halting cs) :
    Writes (.atom f) (name.toList ++ cs) := by
  have hlexeme : Cuts (fun ls => ∃ l : Lexeme, ls = [l] ∧ l.kind = .ident ∧ l.text = name) name.toList :=
    cuts_identifier hname fun l hkind htext => ⟨l, rfl, hkind, htext.trans String.ofList_toList⟩
  refine hlexeme.append hbehind hcs ?_
  rintro _ ms ⟨l, rfl, hkind, rfl⟩ ⟨d, hms⟩
  exact ⟨_, .name hkind hms⟩

theorem writes_symbol (hname : Lexeme.IsIdentifier name.toList) : Writes (.atom (.symbol name)) name.toList :=
  List.append_nil name.toList ▸ writes_name hname (cuts_nil ⟨_, .symbol⟩) halting_nil

/-- A phrase between brackets, with the bracket that closes it. -/
theorem Writes.closed {p : Phrase} (h : Writes p cs) : Cuts (fun ls => ∃ ms l d, ls = ms ++ [l] ∧ l.isMark ")" = true ∧ p.Spelled ms d)
    (cs ++ [')']) := by
  have hclose : Cuts (fun ls => ∃ l : Lexeme, ls = [l] ∧ l.isMark ")" = true) [')'] :=
    .operator rfl (cuts_nil rfl) fun l ms hl (hms : [] = ms) => ⟨l, hms ▸ rfl, hl⟩
  exact h.append hclose (halting_cons (.inl rfl)) fun ls _ ⟨d, hls⟩ ⟨l, hms, hl⟩ => ⟨ls, l, d, hms ▸ rfl, hl, hls⟩

theorem Writes.brackets (h : Writes (.chain .sum f) cs) : Writes (.atom f) ('(' :: (cs ++ [')'])) :=
  h.closed.operator rfl fun _ _ hopen ⟨_, _, _, hls, hclose, hms⟩ => hls ▸ ⟨_, .brackets hopen hms hclose⟩

theorem Writes.negation (h : Writes (.factor f) cs) : Writes (.factor (.call "Negate" [f])) ('-' :: cs) :=
  Cuts.operator rfl h fun _ _ hop ⟨_, hls⟩ => ⟨_, .negation hop hls⟩

theorem Writes.power (hbase : Writes (.atom f) cs) (hexponent : Writes (.factor g) cs') :
    Writes (.power (.call "Power" [f, g])) (cs ++ ' ' :: '^' :: ' ' :: cs') := by
  have hbehind : Writes (.exponent f (.call "Power" [f, g])) (' ' :: '^' :: ' ' :: cs') :=
    .blank rfl (.operator rfl (.blank rfl hexponent) fun _ _ hop ⟨_, hls⟩ => ⟨_, .exponent hop hls⟩)
  exact hbase.append hbehind (halting_cons (.inr rfl)) fun _ _ ⟨_, hls⟩ ⟨_, hms⟩ => ⟨_, .power hls hms⟩

theorem Writes.call (hname : Lexeme.IsIdentifier name.toList) (h : Writes (.args fs) cs) :
    Writes (.atom (.call name fs)) (name.toList ++ '(' :: (cs ++ [')'])) := by
  have hbehind : Writes (.behind name (.call name fs)) ('(' :: (cs ++ [')'])) :=
    h.closed.operator rfl fun _ _ hopen ⟨_, _, _, hls, hclose, hms⟩ => hls ▸ ⟨_, .call hopen hms hclose⟩
  exact writes_name hname hbehind (halting_cons (.inl rfl))

/-! ### Arguments -/

section Arguments
variable {text : Formula → String} {meaning : Formula → Formula}

theorem writes_moreArgs (h : ∀ a ∈ fs, Writes (.chain .sum (meaning a)) (text a).toList) :
    Writes (.moreArgs (fs.map meaning)) (fs.flatMap fun a => ',' :: ' ' :: (text a).toList) ∧
      Halting (fs.flatMap fun a => ',' :: ' ' :: (text a).toList) := by
  induction fs with
  | nil => exact ⟨cuts_nil ⟨_, .noMoreArgs⟩, halting_nil⟩
  | cons a fs ih =>
    obtain ⟨ha, hfs⟩ := List.forall_mem_cons.mp h
    obtain ⟨hmore, hhalting⟩ := ih hfs
    have hpair : Cuts (fun ls => ∃ ms ns d e, ls = ms ++ ns ∧ (Phrase.chain .sum (meaning a)).Spelled ms d ∧
        (Phrase.moreArgs (fs.map meaning)).Spelled ns e)
        ((text a).toList ++ fs.flatMap fun a => ',' :: ' ' :: (text a).toList) :=
      ha.append hmore hhalting fun ls ms ⟨d, hls⟩ ⟨e, hms⟩ => ⟨ls, ms, d, e, rfl, hls, hms⟩
    refine ⟨.operator rfl (.blank rfl hpair) ?_, halting_cons (.inl rfl)⟩
    rintro l _ hcomma ⟨ms, ns, d, e, rfl, hsum, hmore⟩
    exact ⟨_, .moreArgs hcomma hsum hmore⟩

theorem writes_args (h : ∀ a ∈ fs, Writes (.chain .sum (meaning a)) (text a).toList) :
    Writes (.args (fs.map meaning)) (", ".intercalate (fs.map text)).toList := by
  cases fs with
  | nil => exact cuts_nil ⟨_, .noArgs⟩
  | cons a fs =>
    obtain ⟨ha, hfs⟩ := List.forall_mem_cons.mp h
    obtain ⟨hmore, hhalting⟩ := writes_moreArgs hfs
    rw [Lexeme.toList_intercalate]
    exact ha.append hmore hhalting fun _ _ ⟨_, hsum⟩ ⟨_, hmore⟩ => ⟨_, .args hsum hmore⟩

end Arguments

/-! ### Chains -/

variable {k : Chain} {l : Lexeme} {ls ms : List Lexeme} {d e : Nat} {head : String}

/-- An operator with its operand goes behind the links of a chain. -/
theorem spelled_links_append (hop : k.head? l = some head) (hoperand : (k.operand g).Spelled ms e) {p : Phrase}
    (h : p.Spelled ls d) : match p with
      | .links c first f => c = k → ∃ d', (Phrase.links c first (.call head [f, g])).Spelled (ls ++ l :: ms) d'
      | _ => True := by
  induction h with
  | link hop' hnext _ _ ih =>
    rintro rfl
    obtain ⟨d', h⟩ := ih rfl
    rw [List.cons_append, List.append_assoc]
    exact ⟨_, .link hop' hnext h⟩
  | noLink =>
    rintro rfl
    rw [List.nil_append, ← List.append_nil ms]
    exact ⟨_, .link hop hoperand .noLink⟩
  | _ => trivial

theorem Phrase.Spelled.chain_append (h : (Phrase.chain k f).Spelled ls d) (hop : k.head? l = some head)
    (hoperand : (k.operand g).Spelled ms e) : ∃ d', (Phrase.chain k (.call head [f, g])).Spelled (ls ++ l :: ms) d' := by
  cases h with
  | chain hfirst hlinks =>
    obtain ⟨d', h⟩ := spelled_links_append hop hoperand hlinks rfl
    rw [List.append_assoc]
    exact ⟨_, .chain hfirst h⟩

theorem Writes.chain (hop : isOperator c = true) (hhead : k.operators.lookup (String.ofList [c]) = some head)
    (h : Writes (.chain k f) cs) (hoperand : Writes (k.operand g) cs') :
    Writes (.chain k (.call head [f, g])) (cs ++ ' ' :: c :: ' ' :: cs') := by
  have hlink : Cuts (fun ls => ∃ l ms d, ls = l :: ms ∧ k.head? l = some head ∧ (k.operand g).Spelled ms d)
      (' ' :: c :: ' ' :: cs') :=
    .blank rfl (.operator hop (.blank rfl hoperand) fun l ms hl ⟨d, hms⟩ => ⟨l, ms, d, rfl, Chain.head?_of_isMark hl hhead, hms⟩)
  refine h.append hlink (halting_cons (.inr rfl)) ?_
  rintro ls _ ⟨d, hls⟩ ⟨l, ms, e, rfl, hl, hms⟩
  exact hls.chain_append hl hms

end Calcbook.Formula
