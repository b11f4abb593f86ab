import Calcbook.Proofs.Lexeme.Numeral
import Mathlib.Data.List.TakeWhile

/-! Maximal munch. The lexemes of a text stand in it one behind the other, with nothing but blanks outside of
    them, and each is the operator, the longest identifier, the longest numeral or else the single character at
    its place. A text has only one such list of lexemes: what is no blank must be in a lexeme, so the next one
    begins at the first character that is none, and there only one lexeme can stand. -/

namespace Calcbook.Lexeme

/-! ### The lexeme at the front -/

/-- The longest prefix of some characters that has a property. -/
structure IsLongest (p : List Char → Prop) (cs text : List Char) : Prop where
  front : text <+: cs
  holds : p text
  longest : ∀ u, u <+: cs → p u → u.length ≤ text.length

/-- The characters between lexemes. -/
def blanks : List Char := [' ', '\n', '\r', '\t']

/-- The operators that are neither brackets nor the comma. -/
def operators : List Char := ['+', '-', '*', '/', '%', '^', '=']

/-- The lexeme at the front of some characters, by its kind and its characters. Operators come before identifiers and
    identifiers before numbers; what begins none of them stands alone. -/
inductive Munch : List Char → Kind → List Char → Prop
  | openParen {cs : List Char} : Munch ('(' :: cs) .openParen ['(']
  | closeParen {cs : List Char} : Munch (')' :: cs) .closeParen [')']
  | comma {cs : List Char} : Munch (',' :: cs) .comma [',']
  | operator {c : Char} {cs : List Char} (hc : c ∈ operators) : Munch (c :: cs) .operator [c]
  | ident {c : Char} {cs text : List Char} (hop : c ∉ '(' :: ')' :: ',' :: operators) (hstart : isIdentStart c = true)
      (h : IsLongest IsIdentifier (c :: cs) text) : Munch (c :: cs) .ident text
  | number {c : Char} {cs text : List Char} (hop : c ∉ '(' :: ')' :: ',' :: operators) (hstart : isIdentStart c = false)
      (h : IsLongest IsNumeral (c :: cs) text) : Munch (c :: cs) .number text
  | unknown {c : Char} {cs : List Char} (hblank : c ∉ blanks) (hop : c ∉ '(' :: ')' :: ',' :: operators)
      (hstart : isIdentStart c = false) (h : ∀ u, u <+: c :: cs → ¬IsNumeral u) : Munch (c :: cs) .unknown [c]

variable {c : Char} {cs text rest : List Char} {kind : Kind} {p : List Char → Prop}

theorem IsLongest.unique {u v : List Char} (hu : IsLongest p cs u) (hv : IsLongest p cs v) : u = v := by
  have hle := hu.longest v hv.front hv.holds
  exact (List.prefix_of_prefix_length_le hu.front hv.front (hv.longest u hu.front hu.holds)).eq_of_length_le hle

theorem isBlank_iff : isBlank c = true ↔ c ∈ blanks := by
  simp [isBlank, blanks, or_assoc]

theorem isOperator_iff : isOperator c = true ↔ c ∈ '(' :: ')' :: ',' :: operators := by
  simp only [isOperator, operators, List.contains_iff_mem, List.mem_cons]
  tauto

theorem isLongest_identifier (hc : isIdentStart c = true) :
    IsLongest IsIdentifier (c :: cs) (c :: cs.takeWhile isIdentPart) where
  front := List.cons_prefix_cons.mpr ⟨rfl, List.takeWhile_prefix _⟩
  holds := ⟨c, _, rfl, hc, List.all_takeWhile⟩
  longest := by
    rintro _ hu ⟨d, ds, rfl, -, hds⟩
    obtain ⟨rfl, more, rfl⟩ := List.cons_prefix_cons.mp hu
    rw [List.takeWhile_append_of_pos (List.all_eq_true.mp hds)]
    simp

theorem isLongest_number (h : (number cs).1 ≠ []) : IsLongest IsNumeral cs (number cs).1 where
  front := ⟨_, number_append cs⟩
  holds := isNumeral_number h
  longest := by
    rintro u ⟨v, rfl⟩ hu
    exact (numeral_isPrefix hu).length_le

theorem not_isNumeral_of_number (h : (number cs).1 = []) : ∀ u, u <+: cs → ¬IsNumeral u := by
  rintro u ⟨v, rfl⟩ hu
  exact hu.ne_nil (List.prefix_nil.mp (h ▸ numeral_isPrefix hu))

theorem kind_of_operator : ∀ c ∈ operators, Kind.ofOperator (String.ofList [c]) = .operator :=
  List.all_iff_forall_prop.mp (by decide)

theorem munch_operator (hc : c ∈ '(' :: ')' :: ',' :: operators) : Munch (c :: cs) (.ofOperator (String.ofList [c])) [c] := by
  rcases List.mem_cons.mp hc with rfl | hc
  · exact .openParen
  rcases List.mem_cons.mp hc with rfl | hc
  · exact .closeParen
  rcases List.mem_cons.mp hc with rfl | hc
  · exact .comma
  · exact kind_of_operator c hc ▸ .operator hc

/-- What is cut off is the lexeme at the front. -/
theorem munch_of_cut (hblank : ∀ c ∈ cs.head?, isBlank c = false) (h : cut cs = some (kind, text, rest)) :
    Munch cs kind text := by
  unfold cut at h
  split at h
  · cases h
  rename_i c cs
  have hc : c ∉ blanks := fun hmem => Bool.eq_false_iff.mp (hblank c rfl) (isBlank_iff.mpr hmem)
  split at h
  · rename_i hop
    cases h
    exact munch_operator (isOperator_iff.mp hop)
  rename_i hop
  have hop : c ∉ '(' :: ')' :: ',' :: operators := fun hmem => hop (isOperator_iff.mpr hmem)
  split at h
  · rename_i hstart
    cases h
    exact .ident hop hstart (isLongest_identifier hstart)
  rename_i hstart
  have hstart := Bool.eq_false_iff.mpr hstart
  split at h
  · rename_i hnumber
    cases h
    exact .unknown hc hop hstart (not_isNumeral_of_number (by rw [hnumber]))
  · rename_i hne hnumber
    cases h
    have hsome : (number (c :: cs)).1 ≠ [] := by
      rw [hnumber]
      exact fun hnil => hne hnil
    have hlongest := isLongest_number hsome
    rw [hnumber] at hlongest
    exact .number hop hstart hlongest

/-- Only the lexeme at the front is cut off. -/
theorem Munch.exists_cut (h : Munch cs kind text) : ∃ rest, cut cs = some (kind, text, rest) := by
  have hnot : ∀ {c}, c ∉ '(' :: ')' :: ',' :: operators → ¬isOperator c = true := fun hc hop => hc (isOperator_iff.mp hop)
  cases h with
  | openParen | closeParen | comma => exact ⟨_, rfl⟩
  | @operator c cs hc => exact ⟨cs, by rw [cut, if_pos (isOperator_iff.mpr (by simp [hc])), kind_of_operator c hc]⟩
  | ident hop hstart h =>
    obtain rfl := h.unique (isLongest_identifier hstart)
    exact ⟨_, by rw [cut, if_neg (hnot hop), if_pos hstart]⟩
  | @number c cs _ hop hstart h =>
    have hne : (Lexeme.number (c :: cs)).1 ≠ [] := fun hnil => not_isNumeral_of_number hnil _ h.front h.holds
    obtain rfl := h.unique (isLongest_number hne)
    refine ⟨(Lexeme.number (c :: cs)).2, ?_⟩
    rw [cut, if_neg (hnot hop), if_neg (Bool.eq_false_iff.mp hstart)]
    split
    · rename_i hnumber
      exact (hne (by rw [hnumber])).elim
    · rename_i hnumber
      rw [hnumber]
  | @unknown c cs _ hop hstart h =>
    have hnil : (Lexeme.number (c :: cs)).1 = [] := by
      by_contra hne
      exact h _ ⟨_, number_append _⟩ (isNumeral_number hne)
    refine ⟨cs, ?_⟩
    rw [cut, if_neg (hnot hop), if_neg (Bool.eq_false_iff.mp hstart)]
    split
    · rfl
    · rename_i hne hnumber
      rw [hnumber] at hnil
      exact (hne hnil).elim

theorem Munch.front (h : Munch cs kind text) : text <+: cs ∧ text ≠ [] := by
  obtain ⟨rest, hcut⟩ := h.exists_cut
  obtain ⟨happend, hne⟩ := append_of_cut hcut
  exact ⟨⟨rest, happend⟩, hne⟩

/-- No lexeme begins with a blank. -/
theorem Munch.head (h : Munch cs kind text) : ∃ c ∈ cs.head?, isBlank c = false := by
  have hop : ∀ c ∈ operators, isBlank c = false := List.all_iff_forall_prop.mp (by decide)
  cases h with
  | openParen | closeParen | comma => exact ⟨_, rfl, by decide⟩
  | operator hc => exact ⟨_, rfl, hop _ hc⟩
  | ident _ hstart _ => exact ⟨_, rfl, (of_isIdentStart hstart).2⟩
  | number _ _ h =>
    obtain ⟨d, ds, rfl, -, -, hblank⟩ := h.holds.exists_head
    obtain ⟨more, hmore⟩ := h.front
    exact ⟨d, by rw [← hmore]; rfl, hblank⟩
  | unknown hblank _ _ _ => exact ⟨_, rfl, Bool.eq_false_iff.mpr fun hb => hblank (isBlank_iff.mp hb)⟩

/-! ### The lexemes of a text -/

/-- The place behind a lexeme. -/
def stop (l : Lexeme) : Nat := l.offset + l.text.length

/-- A lexeme takes up a place. -/
def Covers (l : Lexeme) (i : Nat) : Prop := l.offset ≤ i ∧ i < l.stop

/-- A list is that of the lexemes of some characters from a place on. -/
structure Lexes (cs : List Char) (start : Nat) (ls : List Lexeme) : Prop where
  behind : ∀ l ∈ ls, start ≤ l.offset
  text_eq : ∀ l ∈ ls, (cs.drop l.offset).take l.text.length = l.text.toList
  increasing : ls.Pairwise fun l m => l.offset < m.offset
  apart : ls.Pairwise fun l m => l.stop ≤ m.offset
  blank : ∀ i c, start ≤ i → cs[i]? = some c → (∀ l ∈ ls, ¬l.Covers i) → c ∈ blanks
  munch : ∀ l ∈ ls, Munch (cs.drop l.offset) l.kind l.text.toList

variable {start : Nat} {l : Lexeme} {ls : List Lexeme}

theorem offset_lt_stop (h : Munch cs l.kind l.text.toList) : l.offset < l.stop := by
  have := List.length_pos_iff.mpr h.front.2
  rw [String.length_toList] at this
  exact Nat.lt_add_of_pos_right this

theorem lexes_nil : Lexes cs start [] ↔ ∀ i c, start ≤ i → cs[i]? = some c → c ∈ blanks := by
  constructor
  · exact fun h i c hi hc => h.blank i c hi hc nofun
  · exact fun h => ⟨nofun, nofun, .nil, .nil, fun i c hi hc _ => h i c hi hc, nofun⟩

/-- What a lexeme in front of others adds: it stands behind a gap of blanks, and the others stand behind it. -/
theorem lexes_cons : Lexes cs start (l :: ls) ↔ start ≤ l.offset ∧
    (∀ i c, start ≤ i → i < l.offset → cs[i]? = some c → c ∈ blanks) ∧
    Munch (cs.drop l.offset) l.kind l.text.toList ∧ Lexes cs l.stop ls := by
  constructor
  · rintro ⟨hbehind, htext, hincreasing, hapart, hblank, hmunch⟩
    obtain ⟨hfirst, hapart⟩ := List.pairwise_cons.mp hapart
    have hlt := offset_lt_stop (hmunch l List.mem_cons_self)
    refine ⟨hbehind l List.mem_cons_self, fun i c hi hlt' hc => hblank i c hi hc ?_, hmunch l List.mem_cons_self, hfirst,
      (List.forall_mem_cons.mp htext).2, (List.pairwise_cons.mp hincreasing).2, hapart, ?_, (List.forall_mem_cons.mp hmunch).2⟩
    · refine List.forall_mem_cons.mpr ⟨fun hcovers => ?_, fun m hm hcovers => ?_⟩
      · exact absurd hcovers.1 (by omega)
      · have := hfirst m hm
        exact absurd hcovers.1 (by omega)
    · intro i c hi hc hnone
      have := hbehind l List.mem_cons_self
      exact hblank i c (by omega) hc (List.forall_mem_cons.mpr ⟨fun hcovers => absurd hcovers.2 (by omega), hnone⟩)
  · rintro ⟨hle, hgap, hmunch, h⟩
    have hlt := offset_lt_stop hmunch
    refine ⟨List.forall_mem_cons.mpr ⟨hle, fun m hm => ?_⟩, List.forall_mem_cons.mpr ⟨?_, h.text_eq⟩,
      List.pairwise_cons.mpr ⟨fun m hm => ?_, h.increasing⟩, List.pairwise_cons.mpr ⟨h.behind, h.apart⟩, ?_,
      List.forall_mem_cons.mpr ⟨hmunch, h.munch⟩⟩
    · have := h.behind m hm
      omega
    · rw [← String.length_toList]
      exact (List.prefix_iff_eq_take.mp hmunch.front.1).symm
    · have := h.behind m hm
      omega
    · intro i c hi hc hnone
      obtain ⟨hnot, hnone⟩ := List.forall_mem_cons.mp hnone
      by_cases hbefore : i < l.offset
      · exact hgap i c hi hbefore hc
      · exact h.blank i c (not_lt.mp fun hlt => hnot ⟨by omega, hlt⟩) hc hnone

/-- Blanks up to a character that is none are just the blanks that are passed over. -/
theorem gap_eq {place : Nat} (hle : start ≤ place) (hgap : ∀ i c, start ≤ i → i < place → cs[i]? = some c → c ∈ blanks)
    (hhead : ∃ c ∈ (cs.drop place).head?, isBlank c = false) :
    start + ((cs.drop start).takeWhile isBlank).length = place ∧ (cs.drop start).dropWhile isBlank = cs.drop place := by
  obtain ⟨c, hc, hblank⟩ := hhead
  have hlen : place < cs.length := by
    by_contra hnot
    rw [List.drop_eq_nil_of_le (by omega)] at hc
    cases hc
  have hsplit : (cs.drop start).take (place - start) ++ cs.drop place = cs.drop start := by
    rw [← Nat.add_sub_of_le hle, Nat.add_sub_cancel_left, ← List.drop_drop, List.take_append_drop]
  have hrun : ((cs.drop start).take (place - start)).all isBlank = true := by
    refine List.all_eq_true.mpr fun d hd => isBlank_iff.mpr ?_
    obtain ⟨i, hi, hget⟩ := List.mem_take_iff_getElem.mp hd
    rw [List.getElem_drop] at hget
    exact hgap (start + i) d (by omega) (by omega) (List.getElem?_eq_some_iff.mpr ⟨_, hget⟩)
  have hstop : ∀ d ∈ (cs.drop place).head?, isBlank d = false := by
    intro d hd
    cases hc.symm.trans hd
    exact hblank
  obtain ⟨htake, hdrop⟩ := takeWhile_run hrun hstop
  rw [hsplit] at htake hdrop
  refine ⟨?_, hdrop⟩
  rw [htake, List.length_take, List.length_drop]
  omega

theorem isBlank_head_dropWhile : ∀ c ∈ (cs.dropWhile isBlank).head?, isBlank c = false := fun c hc => by
  have h := List.head?_dropWhile_not isBlank cs
  rwa [hc] at h

theorem eq_nil_of_cut (h : cut cs = none) : cs = [] := by
  unfold cut at h
  split at h
  · rfl
  · repeat' split at h
    all_goals cases h

/-- What is cut off from a place on are the lexemes there. -/
theorem lexes_cutAll (h : cs.drop start = rest) : Lexes cs start (cutAll start rest) := by
  induction start, rest using cutAll.induct with
  | case1 start rest hcut =>
    have hall : ∀ c ∈ rest, isBlank c = true := List.dropWhile_eq_nil_iff.mp (eq_nil_of_cut hcut)
    rw [cutAll_eq, hcut]
    refine lexes_nil.mpr fun i c hi hc => isBlank_iff.mp (hall c ?_)
    rw [← h]
    exact List.mem_of_getElem? (i := i - start) (by rw [List.getElem?_drop, Nat.add_sub_of_le hi, hc])
  | case2 start rest kind text rest' hcut ih =>
    have hmunch := munch_of_cut isBlank_head_dropWhile hcut
    have hsplit : rest.takeWhile isBlank ++ rest.dropWhile isBlank = rest := List.takeWhile_append_dropWhile
    have hplace : cs.drop (start + (rest.takeWhile isBlank).length) = rest.dropWhile isBlank :=
      calc cs.drop (start + (rest.takeWhile isBlank).length)
        _ = (rest.takeWhile isBlank ++ rest.dropWhile isBlank).drop (rest.takeWhile isBlank).length := by
          rw [hsplit, ← h, List.drop_drop]
        _ = rest.dropWhile isBlank := List.drop_left
    have hnext : cs.drop (start + (rest.takeWhile isBlank).length + text.length) = rest' := by
      rw [← List.drop_drop, hplace, ← (append_of_cut hcut).1, List.drop_left]
    rw [cutAll_eq, hcut]
    refine lexes_cons.mpr ⟨Nat.le_add_right _ _, fun i c hi hlt hc => isBlank_iff.mp ?_, ?_, ?_⟩
    · have hlen : i - start < (rest.takeWhile isBlank).length := by
        dsimp only at hlt
        omega
      refine List.mem_takeWhile_imp (l := rest) (List.mem_of_getElem? (i := i - start) ?_)
      rw [← List.getElem?_append_left hlen, hsplit, ← h, List.getElem?_drop, Nat.add_sub_of_le hi, hc]
    · rwa [hplace, String.toList_ofList]
    · rw [stop, String.length_ofList]
      exact ih hnext

/-- Only the lexemes that are cut off from a place on are the lexemes there. -/
theorem Lexes.eq_cutAll (h : Lexes cs start ls) : ls = cutAll start (cs.drop start) := by
  induction ls generalizing start with
  | nil =>
    have hnil : (cs.drop start).dropWhile isBlank = [] := by
      refine List.dropWhile_eq_nil_iff.mpr fun c hc => isBlank_iff.mpr ?_
      obtain ⟨i, hi⟩ := List.mem_iff_getElem?.mp hc
      rw [List.getElem?_drop] at hi
      exact lexes_nil.mp h (start + i) c (Nat.le_add_right _ _) hi
    rw [cutAll_eq, hnil]
    rfl
  | cons l ls ih =>
    obtain ⟨hle, hgap, hmunch, h⟩ := lexes_cons.mp h
    obtain ⟨hplace, hdrop⟩ := gap_eq hle hgap hmunch.head
    obtain ⟨rest, hcut⟩ := hmunch.exists_cut
    have hrest : rest = cs.drop l.stop := by
      rw [stop, ← List.drop_drop, ← (append_of_cut hcut).1, ← String.length_toList, List.drop_left]
    rw [cutAll_eq, hdrop, hcut, hplace]
    dsimp only
    rw [String.ofList_toList, String.length_toList, hrest]
    exact congrArg _ (ih h)

/-- The lexemes of a text are the list that stands in it by maximal munch, and the only one. -/
theorem ofText_exact (text : String) (ls : List Lexeme) : ls = ofText text ↔ Lexes text.toList 0 ls := by
  rw [ofText_eq_cutAll]
  exact ⟨fun h => h ▸ lexes_cutAll rfl, Lexes.eq_cutAll⟩

end Calcbook.Lexeme
