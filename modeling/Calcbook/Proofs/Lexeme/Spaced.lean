import Calcbook.Proofs.Lexeme.Munch

/-! Lexemes with spaces between them. What ends a lexeme in a text is that the characters behind it do not carry on with
    it, and neither does a space: a number keeps no exponent that lacks its digits and no second point, and a lone
    point has no digits behind it once it stands apart. So each lexeme is cut off as it was, and only the places
    change. -/

namespace Calcbook.Lexeme

/-- A lexeme without its place. -/
def word (l : Lexeme) : Kind × String := (l.kind, l.text)

/-- The texts of lexemes with single spaces between them. -/
def spaced (ls : List Lexeme) : String := " ".intercalate (ls.map text)

variable {c : Char} {cs rest text : List Char} {kind : Kind}

/-- A character that begins no number in front of some characters begins none in front of what would stop one. -/
theorem number_eq_nil (h : ∀ u, u <+: c :: cs → ¬IsNumeral u) (hrest : Stops rest) : (number (c :: rest)).1 = [] := by
  by_contra hne
  have hnumeral := isNumeral_number hne
  have hfront : (number (c :: rest)).1 <+: c :: rest := ⟨_, number_append _⟩
  obtain ⟨front, power, heq, hdecimal | hpoint, -⟩ := isNumeral_iff.mp hnumeral
  · -- a digit is a number by itself
    obtain ⟨whole, point, rfl, hwhole, hdigits, -⟩ := hdecimal
    obtain ⟨d, ds, rfl⟩ := List.exists_cons_of_ne_nil hwhole
    rw [heq] at hfront
    obtain ⟨rfl, -⟩ := List.cons_prefix_cons.mp hfront
    have hd := List.all_eq_true.mp hdigits d List.mem_cons_self
    have hdecimal : IsDecimal [d] := ⟨[d], [], rfl, List.cons_ne_nil _ _, by simpa using hd, Or.inl rfl⟩
    exact h [d] (List.cons_prefix_cons.mpr ⟨rfl, List.nil_prefix⟩) hdecimal.isNumeral
  · -- a point needs a digit behind it
    obtain ⟨ds, rfl, hds, hdigits⟩ := hpoint
    obtain ⟨d, ds, rfl⟩ := List.exists_cons_of_ne_nil hds
    rw [heq] at hfront
    obtain ⟨more, hmore⟩ := (List.cons_prefix_cons.mp hfront).2
    have hd := List.all_eq_true.mp hdigits d List.mem_cons_self
    have hstop := (hrest d (by rw [← hmore]; rfl)).1
    exact absurd (of_isDigit hd).1 (Bool.eq_false_iff.mp hstop)

/-- A lexeme is cut off wherever what is behind it does not carry on with it. -/
theorem Munch.cut_append (h : Munch cs kind text) (hrest : Stops rest) : cut (text ++ rest) = some (kind, text, rest) := by
  cases h with
  | openParen | closeParen | comma => rfl
  | @operator c _ hc =>
    have hop : isOperator c = true := isOperator_iff.mpr (by simp [hc])
    rw [List.singleton_append, cut, if_pos hop, kind_of_operator c hc]
  | ident _ _ h => exact cut_identifier h.holds hrest
  | number _ _ h => exact cut_numeral h.holds hrest
  | @unknown c _ _ hop hstart h =>
    have hnumber := number_eq_nil h hrest
    have hop : ¬isOperator c = true := fun hc => hop (isOperator_iff.mp hc)
    rw [List.singleton_append, cut, if_neg hop, if_neg (Bool.eq_false_iff.mp hstart)]
    split
    · rfl
    · rename_i hne heq
      rw [heq] at hnumber
      exact (hne hnumber).elim

theorem cutAll_munch {start : Nat} (h : Munch cs kind text) (hrest : Stops rest) :
    cutAll start (text ++ rest) = ⟨kind, String.ofList text, start⟩ :: cutAll (start + text.length) rest := by
  have hcut := h.cut_append hrest
  obtain ⟨c, hc, hblank⟩ := h.head
  obtain ⟨happend, hne⟩ := h.front
  obtain ⟨d, text, rfl⟩ := List.exists_cons_of_ne_nil hne
  obtain ⟨more, rfl⟩ := happend
  obtain rfl : d = c := Option.some.inj hc
  exact cutAll_of_cut hblank hcut

/-- Texts with a space in front of each are stopped wherever a lexeme may end, and cut into the same lexemes. -/
theorem words_cutAll_spaces {ls : List Lexeme} (hls : ∀ l ∈ ls, ∃ cs, Munch cs l.kind l.text.toList) (start : Nat) :
    Stops (ls.flatMap fun l => ' ' :: l.text.toList) ∧
      (cutAll start (ls.flatMap fun l => ' ' :: l.text.toList)).map word = ls.map word := by
  induction ls generalizing start with
  | nil =>
    rw [List.flatMap_nil, cutAll_nil]
    exact ⟨stops_nil, rfl⟩
  | cons l ls ih =>
    obtain ⟨⟨cs, hl⟩, hls⟩ := List.forall_mem_cons.mp hls
    obtain ⟨hstops, hwords⟩ := ih hls (start + 1 + l.text.toList.length)
    have hblank : isBlank ' ' = true := rfl
    have hspace := isIdentPart_eq_false (Or.inr hblank)
    refine ⟨stops_cons hspace.1 hspace.2, ?_⟩
    rw [List.flatMap_cons, List.cons_append, cutAll_blank hblank, cutAll_munch hl hstops, List.map_cons, hwords,
      String.ofList_toList]
    rfl

theorem words_ofText_spaced {ls : List Lexeme} (hls : ∀ l ∈ ls, ∃ cs, Munch cs l.kind l.text.toList) :
    (ofText (spaced ls)).map word = ls.map word := by
  rw [ofText_eq_cutAll]
  cases ls with
  | nil => exact congrArg (List.map word) cutAll_nil
  | cons l ls =>
    obtain ⟨⟨cs, hl⟩, hls⟩ := List.forall_mem_cons.mp hls
    obtain ⟨hstops, hwords⟩ := words_cutAll_spaces hls (0 + l.text.toList.length)
    have htext : (spaced (l :: ls)).toList = l.text.toList ++ ls.flatMap fun l => ' ' :: l.text.toList :=
      toList_intercalate " " text l ls
    rw [htext, cutAll_munch hl hstops, List.map_cons, hwords, String.ofList_toList]
    rfl

/-- The lexemes of a text are lexemes of it again when they are put apart by spaces. -/
theorem words_spaced (s : String) : (ofText (spaced (ofText s))).map word = (ofText s).map word := by
  refine words_ofText_spaced fun l hl => ?_
  rw [ofText_eq_cutAll] at hl
  exact ⟨_, (lexes_cutAll rfl).munch l hl⟩

end Calcbook.Lexeme
