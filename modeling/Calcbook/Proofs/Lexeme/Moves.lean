import Calcbook.Lexeme.Forms

/-! Moves of a cursor in any order. A cursor that moves without dropping anything only pulls items over from the rest of
    the input to the end of its buffer, and a cursor is never further on than just behind its buffer. -/

namespace Calcbook.Cursor

/-! ### Moves -/

/-- What can be done with a cursor over characters, apart from looking at what it shows. -/
inductive Move
  | next
  | peek
  | moveTo (p : Int)
  | dropShown
  | takeShown
  | accept (x : Char)
  | acceptAny (xs : List Char)
  | skipAll (xs : List Char)
  | takeText
  | dropBlanks
  | takeNumber
  | takeOperator
  | takeIdent

/-- The cursor after a move. -/
def Move.apply (c : Cursor Char) : Move → Cursor Char
  | next => c.next.2
  | peek => c.peek.2
  | moveTo p => (c.moveTo p).2
  | dropShown => c.dropShown
  | takeShown => c.takeShown.2
  | accept x => (c.accept x).2
  | acceptAny xs => (c.acceptAny xs).2
  | skipAll xs => (c.skipRun (xs.contains ·)).2
  | takeText => c.takeText.2
  | dropBlanks => c.dropBlanks
  | takeNumber => c.takeNumber.2
  | takeOperator => c.takeOperator.2
  | takeIdent => c.takeIdent.2

/-- The cursors that moves over a text lead to. -/
inductive Reachable (text : String) : Cursor Char → Prop
  | start : Reachable text (ofList text.toList)
  | move {c : Cursor Char} (h : Reachable text c) (m : Move) : Reachable text (m.apply c)

/-! ### Attempts and scans, case by case -/

section Cases
variable {α : Type}

/-- An attempt moves on over an item that passes the test, or puts the cursor back. -/
theorem acceptIf_cases (p : α → Bool) (c : Cursor α) :
    (∃ x, c.next.1 = some x ∧ c.acceptIf p = (some x, c.next.2)) ∨ c.acceptIf p = (none, c.next.2.backTo c.shown) := by
  rw [acceptIf]
  split
  · rename_i x c' hnext
    cases hp : p x with
    | true => exact Or.inl ⟨x, by rw [hnext], by rw [hnext]; rfl⟩
    | false => exact Or.inr (by rw [hnext]; rfl)
  · rename_i c' hnext
    exact Or.inr (by rw [hnext])

theorem acceptIf_eq_none {p : α → Bool} {c : Cursor α} (h : (c.acceptIf p).1 = none) :
    (c.acceptIf p).2 = c.next.2.backTo c.shown := by
  rcases acceptIf_cases p c with ⟨x, -, hsome⟩ | hnone
  · rw [hsome] at h
    cases h
  · rw [hnone]

theorem takeNumber_cases (c : Cursor Char) : (c.skipMantissa.shown = c.shown ∧ c.takeNumber = (none, c.skipMantissa)) ∨
    c.takeNumber = (some (String.ofList c.skipMantissa.skipExponent.view), c.skipMantissa.skipExponent.dropShown) := by
  rw [takeNumber]
  by_cases h : c.skipMantissa.shown = c.shown
  · exact Or.inl ⟨h, if_pos h⟩
  · exact Or.inr (if_neg h)

theorem takeOperator_cases (c : Cursor Char) : c.takeOperator = (none, c.next.2.backTo c.shown) ∨
    c.takeOperator = (some (String.ofList c.next.2.view), c.next.2.dropShown) := by
  rw [takeOperator]
  rcases acceptIf_cases isOperator c with ⟨x, -, hsome⟩ | hnone
  · rw [hsome]
    exact Or.inr rfl
  · rw [hnone]
    exact Or.inl rfl

theorem takeIdent_cases (c : Cursor Char) : c.takeIdent = (none, c.next.2.backTo c.shown) ∨
    c.takeIdent = (some (String.ofList (c.next.2.skipWhile isIdentPart).view),
      (c.next.2.skipWhile isIdentPart).dropShown) := by
  rw [takeIdent]
  rcases acceptIf_cases isIdentStart c with ⟨x, -, hsome⟩ | hnone
  · rw [hsome]
    exact Or.inr rfl
  · rw [hnone]
    exact Or.inl rfl

end Cases

/-! ### What a cursor keeps until it drops something -/

section Keeps
variable {α : Type} {c c' c'' : Cursor α}

/-- A cursor over the same items with nothing dropped and nothing put back from the buffer. -/
structure Keeps (c c' : Cursor α) : Prop where
  dropped_eq : c'.dropped = c.dropped
  items_eq : c'.buffer.toList ++ c'.rest = c.buffer.toList ++ c.rest
  size_le : c.buffer.size ≤ c'.buffer.size

theorem Keeps.refl (c : Cursor α) : Keeps c c := ⟨rfl, rfl, Nat.le_refl _⟩

theorem Keeps.trans (h : Keeps c c') (h' : Keeps c' c'') : Keeps c c'' :=
  ⟨h'.dropped_eq.trans h.dropped_eq, h'.items_eq.trans h.items_eq, Nat.le_trans h.size_le h'.size_le⟩

theorem Keeps.backTo (h : Keeps c c') (n : Nat) : Keeps c (c'.backTo n) := ⟨h.dropped_eq, h.items_eq, h.size_le⟩

/-- The items pulled since. -/
theorem Keeps.exists_pulled (h : Keeps c c') :
    ∃ pulled, c'.buffer.toList = c.buffer.toList ++ pulled ∧ c.rest = pulled ++ c'.rest := by
  have hsize : c.buffer.toList.length ≤ c'.buffer.toList.length := by simpa using h.size_le
  have hfront : c.buffer.toList <+: c'.buffer.toList ++ c'.rest := h.items_eq ▸ List.prefix_append _ _
  obtain ⟨pulled, hpulled⟩ := List.prefix_of_prefix_length_le hfront (List.prefix_append _ _) hsize
  refine ⟨pulled, hpulled.symm, ?_⟩
  have hitems := h.items_eq
  rw [← hpulled, List.append_assoc] at hitems
  exact (List.append_cancel_left hitems).symm

theorem keeps_fill (c : Cursor α) (n : Nat) : Keeps c (c.fill n) where
  dropped_eq := rfl
  items_eq := by simp [fill]
  size_le := by simp [fill]

theorem keeps_next (c : Cursor α) : Keeps c c.next.2 := (keeps_fill c _).backTo _

theorem keeps_acceptIf (p : α → Bool) (c : Cursor α) : Keeps c (c.acceptIf p).2 := by
  rcases acceptIf_cases p c with ⟨x, -, h⟩ | h <;> rw [h]
  · exact keeps_next c
  · exact (keeps_next c).backTo _

theorem keeps_skipWhile (p : α → Bool) (c : Cursor α) : Keeps c (c.skipWhile p) := by
  fun_induction skipWhile p c with
  | case1 c x c' hc ih =>
    have h := keeps_acceptIf p c
    rw [hc] at h
    exact h.trans ih
  | case2 c c' hc =>
    have h := keeps_acceptIf p c
    rwa [hc] at h

end Keeps

theorem keeps_skipFraction (whole : Bool) (c : Cursor Char) : Keeps c (c.skipFraction whole) := by
  have hdot := keeps_acceptIf (· == '.') c
  rw [skipFraction, accept]
  split
  · rename_i c' hc
    rwa [hc] at hdot
  · rename_i x c' hc
    rw [hc] at hdot
    have hdigits := hdot.trans (keeps_skipWhile Char.isDigit c')
    dsimp only
    split
    · exact hdigits
    · exact hdigits.backTo _

theorem keeps_skipMantissa (c : Cursor Char) : Keeps c c.skipMantissa :=
  (keeps_skipWhile Char.isDigit c).trans (keeps_skipFraction _ _)

theorem keeps_skipExponent (c : Cursor Char) : Keeps c c.skipExponent := by
  have hmark := keeps_acceptIf (['e', 'E'].contains ·) c
  rw [skipExponent, acceptAny]
  split
  · rename_i c' hc
    rwa [hc] at hmark
  · rename_i x c' hc
    rw [hc] at hmark
    have hsign := hmark.trans (keeps_acceptIf (['+', '-'].contains ·) c')
    have hdigits := hsign.trans (keeps_skipWhile Char.isDigit _)
    dsimp only
    split
    · exact hdigits
    · exact hdigits.backTo _

/-- What is left in the buffer is what was not shown. -/
theorem buffer_dropShown {α : Type} (c : Cursor α) : c.dropShown.buffer.toList = c.buffer.toList.drop c.shown := by
  rw [dropShown, Array.toList_extract, List.extract_eq_take_drop, List.take_of_length_le (by simp)]

/-! ### How far a cursor gets -/

section Fits
variable {α : Type} {c c' : Cursor α}

/-- A cursor stands in its buffer, before it or just behind it. -/
def Fits (c : Cursor α) : Prop := c.shown ≤ c.buffer.size + 1

theorem fits_next (c : Cursor α) : Fits c.next.2 := Nat.min_le_right _ _

theorem fits_dropShown (c : Cursor α) : Fits c.dropShown := Nat.zero_le _

theorem fits_moveTo (h : Fits c) (p : Int) : Fits (c.moveTo p).2 := by
  rw [moveTo]
  split
  · rename_i hp
    show (p + 1).toNat ≤ c.buffer.size + 1
    omega
  · exact h

theorem Fits.of_keeps (h : Fits c) (hkeeps : Keeps c c') (hshown : c'.shown = c.shown) : Fits c' := by
  have := hkeeps.size_le
  rw [Fits] at h ⊢
  omega

theorem fits_acceptIf (h : Fits c) (p : α → Bool) : Fits (c.acceptIf p).2 := by
  rcases acceptIf_cases p c with ⟨x, -, hsome⟩ | hnone
  · rw [hsome]
    exact fits_next c
  · rw [hnone]
    exact h.of_keeps ((keeps_next c).backTo _) rfl

theorem fits_skipWhile (h : Fits c) (p : α → Bool) : Fits (c.skipWhile p) := by
  fun_induction skipWhile p c with
  | case1 c x c' hc ih =>
    have h' := fits_acceptIf h p
    rw [hc] at h'
    exact ih h'
  | case2 c c' hc =>
    have h' := fits_acceptIf h p
    rwa [hc] at h'

end Fits

theorem Move.fits {c : Cursor Char} (h : Fits c) (m : Move) : Fits (m.apply c) := by
  have hback : Fits (c.next.2.backTo c.shown) := h.of_keeps ((keeps_next c).backTo _) rfl
  cases m with
  | next => exact fits_next c
  | peek => exact hback
  | moveTo p => exact fits_moveTo h p
  | dropShown | takeShown | takeText => exact fits_dropShown c
  | accept | acceptAny => exact fits_acceptIf h _
  | skipAll => exact fits_skipWhile h _
  | dropBlanks => exact fits_dropShown _
  | takeNumber =>
    rcases takeNumber_cases c with ⟨hshown, hnone⟩ | hsome
    · rw [apply, hnone]
      exact h.of_keeps (keeps_skipMantissa c) hshown
    · rw [apply, hsome]
      exact fits_dropShown _
  | takeOperator =>
    rcases takeOperator_cases c with hnone | hsome
    · rwa [apply, hnone]
    · rw [apply, hsome]
      exact fits_dropShown _
  | takeIdent =>
    rcases takeIdent_cases c with hnone | hsome
    · rwa [apply, hnone]
    · rw [apply, hsome]
      exact fits_dropShown _

theorem Reachable.fits {text : String} {c : Cursor Char} (h : Reachable text c) : Fits c := by
  induction h with
  | start => exact Nat.zero_le _
  | move _ m ih => exact m.fits ih

end Calcbook.Cursor
