import Calcbook.Proofs.Lexeme.Moves

/-! The input of a cursor is conserved. What moves answer or discard is cut off the front of it, and the rest of it is
    always there, buffered or still to be pulled. A move takes off either nothing or just what the cursor shows once it
    has moved on as far as it will, so the items gone are those that are counted as dropped. -/

namespace Calcbook.Cursor

/-- The items that a move takes off the front of the input: those that it answers as a list or as a text, and those
    that it discards. -/
def Move.taken (c : Cursor Char) : Move → List Char
  | takeShown => c.takeShown.1
  | takeText => c.takeText.1.toList
  | takeNumber => c.takeNumber.1.elim [] String.toList
  | takeOperator => c.takeOperator.1.elim [] String.toList
  | takeIdent => c.takeIdent.1.elim [] String.toList
  | dropShown => c.view
  | dropBlanks => (c.skipWhile isBlank).view
  | next | peek | moveTo _ | accept _ | acceptAny _ | skipAll _ => []

/-- The cursor after some moves. -/
def after (c : Cursor Char) (moves : List Move) : Cursor Char := moves.foldl Move.apply c

/-- The items that moves take off the front of the input, one move after the other. -/
def takenBy (c : Cursor Char) : List Move → List Char
  | [] => []
  | m :: moves => m.taken c ++ (m.apply c).takenBy moves

/-! ### What is taken off -/

section Sheds
variable {α : Type} {c c' c'' : Cursor α} {gone gone' : List α}

/-- A cursor over the same items, but for some that were dropped from the front. -/
structure Sheds (c c' : Cursor α) (gone : List α) : Prop where
  items_eq : c.buffer.toList ++ c.rest = gone ++ (c'.buffer.toList ++ c'.rest)
  dropped_eq : c'.dropped = c.dropped + gone.length

theorem Keeps.sheds (h : Keeps c c') : Sheds c c' [] := ⟨h.items_eq.symm, h.dropped_eq⟩

theorem Sheds.trans (h : Sheds c c' gone) (h' : Sheds c' c'' gone') : Sheds c c'' (gone ++ gone') where
  items_eq := by rw [h.items_eq, h'.items_eq, List.append_assoc]
  dropped_eq := by rw [h'.dropped_eq, h.dropped_eq, List.length_append, Nat.add_assoc]

theorem sheds_dropShown (c : Cursor α) : Sheds c c.dropShown c.view where
  items_eq := by
    rw [buffer_dropShown, view, ← List.append_assoc, List.take_append_drop]
    rfl
  dropped_eq := by simp [dropShown, view]

theorem Keeps.sheds_dropShown (h : Keeps c c') : Sheds c c'.dropShown c'.view := h.sheds.trans (Cursor.sheds_dropShown c')

theorem keeps_moveTo (c : Cursor α) (p : Int) : Keeps c (c.moveTo p).2 := by
  rw [moveTo]
  split
  · exact (Keeps.refl c).backTo _
  · exact Keeps.refl c

end Sheds

theorem Move.sheds (c : Cursor Char) (m : Move) : Sheds c (m.apply c) (m.taken c) := by
  have hback : Keeps c (c.next.2.backTo c.shown) := (keeps_next c).backTo _
  -- Every move is a scan, which keeps all items, and those that answer or discard some end with a drop.
  cases m with
  | next => exact (keeps_next c).sheds
  | peek => exact hback.sheds
  | moveTo p => exact (keeps_moveTo c p).sheds
  | accept | acceptAny => exact (keeps_acceptIf _ c).sheds
  | skipAll => exact (keeps_skipWhile _ c).sheds
  | dropShown | takeShown => exact sheds_dropShown c
  | takeText =>
    rw [taken, Cursor.takeText, String.toList_ofList]
    exact sheds_dropShown c
  | dropBlanks => exact (keeps_skipWhile _ c).sheds_dropShown
  | takeNumber =>
    have hnumber : Keeps c c.skipMantissa := keeps_skipMantissa c
    rcases takeNumber_cases c with ⟨-, hnone⟩ | hsome
    · rw [apply, taken, hnone]
      exact hnumber.sheds
    · rw [apply, taken, hsome, Option.elim, String.toList_ofList]
      exact (hnumber.trans (keeps_skipExponent _)).sheds_dropShown
  | takeOperator =>
    rcases takeOperator_cases c with hnone | hsome
    · rw [apply, taken, hnone]
      exact hback.sheds
    · rw [apply, taken, hsome, Option.elim, String.toList_ofList]
      exact (keeps_next c).sheds_dropShown
  | takeIdent =>
    rcases takeIdent_cases c with hnone | hsome
    · rw [apply, taken, hnone]
      exact hback.sheds
    · rw [apply, taken, hsome, Option.elim, String.toList_ofList]
      exact ((keeps_next c).trans (keeps_skipWhile _ _)).sheds_dropShown

/-! ### Any moves -/

theorem sheds_after (c : Cursor Char) (moves : List Move) : Sheds c (c.after moves) (c.takenBy moves) := by
  induction moves generalizing c with
  | nil => exact (Keeps.refl c).sheds
  | cons m moves ih => exact (m.sheds c).trans (ih _)

theorem Reachable.after {text : String} {c : Cursor Char} (h : Reachable text c) (moves : List Move) :
    Reachable text (c.after moves) := by
  induction moves generalizing c with
  | nil => exact h
  | cons m moves ih => exact ih (.move h m)

/-- Whatever moves are made over a text, what they answered and discarded, the buffer and the rest are the text, one
    behind the other. The offset counts the items gone, and they are the first ones of the text. The position is
    somewhere from just before to just behind the buffer, and what is shown is the buffer up to there. -/
theorem input_conserved (text : String) (moves : List Move) :
    let c := (ofList text.toList).after moves
    let gone := (ofList text.toList).takenBy moves
    text.toList = gone ++ c.buffer.toList ++ c.rest ∧ c.offset = gone.length ∧ gone = text.toList.take c.offset ∧
      -1 ≤ c.pos ∧ c.pos ≤ c.buffer.size ∧ c.view = c.buffer.toList.take (min (c.pos + 1) c.buffer.size).toNat := by
  intro c gone
  obtain ⟨hitems, hdropped⟩ : Sheds (ofList text.toList) c gone := sheds_after _ moves
  have hfits : c.shown ≤ c.buffer.size + 1 := (Reachable.start.after moves).fits
  have hoffset : c.offset = gone.length := hdropped.trans (Nat.zero_add _)
  have htext : text.toList = gone ++ c.buffer.toList ++ c.rest := by
    rw [List.append_assoc]
    exact hitems
  refine ⟨htext, hoffset, ?_, ?_, ?_, ?_⟩
  · rw [htext, hoffset, List.append_assoc, List.take_left]
  · rw [pos]
    omega
  · rw [pos]
    omega
  · have hmin : (min (c.pos + 1) c.buffer.size).toNat = min c.shown c.buffer.toList.length := by
      rw [pos, Array.length_toList]
      omega
    rw [hmin, view, List.take_eq_take_min]

end Calcbook.Cursor
