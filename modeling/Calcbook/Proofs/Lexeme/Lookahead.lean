import Calcbook.Proofs.Lexeme.Moves

/-! Looking ahead. A peek and an attempt that finds nothing put the cursor back, so they keep its place; what it shows is
    read off the buffer, which may have grown. That makes a difference to one cursor only: one that was moved to just
    behind the buffer while there are items left stands on the next of them without having it. -/

namespace Calcbook.Cursor

/-- Peeks, and attempts and scans that find nothing, with the cursor they leave. -/
inductive LooksAhead (c : Cursor Char) : Cursor Char → Prop
  | peek : LooksAhead c c.peek.2
  | accept {x : Char} (h : (c.accept x).1 = none) : LooksAhead c (c.accept x).2
  | acceptAny {xs : List Char} (h : (c.acceptAny xs).1 = none) : LooksAhead c (c.acceptAny xs).2
  | skipAll {xs : List Char} (h : (c.skipRun (xs.contains ·)).1 = false) : LooksAhead c (c.skipRun (xs.contains ·)).2
  | takeNumber (h : c.takeNumber.1 = none) : LooksAhead c c.takeNumber.2
  | takeOperator (h : c.takeOperator.1 = none) : LooksAhead c c.takeOperator.2
  | takeIdent (h : c.takeIdent.1 = none) : LooksAhead c c.takeIdent.2

variable {α : Type} {c c' c'' : Cursor α} {x : α} {rest : List α}

/-! ### The item ahead is pulled -/

/-- The item ahead of a cursor is in the buffer now, unless there is none. -/
def Pulls (c c' : Cursor α) : Prop := c.shown < c'.buffer.size ∨ c'.rest = []

theorem Pulls.trans (h : Pulls c c') (hkeeps : Keeps c' c'') : Pulls c c'' := by
  refine h.imp (Nat.lt_of_lt_of_le · hkeeps.size_le) fun hrest => ?_
  obtain ⟨pulled, -, hpulled⟩ := hkeeps.exists_pulled
  exact (List.append_eq_nil_iff.mp (hpulled.symm.trans hrest)).2

theorem pulls_next (c : Cursor α) : Pulls c c.next.2 := by
  have hsize : c.next.2.buffer.size = c.buffer.size + min (c.shown + 1 - c.buffer.size) c.rest.length := by
    simp [next, fill, backTo]
  have hrest : c.next.2.rest = c.rest.drop (c.shown + 1 - c.buffer.size) := rfl
  rw [Pulls, hsize, hrest, List.drop_eq_nil_iff]
  omega

theorem pulls_acceptIf (p : α → Bool) (c : Cursor α) : Pulls c (c.acceptIf p).2 := by
  rcases acceptIf_cases p c with ⟨x, -, h⟩ | h <;> rw [h]
  · exact pulls_next c
  · exact pulls_next c

theorem pulls_skipWhile (p : α → Bool) (c : Cursor α) : Pulls c (c.skipWhile p) := by
  have hfirst := pulls_acceptIf p c
  rw [skipWhile]
  split
  · rename_i x c' hc
    rw [hc] at hfirst
    exact hfirst.trans (keeps_skipWhile p c')
  · rename_i c' hc
    rwa [hc] at hfirst

theorem le_shown_skipWhile (p : α → Bool) (c : Cursor α) : c.shown ≤ (c.skipWhile p).shown := by
  fun_induction skipWhile p c with
  | case1 c x c' hc ih =>
    have h := @acceptIf_eq_some α p c
    rw [hc] at h
    have := (h rfl).1
    dsimp only at this
    omega
  | case2 c c' hc =>
    have h := @acceptIf_eq_none α p c
    rw [hc] at h
    have := congrArg shown (h rfl)
    exact Nat.le_of_eq this.symm

/-! ### A glance -/

/-- A cursor stays where it is while items are pulled, the one ahead of it at least. -/
structure Glance (c c' : Cursor α) : Prop where
  keeps : Keeps c c'
  shown_eq : c'.shown = c.shown
  pulls : Pulls c c'

theorem glance_next (c : Cursor α) : Glance c (c.next.2.backTo c.shown) := ⟨(keeps_next c).backTo _, rfl, pulls_next c⟩

theorem glance_acceptIf {p : α → Bool} (h : (c.acceptIf p).1 = none) : Glance c (c.acceptIf p).2 := by
  rw [acceptIf_eq_none h]
  exact glance_next c

theorem LooksAhead.glance {c c' : Cursor Char} (h : LooksAhead c c') : Glance c c' := by
  cases h with
  | peek => exact glance_next c
  | accept h | acceptAny h => exact glance_acceptIf h
  | @skipAll xs h =>
    -- a run that never moved on ended with its first attempt
    have hle := le_shown_skipWhile (xs.contains ·) c
    have hnot : ¬c.shown < (c.skipWhile (xs.contains ·)).shown := of_decide_eq_false h
    exact ⟨keeps_skipWhile _ c, Nat.le_antisymm (Nat.not_lt.mp hnot) hle, pulls_skipWhile _ c⟩
  | takeNumber h =>
    rcases takeNumber_cases c with ⟨hshown, hnone⟩ | hsome
    · rw [hnone]
      exact ⟨keeps_skipMantissa c, hshown, (pulls_skipWhile Char.isDigit c).trans (keeps_skipFraction _ _)⟩
    · rw [hsome] at h
      cases h
  | takeOperator h =>
    rcases takeOperator_cases c with hnone | hsome
    · rw [hnone]
      exact glance_next c
    · rw [hsome] at h
      cases h
  | takeIdent h =>
    rcases takeIdent_cases c with hnone | hsome
    · rw [hnone]
      exact glance_next c
    · rw [hsome] at h
      cases h

/-! ### What is shown -/

theorem current_eq (c : Cursor α) : c.current = if c.shown = 0 then none else c.buffer.toList[c.shown - 1]? := by
  rw [current, Array.getElem?_toList]

namespace Glance

/-- A cursor that has the item it stands on, or nothing left to pull, shows what it showed. -/
theorem shows_same (h : Glance c c') (hc : c.shown ≤ c.buffer.size ∨ c.rest = []) :
    c'.current = c.current ∧ c'.view = c.view := by
  obtain ⟨pulled, hbuffer, hrest⟩ := h.keeps.exists_pulled
  rw [current_eq, current_eq, view, view, h.shown_eq, hbuffer]
  rcases hc with hle | hnil
  · have hlen : c.shown ≤ c.buffer.toList.length := by simpa using hle
    refine ⟨?_, List.take_append_of_le_length hlen⟩
    split
    · rfl
    · rw [List.getElem?_append_left (by omega)]
  · rw [hnil] at hrest
    rw [(List.append_eq_nil_iff.mp hrest.symm).1, List.append_nil]
    exact ⟨rfl, rfl⟩

/-- Just behind the buffer a cursor comes to show the next item. -/
theorem shows_more (h : Glance c c') (hshown : c.shown = c.buffer.size + 1) (hrest : c.rest = x :: rest) :
    c.current = none ∧ c'.current = some x ∧ c'.view = c.view ++ [x] := by
  obtain ⟨pulled, hbuffer, hpulled⟩ := h.keeps.exists_pulled
  have hsize := congrArg List.length hbuffer
  rw [Array.length_toList, List.length_append, Array.length_toList] at hsize
  have hlen : c.buffer.toList.length = c.buffer.size := Array.length_toList
  rw [hrest] at hpulled
  have hsome : pulled ≠ [] := by
    rintro rfl
    rcases h.pulls with hlt | hnil
    · rw [List.length_nil] at hsize
      omega
    · rw [hnil] at hpulled
      cases hpulled
  obtain ⟨y, more, rfl⟩ := List.exists_cons_of_ne_nil hsome
  obtain rfl : x = y := (List.cons.inj hpulled).1
  rw [current_eq, current_eq, view, view, h.shown_eq, hbuffer, hshown, ← hlen]
  refine ⟨by simp, by simp, ?_⟩
  rw [List.take_length_add_append, List.take_of_length_le (Nat.le_succ _)]
  rfl

end Glance

theorem fill_eq_self {n : Nat} (h : n ≤ c.buffer.size ∨ c.rest = []) : c.fill n = c := by
  rcases h with hle | hnil
  · simp [fill, Nat.sub_eq_zero_of_le hle]
  · cases c
    cases hnil
    simp [fill]

/-- After a peek the next item is the one that was peeked at. -/
theorem next_peek (c : Cursor α) : c.peek.2.next = c.next := by
  have hfill : c.peek.2.fill (c.peek.2.shown + 1) = c.peek.2 := fill_eq_self (pulls_next c)
  rw [next, hfill]
  rfl

/-- Wherever moves over a text have led, looking ahead keeps the position and the offset, and a peek is followed by the
    item it answered. What is shown stays as it is unless the cursor was put just behind the buffer with items left;
    then the next item comes to be shown. -/
theorem lookahead_keeps {text : String} {c c' : Cursor Char} (hc : Reachable text c) (h : LooksAhead c c') :
    c'.pos = c.pos ∧ c'.offset = c.offset ∧
    (c'.current = c.current ∧ c'.view = c.view ↔ c.pos < c.buffer.size ∨ c.rest = []) ∧
    (∀ x rest, c.pos = c.buffer.size → c.rest = x :: rest →
      c.current = none ∧ c'.current = some x ∧ c'.view = c.view ++ [x]) ∧
    c.peek.2.next.1 = c.peek.1 := by
  have hglance := h.glance
  have hfits : c.shown ≤ c.buffer.size + 1 := hc.fits
  have hmore : ∀ x rest, c.pos = c.buffer.size → c.rest = x :: rest →
      c.current = none ∧ c'.current = some x ∧ c'.view = c.view ++ [x] := fun x rest hpos hrest =>
    hglance.shows_more (by rw [pos] at hpos; omega) hrest
  refine ⟨?_, hglance.keeps.dropped_eq, ⟨fun hsame => ?_, fun hplace => ?_⟩, hmore, by rw [next_peek]; rfl⟩
  · rw [pos, pos, hglance.shown_eq]
  · cases hrest : c.rest with
    | nil => exact Or.inr rfl
    | cons x rest =>
      refine Or.inl (Int.not_le.mp fun hle => ?_)
      have hbehind : c.pos = c.buffer.size := by
        rw [pos] at hle ⊢
        omega
      obtain ⟨hnone, hsome, -⟩ := hmore x rest hbehind hrest
      rw [hsame.1, hnone] at hsome
      cases hsome
  · refine hglance.shows_same (hplace.imp_left fun hpos => ?_)
    rw [pos] at hpos
    omega

/-- An item pulled by an attempt that failed is not shown. -/
theorem lookahead_keeps_accept :
    let c := Move.apply (ofList "ab".toList) .next
    let c' := (c.accept 'x').2
    Reachable "ab" c ∧ LooksAhead c c' ∧ c.view = ['a'] ∧ c'.buffer = #['a', 'b'] ∧ c'.pos = c.pos ∧ c'.view = c.view := by
  intro c c'
  have hc : Reachable "ab" c := .move .start .next
  have h : LooksAhead c c' := .accept (by decide)
  obtain ⟨hpos, -, hshown, -⟩ := lookahead_keeps hc h
  exact ⟨hc, h, by decide, by decide, hpos, (hshown.mpr (Or.inl (by decide))).2⟩

/-- A cursor moved to just behind an empty buffer shows nothing, and after a peek it shows the first item. -/
theorem peek_shows_more :
    let c := Move.apply (ofList "ab".toList) (.moveTo 0)
    let c' := c.peek.2
    Reachable "ab" c ∧ LooksAhead c c' ∧ c.current = none ∧ c'.current = some 'a' ∧ c.view = [] ∧ c'.view = ['a'] :=
  ⟨.move .start (.moveTo 0), .peek, by decide, by decide, by decide, by decide⟩

end Calcbook.Cursor
