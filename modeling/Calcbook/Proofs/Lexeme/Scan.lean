import Calcbook.Lexeme.Basic
import Calcbook.Proofs.Lexeme.Moves

/-! Scanning as cutting a list. All that can be seen of a cursor is how many items were dropped, the items shown and
    those ahead; what is buffered already makes no difference. In these terms every scan moves a prefix of
    the items ahead over to those shown, so the lexemes of a text are cut off a list of characters. -/

namespace Calcbook

namespace Cursor

/-! ### What a scan does to a cursor -/

variable {α : Type}

/-- The items that the cursor has not passed yet. -/
def ahead (c : Cursor α) : List α := c.buffer.toList.drop c.shown ++ c.rest

/-- A cursor on a buffered item or before the first one, seen from outside: the number of items dropped, those shown
    and those ahead. -/
structure Shows (c : Cursor α) (dropped : Nat) (view ahead : List α) : Prop where
  dropped_eq : c.dropped = dropped
  view_eq : c.view = view
  ahead_eq : c.ahead = ahead
  shown_le : c.shown ≤ c.buffer.size

variable {c c' : Cursor α} {n : Nat} {v w r : List α} {x : α} {p : α → Bool}

theorem shows_ofList (items : List α) : Shows (ofList items) 0 [] items :=
  ⟨rfl, rfl, rfl, Nat.le_refl 0⟩

namespace Shows

theorem shown_eq (h : Shows c n v r) : c.shown = v.length := by
  rw [← h.view_eq, view, List.length_take, Array.length_toList, Nat.min_eq_left h.shown_le]

/-- The items of the buffer and of the rest are those shown and those ahead. -/
theorem append_eq (h : Shows c n v r) : c.buffer.toList ++ c.rest = v ++ r := by
  rw [← h.view_eq, ← h.ahead_eq, view, ahead, ← List.append_assoc, List.take_append_drop]

/-- A cursor over the same items shows a prefix of them. -/
theorem of_append (hdropped : c.dropped = n) (hitems : c.buffer.toList ++ c.rest = v ++ r) (hshown : c.shown = v.length)
    (hle : c.shown ≤ c.buffer.size) : Shows c n v r where
  dropped_eq := hdropped
  view_eq := by
    have htake := congrArg (List.take c.shown) hitems
    rwa [List.take_append_of_le_length (by simpa using hle), hshown, List.take_left, ← hshown] at htake
  ahead_eq := by
    have hdrop := congrArg (List.drop c.shown) hitems
    rwa [List.drop_append_of_le_length (by simpa using hle), hshown, List.drop_left, ← hshown] at hdrop
  shown_le := hle

theorem next_cons (h : Shows c n v (x :: r)) : c.next.1 = some x ∧ Shows c.next.2 n (v ++ [x]) r := by
  have hitems := h.append_eq
  have hfill := (keeps_fill c (c.shown + 1)).items_eq.trans hitems
  have hshown := h.shown_eq
  have hle := h.shown_le
  have hlen := congrArg List.length hitems
  simp only [List.length_append, Array.length_toList, List.length_cons] at hlen
  have hsize : c.shown + 1 ≤ (c.fill (c.shown + 1)).buffer.size := by
    simp only [fill, Array.size_append, List.size_toArray, List.length_take]
    omega
  have hmoved : c.next.2.shown = c.shown + 1 := by
    show min (c.shown + 1) ((c.fill (c.shown + 1)).buffer.size + 1) = _
    omega
  have hshows : Shows c.next.2 n (v ++ [x]) r := by
    refine of_append h.dropped_eq ?_ ?_ (by rw [hmoved]; exact hsize)
    · rw [List.append_assoc]
      exact hfill
    · rw [hmoved, hshown, List.length_append, List.length_singleton]
  refine ⟨?_, hshows⟩
  have hget := congrArg (·[c.shown]?) hshows.append_eq
  have hlast : c.shown < c.next.2.buffer.size := hsize
  simp only [hshown, List.append_assoc, List.singleton_append] at hget
  rw [← hshown, List.getElem?_append_left (by simpa using hlast)] at hget
  show c.next.2.current = _
  rw [current, if_neg (by omega), hmoved, Nat.add_sub_cancel, ← Array.getElem?_toList, hget, hshown]
  simp

/-- Behind the last item the cursor is parked one place further on. -/
theorem next_nil (h : Shows c n v []) : c.next.1 = none ∧ Shows (c.next.2.backTo c.shown) n v [] := by
  have hitems := h.append_eq
  have hfill := (keeps_fill c (c.shown + 1)).items_eq.trans hitems
  have hshown := h.shown_eq
  have hle := h.shown_le
  have hlen := congrArg List.length hfill
  simp only [List.length_append, Array.length_toList, List.length_nil] at hlen
  have hsize : c.buffer.size ≤ (c.fill (c.shown + 1)).buffer.size := by
    simp only [fill, Array.size_append]
    omega
  refine ⟨?_, of_append h.dropped_eq hfill hshown ?_⟩
  · show c.next.2.current = none
    have hmoved : c.next.2.shown = c.shown + 1 := by
      show min (c.shown + 1) ((c.fill (c.shown + 1)).buffer.size + 1) = _
      omega
    rw [current, if_neg (by omega), hmoved, Nat.add_sub_cancel]
    refine Array.getElem?_eq_none ?_
    show (c.fill (c.shown + 1)).buffer.size ≤ _
    omega
  · show c.shown ≤ (c.fill (c.shown + 1)).buffer.size
    omega

/-- A cursor put back shows fewer of the same items. -/
theorem backTo (h : Shows c n (v ++ w) r) : Shows (c.backTo v.length) n v (w ++ r) := by
  have hshown := h.shown_eq
  have hle := h.shown_le
  rw [List.length_append] at hshown
  refine of_append h.dropped_eq ?_ rfl ?_
  · rw [← List.append_assoc]
    exact h.append_eq
  · show v.length ≤ c.buffer.size
    omega

theorem dropShown (h : Shows c n v r) : Shows c.dropShown (n + v.length) [] r := by
  have hle := h.shown_le
  refine of_append ?_ ?_ rfl (Nat.zero_le _)
  · show c.dropped + min c.shown c.buffer.size = _
    rw [h.dropped_eq, h.shown_eq, Nat.min_eq_left (h.shown_eq ▸ hle)]
  · rw [List.nil_append, ← h.ahead_eq, ahead, buffer_dropShown]
    rfl

end Shows

/-! ### Attempts -/

namespace Shows

theorem acceptIf_of_pos (h : Shows c n v (x :: r)) (hp : p x = true) :
    ∃ c', c.acceptIf p = (some x, c') ∧ Shows c' n (v ++ [x]) r := by
  obtain ⟨hsome, hshows⟩ := h.next_cons
  have hnext : c.next = (some x, c.next.2) := Prod.ext hsome rfl
  refine ⟨c.next.2, ?_, hshows⟩
  rw [acceptIf, hnext]
  simp [hp]

/-- An attempt fails when nothing is ahead or the next item is not fit. -/
theorem acceptIf_of_neg (h : Shows c n v r) (hp : ∀ x ∈ r.head?, p x = false) :
    ∃ c', c.acceptIf p = (none, c') ∧ Shows c' n v r := by
  refine ⟨c.next.2.backTo c.shown, ?_, ?_⟩
  · cases r with
    | nil =>
      have hnext : c.next = (none, c.next.2) := Prod.ext h.next_nil.1 rfl
      rw [acceptIf, hnext]
    | cons x r =>
      have hnext : c.next = (some x, c.next.2) := Prod.ext h.next_cons.1 rfl
      rw [acceptIf, hnext]
      simp [hp x rfl]
  · cases r with
    | nil => exact h.next_nil.2
    | cons x r =>
      rw [h.shown_eq]
      exact h.next_cons.2.backTo

theorem skipWhile (h : Shows c n v r) : Shows (c.skipWhile p) n (v ++ r.takeWhile p) (r.dropWhile p) := by
  induction r generalizing c v with
  | nil =>
    obtain ⟨c', hc, h'⟩ := h.acceptIf_of_neg (p := p) (by simp)
    rw [Cursor.skipWhile]
    split <;> rename_i heq <;> rw [hc] at heq <;> cases heq
    simpa using h'
  | cons x r ih =>
    cases hp : p x with
    | true =>
      obtain ⟨c', hc, h'⟩ := h.acceptIf_of_pos hp
      rw [Cursor.skipWhile]
      split <;> rename_i heq <;> rw [hc] at heq <;> cases heq
      simpa [hp] using ih h'
    | false =>
      obtain ⟨c', hc, h'⟩ := h.acceptIf_of_neg (p := p) (by simpa using hp)
      rw [Cursor.skipWhile]
      split <;> rename_i heq <;> rw [hc] at heq <;> cases heq
      simpa [hp] using h'

theorem skipRun (h : Shows c n v r) : (c.skipRun p).1 = !(r.takeWhile p).isEmpty ∧
    Shows (c.skipRun p).2 n (v ++ r.takeWhile p) (r.dropWhile p) := by
  refine ⟨?_, h.skipWhile⟩
  have hshown := (h.skipWhile (p := p)).shown_eq
  rw [List.length_append, ← h.shown_eq] at hshown
  show decide (c.shown < (c.skipWhile p).shown) = _
  rw [hshown]
  cases r.takeWhile p <;> simp

end Shows

end Cursor

end Calcbook
