/-! A cursor that backtracks over a list of items. Items are pulled from the rest of the input into a
    buffer as the cursor moves over them, and stay there until the items up to the cursor are dropped.
    Attempts that fail put the cursor back, so they may enlarge the buffer but not what is shown. -/

namespace Calcbook

/-- A cursor over buffered items. It shows the first `shown` items of the buffer, the last of which it
    stands on; a cursor that ran past the end of the input counts one more than the buffer holds. -/
structure Cursor (α : Type) where
  dropped : Nat
  buffer : Array α
  rest : List α
  shown : Nat

namespace Cursor

variable {α : Type}

/-- The cursor before the first of the given items. -/
def ofList (items : List α) : Cursor α := ⟨0, #[], items, 0⟩

/-! ### What a cursor shows -/

/-- The index of the item the cursor stands on, and -1 before the first. -/
def pos (c : Cursor α) : Int := c.shown - 1

/-- The number of items dropped so far, which is where the current lexeme starts. -/
def offset (c : Cursor α) : Nat := c.dropped

/-- The item the cursor stands on. -/
def current (c : Cursor α) : Option α := if c.shown = 0 then none else c.buffer[c.shown - 1]?

/-- The items from the start of the current lexeme up to the cursor. -/
def view (c : Cursor α) : List α := c.buffer.toList.take c.shown

/-- The number of items that are not dropped yet. -/
def left (c : Cursor α) : Nat := c.buffer.size + c.rest.length

/-! ### Moves -/

/-- The same items with the cursor put to show the first `n` of them. -/
def backTo (c : Cursor α) (n : Nat) : Cursor α := { c with shown := n }

/-- Pulls items until the buffer holds `n` of them or the input is used up. -/
def fill (c : Cursor α) (n : Nat) : Cursor α :=
  { c with
    buffer := c.buffer ++ (c.rest.take (n - c.buffer.size)).toArray
    rest := c.rest.drop (n - c.buffer.size) }

/-- Moves on by one item, at most to the place just past the last one, and answers the item there. -/
def next (c : Cursor α) : Option α × Cursor α :=
  let filled := c.fill (c.shown + 1)
  let moved := filled.backTo (min (c.shown + 1) (filled.buffer.size + 1))
  (moved.current, moved)

/-- Answers what `next` would, without moving. -/
def peek (c : Cursor α) : Option α × Cursor α :=
  (c.next.1, c.next.2.backTo c.shown)

/-- Moves to a position of the buffer, or to just before or just past it; any other is refused. -/
def moveTo (c : Cursor α) (p : Int) : Bool × Cursor α :=
  if -1 ≤ p ∧ p ≤ c.buffer.size then (true, c.backTo (p + 1).toNat) else (false, c)

/-- Drops the items shown, so that a new lexeme starts behind them. -/
def dropShown (c : Cursor α) : Cursor α :=
  { dropped := c.dropped + min c.shown c.buffer.size
    buffer := c.buffer.extract c.shown c.buffer.size
    rest := c.rest
    shown := 0 }

/-- Answers the items shown and drops them. -/
def takeShown (c : Cursor α) : List α × Cursor α := (c.view, c.dropShown)

/-! ### Attempts -/

/-- Moves on by one item if that item passes the test, and stays otherwise. -/
def acceptIf (p : α → Bool) (c : Cursor α) : Option α × Cursor α :=
  match c.next with
  | (some x, c') => if p x then (some x, c') else (none, c'.backTo c.shown)
  | (none, c') => (none, c'.backTo c.shown)

/-- Moves on over the given item. -/
def accept [BEq α] (c : Cursor α) (x : α) : Option α × Cursor α := c.acceptIf (· == x)

/-- Moves on over any one of the given items. -/
def acceptAny [BEq α] (c : Cursor α) (xs : List α) : Option α × Cursor α := c.acceptIf (xs.contains ·)

/-! ### Facts on moves -/

theorem left_next (c : Cursor α) : c.next.2.left = c.left := by
  simp [next, fill, backTo, left]
  omega

theorem size_le_next (c : Cursor α) : c.buffer.size ≤ c.next.2.buffer.size := by
  simp [next, fill, backTo]

theorem shown_of_current_eq_some {c : Cursor α} {x : α} (h : c.current = some x) :
    0 < c.shown ∧ c.shown ≤ c.buffer.size := by
  rw [current] at h
  split at h
  · simp at h
  · have := (Array.getElem?_eq_some_iff.mp h).1
    omega

theorem shown_next (c : Cursor α) :
    c.next.2.shown = min (c.shown + 1) (c.next.2.buffer.size + 1) := rfl

theorem shown_next_of_eq_some {c : Cursor α} {x : α} (h : c.next.1 = some x) :
    c.next.2.shown = c.shown + 1 ∧ c.next.2.shown ≤ c.next.2.buffer.size := by
  have hcurr : c.next.2.current = some x := h
  have := shown_of_current_eq_some hcurr
  have := shown_next c
  omega

theorem left_dropShown (c : Cursor α) : c.dropShown.left = c.left - min c.shown c.buffer.size := by
  simp [dropShown, left]
  omega

/-- A cursor has moved on over the items ahead of it, and none was dropped. -/
structure Ahead (c c' : Cursor α) : Prop where
  left_eq : c'.left = c.left
  shown_le : c.shown ≤ c'.shown
  shown_le_size : c'.shown ≤ c'.buffer.size

theorem Ahead.refl {c : Cursor α} (h : c.shown ≤ c.buffer.size) : Ahead c c := ⟨rfl, Nat.le_refl _, h⟩

theorem Ahead.trans {a b c : Cursor α} (hab : Ahead a b) (hbc : Ahead b c) : Ahead a c :=
  ⟨hbc.left_eq.trans hab.left_eq, Nat.le_trans hab.shown_le hbc.shown_le, hbc.shown_le_size⟩

theorem Ahead.backTo {c c' : Cursor α} (h : Ahead c c') : Ahead c (c'.backTo c.shown) :=
  ⟨h.left_eq, Nat.le_refl _, Nat.le_trans h.shown_le h.shown_le_size⟩

theorem Ahead.orBack {c c' : Cursor α} (h : Ahead c c') (b : Bool) :
    Ahead c (if b then c' else c'.backTo c.shown) := by
  cases b
  · exact h.backTo
  · exact h

theorem Ahead.left_dropShown_lt {c c' : Cursor α} (h : Ahead c c') (hlt : c.shown < c'.shown) :
    c'.dropShown.left < c.left := by
  have := h.left_eq
  have := h.shown_le_size
  have hleft := left_dropShown c'
  have : c'.buffer.size ≤ c'.left := by simp [left]
  omega

theorem ahead_acceptIf (p : α → Bool) {c : Cursor α} (h : c.shown ≤ c.buffer.size) :
    Ahead c (c.acceptIf p).2 := by
  have hsize := size_le_next c
  have hleft := left_next c
  have hsome := @shown_next_of_eq_some α c
  rw [acceptIf]
  split
  · rename_i x c' hn
    rw [hn] at hsize hleft hsome
    have := hsome rfl
    split
    · exact ⟨hleft, by simp_all, this.2⟩
    · exact ⟨hleft, Nat.le_refl _, Nat.le_trans h hsize⟩
  · rename_i c' hn
    rw [hn] at hsize hleft
    exact ⟨hleft, Nat.le_refl _, Nat.le_trans h hsize⟩

theorem left_acceptIf (p : α → Bool) (c : Cursor α) : (c.acceptIf p).2.left = c.left := by
  have hleft := left_next c
  rw [acceptIf]
  split
  · rename_i x c' hn
    rw [hn] at hleft
    by_cases hp : p x <;> simp only [hp, if_true] <;> exact hleft
  · rename_i c' hn
    rw [hn] at hleft
    exact hleft

theorem acceptIf_eq_some {p : α → Bool} {c : Cursor α} {x : α} (h : (c.acceptIf p).1 = some x) :
    (c.acceptIf p).2.shown = c.shown + 1 ∧ (c.acceptIf p).2.shown ≤ (c.acceptIf p).2.buffer.size ∧
      (c.acceptIf p).2.left = c.left := by
  have hleft := left_next c
  have hsome := @shown_next_of_eq_some α c
  rw [acceptIf] at h ⊢
  split at h
  · rename_i y c' hn
    rw [hn] at hleft hsome
    have := hsome rfl
    by_cases hp : p y
    · simp only [hp, if_true]
      exact ⟨this.1, this.2, hleft⟩
    · simp [hp] at h
  · simp at h

/-! ### Runs of items -/

/-- Moves on over all the items that pass the test. -/
def skipWhile (p : α → Bool) (c : Cursor α) : Cursor α :=
  match _h : c.acceptIf p with
  | (some _, c') => c'.skipWhile p
  | (none, c') => c'
termination_by c.left - c.shown
decreasing_by
  have hsome := @acceptIf_eq_some α p c
  rw [_h] at hsome
  have hmoved := hsome rfl
  dsimp only at hmoved
  have : c'.buffer.size ≤ c'.left := by simp [left]
  omega

/-- Moves on over all the items that pass the test and answers whether there was one. -/
def skipRun (p : α → Bool) (c : Cursor α) : Bool × Cursor α :=
  let c' := c.skipWhile p
  (c.shown < c'.shown, c')

theorem ahead_skipWhile (p : α → Bool) {c : Cursor α} (h : c.shown ≤ c.buffer.size) :
    Ahead c (c.skipWhile p) := by
  fun_induction skipWhile p c with
  | case1 c x c' hc ih =>
    have := ahead_acceptIf p h
    rw [hc] at this
    exact this.trans (ih this.shown_le_size)
  | case2 c c' hc =>
    have := ahead_acceptIf p h
    rwa [hc] at this

end Cursor

end Calcbook
