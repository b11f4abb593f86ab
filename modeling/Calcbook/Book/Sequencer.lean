import Calcbook.Word

/-! Putting numbered items back into order. Items arrive in any order and are released by their numbers,
    each one as soon as all before it have been released. An item that comes too late or for the second
    time is dropped, and so is one with the last number of all, because no number can follow it. -/

namespace Calcbook

/-- An item with the number of the input it belongs to. -/
structure Numbered (α : Type) where
  number : Nat
  value : α

/-- The last number of all. -/
def lastNumber : Nat := Word.last

/-- The number of the next item to be released, and the items that wait for it. -/
structure Sequencer (α : Type) where
  expected : Nat
  held : List (Numbered α)

/-- What an arrival led to: the items released, in order, and whether the last one taken out was refused
    by its receiver. -/
structure Release (α : Type) where
  items : List (Numbered α)
  sequencer : Sequencer α
  refused : Bool

namespace Sequencer

variable {α : Type}

/-- Nothing has arrived yet. -/
def startingAt (number : Nat) : Sequencer α := ⟨number, []⟩

/-- The number of items that wait for an earlier one. -/
def pending (s : Sequencer α) : Nat := s.held.length

/-- Whether an item of a number waits. -/
def holds (s : Sequencer α) (number : Nat) : Bool := s.held.any (·.number == number)

theorem length_eraseP_lt {p : Numbered α → Bool} {l : List (Numbered α)} {x : Numbered α}
    (h : l.find? p = some x) : (l.eraseP p).length < l.length := by
  have hx := List.mem_of_find?_eq_some h
  rw [List.length_eraseP_of_mem hx (List.find?_some h)]
  have := List.length_pos_of_mem hx
  omega

/-- Hands on the items that are next, until one is missing or the receiver refuses one. A refused item is
    gone, but the sequencer goes on expecting its number. -/
def drain (accepts : α → Bool) (expected : Nat) (held : List (Numbered α)) : Release α :=
  match _h : held.find? (·.number == expected) with
  | none => ⟨[], ⟨expected, held⟩, false⟩
  | some item =>
    let others := held.eraseP (·.number == expected)
    if accepts item.value then
      let later := drain accepts (expected + 1) others
      ⟨item :: later.items, later.sequencer, later.refused⟩
    else ⟨[], ⟨expected, others⟩, true⟩
termination_by held.length
decreasing_by exact length_eraseP_lt _h

/-- Takes an arrival, and hands on what it makes possible to a receiver that may refuse an item. -/
def submitTo (accepts : α → Bool) (s : Sequencer α) (item : Numbered α) : Release α :=
  if item.number < s.expected || s.holds item.number || lastNumber ≤ item.number then
    ⟨[], s, false⟩
  else
    let held := item :: s.held
    if item.number == s.expected then drain accepts s.expected held
    else ⟨[], ⟨s.expected, held⟩, false⟩

/-- Takes an arrival. -/
def submit (s : Sequencer α) (item : Numbered α) : Release α := s.submitTo (fun _ => true) item

end Sequencer

end Calcbook
