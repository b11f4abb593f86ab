import Calcbook.Book.Sequencer
import Mathlib.Data.List.Perm.Basic

/-! What an arrival releases. Draining hands on the held items from the expected number on, one for each number,
    until one is missing, and keeps the others. So nothing that was held is lost or handed on twice, and a
    sequencer that does not hold the item it expects never comes to hold it. -/

namespace Calcbook.Sequencer
variable {α : Type} {expected : Nat} {held : List (Numbered α)}

/-- The numbers of some items. -/
abbrev numbers (items : List (Numbered α)) : List Nat := items.map (·.number)

/-- What a release makes of the items held: those numbered from the expected number on are handed on in order, the
    others stay, and the one expected next is not among them. -/
structure Releases (expected : Nat) (held : List (Numbered α)) (r : Release α) : Prop where
  order : numbers r.items = List.range' expected r.items.length
  parts : held.Perm (r.items ++ r.sequencer.held)
  cursor : r.sequencer.expected = expected + r.items.length
  missing : r.sequencer.expected ∉ numbers r.sequencer.held

theorem releases_none (h : expected ∉ numbers held) : Releases expected held ⟨[], ⟨expected, held⟩, false⟩ where
  order := rfl
  parts := .refl _
  cursor := rfl
  missing := h

theorem Releases.cons {others : List (Numbered α)} {item : Numbered α} {later : Release α}
    (hitem : item.number = expected) (hheld : held.Perm (item :: others)) (h : Releases (expected + 1) others later) :
    Releases expected held ⟨item :: later.items, later.sequencer, later.refused⟩ where
  order := by rw [numbers, List.map_cons, hitem, List.length_cons, List.range'_succ]; exact congrArg _ h.order
  parts := hheld.trans (h.parts.cons item)
  cursor := by rw [h.cursor, List.length_cons]; omega
  missing := h.missing

/-- An item found by its number, and the items without it. -/
theorem perm_of_find? {item : Numbered α} (h : held.find? (·.number == expected) = some item) :
    item.number = expected ∧ held.Perm (item :: held.eraseP (·.number == expected)) := by
  induction held with
  | nil => cases h
  | cons x held ih =>
    rw [List.find?_cons] at h
    by_cases hx : x.number = expected
    · simp only [hx, BEq.rfl, Option.some.injEq] at h
      subst h
      exact ⟨hx, by simp [hx]⟩
    · have hne : (x.number == expected) = false := beq_false_of_ne hx
      simp only [hne] at h
      obtain ⟨hitem, hperm⟩ := ih h
      refine ⟨hitem, ?_⟩
      rw [List.eraseP_cons, hne]
      exact (hperm.cons x).trans (.swap _ _ _)

theorem releases_drain (expected : Nat) (held : List (Numbered α)) :
    Releases expected held (drain (fun _ => true) expected held) := by
  fun_induction drain (fun _ => true) expected held with
  | case1 expected held hnone =>
    refine releases_none fun hm => ?_
    obtain ⟨x, hx, hn⟩ := List.mem_map.mp hm
    exact List.find?_eq_none.mp hnone x hx (beq_iff_eq.mpr hn)
  | case2 expected held item hsome others haccepts later ih =>
    obtain ⟨hitem, hperm⟩ := perm_of_find? hsome
    exact ih.cons hitem hperm
  | case3 expected held item hsome others hrefused => exact (hrefused rfl).elim

theorem holds_iff {s : Sequencer α} {number : Nat} : s.holds number = true ↔ number ∈ numbers s.held := by
  simp [holds, numbers]

/-- An item that is neither late nor held and does not have the last number joins those held before the release. -/
theorem releases_submit {s : Sequencer α} {item : Numbered α} (hmissing : s.expected ∉ numbers s.held)
    (hle : s.expected ≤ item.number) (hnew : item.number ∉ numbers s.held) (hlast : item.number < lastNumber) :
    Releases s.expected (item :: s.held) (s.submit item) := by
  have hkept : ¬(item.number < s.expected ∨ s.holds item.number = true ∨ lastNumber ≤ item.number) := by
    rintro (hlate | hheld | hmax)
    · omega
    · exact hnew (holds_iff.mp hheld)
    · omega
  unfold submit submitTo
  simp only [Bool.or_eq_true, decide_eq_true_eq, or_assoc, hkept, if_false]
  split
  · exact releases_drain _ _
  · rename_i hne
    refine releases_none fun hm => ?_
    rcases List.mem_cons.mp hm with heq | hm
    · exact hne (beq_iff_eq.mpr heq.symm)
    · exact hmissing hm

end Calcbook.Sequencer
