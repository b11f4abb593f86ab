import Calcbook.Proofs.Book.Sequencer
import Mathlib.Data.Finset.Card
import Mathlib.Order.Bounds.Basic

/-! What a sequence of arrivals leads to. A sequencer releases or holds the first arrival of every number that it
    can release and drops all the others, and what it has released are the numbers up to the least one that is
    missing. So its state depends on the first arrivals alone, and not on the order in which they come. -/

namespace Calcbook

/-- One more arrival behind a release: what it makes possible is handed on after all that was released before. -/
def Release.submit {α : Type} (r : Release α) (item : Numbered α) : Release α :=
  let next := r.sequencer.submit item
  ⟨r.items ++ next.items, next.sequencer, next.refused⟩

namespace Sequencer
variable {α : Type}

/-- All that arrivals at a new sequencer lead to, one taken after the other. -/
def submitAll (first : Nat) (items : List (Numbered α)) : Release α :=
  items.foldl Release.submit ⟨[], .startingAt first, false⟩

/-- The numbers that have arrived and can be released, which those below the first one and the last number of
    all cannot. -/
def arrived (first : Nat) (items : List (Numbered α)) : Finset Nat :=
  (numbers items).toFinset.filter fun n => first ≤ n ∧ n < lastNumber

variable {first n : Nat} {items items' : List (Numbered α)} {item : Numbered α} {r : Release α}

theorem mem_arrived : n ∈ arrived first items ↔ n ∈ numbers items ∧ first ≤ n ∧ n < lastNumber := by
  rw [arrived, Finset.mem_filter, List.mem_toFinset]

theorem mem_arrived_append : n ∈ arrived first (items ++ [item]) ↔
    n ∈ arrived first items ∨ n = item.number ∧ first ≤ n ∧ n < lastNumber := by
  simp only [mem_arrived, numbers, List.map_append, List.map_singleton, List.mem_append, List.mem_singleton,
    or_and_right]

/-- A number has arrived when an item is found by it. -/
theorem mem_numbers_iff_find? : n ∈ numbers items ↔ (items.find? (·.number == n)).isSome = true := by
  simp [numbers, List.find?_isSome]

/-! ### One arrival -/

theorem submit_of_dropped {s : Sequencer α}
    (h : item.number < s.expected ∨ item.number ∈ numbers s.held ∨ lastNumber ≤ item.number) :
    s.submit item = ⟨[], s, false⟩ := by
  rw [← holds_iff] at h
  unfold submit submitTo
  simp only [Bool.or_eq_true, decide_eq_true_eq, or_assoc, h, if_true]

/-- A release sorts some arrivals: it has handed on the numbers from the first one on, in order, up to one that is
    missing; what was handed on or is held are the first arrivals of all numbers that can be released. -/
structure Sorts (first : Nat) (items : List (Numbered α)) (r : Release α) : Prop where
  order : numbers r.items = List.range' first r.items.length
  cursor : r.sequencer.expected = first + r.items.length
  missing : r.sequencer.expected ∉ numbers r.sequencer.held
  once : (numbers (r.items ++ r.sequencer.held)).Nodup
  mem_iff : ∀ {n}, n ∈ numbers (r.items ++ r.sequencer.held) ↔ n ∈ arrived first items
  earliest : ∀ x ∈ r.items ++ r.sequencer.held, items.find? (·.number == x.number) = some x

theorem sorts_startingAt : Sorts first [] (⟨[], .startingAt first, false⟩ : Release α) := by
  constructor <;> simp [startingAt, arrived]

namespace Sorts

/-- The numbers released are those from the first one up to the one expected next. -/
theorem mem_items_iff (h : Sorts first items r) : n ∈ numbers r.items ↔ first ≤ n ∧ n < r.sequencer.expected := by
  rw [h.order, h.cursor, List.mem_range'_1]

/-- The numbers held are those that have arrived and are greater than the one expected next. -/
theorem mem_held_iff (h : Sorts first items r) :
    n ∈ numbers r.sequencer.held ↔ n ∈ arrived first items ∧ r.sequencer.expected < n := by
  have hall := h.mem_iff (n := n)
  rw [numbers, List.map_append, List.mem_append, h.mem_items_iff] at hall
  constructor
  · intro hn
    have harrived := hall.mp (Or.inr hn)
    have hfirst := (mem_arrived.mp harrived).2.1
    -- What is held has not been released and is not the number that is missing.
    have hout : ¬(first ≤ n ∧ n < r.sequencer.expected) := by
      rw [← h.mem_items_iff]
      have honce := h.once
      rw [numbers, List.map_append, List.nodup_append] at honce
      exact fun hn' => honce.2.2 n hn' n hn rfl
    have hne : n ≠ r.sequencer.expected := fun heq => h.missing (heq ▸ hn)
    exact ⟨harrived, by omega⟩
  · rintro ⟨harrived, hlt⟩
    rcases hall.mpr harrived with hn | hn
    · omega
    · exact hn

theorem isLeast (h : Sorts first items r) : IsLeast {n | first ≤ n ∧ n ∉ arrived first items} r.sequencer.expected := by
  have hcursor := h.cursor
  refine ⟨⟨by omega, fun hn => ?_⟩, fun n hn => ?_⟩
  · rw [← h.mem_iff, numbers, List.map_append, List.mem_append, h.mem_items_iff] at hn
    rcases hn with hn | hn
    · omega
    · exact h.missing hn
  · by_contra hlt
    refine hn.2 (h.mem_iff.mp ?_)
    rw [numbers, List.map_append]
    exact List.mem_append_left _ (h.mem_items_iff.mpr ⟨hn.1, by omega⟩)

theorem pending_eq (h : Sorts first items r) :
    r.sequencer.pending = ((arrived first items).filter (r.sequencer.expected < ·)).card := by
  have honce := h.once
  rw [numbers, List.map_append, List.nodup_append] at honce
  have hset : (arrived first items).filter (r.sequencer.expected < ·) = (numbers r.sequencer.held).toFinset := by
    ext n
    rw [Finset.mem_filter, List.mem_toFinset, h.mem_held_iff]
  rw [hset, List.toFinset_card_of_nodup honce.2.1, List.length_map]
  rfl

/-- An arrival that is dropped adds nothing to what has arrived. -/
theorem drop (h : Sorts first items r)
    (hdropped : item.number < r.sequencer.expected ∨ item.number ∈ numbers r.sequencer.held ∨ lastNumber ≤ item.number) :
    Sorts first (items ++ [item]) (r.submit item) := by
  rw [Release.submit, submit_of_dropped hdropped, List.append_nil]
  refine { h with mem_iff := fun {n} => ?_, earliest := fun x hx => ?_ }
  · rw [h.mem_iff, mem_arrived_append]
    refine ⟨Or.inl, ?_⟩
    rintro (hn | ⟨rfl, hfirst, hlast⟩)
    · exact hn
    · rw [← h.mem_iff, numbers, List.map_append, List.mem_append, h.mem_items_iff]
      rcases hdropped with hlate | hheld | hmax
      · exact Or.inl ⟨hfirst, hlate⟩
      · exact Or.inr hheld
      · omega
  · rw [List.find?_append, h.earliest x hx, Option.some_or]

/-- An arrival that is not dropped is the first one of its number. -/
theorem keep (h : Sorts first items r) (hle : r.sequencer.expected ≤ item.number)
    (hnew : item.number ∉ numbers r.sequencer.held) (hlast : item.number < lastNumber) :
    Sorts first (items ++ [item]) (r.submit item) := by
  have hr := releases_submit h.missing hle hnew hlast
  have hcursor := h.cursor
  have hout : item.number ∉ arrived first items := by
    rw [← h.mem_iff, numbers, List.map_append, List.mem_append, h.mem_items_iff]
    rintro (hn | hn)
    · omega
    · exact hnew hn
  have hfind : items.find? (·.number == item.number) = none := by
    rw [← Option.not_isSome_iff_eq_none, ← mem_numbers_iff_find?]
    exact fun hn => hout (mem_arrived.mpr ⟨hn, by omega, hlast⟩)
  -- The release hands on and holds what was there before, and the new item.
  have hparts : ((r.submit item).items ++ (r.submit item).sequencer.held).Perm (r.items ++ r.sequencer.held ++ [item]) := by
    rw [Release.submit, List.append_assoc, List.append_assoc]
    exact .append_left _ (hr.parts.symm.trans (List.perm_append_singleton _ _).symm)
  constructor
  case order =>
    rw [Release.submit, numbers, List.map_append, List.length_append, ← List.range'_append_1]
    exact congrArg₂ _ h.order (hcursor ▸ hr.order)
  case cursor =>
    rw [Release.submit, hr.cursor, hcursor, List.length_append, Nat.add_assoc]
  case missing => exact hr.missing
  case once =>
    rw [(hparts.map _).nodup_iff, List.map_append, List.nodup_append]
    refine ⟨h.once, List.nodup_singleton _, ?_⟩
    rintro n hn m hm rfl
    obtain rfl := List.mem_singleton.mp hm
    exact hout (h.mem_iff.mp hn)
  case mem_iff =>
    intro n
    rw [(hparts.map _).mem_iff, List.map_append, List.mem_append, h.mem_iff, mem_arrived_append, List.map_singleton,
      List.mem_singleton]
    refine or_congr_right ⟨?_, And.left⟩
    rintro rfl
    exact ⟨rfl, by omega, hlast⟩
  case earliest =>
    intro x hx
    rw [List.find?_append]
    rcases List.mem_append.mp (hparts.subset hx) with hx | hx
    · rw [h.earliest x hx, Option.some_or]
    · obtain rfl := List.mem_singleton.mp hx
      simp [hfind]

theorem submit (h : Sorts first items r) (item : Numbered α) : Sorts first (items ++ [item]) (r.submit item) := by
  by_cases hdropped : item.number < r.sequencer.expected ∨ item.number ∈ numbers r.sequencer.held ∨ lastNumber ≤ item.number
  · exact h.drop hdropped
  · simp only [not_or, Nat.not_lt, Nat.not_le] at hdropped
    exact h.keep hdropped.1 hdropped.2.1 hdropped.2.2

end Sorts

/-! ### All arrivals -/

theorem sorts_submitAll (first : Nat) (items : List (Numbered α)) : Sorts first items (submitAll first items) := by
  induction items using List.reverseRecOn with
  | nil => exact sorts_startingAt
  | append_singleton items item ih =>
    rw [submitAll, List.foldl_concat]
    exact ih.submit item

theorem arrived_eq (h : ∀ n, items'.find? (·.number == n) = items.find? (·.number == n)) :
    arrived first items' = arrived first items := by
  ext n
  rw [mem_arrived, mem_arrived, mem_numbers_iff_find?, mem_numbers_iff_find?, h]

/-- Items that are found by their numbers are given by the numbers. -/
theorem eq_filterMap_numbers {released : List (Numbered α)}
    (h : ∀ x ∈ released, items.find? (·.number == x.number) = some x) :
    released = (numbers released).filterMap fun n => items.find? (·.number == n) := by
  induction released with
  | nil => rfl
  | cons x released ih =>
    obtain ⟨hx, hreleased⟩ := List.forall_mem_cons.mp h
    rw [numbers, List.map_cons, List.filterMap_cons, hx]
    exact congrArg _ (ih hreleased)

/-- Whatever arrives at a new sequencer, in whatever order: released are the numbers from the first one up to the
    least one that has not arrived, in order, each with the item that came first, and every number that the
    sequencer goes on to is a word; that least one is expected, and pending are those greater than it. So
    arrivals in which the same items come first lead to the same, however they are mixed. -/
theorem releases_up_to_gap (first : Nat) (items : List (Numbered α)) :
    ∃ gap, IsLeast {n | first ≤ n ∧ n ∉ arrived first items} gap ∧
      numbers (submitAll first items).items = List.range' first (gap - first) ∧
      (∀ x ∈ (submitAll first items).items, items.find? (·.number == x.number) = some x ∧ x.number + 1 < Word.count) ∧
      (submitAll first items).sequencer.expected = gap ∧
      (submitAll first items).sequencer.pending = ((arrived first items).filter (gap < ·)).card ∧
      ∀ items' : List (Numbered α), (∀ n, items'.find? (·.number == n) = items.find? (·.number == n)) →
        (submitAll first items').items = (submitAll first items).items ∧
        (submitAll first items').sequencer.expected = gap ∧
        (submitAll first items').sequencer.pending = (submitAll first items).sequencer.pending := by
  have h := sorts_submitAll first items
  have hearliest : ∀ x ∈ (submitAll first items).items, items.find? (·.number == x.number) = some x :=
    fun x hx => h.earliest x (List.mem_append_left _ hx)
  have hlength : (submitAll first items).items.length = (submitAll first items).sequencer.expected - first := by
    have := h.cursor
    omega
  refine ⟨_, h.isLeast, hlength ▸ h.order, fun x hx => ⟨hearliest x hx, ?_⟩, rfl, h.pending_eq, fun items' hsame => ?_⟩
  · have hmem : x.number ∈ arrived first items :=
      h.mem_iff.mp (List.mem_map_of_mem (List.mem_append_left _ hx))
    have hlt : x.number < Word.count - 1 := (mem_arrived.mp hmem).2.2
    omega
  · have h' := sorts_submitAll first items'
    have hexpected : (submitAll first items').sequencer.expected = (submitAll first items).sequencer.expected :=
      (arrived_eq hsame ▸ h'.isLeast).unique h.isLeast
    refine ⟨?_, hexpected, ?_⟩
    · have hlength' : (submitAll first items').items.length = (submitAll first items).items.length := by
        have := h'.cursor
        omega
      have hearliest' : ∀ x ∈ (submitAll first items').items, items.find? (·.number == x.number) = some x :=
        fun x hx => hsame _ ▸ h'.earliest x (List.mem_append_left _ hx)
      rw [eq_filterMap_numbers hearliest', eq_filterMap_numbers hearliest, h'.order, h.order, hlength']
    · rw [h'.pending_eq, h.pending_eq, arrived_eq hsame, hexpected]

example : let r := submitAll 5 [⟨7, 'c'⟩, ⟨4, 'x'⟩, ⟨5, 'a'⟩, ⟨7, 'y'⟩, ⟨lastNumber, 'z'⟩, ⟨6, 'b'⟩, ⟨9, 'd'⟩]
    r.items.map (·.value) = ['a', 'b', 'c'] ∧ r.sequencer.expected = 8 ∧ r.sequencer.pending = 1 := by
  cbv

end Sequencer

end Calcbook
