import Calcbook.Parsing.Parser
import Calcbook.Proofs.Parsing.Table

/-! The states of a parser. Above the end mark, its stack holds symbols of the grammar that each have an empty
    slot of their own. A match fills the slot of the top symbol and an expansion puts the symbols of a right
    side in its place, with slots that are new, so every step keeps this, and any other step makes the parser
    as new. The slots are the places of one tree: each but the first has one parent, which lies before it. -/

namespace Calcbook

namespace Slot

/-- The slots that a slot lists as its children. -/
def listed : Slot → List Nat
  | node _ children => children
  | _ => []

/-- A slot is listed as a child of another one. -/
def IsChild (slots : Array Slot) (i c : Nat) : Prop := ∃ s, slots[i]? = some s ∧ c ∈ s.listed

/-- The slots are laid out as a tree: children lie behind the node that owns them, and every slot but the first is
    listed once, by one node. -/
structure Tidy (slots : Array Slot) : Prop where
  behind : ∀ {i c : Nat}, IsChild slots i c → i < c ∧ c < slots.size
  once : ∀ {i : Nat} {s : Slot}, slots[i]? = some s → s.listed.Nodup
  parent : ∀ {c : Nat}, c < slots.size → c ≠ 0 → ∃! i, IsChild slots i c

/-- The slots after one of them is filled and some empty ones are added. -/
def filled (slots : Array Slot) (i : Nat) (s : Slot) (n : Nat) : Array Slot :=
  (slots ++ Array.replicate n empty).setIfInBounds i s

variable {slots : Array Slot} {i j k c n : Nat} {s u : Slot}

theorem IsChild.unique (h : Tidy slots) (hi : IsChild slots i c) (hj : IsChild slots j c) : i = j := by
  obtain ⟨hlt, hsize⟩ := h.behind hi
  exact (h.parent hsize (by omega)).unique hi hj

theorem lt_size (hi : slots[i]? = some s) : i < slots.size := (Array.getElem?_eq_some_iff.mp hi).1

theorem size_filled : (filled slots i s n).size = slots.size + n := by simp [filled]

theorem getElem?_filled : (filled slots i s n)[k]? = if k = i ∧ i < slots.size + n then some s
    else if k < slots.size then slots[k]? else if k < slots.size + n then some .empty else none := by
  simp only [filled, Array.getElem?_setIfInBounds, Array.getElem?_append, Array.getElem?_replicate,
    Array.size_append, Array.size_replicate]
  grind

theorem filled_self (hi : slots[i]? = some .empty) : (filled slots i s n)[i]? = some s := by
  have := lt_size hi
  rw [getElem?_filled, if_pos ⟨rfl, by omega⟩]

theorem filled_of_ne (hk : k ≠ i) (hu : slots[k]? = some u) : (filled slots i s n)[k]? = some u := by
  rw [getElem?_filled, if_neg (fun h => hk h.1), if_pos (lt_size hu), hu]

theorem filled_of_ne_empty (hi : slots[i]? = some .empty) (hk : slots[k]? = some u) (hu : u ≠ .empty) :
    (filled slots i s n)[k]? = some u := by
  refine filled_of_ne ?_ hk
  rintro rfl
  exact hu (Option.some.inj (hk.symm.trans hi))

theorem filled_new (hi : slots[i]? = some .empty) (hk : k ∈ List.range' slots.size n) :
    (filled slots i s n)[k]? = some .empty := by
  have := lt_size hi
  obtain ⟨hlo, hhi⟩ := List.mem_range'_1.mp hk
  rw [getElem?_filled, if_neg (by omega), if_neg (by omega), if_pos hhi]

/-- A slot is as before, or the one that was filled, or new. -/
theorem filled_cases (h : (filled slots i s n)[k]? = some u) : (k ≠ i ∧ slots[k]? = some u) ∨ (k = i ∧ u = s) ∨
    (k ∈ List.range' slots.size n ∧ u = .empty) := by
  rw [getElem?_filled] at h
  split at h
  · rename_i hself
    exact Or.inr (Or.inl ⟨hself.1, (Option.some.inj h).symm⟩)
  · rename_i hself
    split at h
    · exact Or.inl ⟨fun hki => hself ⟨hki, by omega⟩, h⟩
    · split at h
      · exact Or.inr (Or.inr ⟨List.mem_range'_1.mpr ⟨by omega, by omega⟩, (Option.some.inj h).symm⟩)
      · cases h

theorem isChild_filled (hi : slots[i]? = some .empty) :
    IsChild (filled slots i s n) j c ↔ IsChild slots j c ∨ j = i ∧ c ∈ s.listed := by
  constructor
  · rintro ⟨u, hj, hc⟩
    rcases filled_cases hj with ⟨-, hj⟩ | ⟨hji, rfl⟩ | ⟨-, rfl⟩
    · exact Or.inl ⟨u, hj, hc⟩
    · exact Or.inr ⟨hji, hc⟩
    · cases hc
  · rintro (⟨u, hj, hc⟩ | ⟨rfl, hc⟩)
    · have hu : u ≠ .empty := by
        rintro rfl
        cases hc
      exact ⟨u, filled_of_ne_empty hi hj hu, hc⟩
    · exact ⟨s, filled_self hi, hc⟩

theorem tidy_singleton : Tidy #[.empty] where
  behind := by
    rintro i c ⟨s, hi, hc⟩
    cases i with
    | zero =>
      cases Option.some.inj hi
      cases hc
    | succ i => simp at hi
  once {i} _ hi := by
    cases i with
    | zero =>
      cases Option.some.inj hi
      exact List.nodup_nil
    | succ i => simp at hi
  parent hc hne := absurd hc (by simpa using hne)

/-- Filling a slot with a node keeps the slots a tree, if the children of the node are those that are added. -/
theorem Tidy.filled (h : Tidy slots) (hi : slots[i]? = some .empty) (hs : s.listed = List.range' slots.size n) :
    Tidy (filled slots i s n) where
  behind hc := by
    have hlt := lt_size hi
    rw [size_filled]
    rcases (isChild_filled hi).mp hc with hold | ⟨rfl, hnew⟩
    · have := h.behind hold
      omega
    · have := List.mem_range'_1.mp (hs ▸ hnew)
      omega
  once hk := by
    rcases filled_cases hk with ⟨-, hk⟩ | ⟨-, rfl⟩ | ⟨-, rfl⟩
    · exact h.once hk
    · exact hs ▸ List.nodup_range'
    · exact List.nodup_nil
  parent {c} hc hne := by
    rw [size_filled] at hc
    simp only [isChild_filled hi, hs, List.mem_range'_1]
    by_cases hlt : c < slots.size
    · simpa [Nat.not_le.mpr hlt] using h.parent hlt hne
    · -- A new slot has no parent but the slot that was filled.
      refine ⟨i, Or.inr ⟨rfl, by omega, hc⟩, ?_⟩
      rintro j (hj | ⟨rfl, -⟩)
      · exact absurd (h.behind hj).2 hlt
      · rfl

end Slot

namespace Parser
open Slot

/-- The stack of some pending symbols with their slots, the end mark below them. -/
def stackOf (eof : Symbol) (todo : List (Symbol × Nat)) : List (Symbol × Option Nat) :=
  todo.map (fun e => (e.1, some e.2)) ++ [(eof, none)]

/-- A parser whose pending symbols are symbols of the grammar, each with an empty slot of its own. -/
structure Steady (t : ParseTable) (p : Parser) (todo : List (Symbol × Nat)) : Prop where
  table : p.table = t
  stack : p.stack = stackOf t.grammar.eof todo
  symbols : ∀ e ∈ todo, e.1 ∈ t.grammar.symbols
  empty : ∀ e ∈ todo, p.slots[e.2]? = some .empty
  distinct : (todo.map (·.2)).Nodup
  tidy : Tidy p.slots

/-- The pending symbols of a right side, with new slots behind the first `n` ones. -/
def children (n : Nat) (rhs : List Symbol) : List (Symbol × Nat) := rhs.zip (List.range' n rhs.length)

/-- A parser that has matched a token with the symbol of a slot. -/
def matched (p : Parser) (x : Symbol) (i : Nat) (token : Token) (rest : List (Symbol × Nat)) : Parser :=
  { p with
    stack := stackOf p.table.grammar.eof rest
    slots := p.slots.setIfInBounds i (.leaf x token) }

/-- A parser that has expanded the symbol of a slot by a rule. -/
def expanded (p : Parser) (r : Rule) (i : Nat) (rest : List (Symbol × Nat)) : Parser :=
  p.expand r (some i) (stackOf p.table.grammar.eof rest)

section Children
variable {n : Nat} {rhs : List Symbol}

theorem map_fst_children : (children n rhs).map (·.1) = rhs := by
  rw [children, List.map_fst_zip (by simp)]

theorem map_snd_children : (children n rhs).map (·.2) = List.range' n rhs.length := by
  rw [children, List.map_snd_zip (by simp)]

theorem children_append {u v : List Symbol} : children n (u ++ v) = children n u ++ children (n + u.length) v := by
  rw [children, List.length_append, List.range'_append_1.symm, List.zip_append (by simp)]
  rfl

theorem children_cons {y : Symbol} {v : List Symbol} : children n (y :: v) = (y, n) :: children (n + 1) v := rfl

theorem mem_children {e : Symbol × Nat} (h : e ∈ children n rhs) : e.1 ∈ rhs ∧ n ≤ e.2 ∧ e.2 < n + rhs.length := by
  have h₁ : e.1 ∈ (children n rhs).map (·.1) := List.mem_map_of_mem h
  have h₂ : e.2 ∈ (children n rhs).map (·.2) := List.mem_map_of_mem h
  rw [map_fst_children] at h₁
  rw [map_snd_children, List.mem_range'_1] at h₂
  exact ⟨h₁, h₂⟩

end Children

variable {t : ParseTable} {p : Parser} {todo rest : List (Symbol × Nat)} {x : Symbol} {i : Nat} {token : Token}
  {r : Rule}

theorem steady_ofTable (hstart : t.grammar.start ∈ t.grammar.symbols) :
    Steady t (ofTable t) [(t.grammar.start, 0)] where
  table := rfl
  stack := rfl
  symbols e he := by rwa [List.mem_singleton.mp he]
  empty e he := by rw [List.mem_singleton.mp he]; rfl
  distinct := List.nodup_singleton _
  tidy := tidy_singleton

theorem slots_matched : (p.matched x i token rest).slots = filled p.slots i (.leaf x token) 0 := by
  simp [matched, filled]

theorem slots_expanded : (p.expanded r i rest).slots =
    filled p.slots i (.node r (List.range' p.slots.size r.rhs.length)) r.rhs.length := rfl

namespace Steady

theorem lt_size (h : Steady t p todo) {e : Symbol × Nat} (he : e ∈ todo) : e.2 < p.slots.size :=
  Slot.lt_size (h.empty e he)

theorem top_empty (h : Steady t p ((x, i) :: rest)) : p.slots[i]? = some .empty := h.empty (x, i) List.mem_cons_self

theorem ne_of_mem_rest (h : Steady t p ((x, i) :: rest)) {e : Symbol × Nat} (he : e ∈ rest) : e.2 ≠ i := by
  have hnot : i ∉ rest.map (·.2) := (List.nodup_cons.mp h.distinct).1
  rintro rfl
  exact hnot (List.mem_map_of_mem he)

theorem matched (h : Steady t p ((x, i) :: rest)) : Steady t (p.matched x i token rest) rest where
  table := h.table
  stack := by rw [← h.table]; rfl
  symbols e he := h.symbols e (List.mem_cons_of_mem _ he)
  empty e he := by
    rw [slots_matched]
    exact filled_of_ne (h.ne_of_mem_rest he) (h.empty e (List.mem_cons_of_mem _ he))
  distinct := (List.nodup_cons.mp h.distinct).2
  tidy := by
    rw [slots_matched]
    exact h.tidy.filled h.top_empty rfl

theorem expanded (h : Steady t p ((x, i) :: rest)) (hr : ∀ y ∈ r.rhs, y ∈ t.grammar.symbols) :
    Steady t (p.expanded r i rest) (children p.slots.size r.rhs ++ rest) where
  table := h.table
  stack := by
    simp only [Parser.expanded, expand, stackOf, children, h.table, List.map_append, List.append_assoc,
      List.zip_map_right]
    rfl
  symbols e he := by
    rcases List.mem_append.mp he with he | he
    · exact hr e.1 (mem_children he).1
    · exact h.symbols e (List.mem_cons_of_mem _ he)
  empty e he := by
    rcases List.mem_append.mp he with he | he
    · exact filled_new h.top_empty (map_snd_children ▸ List.mem_map_of_mem he)
    · exact filled_of_ne (h.ne_of_mem_rest he) (h.empty e (List.mem_cons_of_mem _ he))
  distinct := by
    rw [List.map_append, map_snd_children, List.nodup_append]
    refine ⟨List.nodup_range', (List.nodup_cons.mp h.distinct).2, ?_⟩
    rintro a ha b hb rfl
    obtain ⟨e, he, rfl⟩ := List.mem_map.mp hb
    have hlt := h.lt_size (List.mem_cons_of_mem _ he)
    have := (List.mem_range'_1.mp ha).1
    omega
  tidy := h.tidy.filled h.top_empty rfl

/-! ### What a step does -/

theorem step_match (h : Steady t p ((x, i) :: rest)) (hx : x.isTerminal = true) (hid : x.id = token.terminal) :
    p.step token = (some .awaiting, p.matched x i token rest) := by
  unfold step
  rw [h.stack]
  simp [stackOf, hx, hid, Parser.matched, h.table]

theorem step_expand (h : Steady t p ((x, i) :: rest)) (hx : x.isTerminal = false)
    (hr : t.get? x.id token.terminal = some r) : p.step token = (none, p.expanded r i rest) := by
  unfold step
  rw [h.stack]
  simp [stackOf, hx, h.table, hr, Parser.expanded]

theorem step_accept (h : Steady t p []) (heof : t.grammar.eof.isTerminal = true)
    (hid : token.terminal = t.grammar.eof.id) {tree : Tree} (htree : Slot.assemble p.slots = some tree) :
    p.step token = (some (.ready tree), ofTable t) := by
  unfold step
  rw [h.stack]
  simp [stackOf, heof, hid, htree, reset, h.table]

/-- A step matches the top symbol, expands it, completes the tree when nothing but the end mark is left, or
    rejects the token. -/
theorem step_cases (h : Steady t p todo) (heof : t.grammar.eof.isTerminal = true) (token : Token) :
    (∃ x i rest, todo = (x, i) :: rest ∧ x.isTerminal = true ∧ x.id = token.terminal ∧
      p.step token = (some .awaiting, p.matched x i token rest)) ∨
    (∃ x i rest r, todo = (x, i) :: rest ∧ x.isTerminal = false ∧ t.get? x.id token.terminal = some r ∧
      p.step token = (none, p.expanded r i rest)) ∨
    (∃ tree, todo = [] ∧ token.terminal = t.grammar.eof.id ∧ Slot.assemble p.slots = some tree ∧
      p.step token = (some (.ready tree), ofTable t)) ∨
    ∃ why, p.step token = (some (.rejected why), ofTable t) := by
  have hstack := h.stack
  cases todo with
  | nil =>
    by_cases hid : token.terminal = t.grammar.eof.id
    · cases htree : Slot.assemble p.slots with
      | some tree => exact Or.inr (Or.inr (Or.inl ⟨tree, rfl, hid, rfl, h.step_accept heof hid htree⟩))
      | none =>
        refine Or.inr (Or.inr (Or.inr ⟨rejection t [] token, ?_⟩))
        unfold step
        rw [hstack]
        simp [stackOf, heof, hid, htree, reset, h.table]
    · refine Or.inr (Or.inr (Or.inr ⟨rejection t [t.grammar.eof.name] token, ?_⟩))
      unfold step
      rw [hstack]
      simp [stackOf, heof, Ne.symm hid, reset, h.table]
  | cons e rest =>
    obtain ⟨x, i⟩ := e
    cases hx : x.isTerminal with
    | true =>
      by_cases hid : x.id = token.terminal
      · exact Or.inl ⟨x, i, rest, rfl, hx, hid, h.step_match hx hid⟩
      · refine Or.inr (Or.inr (Or.inr ⟨rejection t [x.name] token, ?_⟩))
        unfold step
        rw [hstack]
        simp [stackOf, hx, hid, reset, h.table]
    | false =>
      cases hr : t.get? x.id token.terminal with
      | some r => exact Or.inr (Or.inl ⟨x, i, rest, r, rfl, hx, hr, h.step_expand hx hr⟩)
      | none =>
        refine Or.inr (Or.inr (Or.inr ⟨rejection t ((t.expected x.id).map (·.name)) token, ?_⟩))
        unfold step
        rw [hstack]
        simp [stackOf, hx, hr, reset, h.table]

end Steady

end Parser

end Calcbook
