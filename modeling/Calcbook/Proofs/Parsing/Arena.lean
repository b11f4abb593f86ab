import Calcbook.Proofs.Parsing.Layout
import Calcbook.Proofs.Parsing.Tree

/-! The tree in the slots. While a parse goes on, the slots hold its tree up to holes: the empty slots, each
    with the tree that it will be filled by. A match fills a hole with a leaf, and an expansion fills one with a
    node whose children are holes behind it. Without holes, building from the last slot down finds the trees of
    the children ready wherever it comes to a node, because they lie behind it and no other node takes them, and
    gives the tree that the slots hold. -/

namespace Calcbook

namespace Slot

/-- The slots hold a tree at a place, if the holes are filled by the trees given for them. -/
inductive Holds (slots : Array Slot) (holes : List (Nat × Tree)) : Nat → Tree → Prop
  | hole {i : Nat} {t : Tree} (hi : slots[i]? = some .empty) (ht : (i, t) ∈ holes) : Holds slots holes i t
  | leaf {i : Nat} {s : Symbol} {token : Token} (hi : slots[i]? = some (.leaf s token)) :
      Holds slots holes i (.leaf s token)
  | node {i : Nat} {r : Rule} {children : List Nat} {ts : List Tree} (hi : slots[i]? = some (.node r children))
      (hlen : children.length = ts.length) (hts : ∀ e ∈ children.zip ts, Holds slots holes e.1 e.2) :
      Holds slots holes i (.node r ts)

variable {slots : Array Slot} {holes holes' : List (Nat × Tree)} {i : Nat} {t : Tree}

/-- When a hole is filled by the tree given for it, the slots hold the same tree with the other holes. -/
theorem Holds.filled {j n : Nat} {s : Slot} {root : Tree} (h : Holds slots ((i, t) :: holes) j root)
    (hi : slots[i]? = some .empty) (hself : Holds (filled slots i s n) holes' i t)
    (hne : ∀ e ∈ holes, e.1 ≠ i) (hholes : ∀ e ∈ holes, e ∈ holes') : Holds (filled slots i s n) holes' j root := by
  induction h with
  | hole hj ht =>
    rcases List.mem_cons.mp ht with heq | ht
    · obtain ⟨rfl, rfl⟩ := Prod.mk.inj heq
      exact hself
    · exact .hole (filled_of_ne (hne _ ht) hj) (hholes _ ht)
  | leaf hj => exact .leaf (filled_of_ne_empty hi hj (by simp))
  | node hj hlen _ ih => exact .node (filled_of_ne_empty hi hj (by simp)) hlen ih

/-! ### Building the tree -/

theorem getD_setIfInBounds_of_ne {built : Array (Option Tree)} {c j : Nat} {made : Option Tree} (hne : j ≠ c) :
    (built.setIfInBounds j made).getD c none = built.getD c none := by
  rw [Array.getD_eq_getD_getElem?, Array.getElem?_setIfInBounds_ne hne, ← Array.getD_eq_getD_getElem?]

theorem size_takeTrees {children : List Nat} {built : Array (Option Tree)} :
    (takeTrees children built).2.size = built.size := by
  induction children generalizing built with
  | nil => rfl
  | cons c children ih =>
    rw [takeTrees]
    split
    · rfl
    · rw [ih, Array.size_setIfInBounds]

/-- Only the trees of the children are taken. -/
theorem getD_takeTrees {children : List Nat} {built : Array (Option Tree)} {c : Nat} (hc : c ∉ children) :
    (takeTrees children built).2.getD c none = built.getD c none := by
  induction children generalizing built with
  | nil => rfl
  | cons c' children ih =>
    obtain ⟨hne, hc⟩ := not_or.mp (mt List.mem_cons.mpr hc)
    rw [takeTrees]
    split
    · rfl
    · rw [ih hc, getD_setIfInBounds_of_ne (Ne.symm hne)]

/-- Children that are listed once each find their trees, because no tree is taken before its turn. -/
theorem takeTrees_eq_some : ∀ {children : List Nat} {ts : List Tree} {built : Array (Option Tree)},
    children.Nodup → children.length = ts.length → (∀ e ∈ children.zip ts, built.getD e.1 none = some e.2) →
    (takeTrees children built).1 = some ts
  | [], [], _, _, _, _ => rfl
  | c :: children, t :: ts, built, honce, hlen, h => by
    obtain ⟨hc, honce⟩ := List.nodup_cons.mp honce
    rw [List.zip_cons_cons, List.forall_mem_cons] at h
    have hrest : (takeTrees children (built.setIfInBounds c none)).1 = some ts :=
      takeTrees_eq_some honce (Nat.succ.inj hlen) fun e he => by
        have hne : c ≠ e.1 := (ne_of_mem_of_not_mem (List.of_mem_zip he).1 hc).symm
        rw [getD_setIfInBounds_of_ne hne, h.2 e he]
    rw [takeTrees, h.1]
    exact congrArg (Option.map (t :: ·)) hrest

theorem size_makeTree {s : Slot} {built : Array (Option Tree)} : (s.makeTree built).2.size = built.size := by
  cases s with
  | empty => rfl
  | leaf => rfl
  | node => exact size_takeTrees

theorem getD_makeTree {s : Slot} {built : Array (Option Tree)} {c : Nat} (hc : c ∉ s.listed) :
    (s.makeTree built).2.getD c none = built.getD c none := by
  cases s with
  | empty => rfl
  | leaf => rfl
  | node => exact getD_takeTrees hc

/-- Trees are there from when they are built until the parents of their slots take them. -/
theorem build_eq_some {n : Nat} {built : Array (Option Tree)} (htidy : Tidy slots) (hn : n ≤ built.size)
    (hbuilt : ∀ i t, n ≤ i → (∀ j, n ≤ j → ¬IsChild slots j i) → Holds slots [] i t → built.getD i none = some t)
    (hroot : ∀ j, ¬IsChild slots j i) (h : Holds slots [] i t) : (build slots n built).getD i none = some t := by
  induction n generalizing built with
  | zero => exact hbuilt i t (Nat.zero_le i) (fun j _ => hroot j) h
  | succ n ih =>
    refine ih (by rw [Array.size_setIfInBounds, size_makeTree]; omega) fun j t hj hfree h => ?_
    by_cases hne : n = j
    · subst hne
      rw [Array.getD_eq_getD_getElem?, Array.getElem?_setIfInBounds_self_of_lt (by rw [size_makeTree]; omega)]
      cases h with
      | hole _ ht => cases ht
      | leaf hi => simp [hi, makeTree]
      | @node _ r children ts hi hlen hts =>
        -- The children lie behind the node and have no other parent, so their trees are still there.
        have hready : ∀ e ∈ children.zip ts, built.getD e.1 none = some e.2 := fun e he => by
          have hchild : IsChild slots n e.1 := ⟨_, hi, (List.of_mem_zip he).1⟩
          refine hbuilt e.1 e.2 (htidy.behind hchild).1 (fun k hk hk' => ?_) (hts e he)
          have := hk'.unique htidy hchild
          omega
        have htrees : (takeTrees children built).1 = some ts := takeTrees_eq_some (htidy.once hi) hlen hready
        simp [hi, makeTree, htrees]
    · rw [getD_setIfInBounds_of_ne hne, getD_makeTree]
      · exact hbuilt j t (by omega) (fun k hk => hfree k (by omega)) h
      · rw [Array.getD_eq_getD_getElem?]
        intro hmem
        cases hn : slots[n]? with
        | none => simp [hn, listed] at hmem
        | some s => exact hfree n (Nat.le_refl n) ⟨s, hn, by simpa [hn] using hmem⟩

/-- Slots that hold a tree without holes give this tree. -/
theorem assemble_eq_some (htidy : Tidy slots) (h : Holds slots [] 0 t) : assemble slots = some t := by
  refine build_eq_some htidy (by simp) (fun i t hi _ h => ?_) (fun j hj => ?_) h
  · have hnone : slots[i]? = none := Array.getElem?_eq_none hi
    cases h with
    | hole _ ht => cases ht
    | leaf hi => simp [hnone] at hi
    | node hi => simp [hnone] at hi
  · exact Nat.not_lt_zero j (htidy.behind hj).1

end Slot

/-! ### What steps do to the holes -/

namespace Parser
open Slot

/-- The holes of the pending symbols, with the trees that are to come for them. -/
def holesOf (todo : List (Symbol × Nat)) (ts : List Tree) : List (Nat × Tree) := (todo.map (·.2)).zip ts

namespace Steady
variable {t : ParseTable} {p : Parser} {rest : List (Symbol × Nat)} {x : Symbol} {i : Nat} {token : Token}
  {ts : List Tree} {root : Tree}

theorem ne_of_mem_holes (h : Steady t p ((x, i) :: rest)) {e : Nat × Tree} (he : e ∈ holesOf rest ts) : e.1 ≠ i := by
  obtain ⟨e', he', heq⟩ := List.mem_map.mp (List.of_mem_zip he).1
  exact heq ▸ h.ne_of_mem_rest he'

theorem holds_matched (h : Steady t p ((x, i) :: rest))
    (hroot : Holds p.slots (holesOf ((x, i) :: rest) (.leaf x token :: ts)) 0 root) :
    Holds (p.matched x i token rest).slots (holesOf rest ts) 0 root := by
  rw [slots_matched]
  exact hroot.filled h.top_empty (.leaf (filled_self h.top_empty)) (fun _ he => h.ne_of_mem_holes he) fun _ he => he

theorem holds_expanded (h : Steady t p ((x, i) :: rest)) {r : Rule} {children : List Tree}
    (hlen : children.length = r.rhs.length)
    (hroot : Holds p.slots (holesOf ((x, i) :: rest) (.node r children :: ts)) 0 root) :
    Holds (p.expanded r i rest).slots (holesOf (Parser.children p.slots.size r.rhs ++ rest) (children ++ ts)) 0 root := by
  have hzip : holesOf (Parser.children p.slots.size r.rhs ++ rest) (children ++ ts) =
      (List.range' p.slots.size r.rhs.length).zip children ++ holesOf rest ts := by
    rw [holesOf, List.map_append, map_snd_children, List.zip_append (by simp [hlen])]
    rfl
  rw [hzip]
  refine hroot.filled h.top_empty ?_ (fun _ he => h.ne_of_mem_holes he) fun _ => List.mem_append_right _
  refine .node (filled_self h.top_empty) (by simp [hlen]) fun e he => ?_
  exact .hole (filled_new h.top_empty (List.of_mem_zip he).1) (List.mem_append_left _ he)

end Steady

end Parser

end Calcbook
