/-! Finite sets kept as strictly ascending lists. Two such sets with the same members are the same list,
    and a set that takes in another one either stays as it is or grows. -/

namespace Calcbook

/-- A finite set, listed in strictly ascending order. -/
structure OrdSet (α : Type) [Ord α] where
  toList : List α
  ascending : toList.Pairwise (compare · · = .lt)

namespace OrdSet

variable {α : Type} [Ord α]

instance : Membership α (OrdSet α) := ⟨fun s x => x ∈ s.toList⟩

theorem mem_iff {s : OrdSet α} {x : α} : x ∈ s ↔ x ∈ s.toList := Iff.rfl

instance [DecidableEq α] (s : OrdSet α) (x : α) : Decidable (x ∈ s) :=
  inferInstanceAs (Decidable (x ∈ s.toList))

/-- The set without members. -/
def empty : OrdSet α := ⟨[], .nil⟩

instance : EmptyCollection (OrdSet α) := ⟨empty⟩

/-- The set of one member. -/
def singleton (x : α) : OrdSet α := ⟨[x], List.pairwise_singleton _ x⟩

/-- The number of members. -/
def size (s : OrdSet α) : Nat := s.toList.length

/-! ### Taking in a member -/

/-- Puts an item in its place in an ascending list that may hold it already. -/
def place (x : α) : List α → List α
  | [] => [x]
  | y :: ys =>
    match compare x y with
    | .lt => x :: y :: ys
    | .eq => y :: ys
    | .gt => y :: place x ys

variable [Std.TransOrd α] [Std.LawfulEqOrd α]

omit [Std.TransOrd α] in
theorem mem_place {x z : α} {l : List α} : z ∈ place x l ↔ z = x ∨ z ∈ l := by
  induction l with
  | nil => simp [place]
  | cons y ys ih =>
    rw [place]
    split
    · simp
    · rename_i h
      have := Std.LawfulEqOrd.eq_of_compare h
      simp [this]
    · simp only [List.mem_cons, ih]
      grind

theorem ascending_place {x : α} {l : List α} (h : l.Pairwise (compare · · = .lt)) :
    (place x l).Pairwise (compare · · = .lt) := by
  induction l with
  | nil => exact List.pairwise_singleton _ x
  | cons y ys ih =>
    obtain ⟨hy, hys⟩ := List.pairwise_cons.mp h
    rw [place]
    split
    · rename_i hxy
      refine List.pairwise_cons.mpr ⟨fun z hz => ?_, h⟩
      rcases List.mem_cons.mp hz with rfl | hz
      · exact hxy
      · exact Std.TransCmp.lt_trans hxy (hy z hz)
    · exact h
    · rename_i hxy
      refine List.pairwise_cons.mpr ⟨fun z hz => ?_, ih hys⟩
      rcases mem_place.mp hz with rfl | hz
      · exact Std.OrientedCmp.lt_of_gt hxy
      · exact hy z hz

/-- The set with one more member. -/
def insert (s : OrdSet α) (x : α) : OrdSet α := ⟨place x s.toList, ascending_place s.ascending⟩

@[simp] theorem mem_insert {s : OrdSet α} {x z : α} : z ∈ s.insert x ↔ z = x ∨ z ∈ s := mem_place

/-- The set of the items of a list. -/
def ofList (items : List α) : OrdSet α := items.foldl insert ∅

/-! ### Taking in a set -/

/-- The members of either set. -/
def union (s t : OrdSet α) : OrdSet α := t.toList.foldl insert s

instance : Union (OrdSet α) := ⟨union⟩

theorem mem_foldl_insert {z : α} {items : List α} {s : OrdSet α} :
    z ∈ items.foldl insert s ↔ z ∈ s ∨ z ∈ items := by
  induction items generalizing s with
  | nil => simp
  | cons x xs ih =>
    rw [List.foldl_cons, ih, mem_insert, List.mem_cons]
    grind

@[simp] theorem mem_union {s t : OrdSet α} {z : α} : z ∈ s ∪ t ↔ z ∈ s ∨ z ∈ t := mem_foldl_insert

@[simp] theorem mem_ofList {items : List α} {z : α} : z ∈ ofList items ↔ z ∈ items := by
  rw [ofList, mem_foldl_insert]
  simp [mem_iff, EmptyCollection.emptyCollection, empty]

/-- The members of any of the sets. -/
def unionAll (sets : List (OrdSet α)) : OrdSet α := sets.foldl union ∅

theorem mem_foldl_union {z : α} {sets : List (OrdSet α)} {s : OrdSet α} :
    z ∈ sets.foldl union s ↔ z ∈ s ∨ ∃ t ∈ sets, z ∈ t := by
  induction sets generalizing s with
  | nil => simp
  | cons t ts ih =>
    rw [List.foldl_cons, ih, show s.union t = s ∪ t from rfl, mem_union]
    simp [or_assoc]

omit [Std.TransOrd α] [Std.LawfulEqOrd α] in
@[simp] theorem not_mem_empty {z : α} : z ∉ (∅ : OrdSet α) := List.not_mem_nil

omit [Std.TransOrd α] [Std.LawfulEqOrd α] in
@[simp] theorem mem_singleton {x z : α} : z ∈ singleton x ↔ z = x := List.mem_singleton

@[simp] theorem mem_unionAll {z : α} {sets : List (OrdSet α)} :
    z ∈ unionAll sets ↔ ∃ t ∈ sets, z ∈ t := by
  simp [unionAll, mem_foldl_union]

/-- Whether taking in a set adds a member. -/
def growsBy (s t : OrdSet α) : Bool := s.size < (s ∪ t).size

/-- The sizes of all the sets together. -/
def cardinality (sets : List (OrdSet α)) : Nat := sets.foldr (fun s n => s.size + n) 0

end OrdSet

end Calcbook
