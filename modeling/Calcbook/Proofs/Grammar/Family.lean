import Calcbook.Grammar.Follow
import Mathlib.Data.List.Perm.Subperm
import Mathlib.Data.List.Forall2

/-! Families of sets that grow. A set within another one is no larger, and as large only if it is the same
    set. So the sizes of a growing family never fall, and they stay the same only if the family does: their
    sum tells whether anything was added. -/

namespace Calcbook

namespace OrdSet
variable {α : Type} [Ord α] [Std.TransOrd α] {s t : OrdSet α}

theorem nodup_toList (s : OrdSet α) : s.toList.Nodup := by
  refine s.ascending.imp fun {a b} h => ?_
  rintro rfl
  exact Std.OrientedCmp.not_lt_of_lt h h

theorem subperm_of_subset (h : ∀ x ∈ s, x ∈ t) : s.toList.Subperm t.toList := s.nodup_toList.subperm h

theorem size_le_of_subset (h : ∀ x ∈ s, x ∈ t) : s.size ≤ t.size := (subperm_of_subset h).length_le

theorem eq_of_subset_of_size_le (h : ∀ x ∈ s, x ∈ t) (hsize : t.size ≤ s.size) : s = t := by
  have hperm := (subperm_of_subset h).perm_of_length_le hsize
  have hlist : s.toList = t.toList := by
    refine hperm.eq_of_pairwise (fun a b _ _ hab hba => ?_) s.ascending t.ascending
    exact absurd hba (Std.OrientedCmp.not_lt_of_lt hab)
  cases s
  cases t
  cases hlist
  rfl

end OrdSet

namespace Grammar.Family
variable {f f' f'' : Family}

def ids (f : Family) : List Nat := f.entries.map (·.1)

theorem ids_ofIds {ids : List Nat} : (ofIds ids).ids = ids := by
  simp [Family.ids, ofIds, Function.comp_def]

theorem ids_add {id : Nat} {s : IdSet} : (f.add id s).ids = f.ids := by
  simp only [ids, add, List.map_map]
  refine List.map_congr_left fun e _ => ?_
  simp only [Function.comp_apply]
  split <;> rfl

theorem lookup_add {id k : Nat} {s : IdSet} : (f.add id s).entries.lookup k =
    (f.entries.lookup k).map fun t => if k = id then t ∪ s else t := by
  obtain ⟨entries⟩ := f
  induction entries with
  | nil => rfl
  | cons e es ih =>
    obtain ⟨i, t⟩ := e
    simp only [add, List.map_cons] at ih ⊢
    by_cases hk : k = i
    · subst hk
      by_cases hid : k = id <;> simp [hid]
    · have hk' : (k == i) = false := by simpa using hk
      by_cases hid : i = id
      · subst hid
        simp only [beq_self_eq_true, ↓reduceIte, List.lookup_cons, hk', ih]
      · have hid' : (i == id) = false := by simpa using hid
        simp only [hid', Bool.false_eq_true, ↓reduceIte, List.lookup_cons, hk', ih]

theorem lookup_eq_none_iff {k : Nat} : f.entries.lookup k = none ↔ k ∉ f.ids := by
  rw [List.lookup_eq_none_iff]
  constructor
  · intro h hm
    obtain ⟨e, he, rfl⟩ := List.mem_map.mp hm
    simpa using h e he
  · intro h e he
    have : k ≠ e.1 := fun heq => h (heq ▸ List.mem_map_of_mem he)
    simpa using this

theorem mem_get_add {id k t : Nat} {s : IdSet} :
    t ∈ (f.add id s).get k ↔ t ∈ f.get k ∨ k = id ∧ id ∈ f.ids ∧ t ∈ s := by
  rw [get, lookup_add, get]
  by_cases hk : k = id
  · subst hk
    cases hl : f.entries.lookup k with
    | none => simp [lookup_eq_none_iff.mp hl]
    | some u =>
      have : k ∈ f.ids := by_contra fun hm => by simp [lookup_eq_none_iff.mpr hm] at hl
      simp [this]
  · simp [hk]

/-! ### Growth -/

/-- The second family has the sets of the first, each of them as it was or larger. -/
def Grows (f f' : Family) : Prop :=
  List.Forall₂ (fun a b => a.1 = b.1 ∧ ∀ t ∈ a.2, t ∈ b.2) f.entries f'.entries

namespace Grows

theorem refl (f : Family) : Grows f f := List.forall₂_same.mpr fun _ _ => ⟨rfl, fun _ ht => ht⟩

theorem trans (h₁ : Grows f f') (h₂ : Grows f' f'') : Grows f f'' := by
  unfold Grows at *
  generalize f.entries = l at *
  generalize f'.entries = l' at *
  generalize f''.entries = l'' at *
  induction h₁ generalizing l'' with
  | nil => exact h₂
  | cons hab _ ih =>
    cases h₂ with
    | cons hbc h₂ => exact .cons ⟨hab.1.trans hbc.1, fun t ht => hbc.2 t (hab.2 t ht)⟩ (ih _ h₂)

theorem add (f : Family) (id : Nat) (s : IdSet) : Grows f (f.add id s) := by
  refine List.forall₂_map_right_iff.mpr (List.forall₂_same.mpr fun e _ => ?_)
  split
  · exact ⟨rfl, fun t ht => OrdSet.mem_union.mpr (Or.inl ht)⟩
  · exact ⟨rfl, fun t ht => ht⟩

theorem cardinality_le (h : Grows f f') : f.cardinality ≤ f'.cardinality := by
  unfold Grows at h
  unfold cardinality OrdSet.cardinality
  generalize f.entries = l at *
  generalize f'.entries = l' at *
  induction h with
  | nil => exact Nat.le_refl _
  | cons hab _ ih => exact Nat.add_le_add (OrdSet.size_le_of_subset hab.2) ih

/-- A family that grows without getting larger stays as it is. -/
theorem eq_of_cardinality_le (h : Grows f f') (hc : f'.cardinality ≤ f.cardinality) : f = f' := by
  obtain ⟨l⟩ := f
  obtain ⟨l'⟩ := f'
  induction l generalizing l' with
  | nil =>
    cases h
    rfl
  | cons a l ih =>
    cases h with
    | @cons _ b _ l' hab hl =>
      have hhead := OrdSet.size_le_of_subset hab.2
      have htail : cardinality ⟨l⟩ ≤ cardinality ⟨l'⟩ := cardinality_le hl
      have hc : b.2.size + cardinality ⟨l'⟩ ≤ a.2.size + cardinality ⟨l⟩ := hc
      have heq : a = b := Prod.ext hab.1 (OrdSet.eq_of_subset_of_size_le hab.2 (by omega))
      have hrest := ih l' hl (by omega)
      cases hrest
      rw [heq]

theorem antisymm (h₁ : Grows f f') (h₂ : Grows f' f) : f = f' := h₁.eq_of_cardinality_le h₂.cardinality_le

end Grows

theorem cardinality_le_mul {m : Nat} (h : ∀ e ∈ f.entries, e.2.size ≤ m) : f.cardinality ≤ f.ids.length * m := by
  obtain ⟨l⟩ := f
  unfold cardinality OrdSet.cardinality ids
  induction l with
  | nil => simp
  | cons e l ih =>
    obtain ⟨he, hl⟩ := List.forall_mem_cons.mp h
    have hrest := ih hl
    simp only [List.map_cons, List.foldr_cons, List.length_cons, Nat.succ_mul] at hrest ⊢
    omega

end Grammar.Family

end Calcbook
