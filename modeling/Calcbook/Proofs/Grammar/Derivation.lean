import Calcbook.Proofs.Grammar.WellFormed
import Mathlib.Logic.Relation

/-! Derivations. A string of symbols derives another one when nonterminals in it give way, one after the
    other, to right sides of their rules. A derivation goes on inside a longer string, and it does not leave
    the symbols of the grammar. -/

namespace Calcbook.Grammar

/-- One step of a derivation: a nonterminal gives way to a right side. -/
def Step (g : Grammar) (α β : List Symbol) : Prop :=
  ∃ r ∈ g.rules, ∃ u v, α = u ++ r.lhs :: v ∧ β = u ++ r.rhs ++ v

/-- A string of symbols derives another one in zero or more steps. -/
def Derives (g : Grammar) : List Symbol → List Symbol → Prop := Relation.ReflTransGen g.Step

/-- A step of a leftmost derivation: nothing but terminals stand before the nonterminal that gives way. -/
def LeftStep (g : Grammar) (α β : List Symbol) : Prop :=
  ∃ r ∈ g.rules, ∃ u v, (∀ x ∈ u, x ∈ g.terminals) ∧ α = u ++ r.lhs :: v ∧ β = u ++ r.rhs ++ v

/-- A string of symbols derives another one from left to right. -/
def LeftDerives (g : Grammar) : List Symbol → List Symbol → Prop := Relation.ReflTransGen g.LeftStep

variable {g : Grammar} {α β γ δ : List Symbol}

namespace Derives

theorem refl (α : List Symbol) : g.Derives α α := Relation.ReflTransGen.refl

theorem trans (h₁ : g.Derives α β) (h₂ : g.Derives β γ) : g.Derives α γ := Relation.ReflTransGen.trans h₁ h₂

theorem of_rule {r : Rule} (hr : r ∈ g.rules) : g.Derives [r.lhs] r.rhs :=
  Relation.ReflTransGen.single ⟨r, hr, [], [], rfl, by simp⟩

theorem within (h : g.Derives α β) (u v : List Symbol) : g.Derives (u ++ α ++ v) (u ++ β ++ v) := by
  induction h with
  | refl => exact refl _
  | tail _ hs ih =>
    obtain ⟨r, hr, p, q, rfl, rfl⟩ := hs
    exact ih.tail ⟨r, hr, u ++ p, q ++ v, by simp, by simp⟩

theorem append (h₁ : g.Derives α β) (h₂ : g.Derives γ δ) : g.Derives (α ++ γ) (β ++ δ) := by
  have hl : g.Derives (α ++ γ) (β ++ γ) := by simpa using h₁.within [] γ
  have hr : g.Derives (β ++ γ) (β ++ δ) := by simpa using h₂.within β []
  exact hl.trans hr

theorem expand {r : Rule} (hr : r ∈ g.rules) (u v : List Symbol) : g.Derives (u ++ r.lhs :: v) (u ++ r.rhs ++ v) := by
  simpa using (of_rule hr).within u v

end Derives

/-- A symbol derives a string of terminals. -/
def IsProductive (g : Grammar) (x : Symbol) : Prop := ∃ w, g.Derives [x] w ∧ ∀ y ∈ w, y ∈ g.terminals

theorem Derives.mem_symbols (hg : g.WellFormed) (h : g.Derives α β) (hα : ∀ x ∈ α, x ∈ g.symbols) :
    ∀ x ∈ β, x ∈ g.symbols := by
  induction h with
  | refl => exact hα
  | tail _ hs ih =>
    obtain ⟨r, hr, u, v, rfl, rfl⟩ := hs
    simp only [List.forall_mem_append, List.forall_mem_cons] at ih ⊢
    exact ⟨⟨ih.1, hg.bodies r hr⟩, ih.2.2⟩

/-- A symbol of no right side does not come up. -/
theorem Derives.notMem {x : Symbol} (h : g.Derives α β) (hx : ∀ r ∈ g.rules, x ∉ r.rhs) (hα : x ∉ α) : x ∉ β := by
  induction h with
  | refl => exact hα
  | tail _ hs ih =>
    obtain ⟨r, hr, u, v, rfl, rfl⟩ := hs
    simp only [List.mem_append, List.mem_cons, not_or] at ih ⊢
    exact ⟨⟨ih.1, hx r hr⟩, ih.2.2⟩

/-- Symbols that each derive terminals do so one behind the other. -/
theorem exists_terminals (hproductive : ∀ x ∈ g.nonterminals, g.IsProductive x) (hα : ∀ x ∈ α, x ∈ g.symbols) :
    ∃ w, g.Derives α w ∧ ∀ y ∈ w, y ∈ g.terminals := by
  induction α with
  | nil => exact ⟨[], .refl _, by simp⟩
  | cons x α ih =>
    obtain ⟨hx, hα⟩ := List.forall_mem_cons.mp hα
    obtain ⟨w, hw, hterminals⟩ := ih hα
    cases hkind : x.isTerminal with
    | true =>
      have hxterminal : x ∈ g.terminals := mem_terminals.mpr ⟨hx, hkind⟩
      exact ⟨x :: w, (Derives.refl [x]).append hw, List.forall_mem_cons.mpr ⟨hxterminal, hterminals⟩⟩
    | false =>
      obtain ⟨wx, hwx, hterminalsx⟩ := hproductive x (mem_nonterminals.mpr ⟨hx, hkind⟩)
      exact ⟨wx ++ w, hwx.append hw, List.forall_mem_append.mpr ⟨hterminalsx, hterminals⟩⟩

/-- An item of two lists one behind the other stands in the first or in the second. -/
theorem append_eq_append_cons {ι : Type} {p q u β : List ι} {x : ι} (h : p ++ q = u ++ x :: β) :
    (∃ c, p = u ++ x :: c ∧ β = c ++ q) ∨ ∃ a, u = p ++ a ∧ q = a ++ x :: β := by
  rcases List.append_eq_append_iff.mp h with ⟨a, hu, hq⟩ | ⟨c, hp, hβ⟩
  · exact Or.inr ⟨a, hu, hq⟩
  · cases c with
    | nil => exact Or.inr ⟨[], by simpa using hp.symm, by simpa using hβ.symm⟩
    | cons y c =>
      obtain ⟨rfl, rfl⟩ := List.cons.inj hβ
      exact Or.inl ⟨c, hp, rfl⟩

/-- An item of a list is its last one or stands before that. -/
theorem concat_eq_append_cons {ι : Type} {p u β : List ι} {x y : ι} (h : p ++ [y] = u ++ x :: β) :
    (∃ c, p = u ++ x :: c) ∨ (u = p ∧ x = y) := by
  rcases append_eq_append_cons h with ⟨c, hp, -⟩ | ⟨a, rfl, ha⟩
  · exact Or.inl ⟨c, hp⟩
  · rcases List.singleton_eq_append_iff.mp ha with ⟨rfl, hlast⟩ | ⟨-, hnil⟩
    · exact Or.inr ⟨List.append_nil p, (List.cons.inj hlast).1⟩
    · cases hnil

end Calcbook.Grammar
