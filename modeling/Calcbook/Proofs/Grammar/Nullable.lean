import Calcbook.Grammar.Nullable
import Calcbook.Proofs.Grammar.Derivation

/-! The search for vanishing symbols finds all of them and no others. A symbol that derives the empty string
    does so by a tree of rules; the least number of levels of such a tree falls from a symbol to those of
    the rule that attains it, so the search never meets a symbol that it is expanding already. Every level
    of the search uses up the rules of one more symbol, so as many levels as there are rules are enough. -/

namespace Calcbook.Grammar

/-- `x` derives the empty string by a tree of at most `n` levels of rules. -/
def VanishesIn (g : Grammar) : Nat → Symbol → Prop
  | 0, _ => False
  | n + 1, x => ∃ r ∈ g.rules, r.lhs = x ∧ ∀ y ∈ r.rhs, g.VanishesIn n y

/-- The rules that a search which is expanding the given nonterminals can still use. -/
def unused (g : Grammar) (expanding : List Nat) : Nat := (g.rules.filter (·.lhs.id ∉ expanding)).length

variable {g : Grammar}

theorem VanishesIn.succ : ∀ {n : Nat} {x : Symbol}, g.VanishesIn n x → g.VanishesIn (n + 1) x
  | _ + 1, _, ⟨r, hr, hx, hv⟩ => ⟨r, hr, hx, fun y hy => (hv y hy).succ⟩

theorem VanishesIn.nonterminal (hg : g.WellFormed) : ∀ {n : Nat} {x : Symbol}, g.VanishesIn n x → x.isTerminal = false
  | _ + 1, _, ⟨r, hr, hx, _⟩ => hx ▸ (hg.heads r hr).2

/-! ### The search -/

theorem vanishes_succ_iff {n : Nat} {expanding : List Nat} {x : Symbol} :
    g.vanishes (n + 1) expanding x = true ↔ x.isTerminal = false ∧ x.id ∉ expanding ∧
      ∃ r ∈ g.rules, r.lhs.id = x.id ∧ ∀ y ∈ r.rhs, g.vanishes n (x.id :: expanding) y = true := by
  simp [vanishes, mem_rulesOf, and_assoc]

theorem vanishes_succ {n : Nat} {expanding : List Nat} {x : Symbol} (h : g.vanishes n expanding x = true) :
    g.vanishes (n + 1) expanding x = true := by
  induction n generalizing expanding x with
  | zero => simp [vanishes] at h
  | succ n ih =>
    obtain ⟨hx, hne, r, hr, hid, hall⟩ := vanishes_succ_iff.mp h
    exact vanishes_succ_iff.mpr ⟨hx, hne, r, hr, hid, fun y hy => ih (hall y hy)⟩

theorem unused_cons_lt {expanding : List Nat} {r : Rule} (hr : r ∈ g.rules) (hne : r.lhs.id ∉ expanding) :
    g.unused (r.lhs.id :: expanding) < g.unused expanding := by
  have hsplit : g.rules.filter (·.lhs.id ∉ r.lhs.id :: expanding) =
      (g.rules.filter (·.lhs.id ∉ expanding)).filter (·.lhs.id ≠ r.lhs.id) := by
    rw [List.filter_filter]
    simp [List.mem_cons, not_or]
  rw [unused, unused, hsplit, List.length_filter_lt_length_iff_exists]
  exact ⟨r, List.mem_filter.mpr ⟨hr, by simpa using hne⟩, by simp⟩

/-- Levels beyond the number of unused rules find nothing more. -/
theorem vanishes_of_unused_le {n m : Nat} {expanding : List Nat} {x : Symbol} (hn : g.unused expanding ≤ n)
    (h : g.vanishes m expanding x = true) : g.vanishes n expanding x = true := by
  induction m generalizing n expanding x with
  | zero => simp [vanishes] at h
  | succ m ih =>
    obtain ⟨hx, hne, r, hr, hid, hall⟩ := vanishes_succ_iff.mp h
    have hlt : g.unused (x.id :: expanding) < g.unused expanding := hid ▸ unused_cons_lt hr (hid ▸ hne)
    obtain ⟨n, rfl⟩ : ∃ k, n = k + 1 := ⟨n - 1, by omega⟩
    exact vanishes_succ_iff.mpr ⟨hx, hne, r, hr, hid, fun y hy => ih (by omega) (hall y hy)⟩

theorem vanishesIn_of_vanishes (hg : g.WellFormed) {n : Nat} {expanding : List Nat} {x : Symbol}
    (hx : x ∈ g.symbols) (h : g.vanishes n expanding x = true) : g.VanishesIn n x := by
  induction n generalizing expanding x with
  | zero => simp [vanishes] at h
  | succ n ih =>
    obtain ⟨-, -, r, hr, hid, hall⟩ := vanishes_succ_iff.mp h
    exact ⟨r, hr, hg.eq_of_id_eq (hg.heads r hr).1 hx hid, fun y hy => ih (hg.bodies r hr y hy) (hall y hy)⟩

/-- A search that is expanding only symbols with higher trees finds a tree: none of the symbols of the
    rule at its root needs one of them. -/
theorem vanishes_of_vanishesIn (hg : g.WellFormed) {n : Nat} {expanding : List Nat} {x : Symbol}
    (h : g.VanishesIn n x) (hne : ∀ s ∈ g.symbols, s.id ∈ expanding → ¬g.VanishesIn n s) :
    g.vanishes n expanding x = true := by
  induction n generalizing expanding x with
  | zero => exact h.elim
  | succ n ih =>
    have hne' : ∀ s ∈ g.symbols, s.id ∈ expanding → ¬g.VanishesIn n s := fun s hs he hv => hne s hs he hv.succ
    by_cases hlow : g.VanishesIn n x
    · exact vanishes_succ (ih hlow hne')
    · obtain ⟨r, hr, rfl, hall⟩ := h
      obtain ⟨hx, hkind⟩ := hg.heads r hr
      refine vanishes_succ_iff.mpr ⟨hkind, fun he => hne r.lhs hx he ⟨r, hr, rfl, hall⟩, r, hr, rfl, ?_⟩
      intro y hy
      refine ih (hall y hy) fun s hs he => ?_
      rcases List.mem_cons.mp he with hid | he
      · rwa [hg.eq_of_id_eq hs hx hid]
      · exact hne' s hs he

theorem vanishes_levels_iff (hg : g.WellFormed) {x : Symbol} (hx : x ∈ g.symbols) :
    g.vanishes g.levels [] x = true ↔ ∃ n, g.VanishesIn n x := by
  refine ⟨fun h => ⟨_, vanishesIn_of_vanishes hg hx h⟩, fun ⟨n, h⟩ => ?_⟩
  refine vanishes_of_unused_le ?_ (vanishes_of_vanishesIn hg h (by simp))
  simp [unused, levels]

/-! ### Strings -/

theorem nullable_append {α β : List Symbol} :
    g.nullable (α ++ β) = true ↔ g.nullable α = true ∧ g.nullable β = true := by
  simp [nullable]

theorem nullable_nil : g.nullable [] = true := rfl

theorem nullable_cons {x : Symbol} {α : List Symbol} :
    g.nullable (x :: α) = true ↔ g.nullable [x] = true ∧ g.nullable α = true := nullable_append (α := [x])

theorem nullable_iff_forall {α : List Symbol} : g.nullable α = true ↔ ∀ x ∈ α, g.nullable [x] = true := by
  simp [nullable]

theorem nullable_singleton_iff (hg : g.WellFormed) {x : Symbol} (hx : x ∈ g.symbols) :
    g.nullable [x] = true ↔ ∃ n, g.VanishesIn n x := by
  rw [← vanishes_levels_iff hg hx]
  simp [nullable]

/-- A nullable symbol has a tree with no more levels than there are rules. -/
theorem vanishesIn_levels (hg : g.WellFormed) {x : Symbol} (hx : x ∈ g.symbols) (h : g.nullable [x] = true) :
    g.VanishesIn g.levels x :=
  vanishesIn_of_vanishes hg hx (by simpa [nullable] using h)

theorem nullable_of_vanishesIn (hg : g.WellFormed) {n : Nat} {α : List Symbol} (hα : ∀ x ∈ α, x ∈ g.symbols)
    (h : ∀ x ∈ α, g.VanishesIn n x) : g.nullable α = true :=
  nullable_iff_forall.mpr fun x hx => (nullable_singleton_iff hg (hα x hx)).mpr ⟨n, h x hx⟩

theorem nullable_of_rule (hg : g.WellFormed) {r : Rule} (hr : r ∈ g.rules) (h : g.nullable r.rhs = true) :
    g.nullable [r.lhs] = true := by
  refine (nullable_singleton_iff hg (hg.heads r hr).1).mpr ⟨g.levels + 1, r, hr, rfl, fun y hy => ?_⟩
  exact vanishesIn_levels hg (hg.bodies r hr y hy) (nullable_iff_forall.mp h y hy)

theorem exists_nullable_rule (hg : g.WellFormed) {x : Symbol} (hx : x ∈ g.symbols) (h : g.nullable [x] = true) :
    ∃ r ∈ g.rules, r.lhs = x ∧ g.nullable r.rhs = true := by
  obtain ⟨n, hn⟩ := (nullable_singleton_iff hg hx).mp h
  cases n with
  | zero => exact hn.elim
  | succ n =>
    obtain ⟨r, hr, hlhs, hall⟩ := hn
    exact ⟨r, hr, hlhs, nullable_of_vanishesIn hg (hg.bodies r hr) hall⟩

/-! ### Derivations of the empty string -/

theorem derives_nil_of_vanishesIn {n : Nat} : ∀ {α : List Symbol}, (∀ x ∈ α, g.VanishesIn n x) → g.Derives α [] := by
  induction n with
  | zero =>
    intro α h
    cases α with
    | nil => exact .refl _
    | cons x α => exact (h x List.mem_cons_self).elim
  | succ n ih =>
    intro α h
    induction α with
    | nil => exact .refl _
    | cons x α ihα =>
      obtain ⟨⟨r, hr, rfl, hall⟩, hα⟩ := List.forall_mem_cons.mp h
      exact ((Derives.of_rule hr).trans (ih hall)).append (ihα hα)

/-- A string is nullable exactly when it derives the empty string. -/
theorem nullable_iff_derives (hg : g.WellFormed) {α : List Symbol} (hα : ∀ x ∈ α, x ∈ g.symbols) :
    g.nullable α = true ↔ g.Derives α [] := by
  constructor
  · intro h
    exact derives_nil_of_vanishesIn fun x hx => vanishesIn_levels hg (hα x hx) (nullable_iff_forall.mp h x hx)
  · intro h
    clear hα
    induction h using Relation.ReflTransGen.head_induction_on with
    | refl => rfl
    | head hs _ ih =>
      obtain ⟨r, hr, u, v, rfl, rfl⟩ := hs
      rw [nullable_append, nullable_append] at ih
      rw [nullable_append, nullable_cons]
      exact ⟨ih.1.1, nullable_of_rule hg hr ih.1.2, ih.2⟩

end Calcbook.Grammar
