import Calcbook.Grammar.First
import Calcbook.Proofs.Grammar.Nullable

/-! The search for the terminals that begin a string finds all of them and no others. A terminal begins what
    a symbol derives when a path of rules leads to it, each of which passes from its left side to a symbol of
    its right side with only nullable ones before. A shortest path meets no symbol twice, so the search
    loses nothing by not expanding a nonterminal inside its own expansion. -/

namespace Calcbook.Grammar

/-- `x` leads to the terminal `t` by a path of at most `n` rules, behind nullable symbols. -/
def BeginsIn (g : Grammar) (t : Nat) : Nat → Symbol → Prop
  | 0, x => x.isTerminal = true ∧ x.id = t
  | n + 1, x => (x.isTerminal = true ∧ x.id = t) ∨ ∃ r ∈ g.rules, r.lhs = x ∧
      ∃ u y v, r.rhs = u ++ y :: v ∧ g.nullable u = true ∧ g.BeginsIn t n y

variable {g : Grammar} {t : Nat}

theorem BeginsIn.succ {n : Nat} {x : Symbol} (h : g.BeginsIn t n x) : g.BeginsIn t (n + 1) x := by
  induction n generalizing x with
  | zero => exact Or.inl h
  | succ n ih =>
    rcases h with h | ⟨r, hr, hx, u, y, v, hrhs, hu, hy⟩
    · exact Or.inl h
    · exact Or.inr ⟨r, hr, hx, u, y, v, hrhs, hu, ih hy⟩

/-! ### The search -/

theorem mem_firstAlong {heads : Symbol → IdSet} {α : List Symbol} :
    t ∈ g.firstAlong heads α ↔ ∃ u y v, α = u ++ y :: v ∧ g.nullable u = true ∧ t ∈ heads y := by
  induction α with
  | nil => simp [firstAlong]
  | cons x α ih =>
    have hcons : t ∈ g.firstAlong heads (x :: α) ↔
        t ∈ heads x ∨ g.nullable [x] = true ∧ t ∈ g.firstAlong heads α := by
      rw [firstAlong]
      split <;> simp [*]
    rw [hcons, ih]
    constructor
    · rintro (hx | ⟨hx, u, y, v, rfl, hu, hy⟩)
      · exact ⟨[], x, α, rfl, nullable_nil, hx⟩
      · exact ⟨x :: u, y, v, rfl, nullable_cons.mpr ⟨hx, hu⟩, hy⟩
    · rintro ⟨u, y, v, huv, hu, hy⟩
      cases u with
      | nil =>
        obtain ⟨rfl, -⟩ := List.cons.inj huv
        exact Or.inl hy
      | cons z u =>
        obtain ⟨rfl, rfl⟩ := List.cons.inj huv
        obtain ⟨hz, hu⟩ := nullable_cons.mp hu
        exact Or.inr ⟨hz, u, y, v, rfl, hu, hy⟩

theorem mem_heads_zero_iff {expanding : List Nat} {x : Symbol} :
    t ∈ g.heads 0 expanding x ↔ x.isTerminal = true ∧ x.id = t := by
  rw [heads]
  cases hx : x.isTerminal with
  | true =>
    simp only [↓reduceIte, OrdSet.mem_singleton, true_and]
    exact eq_comm
  | false => simp

theorem mem_heads_succ_iff {n : Nat} {expanding : List Nat} {x : Symbol} :
    t ∈ g.heads (n + 1) expanding x ↔ (x.isTerminal = true ∧ x.id = t) ∨
      (x.isTerminal = false ∧ x.id ∉ expanding ∧ ∃ r ∈ g.rules, r.lhs.id = x.id ∧
        ∃ u y v, r.rhs = u ++ y :: v ∧ g.nullable u = true ∧ t ∈ g.heads n (x.id :: expanding) y) := by
  rw [heads]
  cases hx : x.isTerminal with
  | true =>
    simp only [↓reduceIte, OrdSet.mem_singleton, true_and, Bool.true_eq_false, false_and, or_false]
    exact eq_comm
  | false =>
    by_cases he : x.id ∈ expanding
    · simp [he]
    · simp [he, mem_rulesOf, mem_firstAlong, and_assoc]

theorem heads_succ {n : Nat} {expanding : List Nat} {x : Symbol} (h : t ∈ g.heads n expanding x) :
    t ∈ g.heads (n + 1) expanding x := by
  induction n generalizing expanding x with
  | zero => exact mem_heads_succ_iff.mpr (Or.inl (mem_heads_zero_iff.mp h))
  | succ n ih =>
    rcases mem_heads_succ_iff.mp h with h | ⟨hx, hne, r, hr, hid, u, y, v, hrhs, hu, hy⟩
    · exact mem_heads_succ_iff.mpr (Or.inl h)
    · exact mem_heads_succ_iff.mpr (Or.inr ⟨hx, hne, r, hr, hid, u, y, v, hrhs, hu, ih hy⟩)

theorem mem_heads_of_terminal {n : Nat} {expanding : List Nat} {x : Symbol} (hx : x.isTerminal = true) :
    x.id ∈ g.heads n expanding x := by
  cases n with
  | zero => exact mem_heads_zero_iff.mpr ⟨hx, rfl⟩
  | succ n => exact mem_heads_succ_iff.mpr (Or.inl ⟨hx, rfl⟩)

/-- Levels beyond the number of unused rules find nothing more. -/
theorem heads_of_unused_le {n m : Nat} {expanding : List Nat} {x : Symbol} (hn : g.unused expanding ≤ n)
    (h : t ∈ g.heads m expanding x) : t ∈ g.heads n expanding x := by
  induction m generalizing n expanding x with
  | zero =>
    obtain ⟨hx, rfl⟩ := mem_heads_zero_iff.mp h
    exact mem_heads_of_terminal hx
  | succ m ih =>
    rcases mem_heads_succ_iff.mp h with ⟨hx, rfl⟩ | ⟨hx, hne, r, hr, hid, u, y, v, hrhs, hu, hy⟩
    · exact mem_heads_of_terminal hx
    · have hlt : g.unused (x.id :: expanding) < g.unused expanding := hid ▸ unused_cons_lt hr (hid ▸ hne)
      obtain ⟨n, rfl⟩ : ∃ k, n = k + 1 := ⟨n - 1, by omega⟩
      exact mem_heads_succ_iff.mpr
        (Or.inr ⟨hx, hne, r, hr, hid, u, y, v, hrhs, hu, ih (by omega) hy⟩)

theorem beginsIn_of_heads (hg : g.WellFormed) {n : Nat} {expanding : List Nat} {x : Symbol}
    (hx : x ∈ g.symbols) (h : t ∈ g.heads n expanding x) : g.BeginsIn t n x := by
  induction n generalizing expanding x with
  | zero => exact mem_heads_zero_iff.mp h
  | succ n ih =>
    rcases mem_heads_succ_iff.mp h with h | ⟨-, -, r, hr, hid, u, y, v, hrhs, hu, hy⟩
    · exact Or.inl h
    · have hys : y ∈ g.symbols := hg.bodies r hr y (by simp [hrhs])
      exact Or.inr ⟨r, hr, hg.eq_of_id_eq (hg.heads r hr).1 hx hid, u, y, v, hrhs, hu, ih hys hy⟩

/-- A search that is expanding only symbols with longer paths finds a path: the rest of a shortest one
    leads through none of them. -/
theorem heads_of_beginsIn (hg : g.WellFormed) {n : Nat} {expanding : List Nat} {x : Symbol}
    (h : g.BeginsIn t n x) (hne : ∀ s ∈ g.symbols, s.id ∈ expanding → ¬g.BeginsIn t n s) :
    t ∈ g.heads n expanding x := by
  induction n generalizing expanding x with
  | zero => exact mem_heads_zero_iff.mpr h
  | succ n ih =>
    have hne' : ∀ s ∈ g.symbols, s.id ∈ expanding → ¬g.BeginsIn t n s := fun s hs he hv => hne s hs he hv.succ
    by_cases hlow : g.BeginsIn t n x
    · exact heads_succ (ih hlow hne')
    · rcases h with h | ⟨r, hr, rfl, u, y, v, hrhs, hu, hy⟩
      · exact mem_heads_succ_iff.mpr (Or.inl h)
      · obtain ⟨hx, hkind⟩ := hg.heads r hr
        have hout : r.lhs.id ∉ expanding := fun he => hne r.lhs hx he (Or.inr ⟨r, hr, rfl, u, y, v, hrhs, hu, hy⟩)
        refine mem_heads_succ_iff.mpr (Or.inr ⟨hkind, hout, r, hr, rfl, u, y, v, hrhs, hu, ih hy fun s hs he => ?_⟩)
        rcases List.mem_cons.mp he with hid | he
        · rwa [hg.eq_of_id_eq hs hx hid]
        · exact hne' s hs he

theorem mem_heads_levels_iff (hg : g.WellFormed) {x : Symbol} (hx : x ∈ g.symbols) :
    t ∈ g.heads g.levels [] x ↔ ∃ n, g.BeginsIn t n x := by
  refine ⟨fun h => ⟨_, beginsIn_of_heads hg hx h⟩, fun ⟨n, h⟩ => ?_⟩
  refine heads_of_unused_le ?_ (heads_of_beginsIn hg h (by simp))
  simp [unused, levels]

/-! ### Strings -/

theorem not_mem_first_nil : t ∉ g.first [] := OrdSet.not_mem_empty

theorem mem_first_singleton {x : Symbol} : t ∈ g.first [x] ↔ t ∈ g.heads g.levels [] x := by
  simp only [first, firstAlong]
  split <;> simp

theorem mem_first_iff {α : List Symbol} :
    t ∈ g.first α ↔ ∃ u y v, α = u ++ y :: v ∧ g.nullable u = true ∧ t ∈ g.first [y] := by
  simp only [mem_first_singleton]
  exact mem_firstAlong

theorem mem_first_append {α β : List Symbol} :
    t ∈ g.first (α ++ β) ↔ t ∈ g.first α ∨ g.nullable α = true ∧ t ∈ g.first β := by
  induction α with
  | nil => simp [not_mem_first_nil, nullable_nil]
  | cons x α ih =>
    have hcons : ∀ γ, t ∈ g.first (x :: γ) ↔ t ∈ g.first [x] ∨ g.nullable [x] = true ∧ t ∈ g.first γ := fun γ => by
      rw [mem_first_singleton, first, firstAlong]
      split <;> simp [first, *]
    rw [List.cons_append, hcons, hcons α, ih, nullable_cons (α := α)]
    tauto

theorem mem_first_cons {x : Symbol} {α : List Symbol} :
    t ∈ g.first (x :: α) ↔ t ∈ g.first [x] ∨ g.nullable [x] = true ∧ t ∈ g.first α :=
  mem_first_append (α := [x])

theorem mem_first_singleton_iff (hg : g.WellFormed) {x : Symbol} (hx : x ∈ g.symbols) :
    t ∈ g.first [x] ↔ ∃ n, g.BeginsIn t n x := by
  rw [← mem_heads_levels_iff hg hx, mem_first_singleton]

/-- A terminal that begins a symbol does so by a path with no more rules than there are. -/
theorem beginsIn_levels (hg : g.WellFormed) {x : Symbol} (hx : x ∈ g.symbols) (h : t ∈ g.first [x]) :
    g.BeginsIn t g.levels x :=
  beginsIn_of_heads hg hx (mem_first_singleton.mp h)

theorem mem_first_terminal {x : Symbol} (hg : g.WellFormed) (hx : x ∈ g.symbols) (hkind : x.isTerminal = true) :
    x.id ∈ g.first [x] :=
  (mem_first_singleton_iff hg hx).mpr ⟨0, hkind, rfl⟩

theorem mem_first_of_rule (hg : g.WellFormed) {r : Rule} (hr : r ∈ g.rules) (h : t ∈ g.first r.rhs) :
    t ∈ g.first [r.lhs] := by
  obtain ⟨u, y, v, hrhs, hu, hy⟩ := mem_first_iff.mp h
  have hys : y ∈ g.symbols := hg.bodies r hr y (by simp [hrhs])
  obtain ⟨n, hn⟩ := (mem_first_singleton_iff hg hys).mp hy
  exact (mem_first_singleton_iff hg (hg.heads r hr).1).mpr ⟨n + 1, Or.inr ⟨r, hr, rfl, u, y, v, hrhs, hu, hn⟩⟩

/-! ### Derivations that begin with a terminal -/

theorem derives_of_beginsIn (hg : g.WellFormed) {s : Symbol} (hs : s ∈ g.symbols) {n : Nat} {x : Symbol}
    (hx : x ∈ g.symbols) (h : g.BeginsIn s.id n x) : ∃ γ, g.Derives [x] (s :: γ) := by
  have hterm : ∀ y ∈ g.symbols, y.isTerminal = true ∧ y.id = s.id → ∃ γ, g.Derives [y] (s :: γ) :=
    fun y hy h => ⟨[], by rw [hg.eq_of_id_eq hy hs h.2]; exact .refl _⟩
  induction n generalizing x with
  | zero => exact hterm x hx h
  | succ n ih =>
    rcases h with h | ⟨r, hr, rfl, u, y, v, hrhs, hu, hy⟩
    · exact hterm _ hx h
    · have hsym : ∀ z ∈ u ++ y :: v, z ∈ g.symbols := hrhs ▸ hg.bodies r hr
      have hys : y ∈ g.symbols := hsym y (by simp)
      have hnil : g.Derives u [] := (nullable_iff_derives hg fun z hz => hsym z (by simp [hz])).mp hu
      obtain ⟨γ, hγ⟩ := ih hys hy
      have hrule : g.Derives [r.lhs] (u ++ y :: v) := hrhs ▸ .of_rule hr
      exact ⟨γ ++ v, hrule.trans (hnil.append (hγ.append (.refl v)))⟩

/-- A terminal begins a string exactly when the string derives one that begins with it. -/
theorem mem_first_iff_derives (hg : g.WellFormed) {s : Symbol} (hs : s ∈ g.symbols) (hkind : s.isTerminal = true)
    {α : List Symbol} (hα : ∀ x ∈ α, x ∈ g.symbols) : s.id ∈ g.first α ↔ ∃ γ, g.Derives α (s :: γ) := by
  constructor
  · intro h
    obtain ⟨u, y, v, rfl, hu, hy⟩ := mem_first_iff.mp h
    have hys : y ∈ g.symbols := hα y (by simp)
    have hnil : g.Derives u [] := (nullable_iff_derives hg fun z hz => hα z (by simp [hz])).mp hu
    obtain ⟨γ, hγ⟩ := derives_of_beginsIn hg hs hys (beginsIn_levels hg hys hy)
    exact ⟨γ ++ v, hnil.append (hγ.append (.refl v))⟩
  · rintro ⟨γ, h⟩
    clear hα
    induction h using Relation.ReflTransGen.head_induction_on with
    | refl => exact mem_first_cons.mpr (Or.inl (mem_first_terminal hg hs hkind))
    | head hstep _ ih =>
      obtain ⟨r, hr, u, v, rfl, rfl⟩ := hstep
      rw [mem_first_append, mem_first_append, nullable_append] at ih
      rw [mem_first_append, mem_first_cons]
      rcases ih with (hu | ⟨hu, hrhs⟩) | ⟨⟨hu, hnull⟩, hv⟩
      · exact Or.inl hu
      · exact Or.inr ⟨hu, Or.inl (mem_first_of_rule hg hr hrhs)⟩
      · exact Or.inr ⟨hu, Or.inr ⟨nullable_of_rule hg hr hnull, hv⟩⟩

theorem exists_terminal_of_mem_first (hg : g.WellFormed) {α : List Symbol} (hα : ∀ x ∈ α, x ∈ g.symbols)
    (h : t ∈ g.first α) : ∃ s ∈ g.terminals, s.id = t := by
  have hone : ∀ (n : Nat) (x : Symbol), x ∈ g.symbols → g.BeginsIn t n x → ∃ s ∈ g.terminals, s.id = t := by
    intro n
    induction n with
    | zero => exact fun x hx h => ⟨x, mem_terminals.mpr ⟨hx, h.1⟩, h.2⟩
    | succ n ih =>
      rintro x hx (h | ⟨r, hr, -, u, y, v, hrhs, -, hy⟩)
      · exact ⟨x, mem_terminals.mpr ⟨hx, h.1⟩, h.2⟩
      · exact ih y (hg.bodies r hr y (by simp [hrhs])) hy
  obtain ⟨u, y, v, rfl, -, hy⟩ := mem_first_iff.mp h
  have hys : y ∈ g.symbols := hα y (by simp)
  exact hone _ y hys (beginsIn_levels hg hys hy)

end Calcbook.Grammar
