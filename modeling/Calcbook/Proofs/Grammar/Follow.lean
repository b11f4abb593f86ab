import Calcbook.Proofs.Grammar.Family
import Calcbook.Proofs.Grammar.First

/-! FOLLOW sets. Whatever the additions of a pass keep, the pass keeps. Passes only add, and a pass that
    adds nothing has found, for every place in a rule, that all that comes behind it is there already. A
    family that meets the demands of the rules never gets less than the passes put in, so their result is the
    least such family; and what follows a nonterminal in derivations is such a family, and no smaller one. -/

namespace Calcbook.Grammar
open Family

variable {g : Grammar}

/-! ### Passes -/

/-- What every addition of a pass keeps, the pass keeps. -/
theorem followAlong_induct {P : Family → Prop} {lhs : Nat} {rest : List Symbol} {f : Family} (h : P f)
    (hadd : ∀ f u x v, rest = u ++ x :: v → x.isTerminal = false → P f → P (f.add x.id (g.behind f lhs v))) :
    P (g.followAlong lhs rest f) := by
  induction rest generalizing f with
  | nil => exact h
  | cons y rest ih =>
    refine ih ?_ fun f u x v hrest hx hf => hadd f (y :: u) x v (by rw [hrest, List.cons_append]) hx hf
    split
    · exact h
    · rename_i hy
      exact hadd f [] y rest rfl (by simpa using hy) h

theorem followPass_induct {P : Family → Prop} {f : Family} (h : P f)
    (hadd : ∀ r ∈ g.rules, ∀ f u x v, r.rhs = u ++ x :: v → x.isTerminal = false → P f →
      P (f.add x.id (g.behind f r.lhs.id v))) : P (g.followPass f) := by
  unfold followPass
  generalize g.rules = rules at hadd
  induction rules generalizing f with
  | nil => exact h
  | cons r rules ih =>
    obtain ⟨hr, hrules⟩ := List.forall_mem_cons.mp hadd
    exact ih (followAlong_induct h hr) hrules

theorem grows_followAlong (lhs : Nat) (rest : List Symbol) (f : Family) : Grows f (g.followAlong lhs rest f) :=
  followAlong_induct (P := Grows f) (.refl f) fun _ _ _ _ _ _ h => h.trans (.add _ _ _)

theorem grows_followPass (f : Family) : Grows f (g.followPass f) :=
  followPass_induct (P := Grows f) (.refl f) fun _ _ _ _ _ _ _ _ h => h.trans (.add _ _ _)

/-! ### Passes that add nothing -/

theorem followAlong_fixed {lhs : Nat} {rest u v : List Symbol} {x : Symbol} {f : Family}
    (h : g.followAlong lhs rest f = f) (hrest : rest = u ++ x :: v) (hx : x.isTerminal = false) :
    f.add x.id (g.behind f lhs v) = f := by
  induction rest generalizing u with
  | nil => simp at hrest
  | cons y rest ih =>
    rw [followAlong] at h
    -- The first addition leaves the family as it is, because the ones behind it take nothing back.
    have hfirst : (if y.isTerminal then f else f.add y.id (g.behind f lhs rest)) = f := by
      have hback := grows_followAlong (g := g) lhs rest
        (if y.isTerminal then f else f.add y.id (g.behind f lhs rest))
      rw [h] at hback
      refine hback.antisymm ?_
      split
      · exact .refl f
      · exact .add _ _ _
    rw [hfirst] at h
    cases u with
    | nil =>
      obtain ⟨rfl, rfl⟩ := List.cons.inj hrest
      simpa [hx] using hfirst
    | cons z u => exact ih h (List.cons.inj hrest).2

theorem followPass_fixed {f : Family} (h : g.followPass f = f) {r : Rule} (hr : r ∈ g.rules) :
    g.followAlong r.lhs.id r.rhs f = f := by
  unfold followPass at h
  generalize g.rules = rules at h hr
  induction rules with
  | nil => cases hr
  | cons s rules ih =>
    rw [List.foldl_cons] at h
    have hgrows : ∀ (rs : List Rule) (f : Family),
        Grows f (rs.foldl (fun f r => g.followAlong r.lhs.id r.rhs f) f) := by
      intro rs
      induction rs with
      | nil => exact .refl
      | cons r rs ih => exact fun f => (grows_followAlong _ _ f).trans (ih _)
    have hfirst : g.followAlong s.lhs.id s.rhs f = f := by
      have hback := hgrows rules (g.followAlong s.lhs.id s.rhs f)
      rw [h] at hback
      exact hback.antisymm (grows_followAlong _ _ f)
    rw [hfirst] at h
    rcases List.mem_cons.mp hr with rfl | hr
    · exact hfirst
    · exact ih h hr

theorem mem_behind {f : Family} {lhs t : Nat} {rest : List Symbol} :
    t ∈ g.behind f lhs rest ↔ t ∈ g.first rest ∨ g.nullable rest = true ∧ t ∈ f.get lhs := by
  unfold behind
  split <;> simp [*]

theorem mem_get_of_fixed {f : Family} (h : g.followPass f = f) {r : Rule} (hr : r ∈ g.rules) {u v : List Symbol}
    {x : Symbol} (hrhs : r.rhs = u ++ x :: v) (hx : x.isTerminal = false) (hid : x.id ∈ f.ids) {t : Nat}
    (ht : t ∈ g.behind f r.lhs.id v) : t ∈ f.get x.id := by
  rw [← followAlong_fixed (followPass_fixed h hr) hrhs hx]
  exact mem_get_add.mpr (Or.inr ⟨rfl, hid, ht⟩)

/-! ### The number of passes -/

/-- A family of sets of terminals for the nonterminals of the grammar. -/
structure Fits (g : Grammar) (f : Family) : Prop where
  ids : f.ids = g.nonterminals.map (·.id)
  terminals : ∀ e ∈ f.entries, ∀ t ∈ e.2, t ∈ g.terminals.map (·.id)

theorem Fits.add {f : Family} (h : g.Fits f) {id : Nat} {s : IdSet} (hs : ∀ t ∈ s, t ∈ g.terminals.map (·.id)) :
    g.Fits (f.add id s) where
  ids := by rw [ids_add, h.ids]
  terminals e he t ht := by
    obtain ⟨e₀, he₀, rfl⟩ := List.mem_map.mp he
    split at ht
    · rcases OrdSet.mem_union.mp ht with ht | ht
      · exact h.terminals e₀ he₀ t ht
      · exact hs t ht
    · exact h.terminals e₀ he₀ t ht

theorem Fits.mem_terminals {f : Family} (h : g.Fits f) {k t : Nat} (ht : t ∈ f.get k) :
    t ∈ g.terminals.map (·.id) := by
  unfold Family.get at ht
  cases hl : f.entries.lookup k with
  | none =>
    rw [hl] at ht
    exact (OrdSet.not_mem_empty ht).elim
  | some s =>
    rw [hl] at ht
    obtain ⟨l₁, l₂, hmem, -⟩ := List.lookup_eq_some_iff.mp hl
    exact h.terminals (k, s) (hmem ▸ List.mem_append_right l₁ List.mem_cons_self) t ht

theorem Fits.cardinality_le {f : Family} (h : g.Fits f) :
    f.cardinality ≤ g.nonterminals.length * g.terminals.length := by
  have hsize : ∀ e ∈ f.entries, e.2.size ≤ g.terminals.length := fun e he => by
    have := (e.2.nodup_toList.subperm (h.terminals e he)).length_le
    rwa [List.length_map] at this
  simpa [h.ids] using cardinality_le_mul hsize

theorem Fits.followPass (hg : g.WellFormed) {f : Family} (h : g.Fits f) : g.Fits (g.followPass f) := by
  refine followPass_induct h fun r hr f u x v hrhs _ hf => hf.add fun t ht => ?_
  rcases mem_behind.mp ht with ht | ⟨-, ht⟩
  · have hv : ∀ y ∈ v, y ∈ g.symbols := fun y hy => hg.bodies r hr y (by simp [hrhs, hy])
    obtain ⟨s, hs, rfl⟩ := exists_terminal_of_mem_first hg hv ht
    exact List.mem_map_of_mem hs
  · exact hf.mem_terminals ht

theorem settle?_eq_some {n : Nat} {f f' : Family} (h : g.settle? n f = some f') : g.followPass f' = f' := by
  induction n generalizing f with
  | zero => cases h
  | succ n ih =>
    rw [settle?] at h
    split at h
    · rename_i hcard
      cases h
      have heq : f = g.followPass f := (grows_followPass f).eq_of_cardinality_le (Nat.le_of_eq hcard)
      rw [← heq]
      exact heq.symm
    · exact ih h

theorem settle?_induct {P : Family → Prop} (hpass : ∀ f, P f → P (g.followPass f)) {n : Nat} {f f' : Family}
    (hf : P f) (h : g.settle? n f = some f') : P f' := by
  induction n generalizing f with
  | zero => cases h
  | succ n ih =>
    rw [settle?] at h
    split at h
    · cases h
      exact hpass f hf
    · exact ih (hpass f hf) h

/-- Every pass but the last adds something, so there are enough passes. -/
theorem exists_settle? (hg : g.WellFormed) {n : Nat} {f : Family} (hf : g.Fits f)
    (hn : g.nonterminals.length * g.terminals.length < n + f.cardinality) : ∃ f', g.settle? n f = some f' := by
  induction n generalizing f with
  | zero =>
    have := hf.cardinality_le
    omega
  | succ n ih =>
    rw [settle?]
    split
    · exact ⟨_, rfl⟩
    · rename_i hcard
      have hle := (grows_followPass (g := g) f).cardinality_le
      exact ih (hf.followPass hg) (by omega)

/-! ### The result -/

theorem fits_followSeed (hg : g.WellFormed) : g.Fits g.followSeed := by
  have hempty : g.Fits (ofIds (g.nonterminals.map (·.id))) := by
    refine ⟨ids_ofIds, fun e he t ht => ?_⟩
    obtain ⟨id, -, rfl⟩ := List.mem_map.mp he
    exact (OrdSet.not_mem_empty ht).elim
  refine hempty.add fun t ht => ?_
  rw [OrdSet.mem_singleton.mp ht]
  exact List.mem_map_of_mem (mem_terminals.mpr hg.eof)

theorem mem_get_followSeed {x t : Nat} (h : t ∈ g.followSeed.get x) : x = g.start.id ∧ t = g.eof.id := by
  rcases mem_get_add.mp h with h | ⟨hx, -, ht⟩
  · have hnone : ∀ ids : List Nat, (ofIds ids).get x = ∅ := fun ids => by
      unfold ofIds Family.get
      induction ids with
      | nil => rfl
      | cons id ids ih =>
        rw [List.map_cons, List.lookup_cons]
        split
        · rfl
        · exact ih
    rw [hnone] at h
    exact (OrdSet.not_mem_empty h).elim
  · exact ⟨hx, OrdSet.mem_singleton.mp ht⟩

/-- A family that meets the demands of the rules. -/
structure IsFollow (g : Grammar) (f : Family) : Prop where
  fits : g.Fits f
  eof : g.eof.id ∈ f.get g.start.id
  fixed : g.followPass f = f

theorem IsFollow.mem {f : Family} (h : g.IsFollow f) (hg : g.WellFormed) {r : Rule} (hr : r ∈ g.rules)
    {u v : List Symbol} {x : Symbol} (hrhs : r.rhs = u ++ x :: v) (hx : x.isTerminal = false) {t : Nat}
    (ht : t ∈ g.behind f r.lhs.id v) : t ∈ f.get x.id := by
  refine mem_get_of_fixed h.fixed hr hrhs hx ?_ ht
  have hxs : x ∈ g.symbols := hg.bodies r hr x (by simp [hrhs])
  rw [h.fits.ids]
  exact List.mem_map_of_mem (mem_nonterminals.mpr ⟨hxs, hx⟩)

theorem isFollow_of_settle? (hg : g.WellFormed) {n : Nat} {f : Family}
    (h : g.settle? n g.followSeed = some f) : g.IsFollow f where
  fits := settle?_induct (fun f hf => Fits.followPass hg hf) (fits_followSeed hg) h
  eof := by
    have hstart : g.start.id ∈ (ofIds (g.nonterminals.map (·.id))).ids := by
      rw [ids_ofIds]
      exact List.mem_map_of_mem (mem_nonterminals.mpr hg.start_nonterminal)
    have hseed : g.eof.id ∈ g.followSeed.get g.start.id :=
      mem_get_add.mpr (Or.inr ⟨rfl, hstart, OrdSet.mem_singleton.mpr rfl⟩)
    have hpass : ∀ f : Family, g.eof.id ∈ f.get g.start.id → g.eof.id ∈ (g.followPass f).get g.start.id :=
      fun f hf => followPass_induct (P := fun f => g.eof.id ∈ f.get g.start.id) hf
        fun _ _ _ _ _ _ _ _ hf => mem_get_add.mpr (Or.inl hf)
    exact settle?_induct hpass hseed h
  fixed := settle?_eq_some h

theorem exists_follow (hg : g.WellFormed) : ∃ f, g.follow = .ok f ∧ g.settle? g.maxPasses g.followSeed = some f := by
  obtain ⟨f, hf⟩ := exists_settle? hg (n := g.maxPasses) (fits_followSeed hg) (by unfold maxPasses; omega)
  exact ⟨f, by rw [follow, hf], hf⟩

theorem isFollow_of_follow (hg : g.WellFormed) {f : Family} (h : g.follow = .ok f) : g.IsFollow f := by
  obtain ⟨f', hf', hs⟩ := exists_follow hg
  rw [hf'] at h
  cases h
  exact isFollow_of_settle? hg hs

/-! ### What follows in derivations -/

/-- A terminal follows a symbol: it stands right behind it in a string that some nonterminal derives, or it
    is the end mark and the start symbol derives a string that ends with the symbol. -/
def Follows (g : Grammar) (x t : Symbol) : Prop :=
  (∃ a ∈ g.nonterminals, ∃ u v, g.Derives [a] (u ++ x :: t :: v)) ∨
    (t = g.eof ∧ ∃ u, g.Derives [g.start] (u ++ [x]))

/-- The demands on what follows a nonterminal: the end mark follows the start symbol, and a nonterminal of a
    rule is followed by what begins the rest of the right side, and by what follows the left side if the
    rest derives the empty string. -/
structure FollowClosed (g : Grammar) (F : Symbol → Symbol → Prop) : Prop where
  eof : F g.start g.eof
  begins : ∀ r ∈ g.rules, ∀ u x v, r.rhs = u ++ x :: v → x.isTerminal = false →
    ∀ t ∈ g.terminals, (∃ γ, g.Derives v (t :: γ)) → F x t
  inherits : ∀ r ∈ g.rules, ∀ u x v, r.rhs = u ++ x :: v → x.isTerminal = false →
    g.Derives v [] → ∀ t ∈ g.terminals, F r.lhs t → F x t

theorem followClosed_follows (hg : g.WellFormed) : g.FollowClosed g.Follows where
  eof := Or.inr ⟨rfl, [], .refl _⟩
  begins r hr u x v hrhs _ t _ := by
    rintro ⟨γ, hγ⟩
    have hrule : g.Derives [r.lhs] (u ++ x :: v) := hrhs ▸ .of_rule hr
    have hv : g.Derives (u ++ x :: v) (u ++ x :: t :: γ) := by simpa using hγ.within (u ++ [x]) []
    exact Or.inl ⟨r.lhs, mem_nonterminals.mpr (hg.heads r hr), u, γ, hrule.trans hv⟩
  inherits r hr u x v hrhs _ hv t _ := by
    have hexp : ∀ p q, g.Derives (p ++ r.lhs :: q) (p ++ u ++ x :: q) := fun p q => by
      have hnil := hv.within (p ++ u ++ [x]) q
      have hrule := Derives.expand hr p q
      rw [hrhs] at hrule
      exact hrule.trans (by simpa using hnil)
    rintro (⟨a, ha, p, q, hp⟩ | ⟨rfl, p, hp⟩)
    · exact Or.inl ⟨a, ha, p ++ u, q, hp.trans (hexp p (t :: q))⟩
    · exact Or.inr ⟨rfl, p ++ u, hp.trans (hexp p [])⟩

section Exact
variable {f : Family}

theorem IsFollow.followClosed (h : g.IsFollow f) (hg : g.WellFormed) :
    g.FollowClosed fun x t => t.id ∈ f.get x.id where
  eof := h.eof
  begins r hr u x v hrhs hx t ht hγ := by
    have hv : ∀ y ∈ v, y ∈ g.symbols := fun y hy => hg.bodies r hr y (by simp [hrhs, hy])
    obtain ⟨hts, hkind⟩ := mem_terminals.mp ht
    exact h.mem hg hr hrhs hx (mem_behind.mpr (Or.inl ((mem_first_iff_derives hg hts hkind hv).mpr hγ)))
  inherits r hr u x v hrhs hx hnil t _ hlhs := by
    have hv : ∀ y ∈ v, y ∈ g.symbols := fun y hy => hg.bodies r hr y (by simp [hrhs, hy])
    exact h.mem hg hr hrhs hx (mem_behind.mpr (Or.inr ⟨(nullable_iff_derives hg hv).mpr hnil, hlhs⟩))

theorem follow_least (hg : g.WellFormed) {F : Symbol → Symbol → Prop} (hF : g.FollowClosed F)
    (h : g.follow = .ok f) : ∀ x ∈ g.nonterminals, ∀ t ∈ g.terminals, t.id ∈ f.get x.id → F x t := by
  obtain ⟨f', hf', hs⟩ := exists_follow hg
  rw [hf'] at h
  cases h
  refine settle?_induct (P := fun f => ∀ x ∈ g.nonterminals, ∀ t ∈ g.terminals, t.id ∈ f.get x.id → F x t)
    (fun f hf => ?_) ?_ hs
  · refine followPass_induct (P := fun f => ∀ x ∈ g.nonterminals, ∀ t ∈ g.terminals, t.id ∈ f.get x.id → F x t) hf ?_
    intro r hr f u y v hrhs hy hf x hx t ht htx
    have hsym : ∀ z ∈ u ++ y :: v, z ∈ g.symbols := hrhs ▸ hg.bodies r hr
    have hv : ∀ z ∈ v, z ∈ g.symbols := fun z hz => hsym z (by simp [hz])
    rcases mem_get_add.mp htx with htx | ⟨hid, -, htx⟩
    · exact hf x hx t ht htx
    · rw [hg.eq_of_id_eq (mem_nonterminals.mp hx).1 (hsym y (by simp)) hid]
      rcases mem_behind.mp htx with htx | ⟨hnull, htx⟩
      · obtain ⟨hts, hkind⟩ := mem_terminals.mp ht
        exact hF.begins r hr u y v hrhs hy t ht ((mem_first_iff_derives hg hts hkind hv).mp htx)
      · have hlhs := hf r.lhs (mem_nonterminals.mpr (hg.heads r hr)) t ht htx
        exact hF.inherits r hr u y v hrhs hy ((nullable_iff_derives hg hv).mp hnull) t ht hlhs
  · intro x hx t ht htx
    obtain ⟨hxid, htid⟩ := mem_get_followSeed htx
    rw [hg.eq_of_id_eq (mem_nonterminals.mp hx).1 hg.start_nonterminal.1 hxid,
      hg.eq_of_id_eq (mem_terminals.mp ht).1 hg.eof.1 htid]
    exact hF.eof

/-- A family accounts for a terminal in a string: it has the terminal for every nonterminal of the string
    whose rest begins with it, and, if the terminal comes behind the string, whose rest is nullable. -/
def Accounts (g : Grammar) (f : Family) (t : Nat) (comes : Prop) (α : List Symbol) : Prop :=
  ∀ u x β, α = u ++ x :: β → x.isTerminal = false →
    (t ∈ g.first β ∨ g.nullable β = true ∧ comes) → t ∈ f.get x.id

theorem Accounts.step (h : g.IsFollow f) (hg : g.WellFormed) {t : Nat} {comes : Prop} {α β : List Symbol}
    (ha : g.Accounts f t comes α) (hs : g.Step α β) : g.Accounts f t comes β := by
  obtain ⟨r, hr, p, q, rfl, rfl⟩ := hs
  -- Whatever stands before the nonterminal expanded has the same behind it as before, or less.
  have hback : ∀ c, (t ∈ g.first (c ++ r.rhs ++ q) ∨ g.nullable (c ++ r.rhs ++ q) = true ∧ comes) →
      t ∈ g.first (c ++ r.lhs :: q) ∨ g.nullable (c ++ r.lhs :: q) = true ∧ comes := by
    intro c hc
    simp only [mem_first_append, nullable_append, mem_first_cons (α := q), nullable_cons (α := q)] at hc ⊢
    have hf := fun hf => mem_first_of_rule (t := t) hg hr hf
    have hn := fun hn => nullable_of_rule hg hr hn
    tauto
  intro u x β heq hx hβ
  rcases append_eq_append_cons heq with ⟨c, hpr, rfl⟩ | ⟨a, rfl, rfl⟩
  · rcases append_eq_append_cons hpr with ⟨c', rfl, rfl⟩ | ⟨a, rfl, hrhs⟩
    · exact ha u x (c' ++ r.lhs :: q) (by simp) hx (hback c' hβ)
    · -- The symbol is one of the right side: what comes behind it is the demand of the rule.
      refine h.mem hg hr hrhs hx (mem_behind.mpr ?_)
      rw [mem_first_append, nullable_append] at hβ
      rcases hβ with (hc | ⟨hc, hq⟩) | ⟨⟨hc, hq⟩, hcomes⟩
      · exact Or.inl hc
      · exact Or.inr ⟨hc, ha p r.lhs q rfl (hg.heads r hr).2 (Or.inl hq)⟩
      · exact Or.inr ⟨hc, ha p r.lhs q rfl (hg.heads r hr).2 (Or.inr ⟨hq, hcomes⟩)⟩
  · exact ha (p ++ r.lhs :: a) x β (by simp) hx hβ

theorem Accounts.derives (h : g.IsFollow f) (hg : g.WellFormed) {t : Nat} {comes : Prop} {α β : List Symbol}
    (ha : g.Accounts f t comes α) (hd : g.Derives α β) : g.Accounts f t comes β := by
  induction hd with
  | refl => exact ha
  | tail _ hs ih => exact ih.step h hg hs

theorem IsFollow.mem_of_follows (h : g.IsFollow f) (hg : g.WellFormed) {x t : Symbol} (hx : x.isTerminal = false)
    (ht : t ∈ g.terminals) (hf : g.Follows x t) : t.id ∈ f.get x.id := by
  have halone : ∀ (a : Symbol) (comes : Prop), (comes → t.id ∈ f.get a.id) → g.Accounts f t.id comes [a] := by
    intro a comes hcomes u y β heq _ hβ
    rcases List.append_eq_singleton_iff.mp heq.symm with ⟨-, hy⟩ | ⟨-, hy⟩
    · obtain ⟨rfl, rfl⟩ := List.cons.inj hy
      rcases hβ with hβ | ⟨-, hc⟩
      · exact (not_mem_first_nil hβ).elim
      · exact hcomes hc
    · cases hy
  rcases hf with ⟨a, -, u, v, hd⟩ | ⟨rfl, u, hd⟩
  · have ha := (halone a False False.elim).derives h hg hd
    obtain ⟨hts, hkind⟩ := mem_terminals.mp ht
    exact ha u x (t :: v) rfl hx (Or.inl (mem_first_cons.mpr (Or.inl (mem_first_terminal hg hts hkind))))
  · have ha := (halone g.start True fun _ => h.eof).derives h hg hd
    exact ha u x [] rfl hx (Or.inr ⟨nullable_nil, trivial⟩)

end Exact

/-- The FOLLOW sets of a grammar are found, with one set for each nonterminal; a terminal is in the set of a
    nonterminal exactly when it follows it in derivations, and the sets are the least ones that meet the
    demands of the rules. -/
theorem follow_exact {calls : List Declaration} {start : String} {g : Grammar}
    (h : Grammar.ofDeclarations calls start = .ok g) :
    ∃ f, g.follow = .ok f ∧ f.entries.map (·.1) = g.nonterminals.map (·.id) ∧
      (∀ x ∈ g.nonterminals, ∀ id ∈ f.get x.id, ∃ t ∈ g.terminals, t.id = id) ∧
      (∀ x ∈ g.nonterminals, ∀ t ∈ g.terminals, t.id ∈ f.get x.id ↔ g.Follows x t) ∧
      g.FollowClosed (fun x t => t.id ∈ f.get x.id) ∧
      ∀ F : Symbol → Symbol → Prop, g.FollowClosed F →
        ∀ x ∈ g.nonterminals, ∀ t ∈ g.terminals, t.id ∈ f.get x.id → F x t := by
  have hg := wellFormed_of_ofDeclarations h
  obtain ⟨f, hf, -⟩ := exists_follow hg
  have hfollow := isFollow_of_follow hg hf
  refine ⟨f, hf, hfollow.fits.ids, ?_, ?_, hfollow.followClosed hg, fun F hF => follow_least hg hF hf⟩
  · intro x _ id hid
    exact List.mem_map.mp (hfollow.fits.mem_terminals hid)
  · intro x hx t ht
    exact ⟨follow_least hg (followClosed_follows hg) hf x hx t ht,
      hfollow.mem_of_follows hg (mem_nonterminals.mp hx).2 ht⟩

theorem follow_exact_sums : ∃ f, Sums.grammar.follow = .ok f ∧
    ∀ x ∈ Sums.grammar.nonterminals, ∀ t ∈ Sums.grammar.terminals, t.id ∈ f.get x.id ↔ Sums.grammar.Follows x t := by
  obtain ⟨f, hf, -, -, hiff, -⟩ := follow_exact Sums.ofDeclarations_calls
  exact ⟨f, hf, hiff⟩

end Calcbook.Grammar
