import Calcbook.Proofs.Grammar.Family
import Calcbook.Proofs.Grammar.First

/-! The searches for vanishing and for beginning symbols as they run. A search keeps the nonterminals that it is
    expanding: one goes in before its rules are tried and comes out behind the last of them. Each level of
    expansions puts in the left side of a rule that was not used so far, so a search goes down no more
    levels than there are rules, always ends, and leaves what it keeps as it found it. -/

namespace Calcbook

namespace Grammar

/-! ### Searches -/

/-- A search, which keeps the nonterminals being expanded. It has no answer when it goes down too many levels. -/
abbrev Search (α : Type) := StateT (List Nat) Option α

namespace Search
variable {α β ι : Type}

/-- Searches with one more nonterminal being expanded. -/
def inside (id : Nat) (m : Search α) : Search α := do
  modify (id :: ·)
  let a ← m
  modify (·.erase id)
  return a

/-- Searches apart, with nothing being expanded yet. -/
def afresh (m : Search α) : Search α := fun expanding => (m.run []).map fun r => (r.1, expanding)

/-- The search ends with an answer, and what is being expanded is as before. -/
def Settles (m : Search α) (expanding : List Nat) (a : α) : Prop := m.run expanding = some (a, expanding)

variable {m : Search α} {expanding : List Nat} {a : α} {id : Nat}

theorem settles_pure (expanding : List Nat) (a : α) : Settles (pure a) expanding a := rfl

theorem Settles.bind {f : α → Search β} {b : β} (hm : m.Settles expanding a) (hf : (f a).Settles expanding b) :
    (m >>= f).Settles expanding b := by
  rw [Settles, StateT.run_bind, hm]
  exact hf

theorem settles_get (expanding : List Nat) : Settles get expanding expanding := rfl

theorem Settles.inside (h : m.Settles (id :: expanding) a) : (m.inside id).Settles expanding a := by
  show (m.run (id :: expanding) >>= fun r => some (r.1, r.2.erase id)) = _
  rw [h]
  simp

theorem Settles.afresh (h : m.Settles [] a) (expanding : List Nat) : m.afresh.Settles expanding a := by
  show (m.run []).map _ = _
  rw [h]
  rfl

theorem settles_anyM {p : ι → Search Bool} {q : ι → Bool} {l : List ι}
    (h : ∀ x ∈ l, (p x).Settles expanding (q x)) : Settles (l.anyM p) expanding (l.any q) := by
  induction l with
  | nil => exact settles_pure _ _
  | cons x l ih =>
    obtain ⟨hx, hl⟩ := List.forall_mem_cons.mp h
    refine hx.bind ?_
    rw [List.any_cons]
    cases q x with
    | true => exact settles_pure _ _
    | false => exact ih hl

theorem settles_allM {p : ι → Search Bool} {q : ι → Bool} {l : List ι}
    (h : ∀ x ∈ l, (p x).Settles expanding (q x)) : Settles (l.allM p) expanding (l.all q) := by
  induction l with
  | nil => exact settles_pure _ _
  | cons x l ih =>
    obtain ⟨hx, hl⟩ := List.forall_mem_cons.mp h
    refine hx.bind ?_
    rw [List.all_cons]
    cases q x with
    | true => exact ih hl
    | false => exact settles_pure _ _

theorem settles_foldlM {f : β → ι → Search β} {g : β → ι → β} {l : List ι}
    (h : ∀ x ∈ l, ∀ b, (f b x).Settles expanding (g b x)) (b : β) : Settles (l.foldlM f b) expanding (l.foldl g b) := by
  induction l generalizing b with
  | nil => exact settles_pure _ _
  | cons x l ih =>
    obtain ⟨hx, hl⟩ := List.forall_mem_cons.mp h
    rw [List.foldlM_cons, List.foldl_cons]
    exact (hx b).bind (ih hl _)

end Search

open Search

variable {g : Grammar}

/-! ### Vanishing symbols -/

/-- Whether a symbol derives the empty string. Its rules are tried in order until the right side of one vanishes, and
    a right side is followed until a symbol does not. -/
def vanishing (g : Grammar) : Nat → Symbol → Search Bool
  | 0, _ => failure
  | n + 1, x => do
    if x.isTerminal || (← get).contains x.id then return false
    inside x.id ((g.rulesOf x.id).anyM fun r => r.rhs.allM (g.vanishing n))

theorem unused_inside_lt {expanding : List Nat} {n : Nat} {r : Rule} {x : Symbol} (hr : r ∈ g.rulesOf x.id)
    (hne : x.id ∉ expanding) (hn : g.unused expanding < n + 1) : g.unused (x.id :: expanding) < n := by
  obtain ⟨hr, hid⟩ := mem_rulesOf.mp hr
  have hlt : g.unused (r.lhs.id :: expanding) < g.unused expanding := unused_cons_lt hr (hid ▸ hne)
  rw [hid] at hlt
  omega

/-- With more levels than there are unused rules the search ends, with the answer of the plain recursion. -/
theorem settles_vanishing {n : Nat} {expanding : List Nat} (hn : g.unused expanding < n) (x : Symbol) :
    (g.vanishing n x).Settles expanding (g.vanishes n expanding x) := by
  induction n generalizing expanding x with
  | zero => omega
  | succ n ih =>
    refine (settles_get expanding).bind ?_
    by_cases hx : x.isTerminal = true ∨ x.id ∈ expanding
    · rw [if_pos (by simpa using hx)]
      have hfalse : g.vanishes (n + 1) expanding x = false := by
        rcases hx with hx | hx <;> simp [vanishes, hx]
      rw [hfalse]
      exact settles_pure _ _
    · obtain ⟨hkind, hne⟩ := not_or.mp hx
      rw [if_neg (by simpa using hx)]
      have heq : g.vanishes (n + 1) expanding x =
          (g.rulesOf x.id).any fun r => r.rhs.all (g.vanishes n (x.id :: expanding)) := by
        simp [vanishes, hkind, hne]
      rw [heq]
      exact Settles.inside (settles_anyM fun r hr => settles_allM fun y _ => ih (unused_inside_lt hr hne hn) y)

theorem vanishes_eq_levels {n : Nat} (hn : g.levels ≤ n) (x : Symbol) : g.vanishes n [] x = g.vanishes g.levels [] x := by
  have hall : ∀ {n}, g.levels ≤ n → g.unused [] ≤ n := fun hn => by simpa [unused, levels] using hn
  exact Bool.eq_iff_iff.mpr ⟨vanishes_of_unused_le (hall (Nat.le_refl _)), vanishes_of_unused_le (hall hn)⟩

/-- The search along a string ends, with whether the string is nullable. -/
theorem settles_nullable {n : Nat} (hn : g.levels < n) (α : List Symbol) :
    Settles (α.allM (g.vanishing n)) [] (g.nullable α) := by
  refine settles_allM fun x _ => ?_
  rw [← vanishes_eq_levels (Nat.le_of_lt hn)]
  exact settles_vanishing (by simpa [unused, levels] using hn) x

/-! ### Beginning symbols -/

/-- The terminals that begin a string: those of its first symbol, and if that one vanishes, those of the rest. Whether
    it vanishes is searched apart, by at most `m` levels. -/
def headingAlong (g : Grammar) (m : Nat) (heading : Symbol → Search IdSet) : List Symbol → Search IdSet
  | [] => return ∅
  | x :: rest => do
    let front ← heading x
    if ← afresh ([x].allM (g.vanishing m)) then return front ∪ (← g.headingAlong m heading rest)
    return front

/-- The terminals that begin what a symbol derives, collected from its rules in order. -/
def heading (g : Grammar) (m : Nat) : Nat → Symbol → Search IdSet
  | 0, _ => failure
  | n + 1, x => do
    if x.isTerminal then return .singleton x.id
    if (← get).contains x.id then return ∅
    inside x.id ((g.rulesOf x.id).foldlM (fun found r => return found.union (← g.headingAlong m (g.heading m n) r.rhs)) ∅)

theorem settles_headingAlong {m : Nat} {expanding : List Nat} {heading : Symbol → Search IdSet} {heads : Symbol → IdSet}
    (hm : g.levels < m) {α : List Symbol} (h : ∀ x ∈ α, (heading x).Settles expanding (heads x)) :
    (g.headingAlong m heading α).Settles expanding (g.firstAlong heads α) := by
  induction α with
  | nil => exact settles_pure _ _
  | cons x α ih =>
    obtain ⟨hx, hα⟩ := List.forall_mem_cons.mp h
    refine hx.bind (((settles_nullable hm [x]).afresh expanding).bind ?_)
    rw [firstAlong]
    cases g.nullable [x] with
    | true => exact (ih hα).bind (settles_pure _ _)
    | false => exact settles_pure _ _

/-- With more levels than there are unused rules the search ends, with the answer of the plain recursion. -/
theorem settles_heading {m n : Nat} {expanding : List Nat} (hm : g.levels < m) (hn : g.unused expanding < n) (x : Symbol) :
    (g.heading m n x).Settles expanding (g.heads n expanding x) := by
  induction n generalizing expanding x with
  | zero => omega
  | succ n ih =>
    rw [heading, heads]
    by_cases hkind : x.isTerminal = true
    · rw [if_pos hkind, if_pos hkind]
      exact settles_pure _ _
    rw [if_neg hkind, if_neg hkind]
    refine (settles_get expanding).bind ?_
    by_cases hin : x.id ∈ expanding
    · rw [if_pos (by simpa using hin), if_pos hin]
      exact settles_pure _ _
    · rw [if_neg (by simpa using hin), if_neg hin, OrdSet.unionAll, List.foldl_map]
      refine Settles.inside (settles_foldlM (fun r hr found => ?_) _)
      exact (settles_headingAlong hm fun y _ => ih (unused_inside_lt hr hin hn) y).bind (settles_pure _ _)

theorem heads_eq_levels {n : Nat} (hn : g.levels ≤ n) (x : Symbol) : g.heads n [] x = g.heads g.levels [] x := by
  have hall : ∀ {n}, g.levels ≤ n → g.unused [] ≤ n := fun hn => by simpa [unused, levels] using hn
  have hfrom : ∀ t ∈ g.heads n [] x, t ∈ g.heads g.levels [] x := fun _ => heads_of_unused_le (hall (Nat.le_refl _))
  have hto : ∀ t ∈ g.heads g.levels [] x, t ∈ g.heads n [] x := fun _ => heads_of_unused_le (hall hn)
  exact OrdSet.eq_of_subset_of_size_le hfrom (OrdSet.size_le_of_subset hto)

/-- The search along a string ends, with the terminals that begin it. -/
theorem settles_first {n : Nat} (hn : g.levels < n) (α : List Symbol) :
    Settles (g.headingAlong n (g.heading n n) α) [] (g.first α) := by
  refine settles_headingAlong hn fun x _ => ?_
  rw [← heads_eq_levels (Nat.le_of_lt hn)]
  exact settles_heading hn (by simpa [unused, levels] using hn) x

end Grammar

/-! ### A grammar of loops -/

namespace Loops

def list : Symbol := ⟨0, .nonterminal, "List"⟩

def gap : Symbol := ⟨1, .nonterminal, "Gap"⟩

def pause : Symbol := ⟨2, .nonterminal, "Pause"⟩

def item : Symbol := ⟨3, .terminal, "x"⟩

def dot : Symbol := ⟨4, .terminal, "."⟩

def dollar : Symbol := ⟨5, .terminal, "$"⟩

/-- Items behind gaps. A list begins with a list once its gap vanishes, and gaps and pauses are made of each other. -/
def grammar : Grammar where
  start := list
  eof := dollar
  symbols := [list, gap, pause, item, dot, dollar]
  rules := [⟨0, list, [gap, list, item]⟩, ⟨1, list, [item]⟩, ⟨2, gap, [gap]⟩, ⟨3, gap, [pause, pause]⟩, ⟨4, pause, [gap]⟩,
    ⟨5, pause, [dot]⟩, ⟨6, pause, []⟩]

def calls : List Declaration :=
  [.symbol .nonterminal "List" false, .symbol .nonterminal "Gap" false, .symbol .nonterminal "Pause" false,
    .symbol .terminal "x" false, .symbol .terminal "." false, .rule "List" ["Gap", "List", "x"] false,
    .rule "List" ["x"] false, .rule "Gap" ["Gap"] false, .rule "Gap" ["Pause", "Pause"] false, .rule "Pause" ["Gap"] false,
    .rule "Pause" ["."] false, .rule "Pause" [] false]

theorem ofDeclarations_calls : Grammar.ofDeclarations calls "List" = .ok grammar := by rfl

end Loops

namespace Grammar

/-! ### Exactness -/

/-- The search for the empty string ends on every string of symbols, whatever loops there are, and finds that the string
    is nullable exactly when it derives the empty string. -/
theorem nullable_exact {calls : List Declaration} {start : String} {g : Grammar}
    (h : Grammar.ofDeclarations calls start = .ok g) {α : List Symbol} (hα : ∀ x ∈ α, x ∈ g.symbols) :
    (∀ n, g.levels < n → (α.allM (g.vanishing n)).run [] = some (g.nullable α, [])) ∧
      (g.nullable α = true ↔ g.Derives α []) :=
  ⟨fun _ hn => settles_nullable hn α, nullable_iff_derives (wellFormed_of_ofDeclarations h) hα⟩

/-- Gaps and pauses vanish, and a list does not. -/
theorem nullable_exact_loops : Loops.grammar.Derives [Loops.gap, Loops.pause, Loops.gap] [] ∧
    ¬Loops.grammar.Derives [Loops.gap, Loops.list] [] := by
  have hgaps := nullable_exact Loops.ofDeclarations_calls (α := [Loops.gap, Loops.pause, Loops.gap]) (by simp [Loops.grammar])
  have hlist := nullable_exact Loops.ofDeclarations_calls (α := [Loops.gap, Loops.list]) (by simp [Loops.grammar])
  exact ⟨hgaps.2.mp (by decide), fun hd => absurd (hlist.2.mpr hd) (by decide)⟩

/-- The search for beginnings ends on every string of symbols, whatever left recursion there is, and finds the terminals
    with which strings begin that the string derives. -/
theorem first_exact {calls : List Declaration} {start : String} {g : Grammar}
    (h : Grammar.ofDeclarations calls start = .ok g) {α : List Symbol} (hα : ∀ x ∈ α, x ∈ g.symbols) :
    (∀ n, g.levels < n → (g.headingAlong n (g.heading n n) α).run [] = some (g.first α, [])) ∧
      ∀ t, t ∈ g.first α ↔ ∃ s ∈ g.terminals, s.id = t ∧ ∃ γ, g.Derives α (s :: γ) := by
  have hg := wellFormed_of_ofDeclarations h
  refine ⟨fun _ hn => settles_first hn α, fun t => ⟨fun ht => ?_, ?_⟩⟩
  · obtain ⟨s, hs, rfl⟩ := exists_terminal_of_mem_first hg hα ht
    obtain ⟨hsym, hkind⟩ := mem_terminals.mp hs
    exact ⟨s, hs, rfl, (mem_first_iff_derives hg hsym hkind hα).mp ht⟩
  · rintro ⟨s, hs, rfl, hd⟩
    obtain ⟨hsym, hkind⟩ := mem_terminals.mp hs
    exact (mem_first_iff_derives hg hsym hkind hα).mpr hd

/-- A list may begin with the dot of a gap, but not with the end mark. -/
theorem first_exact_loops :
    (∃ s ∈ Loops.grammar.terminals, s.id = Loops.dot.id ∧ ∃ γ, Loops.grammar.Derives [Loops.list] (s :: γ)) ∧
      ¬∃ s ∈ Loops.grammar.terminals, s.id = Loops.dollar.id ∧ ∃ γ, Loops.grammar.Derives [Loops.list] (s :: γ) := by
  obtain ⟨-, hiff⟩ := first_exact Loops.ofDeclarations_calls (α := [Loops.list]) (by simp [Loops.grammar])
  have hset : (Loops.grammar.first [Loops.list]).toList = [Loops.item.id, Loops.dot.id] := by decide
  rw [← hiff, ← hiff, OrdSet.mem_iff, OrdSet.mem_iff, hset]
  decide

end Grammar

end Calcbook
