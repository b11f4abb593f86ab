import Calcbook.Parsing.Fold
import Calcbook.Proofs.Grammar.WellFormed
import Calcbook.Proofs.Parsing.Tree

/-! Folds of a tree from those of its children. A walk over some trees makes the visits of each, one tree after the
    other, and those of a node are those of its children between an entry and a leave. Over the visits of trees the
    values folded are those of the trees, one for each. So a node that is left finds the values of its children on
    top of those folded before it was entered. -/

namespace Calcbook

namespace Tree

/-! ### The walk -/

theorem walk_append (made before : List Visit) (pending : List Pending) :
    walk (made ++ before) pending = before.reverse ++ walk made pending := by
  induction made, pending using walk.induct with
  | case1 made => simp [walk]
  | case2 made r n rest ih =>
    rw [walk, walk]
    exact ih
  | case3 made s t rest ih =>
    rw [walk, walk]
    exact ih
  | case4 made r children rest ih =>
    rw [walk, walk]
    exact ih

theorem walk_eq_append (made : List Visit) (pending : List Pending) :
    walk made pending = made.reverse ++ walk [] pending :=
  walk_append [] made pending

/-- The walk finishes what is pending first before it comes to the rest. -/
theorem walk_pending_append (made : List Visit) (pending rest : List Pending) :
    walk made (pending ++ rest) = walk made pending ++ walk [] rest := by
  induction made, pending using walk.induct with
  | case1 made => simp [walk, walk_eq_append made rest]
  | case2 made r n pending ih =>
    rw [List.cons_append, walk, walk]
    exact ih
  | case3 made s t pending ih =>
    rw [List.cons_append, walk, walk]
    exact ih
  | case4 made r children pending ih =>
    rw [List.cons_append, walk, walk]
    simpa [putOff] using ih

theorem walk_trees (ts : List Tree) : walk [] (ts.map .tree) = ts.flatMap visits := by
  induction ts with
  | nil => simp [walk]
  | cons t ts ih => rw [List.flatMap_cons, ← ih, visits, ← walk_pending_append]; rfl

theorem visits_leaf (s : Symbol) (token : Token) : (leaf s token).visits = [.leaf s token] := by
  simp [visits, walk]

theorem visits_node (r : Rule) (children : List Tree) :
    (node r children).visits = .enter r :: children.flatMap visits ++ [.leave r children.length] := by
  rw [visits, walk, walk_eq_append, putOff, walk_pending_append, walk_trees]
  simp [walk]

/-! ### Leaving a node -/

/-- What a walk leaves is a node that it has entered, and in between it has visited the children. -/
def ClosesEntry (made : List Visit) : Prop :=
  ∀ before r arity after, made = before ++ .leave r arity :: after →
    ∃ (front : List Visit) (children : List Tree),
      before = front ++ .enter r :: children.flatMap visits ∧ arity = children.length

theorem closesEntry_trees {ts : List Tree} (h : ∀ t ∈ ts, ClosesEntry t.visits) : ClosesEntry (ts.flatMap visits) := by
  induction ts with
  | nil =>
    intro before r arity after heq
    simp at heq
  | cons t ts ih =>
    obtain ⟨ht, hts⟩ := List.forall_mem_cons.mp h
    intro before r arity after heq
    rw [List.flatMap_cons] at heq
    rcases Grammar.append_eq_append_cons heq with ⟨c, hc, -⟩ | ⟨before, rfl, hbefore⟩
    · exact ht before r arity c hc
    · obtain ⟨front, children, rfl, harity⟩ := ih hts before r arity after hbefore
      exact ⟨t.visits ++ front, children, by rw [List.append_assoc], harity⟩

theorem closesEntry_visits (t : Tree) : ClosesEntry t.visits := by
  induction t with
  | leaf s token =>
    intro before r arity after heq
    rw [visits_leaf, List.singleton_eq_append_iff] at heq
    simp at heq
  | node r children ih =>
    intro before r' arity after heq
    rw [visits_node] at heq
    rcases Grammar.concat_eq_append_cons heq with ⟨c, hc⟩ | ⟨rfl, hlast⟩
    · cases before with
      | nil => cases hc
      | cons v before =>
        rw [List.cons_append] at hc
        obtain ⟨rfl, hchildren⟩ := List.cons.inj hc
        obtain ⟨front, kids, rfl, harity⟩ := closesEntry_trees ih before r' arity c hchildren
        exact ⟨.enter r :: front, kids, rfl, harity⟩
    · cases hlast
      exact ⟨[], children, rfl, rfl⟩

end Tree

/-! ### Fold -/

namespace Folder

variable {α : Type}

mutual
/-- What a tree folds to when its depth does not matter. -/
def value (f : Folder α) : Tree → Except FoldFault α
  | .leaf s token => .ok (f.leaf s.name token)
  | .node r children =>
    match f.action? r.text with
    | none => .error (.missingAction r.text)
    | some act => f.values children >>= fun vs => (act vs).mapError (.action r.text)

/-- What some trees fold to. -/
def values (f : Folder α) : List Tree → Except FoldFault (List α)
  | [] => .ok []
  | t :: ts => do
    let v ← f.value t
    let vs ← f.values ts
    return v :: vs
end

variable {f : Folder α}

theorem length_values {ts : List Tree} {vs : List α} (h : f.values ts = .ok vs) : vs.length = ts.length := by
  induction ts generalizing vs with
  | nil =>
    cases h
    rfl
  | cons t ts ih =>
    obtain ⟨v, hv, h⟩ := bind_eq_ok.mp h
    obtain ⟨ws, hws, h⟩ := bind_eq_ok.mp h
    cases h
    rw [List.length_cons, List.length_cons, ih hws]

/-- Over the visits of trees their values come on top of those folded before. -/
theorem foldlM_trees {ts : List Tree}
    (h : ∀ t ∈ ts, ∀ vs, t.visits.foldlM f.visit vs = f.value t >>= fun v => .ok (v :: vs)) (vs : List α) :
    (ts.flatMap Tree.visits).foldlM f.visit vs = f.values ts >>= fun ws => .ok (ws.reverse ++ vs) := by
  induction ts generalizing vs with
  | nil => rfl
  | cons t ts ih =>
    obtain ⟨ht, hts⟩ := List.forall_mem_cons.mp h
    rw [List.flatMap_cons, List.foldlM_append, ht, values]
    cases f.value t with
    | error => rfl
    | ok v =>
      refine (ih hts (v :: vs)).trans ?_
      cases f.values ts with
      | error => rfl
      | ok ws => simp [bind, Except.bind, pure, Except.pure]

theorem foldlM_visits (t : Tree) (vs : List α) :
    t.visits.foldlM f.visit vs = f.value t >>= fun v => .ok (v :: vs) := by
  induction t generalizing vs with
  | leaf s token =>
    rw [Tree.visits_leaf]
    rfl
  | node r children ih =>
    rw [Tree.visits_node, List.cons_append, List.foldlM_cons, visit, value]
    cases hact : f.action? r.text with
    | none => rfl
    | some act =>
      refine (List.foldlM_append ..).trans ?_
      rw [foldlM_trees ih]
      cases hws : f.values children with
      | error => rfl
      | ok ws =>
        have hlen : ws.reverse.length = children.length := by rw [List.length_reverse, length_values hws]
        show (do f.visit (ws.reverse ++ vs) (.leave r children.length)) >>= _ = _
        rw [visit, hact]
        dsimp only
        rw [← hlen, List.take_left, List.drop_left, List.reverse_reverse]
        show _ = (act ws).mapError _ >>= _
        cases act ws <;> rfl

/-- Folding checks the depth of a tree and then takes its value. -/
theorem fold_eq (f : Folder α) (t : Tree) : f.fold t = f.checkDepth t >>= fun _ => f.value t := by
  rw [fold]
  congr 1
  funext _
  rw [foldlM_visits]
  cases f.value t <;> rfl

/-! ### The values folded -/

theorem values_ne_tooDeep {ts : List Tree} {depth limit : Nat}
    (h : ∀ t ∈ ts, f.value t ≠ .error (.tooDeep depth limit)) : f.values ts ≠ .error (.tooDeep depth limit) := by
  induction ts with
  | nil => nofun
  | cons t ts ih =>
    obtain ⟨ht, hts⟩ := List.forall_mem_cons.mp h
    have ih := ih hts
    rw [values]
    cases hv : f.value t with
    | error why =>
      intro heq
      cases heq
      exact ht hv
    | ok v =>
      cases hvs : f.values ts with
      | error why =>
        intro heq
        cases heq
        exact ih hvs
      | ok vs => nofun

/-- A value is refused by a missing action or by an action. -/
theorem value_ne_tooDeep (f : Folder α) (t : Tree) (depth limit : Nat) : f.value t ≠ .error (.tooDeep depth limit) := by
  induction t with
  | leaf s token => nofun
  | node r children ih =>
    have hvalues := values_ne_tooDeep ih
    rw [value]
    cases f.action? r.text with
    | none => nofun
    | some act =>
      cases hvs : f.values children with
      | error why =>
        intro heq
        cases heq
        exact hvalues hvs
      | ok vs =>
        intro heq
        cases hv : act vs <;> simp [bind, Except.bind, Except.mapError, hv] at heq

theorem fold_eq_tooDeep_iff (f : Folder α) (t : Tree) (depth limit : Nat) : f.fold t = .error (.tooDeep depth limit) ↔
    f.depthLimit = some limit ∧ limit < t.depth ∧ depth = t.depth := by
  rw [fold_eq, checkDepth]
  cases hlimit : f.depthLimit with
  | none => simpa [bind, Except.bind] using f.value_ne_tooDeep t depth limit
  | some l =>
    dsimp only
    by_cases hdeep : t.depth > l
    · rw [if_pos hdeep]
      constructor
      · intro heq
        cases heq
        exact ⟨rfl, hdeep, rfl⟩
      · rintro ⟨hl, -, rfl⟩
        cases hl
        rfl
    · rw [if_neg hdeep]
      constructor
      · intro heq
        exact absurd heq (f.value_ne_tooDeep t depth limit)
      · rintro ⟨hl, hlt, -⟩
        cases hl
        exact absurd hlt hdeep

theorem fold_eq_value {t : Tree} (h : ∀ limit, f.depthLimit = some limit → t.depth ≤ limit) : f.fold t = f.value t := by
  have hcheck : f.checkDepth t = .ok () := by
    rw [checkDepth]
    cases hlimit : f.depthLimit with
    | none => rfl
    | some limit => exact if_neg (Nat.not_lt.mpr (h limit hlimit))
  rw [fold_eq, hcheck]
  rfl

/-- When the fold leaves a node, the values on top are those of its children. -/
theorem values_of_leave {t : Tree} {before after : List Tree.Visit} {r : Rule} {arity : Nat} {vs us : List α}
    (hvisits : t.visits = before ++ .leave r arity :: after) (h : before.foldlM f.visit us = .ok vs) :
    ∃ front children args below, before = front ++ .enter r :: children.flatMap Tree.visits ∧ arity = children.length ∧
      f.values children = .ok args ∧ front.foldlM f.visit us = .ok below ∧ vs = args.reverse ++ below := by
  obtain ⟨front, children, rfl, harity⟩ := t.closesEntry_visits before r arity after hvisits
  rw [List.foldlM_append] at h
  obtain ⟨below, hfront, hrest⟩ := bind_eq_ok.mp h
  rw [List.foldlM_cons] at hrest
  obtain ⟨entered, henter, hvisited⟩ := bind_eq_ok.mp hrest
  -- Entering a node looks its action up and leaves the values as they are.
  have hsame : entered = below := by
    rw [visit] at henter
    split at henter <;> cases henter
    rfl
  rw [foldlM_trees fun c _ => foldlM_visits c, hsame] at hvisited
  obtain ⟨args, hargs, hvs⟩ := bind_eq_ok.mp hvisited
  cases hvs
  exact ⟨front, children, args, below, rfl, harity, hargs, hfront, rfl⟩

/-- Folding refuses exactly the trees beyond the limit of depth, if there is one, and does with any other tree what the
    recursion over it does. However far it comes, a node that is left finds the values of its children on top of those
    folded before it was entered, and at the end the value of the tree is the only one. -/
theorem fold_exact (f : Folder α) (t : Tree) :
    (∀ depth limit, f.fold t = .error (.tooDeep depth limit) ↔
      f.depthLimit = some limit ∧ limit < t.depth ∧ depth = t.depth) ∧
    ((∀ limit, f.depthLimit = some limit → t.depth ≤ limit) → f.fold t = f.value t) ∧
    (∀ before r arity after vs, t.visits = before ++ .leave r arity :: after → before.foldlM f.visit [] = .ok vs →
      arity ≤ vs.length ∧ ∃ front children, before = front ++ .enter r :: children.flatMap Tree.visits ∧
        arity = children.length ∧ f.values children = .ok (vs.take arity).reverse ∧
        front.foldlM f.visit [] = .ok (vs.drop arity)) ∧
    ∀ vs, t.visits.foldlM f.visit [] = .ok vs → ∃ v, f.value t = .ok v ∧ vs = [v] := by
  refine ⟨f.fold_eq_tooDeep_iff t, fold_eq_value, ?_, ?_⟩
  · intro before r arity after vs hvisits hvs
    obtain ⟨front, children, args, below, hbefore, harity, hargs, hfront, rfl⟩ := values_of_leave hvisits hvs
    have hlen : args.reverse.length = arity := by rw [List.length_reverse, length_values hargs, harity]
    refine ⟨?_, front, children, hbefore, harity, ?_, ?_⟩
    · rw [List.length_append, hlen]
      exact Nat.le_add_right _ _
    · rw [← hlen, List.take_left, List.reverse_reverse, hargs]
    · rw [← hlen, List.drop_left, hfront]
  · intro vs hvs
    rw [foldlM_visits] at hvs
    obtain ⟨v, hv, hvs⟩ := bind_eq_ok.mp hvs
    cases hvs
    exact ⟨v, hv, rfl⟩

end Folder

end Calcbook
