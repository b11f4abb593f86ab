import Calcbook.Proofs.Formula.Reading
import Calcbook.Proofs.Lexeme.Numeral

/-! Why a text is refused: it is no formula, or its tree is too deep. The fold of a tree that was parsed has no fault of
    its own, deep or not. Every rule has an action, the action gets a value for each symbol of the right side, and
    as the values are of the kinds it takes it answers one; numbers are read because they are numerals. -/

namespace Calcbook

namespace Folder

variable {α : Type}

/-- A run of the fold over visits, from the values folded before to those folded after, in which nothing is refused:
    the rule of a node has an action, there is a value for every symbol of its right side, and the action
    makes a value of these. An action that looks for an argument that is not there would refuse. -/
inductive Runs (f : Folder α) : List α → List Tree.Visit → List α → Prop
  | done {vs : List α} : Runs f vs [] vs
  | leaf {s : Symbol} {token : Token} {vs ws : List α} {visits : List Tree.Visit}
      (h : Runs f (f.leaf s.name token :: vs) visits ws) : Runs f vs (.leaf s token :: visits) ws
  | enter {r : Rule} {act : Action α} {vs ws : List α} {visits : List Tree.Visit} (hact : f.action? r.text = some act)
      (h : Runs f vs visits ws) : Runs f vs (.enter r :: visits) ws
  | leave {r : Rule} {arity : Nat} {act : Action α} {args vs ws : List α} {v : α} {visits : List Tree.Visit}
      (hact : f.action? r.text = some act) (harity : arity = r.rhs.length) (hargs : args.length = arity)
      (hv : act args = .ok v) (h : Runs f (v :: vs) visits ws) : Runs f (args.reverse ++ vs) (.leave r arity :: visits) ws

variable {f : Folder α} {g : Grammar} {us vs ws : List α} {visits more : List Tree.Visit} {t : Tree} {v : α}

theorem Runs.append (h : f.Runs us visits vs) (h' : f.Runs vs more ws) : f.Runs us (visits ++ more) ws := by
  induction h with
  | done => exact h'
  | leaf _ ih => exact .leaf (ih h')
  | enter hact _ ih => exact .enter hact (ih h')
  | leave hact harity hargs hv _ ih => exact .leave hact harity hargs hv (ih h')

/-- Such a run is what the fold does. -/
theorem Runs.foldlM_eq (h : f.Runs vs visits ws) : visits.foldlM f.visit vs = .ok ws := by
  induction h with
  | done => rfl
  | leaf _ ih => exact ih
  | enter hact _ ih =>
    rw [List.foldlM_cons, visit, hact]
    exact ih
  | leave hact _ hargs hv _ ih =>
    rw [← List.length_reverse] at hargs
    rw [List.foldlM_cons, visit, hact]
    dsimp only
    rw [← hargs, List.take_left, List.drop_left, List.reverse_reverse, hv]
    exact ih

theorem runs_trees {ts : List Tree} (h : ∀ t ∈ ts, ∀ v, f.value t = .ok v → ∀ vs, f.Runs vs t.visits (v :: vs))
    (hvalues : f.values ts = .ok ws) (vs : List α) : f.Runs vs (ts.flatMap Tree.visits) (ws.reverse ++ vs) := by
  induction ts generalizing ws vs with
  | nil =>
    cases hvalues
    exact .done
  | cons t ts ih =>
    obtain ⟨ht, hts⟩ := List.forall_mem_cons.mp h
    obtain ⟨v, hv, hvalues⟩ := bind_eq_ok.mp hvalues
    obtain ⟨ws, hws, hvalues⟩ := bind_eq_ok.mp hvalues
    cases hvalues
    rw [List.flatMap_cons, List.reverse_cons, List.append_assoc]
    exact (ht v hv vs).append (ih hts hws (v :: vs))

/-- A derivation tree with a value is folded by a run that puts its value on top. -/
theorem runs_of_value (hvalid : t.ValidFor g) (h : f.value t = .ok v) (vs : List α) : f.Runs vs t.visits (v :: vs) := by
  induction hvalid generalizing v vs with
  | leaf =>
    cases h
    rw [Tree.visits_leaf]
    exact .leaf .done
  | @node r children _ hsymbols _ ih =>
    rw [value] at h
    split at h
    · cases h
    · rename_i act hact
      obtain ⟨args, hargs, h⟩ := bind_eq_ok.mp h
      have hv : act args = .ok v := by
        cases hact : act args <;> rw [hact] at h <;> cases h
        rfl
      have harity : children.length = r.rhs.length := by rw [← hsymbols, List.length_map]
      rw [Tree.visits_node]
      exact .enter hact ((runs_trees (fun c hc _ hv vs => ih c hc hv vs) hargs vs).append
        (.leave hact harity (length_values hargs) hv .done))

end Folder

namespace Formula

variable {p : ParseTable} {text : String} {t : Tree}

theorem runs_of_parseText (hp : table = .ok p) (h : parseText p text = .ok t) :
    ∃ f, folder.Runs [] t.visits [.formula f] := by
  rcases parseText_cases hp text with ⟨why, hparse, -⟩ | ⟨u, f, d, hparse, -, -, hvalue⟩
  · cases h.symm.trans hparse
  · cases h.symm.trans hparse
    exact ⟨f, Folder.runs_of_value ((parseText_ok_iff hp).mp h).1 hvalue []⟩

/-- Every text is read as a formula, or rejected by the parser, or its tree is refused for its depth. No tree of a text,
    not even one that is too deep, has another fault: an action for each rule, with the arguments it takes,
    answers at every node, and every numeral is read as a number. -/
theorem read_refusals : ∃ p, table = .ok p ∧
    (∀ text : String,
      ((∃ f, read p text = .ok f) ∨ (∃ why, read p text = .error (.rejected why)) ∨
        ∃ t, parseText p text = .ok t ∧ maxDepth < t.depth ∧
          read p text = .error (.eval (.unreadable (.tooDeep t.depth maxDepth)))) ∧
      ∀ t, parseText p text = .ok t → ∃ f, folder.Runs [] t.visits [.formula f] ∧
        t.visits.foldlM folder.visit [] = .ok [.formula f]) ∧
    ∀ numeral : String, Lexeme.IsNumeral numeral.toList → ∃ x, Decimal.read? numeral = some x := by
  obtain ⟨p, hp⟩ := exists_table
  refine ⟨p, hp, fun text => ⟨?_, fun t ht => ?_⟩, fun s hs => ?_⟩
  · rcases descent_cases hp text with ⟨-, why, -, hread⟩ | ⟨f, t, -, hparse, hread⟩
    · exact Or.inr (Or.inl ⟨why, hread⟩)
    · by_cases hdepth : t.depth ≤ maxDepth
      · exact Or.inl ⟨f, hread.trans (if_pos hdepth)⟩
      · exact Or.inr (Or.inr ⟨t, hparse, Nat.lt_of_not_le hdepth, hread.trans (if_neg hdepth)⟩)
  · obtain ⟨f, hruns⟩ := runs_of_parseText hp ht
    exact ⟨f, hruns, hruns.foldlM_eq⟩
  · exact Option.isSome_iff_exists.mp (Decimal.isSome_read?_of_isNumeral hs)

end Formula

end Calcbook
