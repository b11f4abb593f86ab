import Calcbook.Proofs.Parsing.Fold

/-! Actions by the texts of rules. A text is words with single blanks between them: the left side, an arrow, and the right
    side, or one empty word if there is none. Where names are words, that is not empty and without blanks, they are
    read back from the text, even if a name is an arrow itself, and an empty right side is not taken for a name. So
    the rules of a grammar have texts of their own, and a folder finds at a node what was given to its rule. -/

namespace Calcbook

/-! ### Texts of rules -/

/-- Words with single blanks between them are read back from the text. -/
theorem eq_of_intercalate_eq {us vs : List String} (hus : us ≠ []) (hvs : vs ≠ []) (hu : ∀ w ∈ us, ' ' ∉ w.toList)
    (hv : ∀ w ∈ vs, ' ' ∉ w.toList) (h : " ".intercalate us = " ".intercalate vs) : us = vs := by
  have hread : ∀ {ws : List String}, ws ≠ [] → (∀ w ∈ ws, ' ' ∉ w.toList) →
      (" ".intercalate ws).toList.splitOn ' ' = ws.map String.toList := fun hne hws => by
    rw [String.toList_intercalate]
    exact List.splitOn_intercalate ' ' (List.forall_mem_map.mpr hws) (by simpa using hne)
  have hlists : us.map String.toList = vs.map String.toList := by rw [← hread hus hu, ← hread hvs hv, h]
  exact List.map_injective_iff.mpr (fun _ _ => String.toList_inj.mp) hlists

namespace Rule

/-- The words of a right side, with an empty one for an empty side. -/
def bodyWords : List Symbol → List String
  | [] => [""]
  | x :: rest => (x :: rest).map Symbol.name

/-- The words of the text of a rule. -/
def words (r : Rule) : List String := r.lhs.name :: "->" :: bodyWords r.rhs

/-- The names in a rule are not empty and have no blanks. -/
def NamesWords (r : Rule) : Prop := ∀ x ∈ r.lhs :: r.rhs, x.name ≠ "" ∧ ' ' ∉ x.name.toList

variable {r s : Rule} {α β : List Symbol}

theorem text_eq_intercalate (r : Rule) : r.text = " ".intercalate r.words := by
  have harrow : " -> " = " " ++ ("->" ++ " ") := rfl
  have hbody : Symbol.names r.rhs = " ".intercalate (bodyWords r.rhs) := by cases r.rhs <;> rfl
  obtain ⟨w, ws, hwords⟩ : ∃ w ws, bodyWords r.rhs = w :: ws := by cases r.rhs <;> exact ⟨_, _, rfl⟩
  rw [text, words, hbody, hwords, String.intercalate_cons_cons, String.intercalate_cons_cons, harrow]
  simp only [String.append_assoc]

theorem NamesWords.blank_notMem (h : r.NamesWords) : ∀ w ∈ r.words, ' ' ∉ w.toList := by
  obtain ⟨hlhs, hrhs⟩ := List.forall_mem_cons.mp h
  refine List.forall_mem_cons.mpr ⟨hlhs.2, List.forall_mem_cons.mpr ⟨by decide, ?_⟩⟩
  cases heq : r.rhs with
  | nil => simp [bodyWords]
  | cons x rest => exact List.forall_mem_map.mpr fun y hy => (hrhs y (heq ▸ hy)).2

/-- The empty word is no name, so it stands for an empty right side only. -/
theorem map_name_eq_of_bodyWords_eq (hα : ∀ x ∈ α, x.name ≠ "") (hβ : ∀ x ∈ β, x.name ≠ "")
    (h : bodyWords α = bodyWords β) : α.map Symbol.name = β.map Symbol.name := by
  cases α with
  | nil =>
    cases β with
    | nil => rfl
    | cons y β => exact absurd (List.cons.inj h).1.symm (hβ y List.mem_cons_self)
  | cons x α =>
    cases β with
    | nil => exact absurd (List.cons.inj h).1 (hα x List.mem_cons_self)
    | cons y β => exact h

/-- Rules with the same text have the same names on both sides. -/
theorem names_eq_of_text_eq (hr : r.NamesWords) (hs : s.NamesWords) (h : r.text = s.text) :
    r.lhs.name = s.lhs.name ∧ r.rhs.map Symbol.name = s.rhs.map Symbol.name := by
  rw [text_eq_intercalate, text_eq_intercalate] at h
  have hwords := eq_of_intercalate_eq (List.cons_ne_nil _ _) (List.cons_ne_nil _ _) hr.blank_notMem hs.blank_notMem h
  obtain ⟨hlhs, hbehind⟩ := List.cons.inj hwords
  refine ⟨hlhs, map_name_eq_of_bodyWords_eq (fun x hx => ?_) (fun x hx => ?_) (List.cons.inj hbehind).2⟩
  · exact (hr x (List.mem_cons_of_mem _ hx)).1
  · exact (hs x (List.mem_cons_of_mem _ hx)).1

end Rule

namespace Sound
variable {symbols : List Symbol} {rules : List Rule}

theorem eq_of_map_name_eq (h : Sound symbols rules) : ∀ {α β : List Symbol}, (∀ x ∈ α, x ∈ symbols) →
    (∀ x ∈ β, x ∈ symbols) → α.map Symbol.name = β.map Symbol.name → α = β
  | [], [], _, _, _ => rfl
  | [], _ :: _, _, _, hnames => by cases hnames
  | _ :: _, [], _, _, hnames => by cases hnames
  | x :: α, y :: β, hα, hβ, hnames => by
    obtain ⟨hxy, hnames⟩ := List.cons.inj hnames
    rw [List.forall_mem_cons] at hα hβ
    rw [List.inj_on_of_nodup_map h.names hα.1 hβ.1 hxy, h.eq_of_map_name_eq hα.2 hβ.2 hnames]

theorem rule_eq_of_text_eq (h : Sound symbols rules) (hnames : ∀ x ∈ symbols, x.name ≠ "" ∧ ' ' ∉ x.name.toList)
    {r s : Rule} (hr : r ∈ rules) (hs : s ∈ rules) (htext : r.text = s.text) : r = s := by
  have hwords : ∀ r ∈ rules, r.NamesWords := fun r hr =>
    List.forall_mem_cons.mpr ⟨hnames r.lhs (h.heads r hr).1, fun x hx => hnames x (h.bodies r hr x hx)⟩
  obtain ⟨hl, hb⟩ := Rule.names_eq_of_text_eq (hwords r hr) (hwords s hs) htext
  have hlhs : r.lhs = s.lhs := List.inj_on_of_nodup_map h.names (h.heads r hr).1 (h.heads s hs).1 hl
  have hrhs : r.rhs = s.rhs := h.eq_of_map_name_eq (h.bodies r hr) (h.bodies s hs) hb
  exact List.inj_on_of_nodup_map h.distinct hr hs (by rw [hlhs, hrhs])

end Sound

/-! ### Actions of rules -/

/-- The nodes of a tree expand rules of a grammar. -/
def Tree.NodesOf (g : Grammar) (t : Tree) : Prop := ∀ r, Visit.enter r ∈ t.visits → r ∈ g.rules

theorem Tree.ValidFor.nodesOf {g : Grammar} {t : Tree} (h : t.ValidFor g) : t.NodesOf g := by
  induction h with
  | leaf => simp [NodesOf, visits_leaf]
  | @node r children hr _ _ ih =>
    intro s hs
    rw [visits_node, List.cons_append, List.mem_cons, List.mem_append, List.mem_flatMap] at hs
    rcases hs with hs | ⟨c, hc, hs⟩ | hs
    · cases hs
      exact hr
    · exact ih c hc s hs
    · simp at hs

namespace Folder
variable {α : Type}

/-- Gives actions to rules, one after the other, each under the text of its rule. -/
def giveAll (f : Folder α) (given : List (Rule × Action α)) : Folder α :=
  given.foldl (fun f e => f.on e.1.text e.2) f

/-- The action that was given to a rule last. -/
def lastGiven (given : List (Rule × Action α)) (r : Rule) : Option (Action α) := given.reverse.lookup r

/-- What a tree folds to by the actions of its rules, whatever their texts are. -/
def valueBy (leaf : String → Token → α) (act? : Rule → Option (Action α)) : Tree → Except FoldFault α
  | .leaf s token => .ok (leaf s.name token)
  | .node r children =>
    match act? r with
    | none => .error (.missingAction r.text)
    | some act => children.mapM (valueBy leaf act?) >>= fun vs => (act vs).mapError (.action r.text)

variable {f : Folder α} {act? : Rule → Option (Action α)} {given : List (Rule × Action α)} {r : Rule}

theorem values_eq_mapM {ts : List Tree} (h : ∀ t ∈ ts, f.value t = valueBy f.leaf act? t) :
    f.values ts = ts.mapM (valueBy f.leaf act?) := by
  induction ts with
  | nil => rfl
  | cons t ts ih =>
    obtain ⟨ht, hts⟩ := List.forall_mem_cons.mp h
    rw [values, List.mapM_cons, ht, ih hts]

/-- Actions that the texts find at the nodes of a tree make its value. -/
theorem value_eq_valueBy {t : Tree} (h : ∀ r, Tree.Visit.enter r ∈ t.visits → f.action? r.text = act? r) :
    f.value t = valueBy f.leaf act? t := by
  induction t with
  | leaf s token => rw [value, valueBy]
  | node r children ih =>
    rw [Tree.visits_node] at h
    have hchildren : f.values children = children.mapM (valueBy f.leaf act?) :=
      values_eq_mapM fun c hc => ih c hc fun s hs =>
        h s (List.mem_append_left _ (List.mem_cons_of_mem _ (List.mem_flatMap_of_mem hc hs)))
    rw [value, valueBy, h r (List.mem_append_left _ List.mem_cons_self)]
    cases act? r with
    | none => rfl
    | some act => exact congrArg (· >>= fun vs => (act vs).mapError (.action r.text)) hchildren

theorem leaf_giveAll (f : Folder α) (given : List (Rule × Action α)) : (f.giveAll given).leaf = f.leaf := by
  induction given generalizing f with
  | nil => rfl
  | cons e given ih => exact ih _

theorem actions_giveAll (f : Folder α) (given : List (Rule × Action α)) :
    (f.giveAll given).actions = (given.reverse.map fun e => (e.1.text, e.2)) ++ f.actions := by
  induction given generalizing f with
  | nil => rfl
  | cons e given ih =>
    refine (ih _).trans ?_
    rw [List.reverse_cons, List.map_append, List.append_assoc]
    rfl

/-- Texts that tell a rule from the others find what was given to it. -/
theorem lookup_text_eq (h : ∀ e ∈ given, (r.text == e.1.text) = (r == e.1)) :
    (given.map fun e => (e.1.text, e.2)).lookup r.text = given.lookup r := by
  induction given with
  | nil => rfl
  | cons e given ih =>
    obtain ⟨he, hgiven⟩ := List.forall_mem_cons.mp h
    rw [List.map_cons, List.lookup_cons, List.lookup_cons, he, ih hgiven]

end Folder

/-- Where names are not empty and have no blanks, no two rules of a grammar have the same text. So a folder that finds
    actions by texts runs, at every node of a tree over the grammar, the action that was given last to the rule of
    that node, and never that of another rule. -/
theorem texts_identify_rules {calls : List Declaration} {start : String} {g : Grammar}
    (hg : Grammar.ofDeclarations calls start = .ok g) (hnames : ∀ x ∈ g.symbols, x.name ≠ "" ∧ ' ' ∉ x.name.toList) :
    (∀ r ∈ g.rules, ∀ s ∈ g.rules, r.text = s.text → r = s) ∧
    ∀ {α : Type} (f : Folder α) (given : List (Rule × Action α)) (t : Tree), f.actions = [] →
      (∀ e ∈ given, e.1 ∈ g.rules) → t.NodesOf g →
      (f.giveAll given).fold t =
        (f.giveAll given).checkDepth t >>= fun _ => Folder.valueBy f.leaf (Folder.lastGiven given) t := by
  have hsound := (Grammar.wellFormed_of_ofDeclarations hg).toSound
  have htexts : ∀ r ∈ g.rules, ∀ s ∈ g.rules, r.text = s.text → r = s := fun r hr s hs =>
    hsound.rule_eq_of_text_eq hnames hr hs
  refine ⟨htexts, fun f given t hf hgiven ht => ?_⟩
  have hfind : ∀ r, Tree.Visit.enter r ∈ t.visits → (f.giveAll given).action? r.text = Folder.lastGiven given r := by
    intro r hr
    -- Only rules of the grammar were given actions, so a key that is the text of `r` was made from `r` itself.
    rw [Folder.action?, Folder.actions_giveAll, hf, List.append_nil]
    refine Folder.lookup_text_eq fun e he => Bool.eq_iff_iff.mpr ⟨fun htext => ?_, fun hrule => ?_⟩
    · rw [htexts r (ht r hr) e.1 (hgiven e (List.mem_reverse.mp he)) (beq_iff_eq.mp htext), BEq.rfl]
    · rw [hsound.rule_eq_of_beq (ht r hr) (hgiven e (List.mem_reverse.mp he)) hrule, BEq.rfl]
  rw [Folder.fold_eq, Folder.value_eq_valueBy hfind, Folder.leaf_giveAll]

/-! ### A grammar with an arrow for a name -/

namespace Arrows

def arrow : Symbol := ⟨0, .nonterminal, "->"⟩

def quote : Symbol := ⟨1, .terminal, "\""⟩

def more : Rule := ⟨0, arrow, [arrow, quote]⟩

def none : Rule := ⟨1, arrow, []⟩

/-- Quotes, as many as there are arrows but one. -/
def grammar : Grammar where
  start := arrow
  eof := ⟨2, .terminal, "$"⟩
  symbols := [arrow, quote, ⟨2, .terminal, "$"⟩]
  rules := [more, none]

def calls : List Declaration :=
  [.symbol .nonterminal "->" false, .symbol .terminal "\"" false, .rule "->" ["->", "\""] false, .rule "->" [] false]

theorem ofDeclarations_calls : Grammar.ofDeclarations calls "->" = .ok grammar := by rfl

def tree : Tree := .node more [.node none [], .leaf quote ⟨1, "\"", 0⟩]

theorem validFor_tree : tree.ValidFor grammar := by
  have hnone : (Tree.node none []).ValidFor grammar := .node (by simp [grammar]) rfl nofun
  have hquote : (Tree.leaf quote ⟨1, "\"", 0⟩).ValidFor grammar :=
    .leaf (Grammar.mem_terminals.mpr ⟨by simp [grammar], rfl⟩) rfl
  exact .node (by simp [grammar]) rfl (by simp [hnone, hquote])

end Arrows

/-- The rules of the arrow find their own actions, the last ones given, and not those of each other. -/
theorem texts_identify_rules_arrows :
    let f : Folder String := .ofLeaf fun _ token => token.lexeme
    let given : List (Rule × Action String) := [(Arrows.more, fun _ => .error "replaced"),
      (Arrows.none, fun vs => .ok (toString vs.length)), (Arrows.more, fun vs => .ok (String.join vs))]
    (∀ x ∈ Arrows.grammar.symbols, x.name ≠ "" ∧ ' ' ∉ x.name.toList) ∧ Arrows.more.text ≠ Arrows.none.text ∧
      (f.giveAll given).fold Arrows.tree = .ok "0\"" := by
  intro f given
  have hnames : ∀ x ∈ Arrows.grammar.symbols, x.name ≠ "" ∧ ' ' ∉ x.name.toList := by decide
  obtain ⟨htexts, hfold⟩ := texts_identify_rules Arrows.ofDeclarations_calls hnames
  refine ⟨hnames, fun htext => ?_, ?_⟩
  · have hrule := htexts Arrows.more (by simp [Arrows.grammar]) Arrows.none (by simp [Arrows.grammar]) htext
    cases hrule
  · have hmore : Folder.lastGiven given Arrows.more = some fun vs => .ok (String.join vs) := rfl
    have hnone : Folder.lastGiven given Arrows.none = some fun vs => .ok (toString vs.length) := rfl
    rw [hfold f given Arrows.tree rfl (by simp [given, Arrows.grammar]) Arrows.validFor_tree.nodesOf]
    simp only [Arrows.tree, Folder.valueBy, hmore, hnone, List.mapM_cons, List.mapM_nil]
    rfl

/-- With a blank in a name, two rules can look alike. -/
example : Rule.text ⟨0, Arrows.arrow, [⟨1, .terminal, "a b"⟩]⟩ =
    Rule.text ⟨1, Arrows.arrow, [⟨2, .terminal, "a"⟩, ⟨3, .terminal, "b"⟩]⟩ := by rfl

end Calcbook
