import Calcbook.Proofs.Parsing.Completeness
import Calcbook.Proofs.Parsing.Soundness
import Mathlib.Order.Bounds.Basic

/-! Where a parser rejects. What it has taken can always be completed, because trees of what the pending symbols
    derive complete the tree in its slots. And it takes every token that a sentence goes on with, because the
    trees of the sentence are to come for its pending symbols. So the first token that is rejected is the
    first one behind which there is no sentence, however many symbols have vanished before it. -/

namespace Calcbook
open Grammar

namespace Grammar

/-- Terminals that the start symbol derives. -/
def IsSentence (g : Grammar) (w : List Symbol) : Prop := g.Derives [g.start] w ∧ ∀ x ∈ w, x ∈ g.terminals

/-- A sentence with the end mark behind it begins with the terminals of these numbers. -/
def Viable (g : Grammar) (ids : List Nat) : Prop := ∃ w, g.IsSentence w ∧ ids <+: (w ++ [g.eof]).map (·.id)

/-- The places of numbers that no sentence goes on with. -/
def impossibleAt (g : Grammar) (ids : List Nat) : Set Nat := {i | i < ids.length ∧ ¬g.Viable (ids.take (i + 1))}

variable {g : Grammar} {ids before after : List Nat} {id : Nat}

theorem Viable.of_isPrefix (h : g.Viable ids) (hbefore : before <+: ids) : g.Viable before := by
  obtain ⟨w, hw, hids⟩ := h
  exact ⟨w, hw, hbefore.trans hids⟩

theorem IsSentence.eof_notMem (hg : g.WellFormed) (hmark : ∀ r ∈ g.rules, g.eof ∉ r.rhs) {w : List Symbol}
    (hw : g.IsSentence w) : g.eof.id ∉ w.map (·.id) := by
  intro hmem
  obtain ⟨x, hx, hid⟩ := List.mem_map.mp hmem
  obtain rfl : x = g.eof := hg.eq_of_id_eq (mem_terminals.mp (hw.2 x hx)).1 hg.eof.1 hid
  refine hw.1.notMem hmark ?_ hx
  rw [List.mem_singleton]
  intro heq
  exact Bool.false_ne_true (hg.start_nonterminal.2.symm.trans (heq ▸ hg.eof.2))

theorem impossibleAt_eq_empty (h : g.Viable ids) : g.impossibleAt ids = ∅ :=
  Set.eq_empty_of_forall_notMem fun _ hi => hi.2 (h.of_isPrefix (List.take_prefix _ _))

theorem isLeast_impossibleAt (hbefore : g.Viable before) (hid : ¬g.Viable (before ++ [id])) :
    IsLeast (g.impossibleAt (before ++ id :: after)) before.length := by
  refine ⟨⟨by simp, ?_⟩, fun i hi => ?_⟩
  · rwa [List.take_append, List.take_of_length_le (Nat.le_succ _), Nat.add_sub_cancel_left, List.take_succ_cons,
      List.take_zero]
  · by_contra hlt
    refine hi.2 (hbefore.of_isPrefix ?_)
    rw [List.take_append_of_le_length (by omega)]
    exact List.take_prefix _ _

end Grammar

namespace Parser

/-- The answers to tokens that are fed one after the other. -/
def answers (p : Parser) : List Token → List Outcome
  | [] => []
  | token :: tokens => (p.feed token).1 :: (p.feed token).2.answers tokens

/-- The first of some tokens that is rejected has this place and this rejection. -/
def RejectsFirst (p : Parser) (tokens : List Token) (i : Nat) (why : Rejection) : Prop :=
  (p.answers tokens)[i]? = some (.rejected why) ∧ ∀ j < i, ∀ why', (p.answers tokens)[j]? ≠ some (.rejected why')

variable {t : ParseTable} {g : Grammar} {f : Family} {p q p' : Parser} {todo : List (Symbol × Nat)} {ts : List Tree}
  {root : Tree} {token : Token} {before after tokens rest : List Token} {why : Rejection} {n : Nat}

/-! ### What is taken can be completed -/

/-- The tokens taken are the beginning of a sentence. -/
theorem Taken.exists_sentence (hc : t.Chooses g f) (hproductive : ∀ x ∈ g.nonterminals, g.IsProductive x)
    (h : Taken t p todo tokens) : ∃ w, g.IsSentence w ∧ tokens.map (·.terminal) <+: w.map (·.id) := by
  obtain rfl := hc.grammar
  have hsymbols : ∀ x ∈ todo.map (·.1), x ∈ t.grammar.symbols := List.forall_mem_map.mpr h.symbols
  obtain ⟨v, hv, hvterminals⟩ := exists_terminals hproductive hsymbols
  have hany : (v.map fun x => (⟨x.id, "", 0⟩ : Token)).map (·.terminal) = v.map (·.id) := by simp
  obtain ⟨ts, hts, hvalid, -⟩ := Tree.exists_trees_of_derives hv hvterminals hany
  obtain ⟨root, hroot, hstart, hleaves, -⟩ := h.completes ts hts hvalid
  obtain ⟨w, hw, hterminals, hids⟩ := hroot.yields
  refine ⟨w, ⟨hstart ▸ hw, hterminals⟩, ?_⟩
  rw [hids, hleaves, List.map_append]
  exact List.prefix_append _ _

theorem Taken.viable (hc : t.Chooses g f) (hproductive : ∀ x ∈ g.nonterminals, g.IsProductive x)
    (h : Taken t p todo tokens) : g.Viable (tokens.map (·.terminal)) := by
  obtain ⟨w, hw, hids⟩ := h.exists_sentence hc hproductive
  refine ⟨w, hw, hids.trans ?_⟩
  rw [List.map_append]
  exact List.prefix_append _ _

theorem Awaits.taken (hc : t.Chooses g f) (ha : Awaits (ofTable t) tokens p) : ∃ todo, Taken t p todo tokens := by
  simpa using (taken_ofTable hc).awaits hc ha

theorem Awaits.viable (hc : t.Chooses g f) (hproductive : ∀ x ∈ g.nonterminals, g.IsProductive x)
    (ha : Awaits (ofTable t) tokens p) : g.Viable (tokens.map (·.terminal)) := by
  obtain ⟨_, h⟩ := ha.taken hc
  exact h.viable hc hproductive

/-! ### What a sentence goes on with is taken -/

namespace Expects

/-- An expansion on the terminal that comes next is that of a node to come, and leaves its leaves to come. -/
theorem expands (hc : t.Chooses g f) (h : Expects t f p todo ts root)
    (htoken : token.terminal = lookahead g (ts.flatMap Tree.leaves)) (he : Expands token p q) :
    ∃ todo' ts', Expects t f q todo' ts' root ∧ ts'.flatMap Tree.leaves = ts.flatMap Tree.leaves := by
  obtain rfl := hc.grammar
  obtain ⟨x, i, rest, r, rfl, hx, hget, rfl⟩ := h.exists_of_expands hc.eof_terminal he
  obtain ⟨s, ts, rfl, hsx, -⟩ := List.map_eq_cons_iff.mp h.roots
  obtain ⟨r', children, rfl, -⟩ := (h.valid s List.mem_cons_self).exists_node (hsx ▸ hx)
  obtain ⟨hget', h'⟩ := h.expanded hc
  have hleaves : (children ++ ts).flatMap Tree.leaves = (Tree.node r' children :: ts).flatMap Tree.leaves := by simp
  rw [hleaves, ← htoken, hget] at hget'
  obtain rfl := Option.some.inj hget'
  exact ⟨_, _, h', hleaves⟩

theorem expansions (hc : t.Chooses g f) (h : Expects t f p todo ts root)
    (htoken : token.terminal = lookahead g (ts.flatMap Tree.leaves)) (he : Expansions token n p q) :
    ∃ todo' ts', Expects t f q todo' ts' root ∧ ts'.flatMap Tree.leaves = ts.flatMap Tree.leaves := by
  induction he generalizing todo ts with
  | refl => exact ⟨todo, ts, h, rfl⟩
  | head he _ ih =>
    obtain ⟨_, ts₁, h₁, hleaves₁⟩ := h.expands hc htoken he
    obtain ⟨todo₂, ts₂, h₂, hleaves₂⟩ := ih h₁ (hleaves₁ ▸ htoken)
    exact ⟨todo₂, ts₂, h₂, hleaves₂.trans hleaves₁⟩

/-- The terminal that comes next is matched with the first leaf to come, or completes the tree when there is none. -/
theorem feed_cases (hc : t.Chooses g f) (h : Expects t f p todo ts root)
    (htoken : token.terminal = lookahead g (ts.flatMap Tree.leaves)) :
    ((p.feed token).1 = .ready root ∧ ts.flatMap Tree.leaves = []) ∨
    ∃ q x i rest leaf ts', p.feed token = (.awaiting, q.matched x i token rest) ∧
      Expects t f q ((x, i) :: rest) (.leaf x leaf :: ts') root ∧
      ts.flatMap Tree.leaves = leaf :: ts'.flatMap Tree.leaves := by
  obtain rfl := hc.grammar
  obtain ⟨_, q, outcome, p', he, hs, hfeed⟩ := h.exists_feed hc token
  obtain ⟨todo', ts', h', hleaves⟩ := h.expansions hc htoken he
  rw [← hleaves] at htoken ⊢
  rw [hfeed]
  cases ts' with
  | nil =>
    obtain rfl := List.map_eq_nil_iff.mp h'.roots.symm
    have hstep := h'.step_accept hc.eof_terminal htoken (Slot.assemble_eq_some h'.tidy h'.holds)
    rw [hs] at hstep
    cases hstep
    exact Or.inl ⟨rfl, rfl⟩
  | cons s ts' =>
    obtain ⟨⟨x, i⟩, rest, rfl, hx, -⟩ := List.map_eq_cons_iff.mp h'.roots.symm
    obtain ⟨hvalid, -⟩ := List.forall_mem_cons.mp h'.valid
    cases hvalid with
    | @leaf s leaf hterminal hid =>
      obtain rfl : x = s := hx
      have hnext : token.terminal = leaf.terminal := by simpa [lookahead] using htoken
      have hstep := h'.step_match (mem_terminals.mp hterminal).2 (hnext.trans hid).symm
      rw [hs] at hstep
      cases hstep
      exact Or.inr ⟨q, x, i, rest, leaf, ts', rfl, h', by simp⟩
    | @node r children hr =>
      -- The parser would go on with expanding this node.
      obtain rfl : x = r.lhs := hx
      have hget : t.get? r.lhs.id token.terminal = some r := by
        rw [htoken]
        simpa using (h'.expanded hc).1
      have hstep := h'.step_expand (hc.wellFormed.heads r hr).2 hget
      rw [hs] at hstep
      cases hstep

/-- The first leaf to come is taken, and the others are still to come. -/
theorem feed_leaf (hc : t.Chooses g f) (h : Expects t f p todo ts root)
    (hleaves : ts.flatMap Tree.leaves = token :: rest) :
    ∃ p' todo' ts', p.feed token = (.awaiting, p') ∧ Expects t f p' todo' ts' root ∧
      ts'.flatMap Tree.leaves = rest := by
  have hnext : token.terminal = lookahead g (ts.flatMap Tree.leaves) := by
    rw [hleaves]
    rfl
  rcases h.feed_cases hc hnext with
    ⟨-, hnil⟩ | ⟨q, x, i, todo', leaf, ts', hfeed, h', hcons⟩
  · rw [hleaves] at hnil
    cases hnil
  · obtain ⟨rfl, rfl⟩ := List.cons.inj (hleaves.symm.trans hcons)
    exact ⟨_, todo', ts', hfeed, h'.matched, rfl⟩

theorem awaits (hc : t.Chooses g f) (h : Expects t f p todo ts root) (ha : Awaits p tokens q)
    (hleaves : ts.flatMap Tree.leaves = tokens ++ rest) :
    ∃ todo' ts', Expects t f q todo' ts' root ∧ ts'.flatMap Tree.leaves = rest := by
  induction ha generalizing todo ts with
  | nil => exact ⟨todo, ts, h, hleaves⟩
  | cons hfeed _ ih =>
    obtain ⟨p', _, _, hfeed', h', hleaves'⟩ := h.feed_leaf hc hleaves
    obtain rfl := (Prod.mk.inj (hfeed.symm.trans hfeed')).2
    exact ih h' hleaves'

end Expects

/-- A new parser expects the tree of a sentence. -/
theorem exists_expects (hc : t.Chooses g f) {w : List Symbol} (hw : g.IsSentence w)
    (htokens : tokens.map (·.terminal) = w.map (·.id)) :
    ∃ root, Expects t f (ofTable t) [(t.grammar.start, 0)] [root] root ∧ [root].flatMap Tree.leaves = tokens := by
  obtain rfl := hc.grammar
  obtain ⟨ts, hsymbols, hvalid, rfl⟩ := Tree.exists_trees_of_derives hw.1 hw.2 htokens
  obtain ⟨root, rfl, hroot⟩ := List.map_eq_singleton_iff.mp hsymbols
  exact ⟨root, expects_ofTable hc (hvalid root List.mem_cons_self) hroot, rfl⟩

theorem not_rejected_of_viable (hc : t.Chooses g f) (ha : Awaits (ofTable t) before p)
    (h : g.Viable ((before ++ [token]).map (·.terminal))) : (p.feed token).1 ≠ .rejected why := by
  obtain ⟨w, hw, hids⟩ := h
  rw [List.map_append, List.map_append, List.map_singleton, List.map_singleton, List.prefix_concat_iff] at hids
  rcases hids with heq | ⟨ids, hids⟩
  · -- The token is the end mark behind a sentence.
    obtain ⟨hbefore, hmark⟩ := List.append_inj' heq rfl
    obtain ⟨root, hroot, hleaves⟩ := exists_expects hc hw hbefore
    obtain ⟨_, ts, h, hnil⟩ := hroot.awaits hc ha (hleaves.trans (List.append_nil _).symm)
    have hnext : token.terminal = lookahead g (ts.flatMap Tree.leaves) := by
      rw [hnil]
      exact (List.cons.inj hmark).1
    rcases h.feed_cases hc hnext with
      ⟨hready, -⟩ | ⟨_, _, _, _, _, _, -, -, hcons⟩
    · rw [hready]
      exact nofun
    · rw [hnil] at hcons
      cases hcons
  · -- Any tokens of the rest of the sentence can be to come behind this one.
    have hany : (before ++ token :: ids.map fun id => ⟨id, "", 0⟩).map (·.terminal) = w.map (·.id) := by
      simpa [Function.comp_def] using hids
    obtain ⟨root, hroot, hleaves⟩ := exists_expects hc hw hany
    obtain ⟨_, _, h, hcons⟩ := hroot.awaits hc ha hleaves
    obtain ⟨_, _, _, hfeed, -⟩ := h.feed_leaf hc hcons
    rw [hfeed]
    exact nofun

/-- Behind tokens that it has taken, a parser rejects just what no sentence goes on with. -/
theorem rejected_iff (hc : t.Chooses g f) (hproductive : ∀ x ∈ g.nonterminals, g.IsProductive x)
    (ha : Awaits (ofTable t) before p) (token : Token) :
    (∃ why, (p.feed token).1 = .rejected why) ↔ ¬g.Viable ((before ++ [token]).map (·.terminal)) := by
  constructor
  · rintro ⟨why, hrejected⟩ hviable
    exact not_rejected_of_viable hc ha hviable hrejected
  · intro hnot
    obtain ⟨todo, h⟩ := ha.taken hc
    rcases h.feed_cases hc token with
      ⟨_, _, -, h'⟩ | ⟨tree, -, hmark, hvalid, hstart, hleaves⟩ | ⟨why, hfeed⟩
    · exact (hnot (h'.viable hc hproductive)).elim
    · -- A complete tree shows that the tokens before the end mark are a sentence.
      obtain rfl := hc.grammar
      obtain ⟨w, hw, hterminals, hids⟩ := hvalid.yields
      refine (hnot ⟨w, ⟨hstart ▸ hw, hterminals⟩, ?_⟩).elim
      simp [hids, hleaves, hmark]
    · exact ⟨why, by rw [hfeed]⟩

/-! ### Answers to a whole input -/

theorem position_of_step (h : p.step token = (some (.rejected why), p')) : why.position = token.offset := by
  -- All branches that reject make the rejection from the token, whatever is on the stack.
  unfold step at h
  split at h
  · cases h
  · split at h
    · split at h
      · split at h
        · cases h
        · split at h <;> cases h
          rfl
      · cases h
        rfl
    · split at h <;> cases h
      rfl

theorem position_of_run? (h : run? token n p = some (.rejected why, p')) : why.position = token.offset := by
  induction n generalizing p with
  | zero => cases h
  | succ n ih =>
    rw [run?] at h
    split at h
    · rename_i hstep
      cases h
      exact position_of_step hstep
    · exact ih h

/-- A rejection tells the place of the token rejected. -/
theorem position_of_feed (h : p.feed token = (.rejected why, p')) : why.position = token.offset := by
  unfold feed at h
  split at h
  · rename_i hrun
    exact position_of_run? (h ▸ hrun)
  · cases h
    rfl

namespace Awaits

theorem answers_append (ha : Awaits p before q) (tokens : List Token) :
    p.answers (before ++ tokens) = List.replicate before.length .awaiting ++ q.answers tokens := by
  induction ha with
  | nil => rfl
  | cons hfeed _ ih => rw [List.cons_append, answers, hfeed, ih]; rfl

theorem parseRest_append (ha : Awaits p before q) (stop : Nat) (tokens : List Token) :
    p.parseRest stop (before ++ tokens) = q.parseRest (before.getLast?.elim stop Token.stop) tokens := by
  induction ha generalizing stop with
  | nil => rfl
  | @cons _ _ _ token before hfeed _ ih =>
    rw [List.cons_append, parseRest, hfeed]
    show parseRest _ token.stop _ = _
    rw [ih, List.getLast?_cons]
    cases before.getLast? <;> rfl

theorem getElem?_answers (ha : Awaits p before q) {i : Nat} (hi : i < before.length) :
    (p.answers (before ++ tokens))[i]? = some .awaiting := by
  rw [ha.answers_append, List.getElem?_append_left (by simpa using hi), List.getElem?_replicate_of_lt hi]

theorem getElem?_answers_sub (ha : Awaits p before q) {i : Nat}
    (h : (p.answers (before ++ tokens))[i]? = some (.rejected why)) :
    (q.answers tokens)[i - before.length]? = some (.rejected why) := by
  rcases Nat.lt_or_ge i before.length with hlt | hge
  · rw [ha.getElem?_answers hlt] at h
    cases h
  · rwa [ha.answers_append, List.getElem?_append_right (by simpa using hge), List.length_replicate] at h

theorem rejectsFirst (ha : Awaits p before q) (h : (q.feed token).1 = .rejected why) (after : List Token) :
    p.RejectsFirst (before ++ token :: after) before.length why := by
  refine ⟨?_, fun j hj why' => ?_⟩
  · rw [ha.answers_append, List.getElem?_append_right (by simp), List.length_replicate, Nat.sub_self, answers, h]
    rfl
  · rw [ha.getElem?_answers hj]
    exact nofun

end Awaits

theorem RejectsFirst.unique {i j : Nat} {why' : Rejection} (h : p.RejectsFirst tokens i why)
    (h' : p.RejectsFirst tokens j why') : i = j ∧ why = why' := by
  obtain rfl : i = j := by
    rcases Nat.lt_trichotomy i j with hlt | heq | hlt
    · exact (h'.2 i hlt why h.1).elim
    · exact heq
    · exact (h.2 j hlt why' h'.1).elim
  have heq := h.1.symm.trans h'.1
  cases heq
  exact ⟨rfl, rfl⟩

/-- The tokens of an input with an end mark only at its end are all taken, or the end mark completes a tree, or one
    of them is rejected after all the tokens before it have been taken. -/
theorem Taken.run_cases (hc : t.Chooses g f) (h : Taken t p todo before)
    (hmarks : ∀ token ∈ tokens.dropLast, token.terminal ≠ g.eof.id) :
    (∃ q, Awaits p tokens q) ∨
    (∃ taken mark q tree, tokens = taken ++ [mark] ∧ Awaits p taken q ∧ (q.feed mark).1 = .ready tree) ∨
    ∃ taken token after q why, tokens = taken ++ token :: after ∧ Awaits p taken q ∧
      (q.feed token).1 = .rejected why := by
  obtain rfl := hc.grammar
  induction tokens generalizing p todo before with
  | nil => exact Or.inl ⟨p, .nil⟩
  | cons token tokens ih =>
    rcases h.feed_cases hc token with ⟨_, p', hfeed, h'⟩ | ⟨tree, hfeed, hmark, -⟩ | ⟨why, hfeed⟩
    · have hmarks' : ∀ token ∈ tokens.dropLast, token.terminal ≠ t.grammar.eof.id := by
        intro x hx
        refine hmarks x ?_
        cases tokens with
        | nil => cases hx
        | cons => exact List.mem_cons_of_mem _ hx
      rcases ih h' hmarks' with
        ⟨q, ha⟩ | ⟨taken, mark, q, tree, rfl, ha, hready⟩ | ⟨taken, x, after, q, why, rfl, ha, hrejected⟩
      · exact Or.inl ⟨q, .cons hfeed ha⟩
      · exact Or.inr (Or.inl ⟨token :: taken, mark, q, tree, rfl, .cons hfeed ha, hready⟩)
      · exact Or.inr (Or.inr ⟨token :: taken, x, after, q, why, rfl, .cons hfeed ha, hrejected⟩)
    · cases tokens with
      | nil => exact Or.inr (Or.inl ⟨[], token, p, tree, rfl, .nil, by rw [hfeed]⟩)
      | cons => exact (hmarks token List.mem_cons_self hmark).elim
    · exact Or.inr (Or.inr ⟨[], token, tokens, p, why, rfl, .nil, by rw [hfeed]⟩)

section Runs
variable (hc : t.Chooses g f) (hmarks : ∀ token ∈ tokens.dropLast, token.terminal ≠ g.eof.id)
include hc hmarks

/-- The tokens before the first one that is rejected are all taken. -/
theorem RejectsFirst.exists_feed {i : Nat} (h : (ofTable t).RejectsFirst tokens i why) :
    ∃ taken token after q, tokens = taken ++ token :: after ∧ Awaits (ofTable t) taken q ∧
      (q.feed token).1 = .rejected why ∧ i = taken.length := by
  rcases (taken_ofTable hc).run_cases hc hmarks with
    ⟨q, ha⟩ | ⟨taken, mark, q, tree, rfl, ha, hready⟩ | ⟨taken, token, after, q, why', rfl, ha, hrejected⟩
  · have hall : ((ofTable t).answers (tokens ++ []))[i]? = some (.rejected why) := by simpa using h.1
    cases ha.getElem?_answers_sub hall
  · have hlast := ha.getElem?_answers_sub h.1
    rw [answers, hready] at hlast
    cases hi : i - taken.length <;> rw [hi] at hlast <;> cases hlast
  · obtain ⟨hi, rfl⟩ := h.unique (ha.rejectsFirst hrejected after)
    exact ⟨taken, token, after, q, rfl, ha, hrejected, hi⟩

/-- An input that is not rejected is viable. -/
theorem viable_or_rejectsFirst (hproductive : ∀ x ∈ g.nonterminals, g.IsProductive x) :
    g.Viable (tokens.map (·.terminal)) ∨ ∃ i why, (ofTable t).RejectsFirst tokens i why := by
  rcases (taken_ofTable hc).run_cases hc hmarks with
    ⟨q, ha⟩ | ⟨taken, mark, q, tree, rfl, ha, hready⟩ | ⟨taken, token, after, q, why, rfl, ha, hrejected⟩
  · exact Or.inl (ha.viable hc hproductive)
  · refine Or.inl (not_not.mp fun hnot => ?_)
    obtain ⟨why, hwhy⟩ := (rejected_iff hc hproductive ha mark).mpr hnot
    rw [hready] at hwhy
    cases hwhy
  · exact Or.inr ⟨_, _, ha.rejectsFirst hrejected after⟩

/-- The place of the first token that is rejected is the first one at which the input is not viable. -/
theorem RejectsFirst.isLeast (hproductive : ∀ x ∈ g.nonterminals, g.IsProductive x) {i : Nat}
    (h : (ofTable t).RejectsFirst tokens i why) : IsLeast (g.impossibleAt (tokens.map (·.terminal))) i := by
  obtain ⟨taken, token, after, q, rfl, ha, hrejected, rfl⟩ := h.exists_feed hc hmarks
  have hnot := (rejected_iff hc hproductive ha token).mp ⟨why, hrejected⟩
  rw [List.map_append, List.map_singleton] at hnot
  rw [List.map_append, List.map_cons, ← List.length_map (f := fun token : Token => token.terminal)]
  exact isLeast_impossibleAt (ha.viable hc hproductive) hnot

theorem exists_rejectsFirst_iff (hproductive : ∀ x ∈ g.nonterminals, g.IsProductive x) (i : Nat) :
    (∃ why, (ofTable t).RejectsFirst tokens i why) ↔ IsLeast (g.impossibleAt (tokens.map (·.terminal))) i := by
  constructor
  · rintro ⟨why, h⟩
    exact h.isLeast hc hmarks hproductive
  · intro hleast
    rcases viable_or_rejectsFirst hc hmarks hproductive with hviable | ⟨j, why, h⟩
    · rw [impossibleAt_eq_empty hviable] at hleast
      exact hleast.1.elim
    · obtain rfl := hleast.unique (h.isLeast hc hmarks hproductive)
      exact ⟨why, h⟩

end Runs

/-! ### The end of an input -/

/-- A parse goes on behind the tokens that it has taken. -/
theorem parse_append (ha : Awaits (ofTable t) before q) (hp : p.table = t) (tokens : List Token) :
    p.parse (before ++ tokens) = q.parseRest (before.getLast?.elim 0 Token.stop) tokens := by
  rw [parse, reset, hp]
  exact ha.parseRest_append 0 tokens

theorem parse_of_rejected (ha : Awaits (ofTable t) before q) (hp : p.table = t) (h : (q.feed token).1 = .rejected why) :
    (p.parse (before ++ token :: after)).1 = .error why := by
  rw [parse_append ha hp, parseRest]
  cases hfeed : q.feed token with
  | mk outcome p' =>
    obtain rfl : outcome = .rejected why := by rw [← h, hfeed]
    rfl

theorem parse_of_ready (ha : Awaits (ofTable t) before q) (hp : p.table = t) (h : (q.feed token).1 = .ready root) :
    (p.parse (before ++ token :: after)).1 = .ok root := by
  rw [parse_append ha hp, parseRest]
  cases hfeed : q.feed token with
  | mk outcome p' =>
    obtain rfl : outcome = .ready root := by rw [← h, hfeed]
    rfl

/-- The end mark behind tokens that were all taken completes a tree or is rejected, as no rule has it. -/
theorem parse_of_awaits (hc : t.Chooses g f) (hproductive : ∀ x ∈ g.nonterminals, g.IsProductive x)
    (hmark : ∀ r ∈ g.rules, g.eof ∉ r.rhs) (ha : Awaits (ofTable t) tokens q) (hp : p.table = t) :
    (∃ tree, (p.parse tokens).1 = .ok tree ∧ g.Viable (tokens.map (·.terminal) ++ [g.eof.id])) ∨
    ∃ why, (p.parse tokens).1 = .error why ∧ ¬g.Viable (tokens.map (·.terminal) ++ [g.eof.id]) ∧
      why.position = tokens.getLast?.elim 0 Token.stop := by
  obtain rfl := hc.grammar
  obtain ⟨todo, h⟩ := ha.taken hc
  have hparse := parse_append ha hp []
  rw [List.append_nil, parseRest, h.table] at hparse
  have hiff := rejected_iff hc hproductive ha ⟨t.grammar.eof.id, "", tokens.getLast?.elim 0 Token.stop⟩
  rw [List.map_append] at hiff
  rw [hparse]
  rcases h.feed_cases hc ⟨t.grammar.eof.id, "", tokens.getLast?.elim 0 Token.stop⟩ with
    ⟨_, _, -, h'⟩ | ⟨tree, hfeed, -⟩ | ⟨why, hfeed⟩
  · -- A match would make the end mark a part of a sentence.
    obtain ⟨w, hw, hids⟩ := h'.exists_sentence hc hproductive
    exact (hw.eof_notMem hc.wellFormed hmark (hids.subset (by simp))).elim
  · rw [hfeed] at hiff ⊢
    refine Or.inl ⟨tree, rfl, not_not.mp fun hnot => ?_⟩
    obtain ⟨_, hwhy⟩ := hiff.mpr hnot
    cases hwhy
  · rw [hfeed] at hiff ⊢
    exact Or.inr ⟨why, rfl, hiff.mp ⟨why, rfl⟩, position_of_feed hfeed⟩

/-- The place behind tokens is a word if all offsets and lexemes fit into words. -/
theorem getLast?_elim_stop (hfits : ∀ token ∈ tokens, token.offset + token.lexeme.length < Word.count) :
    tokens.getLast?.elim 0 Token.stop = tokens.getLast?.elim 0 fun last => last.offset + last.lexeme.length := by
  cases hlast : tokens.getLast? with
  | none => rfl
  | some last => exact Nat.mod_eq_of_lt (hfits last (List.mem_of_getLast? hlast))

/-- The first token that is rejected is the first one that no sentence with an end mark goes on with, if every
    nonterminal derives some terminals, no rule has the end mark, and this comes at most at the end. All tokens before
    it are awaited, and the rejection tells its place. A parse gives this rejection, or else one of the end
    mark behind an input that is no sentence, at the place behind the last token. -/
theorem rejects_first_impossible {calls : List Declaration} {start : String}
    (hg : Grammar.ofDeclarations calls start = .ok g) (ht : ParseTable.ofGrammar g = .ok t) (hp : p.table = t)
    (hproductive : ∀ x ∈ g.nonterminals, g.IsProductive x) (hmark : ∀ r ∈ g.rules, g.eof ∉ r.rhs)
    (hfits : ∀ token ∈ tokens, token.offset + token.lexeme.length < Word.count)
    (hmarks : ∀ token ∈ tokens.dropLast, token.terminal ≠ g.eof.id) :
    (∀ i, (∃ why, (ofTable t).RejectsFirst tokens i why) ↔ IsLeast (g.impossibleAt (tokens.map (·.terminal))) i) ∧
    (∀ i why, (ofTable t).RejectsFirst tokens i why → (∀ j < i, ((ofTable t).answers tokens)[j]? = some .awaiting) ∧
      (∃ token, tokens[i]? = some token ∧ why.position = token.offset) ∧ (p.parse tokens).1 = .error why) ∧
    (∀ why, (p.parse tokens).1 = .error why → (∃ i, (ofTable t).RejectsFirst tokens i why) ∨
      (∃ q, Awaits (ofTable t) tokens q) ∧ ¬g.Viable (tokens.map (·.terminal) ++ [g.eof.id]) ∧
        why.position = tokens.getLast?.elim 0 fun last => last.offset + last.lexeme.length) ∧
    ∀ q, Awaits (ofTable t) tokens q → ¬g.Viable (tokens.map (·.terminal) ++ [g.eof.id]) →
      ∃ why, (p.parse tokens).1 = .error why := by
  obtain ⟨f, hc⟩ := ParseTable.chooses_of_ofGrammar (wellFormed_of_ofDeclarations hg) ht
  refine ⟨exists_rejectsFirst_iff hc hmarks hproductive, fun i why h => ?_, fun why herror => ?_, fun q ha hnot => ?_⟩
  · obtain ⟨taken, token, after, q, rfl, ha, hrejected, rfl⟩ := h.exists_feed hc hmarks
    refine ⟨fun j hj => ha.getElem?_answers hj, ⟨token, by simp, position_of_feed (Prod.ext hrejected rfl)⟩, ?_⟩
    exact parse_of_rejected ha hp hrejected
  · rcases (taken_ofTable hc).run_cases hc hmarks with
      ⟨q, ha⟩ | ⟨taken, mark, q, tree, rfl, ha, hready⟩ | ⟨taken, token, after, q, why', rfl, ha, hrejected⟩
    · rcases parse_of_awaits hc hproductive hmark ha hp with ⟨_, hok, -⟩ | ⟨why', herror', hnot, hposition⟩
      · cases hok.symm.trans herror
      · cases herror'.symm.trans herror
        exact Or.inr ⟨⟨q, ha⟩, hnot, hposition.trans (getLast?_elim_stop hfits)⟩
    · cases (parse_of_ready ha hp hready).symm.trans herror
    · cases (parse_of_rejected ha hp hrejected).symm.trans herror
      exact Or.inl ⟨_, ha.rejectsFirst hrejected after⟩
  · rcases parse_of_awaits hc hproductive hmark ha hp with ⟨_, -, hviable⟩ | ⟨why, herror, -⟩
    · exact (hnot hviable).elim
    · exact ⟨why, herror⟩

end Parser

/-! ### A grammar of nested brackets -/

namespace Nest

def nest : Symbol := ⟨0, .nonterminal, "Nest"⟩

def left : Symbol := ⟨1, .terminal, "("⟩

def right : Symbol := ⟨2, .terminal, ")"⟩

def dollar : Symbol := ⟨3, .terminal, "$"⟩

/-- Brackets around brackets, or nothing. -/
def grammar : Grammar where
  start := nest
  eof := dollar
  symbols := [nest, left, right, dollar]
  rules := [⟨0, nest, [left, nest, right]⟩, ⟨1, nest, []⟩]

def calls : List Declaration :=
  [.symbol .nonterminal "Nest" false, .symbol .terminal "(" false, .symbol .terminal ")" false,
    .rule "Nest" ["(", "Nest", ")"] false, .rule "Nest" [] false]

theorem ofDeclarations_calls : Grammar.ofDeclarations calls "Nest" = .ok grammar := by rfl

def table : ParseTable where
  grammar := grammar
  choices := [((0, 3), ⟨1, nest, []⟩), ((0, 2), ⟨1, nest, []⟩), ((0, 1), ⟨0, nest, [left, nest, right]⟩)]

theorem ofGrammar_grammar : ParseTable.ofGrammar grammar = .ok table := by rfl

end Nest

/-- A bracket that closes nothing is the first impossible token. -/
theorem Parser.rejects_first_impossible_nest : IsLeast (Nest.grammar.impossibleAt [1, 2, 2]) 2 ∧
    ∃ why, ((ofTable Nest.table).parse [⟨1, "(", 0⟩, ⟨2, ")", 1⟩, ⟨2, ")", 2⟩]).1 = .error why ∧ why.position = 2 := by
  have hproductive : ∀ x ∈ Nest.grammar.nonterminals, Nest.grammar.IsProductive x := fun x hx => by
    obtain rfl : x = Nest.nest := List.mem_singleton.mp hx
    exact ⟨[], .of_rule (r := ⟨1, Nest.nest, []⟩) (by simp [Nest.grammar]), by simp⟩
  have hmark : ∀ r ∈ Nest.grammar.rules, Nest.grammar.eof ∉ r.rhs := by
    simp [Nest.grammar, Nest.dollar, Nest.left, Nest.nest, Nest.right]
  have hfits : ∀ token ∈ ([⟨1, "(", 0⟩, ⟨2, ")", 1⟩, ⟨2, ")", 2⟩] : List Token),
      token.offset + token.lexeme.length < Word.count := by decide
  have hrejects : ∃ why, (ofTable Nest.table).RejectsFirst [⟨1, "(", 0⟩, ⟨2, ")", 1⟩, ⟨2, ")", 2⟩] 2 why :=
    ⟨_, Awaits.rejectsFirst (.cons rfl (.cons rfl .nil)) rfl []⟩
  obtain ⟨hleast, hfirst, -⟩ := rejects_first_impossible (p := ofTable Nest.table) Nest.ofDeclarations_calls
    Nest.ofGrammar_grammar rfl hproductive hmark hfits (by decide)
  obtain ⟨why, hwhy⟩ := hrejects
  obtain ⟨-, ⟨token, htoken, hposition⟩, herror⟩ := hfirst 2 why hwhy
  cases htoken
  exact ⟨(hleast 2).mp ⟨why, hwhy⟩, why, herror, hposition⟩

end Calcbook
