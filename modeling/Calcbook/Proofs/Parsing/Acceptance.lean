import Calcbook.Proofs.Parsing.Completeness
import Calcbook.Proofs.Parsing.Soundness

/-! Parsing whole inputs. An input without an end mark in it is accepted exactly when there is a derivation tree of
    the start symbol over its tokens, and the answer is this tree. -/

namespace Calcbook.Parser

variable {t : ParseTable} {g : Grammar} {f : Grammar.Family} {p : Parser} {todo : List (Symbol × Nat)}
  {before tokens : List Token} {tree : Tree}

/-- The tree answered to the rest of an input has all the tokens as its leaves, as no end mark comes before its end. -/
theorem Taken.parseRest_ok (hc : t.Chooses g f) (h : Taken t p todo before)
    (hmarks : ∀ token ∈ tokens, token.terminal ≠ g.eof.id) {stop : Nat} (hok : (p.parseRest stop tokens).1 = .ok tree) :
    tree.ValidFor g ∧ tree.symbol = g.start ∧ tree.leaves = before ++ tokens := by
  obtain rfl := hc.grammar
  induction tokens generalizing p todo before stop with
  | nil =>
    rw [parseRest] at hok
    rcases h.feed_cases hc ⟨p.table.grammar.eof.id, "", stop⟩ with
      ⟨_, _, hf, -⟩ | ⟨root, hf, -, hvalid, hstart, hleaves⟩ | ⟨_, hf⟩ <;> rw [hf] at hok <;> cases hok
    exact ⟨hvalid, hstart, by rw [hleaves, List.append_nil]⟩
  | cons token tokens ih =>
    obtain ⟨hmark, hmarks⟩ := List.forall_mem_cons.mp hmarks
    rw [parseRest] at hok
    rcases h.feed_cases hc token with ⟨_, _, hf, h'⟩ | ⟨_, -, heof, -⟩ | ⟨_, hf⟩
    · rw [hf] at hok
      obtain ⟨hvalid, hstart, hleaves⟩ := ih h' hok hmarks
      exact ⟨hvalid, hstart, by rw [hleaves, List.append_assoc, List.singleton_append]⟩
    · exact (hmark heof).elim
    · rw [hf] at hok
      cases hok

theorem parse_eq_ok_iff (hc : t.Chooses g f) (hmarks : ∀ token ∈ tokens, token.terminal ≠ g.eof.id) :
    ((ofTable t).parse tokens).1 = .ok tree ↔ tree.ValidFor g ∧ tree.symbol = g.start ∧ tree.leaves = tokens := by
  constructor
  · intro hok
    have h := (taken_ofTable hc).parseRest_ok hc hmarks hok
    rwa [List.nil_append] at h
  · rintro ⟨hvalid, hstart, rfl⟩
    obtain rfl := hc.grammar
    exact parse_leaves hc rfl hvalid hstart

end Calcbook.Parser
