import Calcbook.Proofs.Parsing.ViablePrefix
import Mathlib.Data.List.SplitBy

/-! Parses on one parser do not leak into each other. Every answer but awaiting more leaves a new parser behind, a parse
    begins with one, and so does what comes after a reset. So the calls of a parser fall into pieces, and each piece gets
    the replies that a new parser gives to its calls, whatever came before. -/

namespace Calcbook

/-- Whether a token was taken without ending the parse. -/
def Outcome.isAwaiting : Outcome → Bool
  | awaiting => true
  | ready _ | rejected _ => false

namespace Parser

/-! ### Calls and replies -/

/-- What a parser can be asked for. -/
inductive Call
  | feed (token : Token)
  | parse (tokens : List Token)
  | reset

def Call.isParse : Call → Bool
  | parse _ => true
  | feed _ | reset => false

/-- What comes back from a call. -/
inductive Reply
  | outcome (o : Outcome)
  | result (r : Except Rejection Tree)
  | done

def Reply.isAwaiting : Reply → Bool
  | outcome o => o.isAwaiting
  | result _ | done => false

/-- The reply to a call, and the parser after it. -/
def reply (p : Parser) : Call → Reply × Parser
  | .feed token => (.outcome (p.feed token).1, (p.feed token).2)
  | .parse tokens => (.result (p.parse tokens).1, (p.parse tokens).2)
  | .reset => (.done, p.reset)

/-- Calls made one after the other, with their replies. -/
def session (p : Parser) : List Call → List (Call × Reply)
  | [] => []
  | call :: calls => (call, (p.reply call).1) :: (p.reply call).2.session calls

/-- The parser after some calls. -/
def after (p : Parser) (calls : List Call) : Parser := calls.foldl (fun p call => (p.reply call).2) p

/-- Whether a call belongs to the same piece as the one before it. Pieces are cut after a feed that is answered by a tree
    or a rejection, after a reset, and before and after a parse. -/
def sameParse (before next : Call × Reply) : Bool := before.2.isAwaiting && !next.1.isParse

/-- The pieces of a session. -/
def pieces (log : List (Call × Reply)) : List (List (Call × Reply)) := log.splitBy sameParse

/-- What answers come to: the first one that is not to await more, or a rejection of the end mark when there is none. -/
def verdict (eof : Symbol) (stop : Nat) (answers : List Outcome) : Except Rejection Tree :=
  match answers.find? (!·.isAwaiting) with
  | some (.ready tree) => .ok tree
  | some (.rejected why) => .error why
  | _ => .error ⟨[eof.name], eof.name, stop⟩

/-- The place behind an input. -/
def endOf (tokens : List Token) : Nat := tokens.getLast?.elim 0 Token.stop

variable {t : ParseTable} {p p' : Parser} {token : Token} {outcome : Outcome} {tokens : List Token} {call : Call}
  {calls : List Call} {log rest : List (Call × Reply)} {stop n : Nat}

/-! ### The table stays -/

theorem table_step (p : Parser) (token : Token) : (p.step token).2.table = p.table := by
  unfold step
  repeat' split
  all_goals rfl

theorem table_run? (h : run? token n p = some (outcome, p')) : p'.table = p.table := by
  induction n generalizing p with
  | zero => cases h
  | succ n ih =>
    have htable := table_step p token
    rw [run?] at h
    split at h <;> rename_i hstep <;> rw [hstep] at htable
    · cases h
      exact htable
    · exact (ih h).trans htable

theorem table_feed (p : Parser) (token : Token) : (p.feed token).2.table = p.table := by
  unfold feed
  dsimp only
  split
  · rename_i hrun
    exact table_run? hrun
  · rfl

/-! ### What ends a parse leaves a new parser -/

theorem new_of_step (h : p.step token = (some outcome, p')) (hends : outcome.isAwaiting = false) :
    p' = ofTable p.table := by
  unfold step at h
  repeat' split at h
  all_goals cases h
  all_goals first | rfl | cases hends

theorem new_of_run? (h : run? token n p = some (outcome, p')) (hends : outcome.isAwaiting = false) :
    p' = ofTable p.table := by
  induction n generalizing p with
  | zero => cases h
  | succ n ih =>
    have htable := table_step p token
    rw [run?] at h
    split at h <;> rename_i hstep
    · cases h
      exact new_of_step hstep hends
    · rw [hstep] at htable
      exact htable ▸ ih h

theorem new_of_feed (h : p.feed token = (outcome, p')) (hends : outcome.isAwaiting = false) : p' = ofTable p.table := by
  unfold feed at h
  dsimp only at h
  split at h
  · rename_i hrun
    exact new_of_run? (h ▸ hrun) hends
  · cases h
    rfl

theorem new_of_parseRest (p : Parser) (stop : Nat) (tokens : List Token) :
    (p.parseRest stop tokens).2 = ofTable p.table := by
  induction tokens generalizing p stop with
  | nil =>
    have htable := table_feed p ⟨p.table.grammar.eof.id, "", stop⟩
    unfold parseRest
    dsimp only
    split <;> rename_i hfeed
    · exact new_of_feed hfeed rfl
    · exact new_of_feed hfeed rfl
    · rw [hfeed] at htable
      exact congrArg ofTable htable
  | cons token tokens ih =>
    have htable := table_feed p token
    unfold parseRest
    dsimp only
    split <;> rename_i hfeed
    · rw [hfeed] at htable
      exact htable ▸ ih _ _
    · exact new_of_feed hfeed rfl
    · exact new_of_feed hfeed rfl

theorem new_of_reply (p : Parser) (call : Call) (hends : (p.reply call).1.isAwaiting = false) :
    (p.reply call).2 = ofTable p.table := by
  cases call with
  | feed token =>
    have hfeed : p.feed token = ((p.feed token).1, (p.feed token).2) := rfl
    exact new_of_feed hfeed hends
  | parse tokens => exact new_of_parseRest p.reset 0 tokens
  | reset => rfl

theorem table_reply (p : Parser) (call : Call) : (p.reply call).2.table = p.table := by
  cases call with
  | feed token => exact table_feed p token
  | parse tokens =>
    show (p.reset.parseRest 0 tokens).2.table = p.table
    rw [new_of_parseRest]
    rfl
  | reset => rfl

/-! ### Sessions -/

theorem map_fst_session (p : Parser) (calls : List Call) : (p.session calls).map (·.1) = calls := by
  induction calls generalizing p with
  | nil => rfl
  | cons call calls ih => rw [session, List.map_cons, ih]

theorem session_append (p : Parser) (calls more : List Call) :
    p.session (calls ++ more) = p.session calls ++ (p.after calls).session more := by
  induction calls generalizing p with
  | nil => rfl
  | cons call calls ih =>
    rw [List.cons_append, session, session, ih]
    rfl

theorem table_after (p : Parser) (calls : List Call) : (p.after calls).table = p.table := by
  induction calls generalizing p with
  | nil => rfl
  | cons call calls ih => exact (ih _).trans (table_reply p call)

/-- The parser after a session is new when its last reply is not to await more. -/
theorem new_of_after (p : Parser) (calls : List Call) {last : Call × Reply} (hlast : (p.session calls).getLast? = some last)
    (hends : last.2.isAwaiting = false) : p.after calls = ofTable p.table := by
  rcases List.eq_nil_or_concat calls with rfl | ⟨before, call, rfl⟩
  · cases hlast
  · have hreply : last = (call, ((p.after before).reply call).1) := by
      rw [List.concat_eq_append, session_append] at hlast
      simpa [session, eq_comm] using hlast
    subst hreply
    rw [List.concat_eq_append, after, List.foldl_append, ← table_after p before]
    exact new_of_reply _ _ hends

/-- A parse gets the same reply from every parser of a table, and leaves the same parser. -/
theorem session_parse (p : Parser) (hparse : call.isParse = true) :
    p.session (call :: calls) = (ofTable p.table).session (call :: calls) := by
  cases call with
  | parse tokens => rfl
  | feed _ | reset => cases hparse

theorem length_session (p : Parser) (calls : List Call) : (p.session calls).length = calls.length := by
  rw [← List.length_map (f := Prod.fst), map_fst_session]

/-- What is cut off the front of a session is a session of its own, and the rest is that of the parser after it. -/
theorem session_eq_append (h : p.session calls = log ++ rest) : ∃ more, log = p.session (log.map (·.1)) ∧
    rest = (p.after (log.map (·.1))).session more := by
  have hcalls := map_fst_session p calls
  rw [h, List.map_append] at hcalls
  rw [← hcalls, session_append] at h
  obtain ⟨hfront, hrest⟩ := List.append_inj h (by rw [length_session, List.length_map])
  exact ⟨_, hfront.symm, hrest.symm⟩

/-- Of a session in pieces, the first of which begins with a new parser or with a parse, every piece is as with a new
    parser: at each cut the parser is new, or a parse makes it so. -/
theorem eq_session_of_mem {log : List (List (Call × Reply))} (h : p.session calls = log.flatten) (htable : p.table = t)
    (hne : [] ∉ log)
    (hcuts : log.IsChain fun a b => ∃ ha hb, sameParse (a.getLast ha) (b.head hb) = false)
    (hfirst : p = ofTable t ∨ ∀ piece ∈ log.head?, ∀ x ∈ piece.head?, x.1.isParse = true) :
    ∀ piece ∈ log, piece = (ofTable t).session (piece.map (·.1)) := by
  induction log generalizing p calls with
  | nil => nofun
  | cons piece log ih =>
    obtain ⟨more, hpiece, hlog⟩ := session_eq_append (h.trans List.flatten_cons)
    obtain ⟨hcut, hcuts⟩ := List.isChain_cons.mp hcuts
    rw [List.mem_cons, not_or] at hne
    have hnew : p.session (piece.map (·.1)) = (ofTable t).session (piece.map (·.1)) := by
      rcases hfirst with rfl | hparse
      · rfl
      · obtain ⟨x, rest, rfl⟩ := List.exists_cons_of_ne_nil (Ne.symm hne.1)
        rw [List.map_cons, session_parse p (hparse _ rfl x rfl), htable]
    refine List.forall_mem_cons.mpr ⟨hpiece.trans hnew, ih hlog.symm ((table_after p _).trans htable) hne.2 hcuts ?_⟩
    by_cases hends : (piece.getLast (Ne.symm hne.1)).2.isAwaiting = false
    · rw [← htable]
      exact Or.inl (new_of_after p _ (hpiece ▸ List.getLast?_eq_some_getLast (Ne.symm hne.1)) hends)
    · refine Or.inr fun next hnext x hx => ?_
      obtain ⟨_, hb, hsame⟩ := hcut next hnext
      obtain rfl : next.head hb = x := by simpa [List.head?_eq_some_head hb] using hx
      simpa [sameParse, Bool.eq_true_of_not_eq_false hends] using hsame

/-! ### Whole inputs -/

theorem parseRest_eq_verdict (p : Parser) (stop : Nat) (tokens : List Token) :
    let eof := p.table.grammar.eof
    let last := tokens.getLast?.elim stop Token.stop
    (p.parseRest stop tokens).1 = verdict eof last (p.answers (tokens ++ [⟨eof.id, "", last⟩])) := by
  induction tokens generalizing p stop with
  | nil =>
    dsimp only [List.getLast?_nil, Option.elim, List.nil_append]
    unfold parseRest answers
    dsimp only
    cases p.feed ⟨p.table.grammar.eof.id, "", stop⟩ with
    | mk outcome p' => cases outcome <;> rfl
  | cons token tokens ih =>
    have htable := table_feed p token
    dsimp only
    rw [List.cons_append, List.getLast?_cons]
    unfold parseRest answers
    cases hfeed : p.feed token with
    | mk outcome p' =>
      rw [hfeed] at htable
      cases outcome with
      | awaiting =>
        have hrest := ih p' token.stop
        dsimp only at htable hrest ⊢
        rw [hrest, htable]
        cases tokens.getLast? <;> rfl
      | ready | rejected => rfl

/-- The pieces of a session on one parser are as if each had a new parser. And at any point a parse gives what feeding the
    input and an end mark to a new parser comes to, or a rejection of the end mark if that is awaited too. -/
theorem pieces_independent (t : ParseTable) (calls : List Call) :
    (∀ piece ∈ pieces ((ofTable t).session calls), piece = (ofTable t).session (piece.map (·.1))) ∧
    ∀ tokens, (((ofTable t).after calls).parse tokens).1 =
      verdict t.grammar.eof (endOf tokens) ((ofTable t).answers (tokens ++ [⟨t.grammar.eof.id, "", endOf tokens⟩])) := by
  constructor
  · exact eq_session_of_mem (List.flatten_splitBy _ _).symm rfl (List.nil_notMem_splitBy _ _)
      (List.isChain_getLast_head_splitBy _ _) (Or.inl rfl)
  · intro tokens
    rw [parse, reset, table_after]
    exact parseRest_eq_verdict (ofTable t) 0 tokens

/-- A tree, half an input cut off by a parse, the parse, and a reset. -/
example : (pieces ((ofTable Sums.table).session [.feed ⟨3, "1", 0⟩, .feed ⟨5, "", 1⟩, .feed ⟨3, "2", 0⟩, .parse [],
    .feed ⟨3, "3", 0⟩, .reset])).map List.length = [2, 1, 1, 2] := rfl

end Parser

end Calcbook
