import Calcbook.Book.Basic
import Calcbook.Proofs.Book.Sequencer
import Calcbook.Proofs.Formula.Reading
import Calcbook.Proofs.Formula.Value
import Mathlib.Data.List.Nodup

/-! Answers come in order, whatever the workers do. Every input that got a number is in exactly one place: its
    formula is queued or in work, or its answer is held by the sequencer or released. An answer on its way to
    the sequencer is neither late nor there already, so it is not dropped. When nothing is queued or in work
    any more, an answer can only wait for one that waits too, hence none waits. -/

namespace Calcbook.Book
open Sequencer

variable {σ : Type}

theorem exists_make (jobs first : Nat) (constants : Constants) (gen : σ) :
    ∃ b, make jobs first constants gen = .ok b := by
  obtain ⟨t, ht⟩ := Formula.exists_table
  unfold make
  rw [ht]
  exact ⟨_, rfl⟩

/-- When the numbers have run out, a submission says so and changes nothing. -/
theorem submit_exhausted {b : Book σ} (h : b.next = lastNumber) (text : String) :
    b.submit text = (.error (.exhausted lastNumber), b) := by
  rw [Book.submit, if_pos (by omega), h]

/-! ### Runs -/

variable [Chance σ]

/-- What an input is answered by: why it cannot be read, or the value of its formula or the fault in it. -/
def answerTo (b : Book σ) (text : String) : Answer :=
  match Formula.read b.table text with
  | .ok f => (f.value b.constants b.gen).mapError .eval
  | .error why => .error why

/-- The answers to some inputs, numbered from the given number on. -/
def answersTo (b : Book σ) (first : Nat) (texts : List String) : List (Numbered Answer) :=
  texts.mapIdx fun i text => ⟨first + i, b.answerTo text⟩

/-- What the `i`-th submission returns: the next number, as long as there is one. -/
def receipt (first i : Nat) : Except Failure Nat :=
  if first + i < lastNumber then .ok (first + i) else .error (.exhausted lastNumber)

/-- The runs of a book, with the inputs submitted so far and what each submission returned. In any order, an input
    is submitted, an idle worker takes the first formula of the queue, or a worker answers a formula in work. -/
inductive Run (b₀ : Book σ) : List (String × Except Failure Nat) → Book σ → Prop
  | start : Run b₀ [] b₀
  | submit {log : List (String × Except Failure Nat)} {b : Book σ} (text : String) (h : Run b₀ log b) :
      Run b₀ (log ++ [(text, (b.submit text).1)]) (b.submit text).2
  | take {log : List (String × Except Failure Nat)} {b b' : Book σ} (h : Run b₀ log b) (hs : b.take? = some b') :
      Run b₀ log b'
  | deliver {log : List (String × Except Failure Nat)} {b b' : Book σ} (i : Nat) (h : Run b₀ log b)
      (hs : b.deliver? i = some b') : Run b₀ log b'

/-! ### Every number is in one place -/

/-- A book that has numbered some inputs, with answers on their way to the sequencer: what was released are the
    first answers, and the numbers of all inputs are those of the answers and formulas that are about. -/
structure Orderly (b₀ : Book σ) (first : Nat) (texts : List String) (way : List (Numbered Answer)) (b : Book σ) :
    Prop where
  table : b.table = b₀.table
  constants : b.constants = b₀.constants
  workers : 0 < b.workers
  next : b.next = first + texts.length
  room : first + texts.length ≤ lastNumber
  unread : ∀ job ∈ b.queue ++ b.busy, ∃ i text, texts[i]? = some text ∧ job.number = first + i ∧
    Formula.read b₀.table text = .ok job.value
  answered : ∀ a ∈ b.released ++ b.answers.held ++ way, a ∈ b₀.answersTo first texts
  order : numbers b.released = List.range' first b.released.length
  cursor : b.answers.expected = first + b.released.length
  missing : b.answers.expected ∉ numbers b.answers.held
  once : (numbers b.released ++ numbers b.answers.held ++ numbers way ++ numbers (b.queue ++ b.busy)).Perm
    (List.range' first texts.length)

variable {b₀ b b' : Book σ} {first : Nat} {texts : List String} {a : Numbered Answer} {way : List (Numbered Answer)}

theorem mem_answersTo {i : Nat} {text : String} (h : texts[i]? = some text) :
    ⟨first + i, b₀.answerTo text⟩ ∈ b₀.answersTo first texts := by
  rw [answersTo, List.mem_iff_getElem?]
  exact ⟨i, by rw [List.getElem?_mapIdx, h]; rfl⟩

theorem answersTo_append (texts' : List String) :
    b₀.answersTo first (texts ++ texts') = b₀.answersTo first texts ++ b₀.answersTo (first + texts.length) texts' := by
  simp only [answersTo, List.mapIdx_append]
  congr 2
  funext i text
  rw [Nat.add_right_comm, Nat.add_assoc]

/-- A new book has the table of formulas, and nothing is about. -/
theorem orderly_of_make {jobs : Nat} {constants : Constants} {gen : σ} (h : make jobs first constants gen = .ok b)
    (hroom : first ≤ lastNumber) : Formula.table = .ok b.table ∧ Orderly b first [] [] b := by
  unfold make at h
  split at h
  · cases h
  · rename_i t ht
    cases h
    refine ⟨ht, ?_⟩
    constructor
    case workers => exact Nat.lt_of_lt_of_le Nat.one_pos (Nat.le_max_right jobs 1)
    case room => exact hroom
    all_goals simp [startingAt]

namespace Orderly

/-- An answer on its way is neither late nor held already, nor does it have the last number. -/
theorem fresh (h : Orderly b₀ first texts [a] b) :
    b.answers.expected ≤ a.number ∧ a.number ∉ numbers b.answers.held ∧ a.number < lastNumber := by
  have hnodup := h.once.nodup_iff.mpr List.nodup_range'
  rw [List.nodup_append, List.nodup_append, List.nodup_append] at hnodup
  have hmem : a.number ∈ List.range' first texts.length := h.once.subset (by simp)
  rw [List.mem_range'_1] at hmem
  have hroom := h.room
  have hnew := fun n hn => hnodup.1.2.2 n hn a.number (by simp)
  refine ⟨?_, fun hheld => hnew a.number (by simp [hheld]) rfl, by omega⟩
  -- The numbers below the expected one are released.
  by_contra hlate
  rw [h.cursor] at hlate
  refine hnew a.number (List.mem_append_left _ ?_) rfl
  rw [h.order, List.mem_range'_1]
  omega

theorem answer (h : Orderly b₀ first texts [a] b) : Orderly b₀ first texts [] (b.answer a) := by
  obtain ⟨hle, hnew, hlast⟩ := h.fresh
  have hr := releases_submit h.missing hle hnew hlast
  have hparts : (numbers (a :: b.answers.held)).Perm
      (numbers (b.answers.submit a).items ++ numbers (b.answers.submit a).sequencer.held) := by
    rw [← List.map_append]
    exact hr.parts.map _
  refine { h with answered := ?_, order := ?_, cursor := ?_, missing := hr.missing, once := ?_ }
  · intro x hx
    rw [Book.answer, List.append_nil, List.append_assoc, List.mem_append, ← hr.parts.mem_iff, List.mem_cons] at hx
    refine h.answered x ?_
    simp only [List.mem_append, List.mem_singleton]
    tauto
  · rw [Book.answer, numbers, List.map_append, List.length_append, ← List.range'_append_1]
    exact congrArg₂ _ h.order (h.cursor ▸ hr.order)
  · rw [Book.answer, List.length_append, hr.cursor, h.cursor, Nat.add_assoc]
  · refine List.Perm.trans ?_ h.once
    rw [Book.answer, numbers, List.map_append]
    simp only [List.map_nil, List.append_nil, List.append_assoc]
    refine .append_left _ ?_
    rw [← List.append_assoc, ← List.append_assoc]
    refine .append_right _ (hparts.symm.trans ?_)
    simpa using (List.perm_append_singleton a.number (numbers b.answers.held)).symm

/-- A new input gets the next number: its answer is on its way, or its formula is queued. -/
theorem number (h : Orderly b₀ first texts [] b) (hroom : b.next < lastNumber) (text : String)
    (way : List (Numbered Answer)) {queue : List (Numbered Formula)}
    (hunread : ∀ job ∈ queue, job ∈ b.queue ∨ job.number = b.next ∧ Formula.read b₀.table text = .ok job.value)
    (hway : ∀ a ∈ way, a = ⟨b.next, b₀.answerTo text⟩)
    (honce : (numbers way ++ numbers (queue ++ b.busy)).Perm (numbers (b.queue ++ b.busy) ++ [b.next])) :
    Orderly b₀ first (texts ++ [text]) way { b with next := b.next + 1, queue := queue } := by
  have hnext := h.next
  have hlen : (texts ++ [text]).length = texts.length + 1 := by simp
  refine { h with next := ?_, room := ?_, unread := ?_, answered := ?_, once := ?_ }
  · rw [hlen, h.next, Nat.add_assoc]
  · omega
  · have hold : ∀ job ∈ b.queue ++ b.busy, ∃ i t, (texts ++ [text])[i]? = some t ∧ job.number = first + i ∧
        Formula.read b₀.table t = .ok job.value := fun job hjob => by
      obtain ⟨i, t, hi, hjob⟩ := h.unread job hjob
      exact ⟨i, t, by rw [List.getElem?_append_left (List.getElem?_eq_some_iff.mp hi).1, hi], hjob⟩
    intro job hjob
    rcases List.mem_append.mp hjob with hjob | hjob
    · rcases hunread job hjob with hjob | ⟨hnumber, hread⟩
      · exact hold job (List.mem_append_left _ hjob)
      · exact ⟨texts.length, text, by simp, hnumber.trans hnext, hread⟩
    · exact hold job (List.mem_append_right _ hjob)
  · intro x hx
    rw [answersTo_append, List.mem_append]
    rcases List.mem_append.mp hx with hx | hx
    · exact Or.inl (h.answered x (by simpa using hx))
    · rw [hway x hx, hnext]
      exact Or.inr (by simp [answersTo])
  · rw [hlen, List.range'_1_concat, ← hnext]
    refine List.Perm.trans ?_ (h.once.append_right _)
    simp only [List.map_nil, List.append_nil, List.append_assoc]
    refine .append_left _ (.append_left _ ?_)
    simpa only [List.map_append, List.append_assoc] using honce

theorem submit (h : Orderly b₀ first texts [] b) (hroom : b.next < lastNumber) (text : String) :
    (b.submit text).1 = .ok b.next ∧ Orderly b₀ first (texts ++ [text]) [] (b.submit text).2 := by
  have hread : Formula.read b.table text = Formula.read b₀.table text := by rw [h.table]
  unfold Book.submit
  rw [if_neg (by omega), hread]
  split
  · rename_i f hread
    refine ⟨rfl, h.number hroom text [] (fun job hjob => ?_) (by simp) ?_⟩
    · rcases List.mem_append.mp hjob with hjob | hjob
      · exact Or.inl hjob
      · obtain rfl := List.mem_singleton.mp hjob
        exact Or.inr ⟨rfl, hread⟩
    · simp only [numbers, List.map_append, List.map_nil, List.nil_append, List.append_assoc, List.map_cons]
      exact .append_left _ List.perm_append_comm
  · rename_i why hread
    have hanswer : b₀.answerTo text = .error why := by rw [answerTo, hread]
    refine ⟨rfl, (h.number hroom text [⟨b.next, .error why⟩] (fun job hjob => Or.inl hjob) ?_ ?_).answer⟩
    · simp [hanswer]
    · exact List.perm_append_comm

theorem take (h : Orderly b₀ first texts [] b) (hs : b.take? = some b') : Orderly b₀ first texts [] b' := by
  unfold take? at hs
  split at hs
  · cases hs
  · rename_i job queue hqueue
    split at hs
    · cases hs
      have hmoved : (queue ++ (b.busy ++ [job])).Perm (b.queue ++ b.busy) := by
        rw [hqueue, List.cons_append, ← List.append_assoc]
        exact List.perm_append_singleton _ _
      refine { h with unread := fun job hjob => h.unread job (hmoved.subset hjob), once := ?_ }
      exact .trans (.append_left _ (hmoved.map _)) h.once
    · cases hs

theorem deliver (h : Orderly b₀ first texts [] b)
    (hsteady : ∀ text ∈ texts, ∀ f, Formula.read b₀.table text = .ok f → f.NeverDraws) {i : Nat}
    (hs : b.deliver? i = some b') : Orderly b₀ first texts [] b' := by
  unfold deliver? at hs
  split at hs
  · cases hs
  · rename_i job hjob
    cases hs
    obtain ⟨hi, hjob⟩ := List.getElem?_eq_some_iff.mp hjob
    have hbusy : (job :: b.busy.eraseIdx i).Perm b.busy := hjob ▸ List.getElem_cons_eraseIdx_perm hi
    obtain ⟨k, text, hk, hnumber, hread⟩ := h.unread job (List.mem_append_right _ (hbusy.subset List.mem_cons_self))
    have hvalue : b.evaluate (Chance.split b.gen).1 job.value = b₀.answerTo text := by
      have hnever := hsteady text (List.mem_of_getElem? hk) job.value hread
      simp only [answerTo, hread, evaluate, h.constants, hnever.value_eq _ b₀.gen]
    refine answer { h with unread := ?_, answered := ?_, once := ?_ }
    · intro x hx
      refine h.unread x ?_
      rw [List.mem_append] at hx ⊢
      exact hx.imp_right fun hx => hbusy.subset (List.mem_cons_of_mem _ hx)
    · intro x hx
      rcases List.mem_append.mp hx with hx | hx
      · exact h.answered x (List.mem_append_left _ hx)
      · rw [List.mem_singleton.mp hx, hnumber, hvalue]
        exact mem_answersTo hk
    · refine List.Perm.trans ?_ h.once
      simp only [List.map_append, List.map_nil, List.append_nil, List.append_assoc, List.map_cons,
        List.singleton_append]
      refine .append_left _ (.append_left _ (List.perm_middle.symm.trans ?_))
      exact .append_left _ (hbusy.map _)

theorem released_prefix (h : Orderly b₀ first texts way b) : b.released <+: b₀.answersTo first texts := by
  rw [List.prefix_iff_getElem?]
  intro i hi
  have hmem := h.answered _ (List.mem_append_left _ (List.mem_append_left _ (List.getElem_mem hi)))
  obtain ⟨k, hk⟩ := List.mem_iff_getElem?.mp hmem
  -- Both the place and the number of a released answer give its number.
  have hplace : b.released[i].number = first + i := by
    have horder := congrArg (·[i]?) h.order
    simpa [hi] using horder
  have hnumber : b.released[i].number = first + k := by
    rw [answersTo, List.getElem?_mapIdx, Option.map_eq_some_iff] at hk
    obtain ⟨text, -, heq⟩ := hk
    rw [← heq]
  obtain rfl : k = i := by omega
  exact hk

theorem complete (h : Orderly b₀ first texts [] b) (hqueue : b.queue = []) (hbusy : b.busy = []) :
    b.released = b₀.answersTo first texts ∧ b.answers.pending = 0 := by
  have honce := h.once
  rw [hqueue, hbusy] at honce
  simp only [List.map_nil, List.append_nil] at honce
  have hlen := honce.length_eq
  simp only [List.length_append, List.length_map, List.length_range'] at hlen
  have hnone : b.answers.held.length = 0 := by
    by_contra hsome
    have hmem : b.answers.expected ∈ List.range' first texts.length := by
      rw [h.cursor, List.mem_range'_1]
      omega
    rcases List.mem_append.mp (honce.mem_iff.mpr hmem) with hmem | hmem
    · rw [h.order, h.cursor, List.mem_range'_1] at hmem
      omega
    · exact h.missing hmem
  refine ⟨h.released_prefix.eq_of_length ?_, hnone⟩
  rw [answersTo, List.length_mapIdx]
  omega

end Orderly

/-! ### Whole runs -/

variable {log : List (String × Except Failure Nat)}

/-- Every run is orderly about the inputs that there are numbers for. -/
theorem Run.orderly (h₀ : Orderly b₀ first [] [] b₀) (h : Run b₀ log b)
    (hsteady : ∀ e ∈ log, ∀ f, Formula.read b₀.table e.1 = .ok f → f.NeverDraws) :
    Orderly b₀ first ((log.map Prod.fst).take (lastNumber - first)) [] b ∧
      log.map Prod.snd = (List.range log.length).map (receipt first) := by
  induction h with
  | start => exact ⟨by simpa using h₀, rfl⟩
  | @submit log b text _ ih =>
    obtain ⟨hb, hreceipts⟩ := ih fun e he => hsteady e (List.mem_append_left _ he)
    have hfirst : first ≤ lastNumber := h₀.room
    have hnext := hb.next
    rw [List.length_take, List.length_map] at hnext
    simp only [List.map_append, List.map_cons, List.map_nil, List.length_append, List.length_singleton,
      List.range_succ, hreceipts, List.take_append, List.length_map]
    by_cases hroom : first + log.length < lastNumber
    · obtain ⟨hreceipt, hb'⟩ := hb.submit (by omega) text
      have htake : List.take (lastNumber - first - log.length) [text] = [text] :=
        List.take_of_length_le (by rw [List.length_singleton]; omega)
      refine ⟨by rwa [htake], ?_⟩
      rw [hreceipt, receipt, if_pos hroom, show b.next = first + log.length by omega]
    · have hnone : lastNumber - first - log.length = 0 := by omega
      rw [submit_exhausted (by omega), hnone, List.take_zero, List.append_nil]
      exact ⟨hb, by rw [receipt, if_neg hroom]⟩
  | take _ hs ih => exact (ih hsteady).imp_left fun hb => hb.take hs
  | deliver i _ hs ih =>
    refine (ih hsteady).imp_left fun hb => hb.deliver (fun text htext => ?_) hs
    obtain ⟨e, he, rfl⟩ := List.mem_map.mp (List.mem_of_mem_take htext)
    exact hsteady e he

/-! ### Waiting for the workers -/

/-- What every step keeps holds at the end, where no step is left. -/
theorem runToEnd_induct {τ : Type} {P : τ → Prop} {step : τ → Option τ} {size : τ → Nat}
    (shrinks : ∀ {s s'}, step s = some s' → size s' < size s) (hstep : ∀ {s s'}, step s = some s' → P s → P s') {s : τ}
    (h : P s) : P (runToEnd step size shrinks s) ∧ step (runToEnd step size shrinks s) = none := by
  fun_induction runToEnd step size shrinks s with
  | case1 s s' hs ih => exact ih (hstep hs h)
  | case2 s hs => exact ⟨h, hs⟩

theorem Run.workerStep (h : Run b₀ log b) (hs : b.workerStep? = some b') : Run b₀ log b' := by
  rw [workerStep?, Option.orElse_eq_orElse, Option.orElse_eq_or] at hs
  rcases Option.or_eq_some_iff.mp hs with hs | ⟨-, hs⟩
  · exact h.deliver 0 hs
  · exact h.take hs

/-- Workers that have no step left have answered everything. -/
theorem Orderly.drained (h : Orderly b₀ first texts way b) (htake : b.take? = none) (hdeliver : b.deliver? 0 = none) :
    b.queue = [] ∧ b.busy = [] := by
  have hbusy : b.busy = [] := by
    cases hbusy : b.busy with
    | nil => rfl
    | cons job busy => simp [deliver?, hbusy] at hdeliver
  refine ⟨?_, hbusy⟩
  cases hqueue : b.queue with
  | nil => rfl
  | cons job queue => simp [take?, hqueue, hbusy, h.workers] at htake

theorem drained_of_workerStep (h : b.workerStep? = none) : b.take? = none ∧ b.deliver? 0 = none := by
  rw [workerStep?, Option.orElse_eq_orElse, Option.orElse_eq_or, Option.or_eq_none_iff] at h
  exact h.symm

/-- In every run of a new book, whatever its first number, its workers and their schedule, the submissions that there
    are numbers for are accepted and all later ones are refused without effect; what has been released are the
    first answers, in order, each once; when the workers have no step left, and so when the book is finished,
    every answer has been released and none waits. -/
theorem released_in_order {first : Nat} (hfirst : first ≤ lastNumber) (jobs : Nat) (constants : Constants)
    (gen : σ) : ∃ b₀, make jobs first constants gen = .ok b₀ ∧ ∀ log b, Run b₀ log b →
      (∀ e ∈ log, ∀ f, Formula.read b₀.table e.1 = .ok f → f.NeverDraws) →
      log.map Prod.snd = (List.range log.length).map (receipt first) ∧
      (∀ text, lastNumber ≤ first + log.length → b.submit text = (.error (.exhausted lastNumber), b)) ∧
      b.released <+: b₀.answersTo first ((log.map Prod.fst).take (lastNumber - first)) ∧
      (b.take? = none → (∀ i, b.deliver? i = none) →
        b.released = b₀.answersTo first ((log.map Prod.fst).take (lastNumber - first)) ∧ b.answers.pending = 0) ∧
      Run b₀ log b.finish ∧
      b.finish.released = b₀.answersTo first ((log.map Prod.fst).take (lastNumber - first)) ∧
      b.finish.answers.pending = 0 := by
  obtain ⟨b₀, hmake⟩ := exists_make jobs first constants gen
  obtain ⟨-, h₀⟩ := orderly_of_make hmake hfirst
  refine ⟨b₀, hmake, fun log b hrun hsteady => ?_⟩
  obtain ⟨hb, hreceipts⟩ := hrun.orderly h₀ hsteady
  have hnext := hb.next
  rw [List.length_take, List.length_map] at hnext
  obtain ⟨hfinish, hstuck⟩ := runToEnd_induct stepsLeft_of_workerStep? (fun hs h => Run.workerStep h hs) hrun
  have hend := drained_of_workerStep hstuck
  have hdone := (hfinish.orderly h₀ hsteady).1
  refine ⟨hreceipts, fun text hout => submit_exhausted (by omega) text, hb.released_prefix, fun htake hdeliver => ?_, ?_⟩
  · exact hb.complete (hb.drained htake (hdeliver 0)).1 (hb.drained htake (hdeliver 0)).2
  · exact ⟨hfinish, hdone.complete (hdone.drained hend.1 hend.2).1 (hdone.drained hend.1 hend.2).2⟩

/-- Where one number is left, the first of two inputs gets it. -/
theorem released_in_order_two : lastNumber - 1 ≤ lastNumber ∧ ∃ b₀ b,
    make 0 (lastNumber - 1) .default (⟨0⟩ : Always) = .ok b₀ ∧
    Run b₀ [("x", .ok (lastNumber - 1)), ("pi", .error (.exhausted lastNumber))] b ∧
    b.finish.released = b₀.answersTo (lastNumber - 1) ["x"] ∧ b.finish.answers.pending = 0 := by
  obtain ⟨b₀, hmake, h⟩ := released_in_order (show lastNumber - 1 ≤ lastNumber by decide) 0 .default (⟨0⟩ : Always)
  have hrun := Run.submit "pi" (Run.submit "x" (.start : Run b₀ [] b₀))
  have hname : ∀ name ∈ ["x", "pi"], Lexeme.IsIdentifier name.toList := by decide
  obtain ⟨hreceipts, -, -, -, -, hreleased, hpending⟩ := h _ _ hrun fun e he f hread => by
    rw [Formula.read_identifier (orderly_of_make hmake (by decide)).1 (hname e.1 (List.mem_map_of_mem he))] at hread
    cases hread
    exact fun args hmem => by cases List.mem_singleton.mp hmem
  have hsubmit : [(b₀.submit "x").1, ((b₀.submit "x").2.submit "pi").1] =
      [.ok (lastNumber - 1), .error (.exhausted lastNumber)] := hreceipts
  obtain ⟨hx, hpi⟩ := List.cons_eq_cons.mp hsubmit
  rw [hx, List.singleton_inj.mp hpi] at hrun
  exact ⟨by decide, b₀, _, hmake, hrun, hreleased, hpending⟩

end Calcbook.Book
