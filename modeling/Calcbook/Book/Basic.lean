import Calcbook.Book.Sequencer
import Calcbook.Formula.Reading
import Calcbook.Formula.Value

/-! Books of numbered inputs and answers. Inputs are numbered as they come. One that cannot be read is
    answered at once; all others are queued for workers, which answer them in whatever order they finish.
    A sequencer releases the answers by number. The steps of the workers are steps of the book, so every
    schedule of them is a run of it. -/

namespace Calcbook

/-- What an input evaluates to. -/
abbrev Answer := Except Failure Float

/-- The line of a released answer. -/
def answerLine (a : Numbered Answer) : String :=
  match a.value with
  | .ok x => s!"Out[{a.number}]= {Decimal.text x}"
  | .error why => s!"Out[{a.number}]= {why.message}"

/-- A book: the number of the next input, the formulas queued and those that workers have taken, the answers
    on their way to release, and the source that workers draw from. -/
structure Book (σ : Type) where
  table : ParseTable
  constants : Constants
  workers : Nat
  gen : σ
  next : Nat
  queue : List (Numbered Formula)
  busy : List (Numbered Formula)
  answers : Sequencer Answer
  released : List (Numbered Answer)

namespace Book

variable {σ : Type}

/-- A book that numbers its inputs from `first` on, with at least one worker. -/
def make (jobs first : Nat) (constants : Constants) (gen : σ) : Except Failure (Book σ) :=
  match Formula.table with
  | .error why => .error (.grammar why)
  | .ok table => .ok {
      table := table
      constants := constants
      workers := max jobs 1
      gen := gen
      next := first
      queue := []
      busy := []
      answers := .startingAt first
      released := [] }

/-- Sends an answer to the sequencer. -/
def answer (b : Book σ) (a : Numbered Answer) : Book σ :=
  let release := b.answers.submit a
  { b with answers := release.sequencer, released := b.released ++ release.items }

/-! ### Steps -/

/-- Numbers an input and reads it. No input gets the last number of all. -/
def submit (b : Book σ) (text : String) : Except Failure Nat × Book σ :=
  if lastNumber ≤ b.next then (.error (.exhausted b.next), b)
  else
    let numbered := { b with next := b.next + 1 }
    match Formula.read b.table text with
    | .ok f => (.ok b.next, { numbered with queue := b.queue ++ [⟨b.next, f⟩] })
    | .error why => (.ok b.next, numbered.answer ⟨b.next, .error why⟩)

/-- An idle worker takes the first formula of the queue. -/
def take? (b : Book σ) : Option (Book σ) :=
  match b.queue with
  | [] => none
  | job :: queue =>
    if b.busy.length < b.workers then some { b with queue := queue, busy := b.busy ++ [job] } else none

/-- The answer to a formula. -/
def evaluate [Chance σ] (b : Book σ) (gen : σ) (f : Formula) : Answer :=
  (f.value b.constants gen).mapError .eval

/-- The worker that took the `i`-th of the formulas in work answers it. -/
def deliver? [Chance σ] (b : Book σ) (i : Nat) : Option (Book σ) :=
  match b.busy[i]? with
  | none => none
  | some job =>
    let gens := Chance.split b.gen
    let idle := { b with gen := gens.2, busy := b.busy.eraseIdx i }
    some (idle.answer ⟨job.number, b.evaluate gens.1 job.value⟩)

/-! ### Waiting for the workers -/

/-- The number of steps that the workers have left. -/
def stepsLeft (b : Book σ) : Nat := 2 * b.queue.length + b.busy.length

theorem stepsLeft_answer (b : Book σ) (a : Numbered Answer) : (b.answer a).stepsLeft = b.stepsLeft := rfl

theorem stepsLeft_of_deliver? [Chance σ] {b b' : Book σ} {i : Nat} (h : b.deliver? i = some b') :
    b'.stepsLeft < b.stepsLeft := by
  rw [deliver?] at h
  split at h
  · cases h
  · rename_i job hjob
    have := (List.getElem?_eq_some_iff.mp hjob).1
    rw [← Option.some.inj h, stepsLeft_answer]
    simp only [stepsLeft, List.length_eraseIdx_of_lt this]
    omega

theorem stepsLeft_of_take? {b b' : Book σ} (h : b.take? = some b') :
    b'.stepsLeft < b.stepsLeft := by
  rw [take?] at h
  split at h
  · cases h
  · rename_i job queue hq
    split at h
    · cases h
      simp only [stepsLeft, hq, List.length_append, List.length_cons, List.length_nil]
      omega
    · cases h

/-- The next step of the workers, who take a formula only when none is in work. -/
def workerStep? [Chance σ] (b : Book σ) : Option (Book σ) := b.deliver? 0 <|> b.take?

theorem stepsLeft_of_workerStep? [Chance σ] {b b' : Book σ} (h : b.workerStep? = some b') :
    b'.stepsLeft < b.stepsLeft := by
  rw [workerStep?, Option.orElse_eq_orElse, Option.orElse_eq_or] at h
  rcases Option.or_eq_some_iff.mp h with h | ⟨-, h⟩
  · exact stepsLeft_of_deliver? h
  · exact stepsLeft_of_take? h

/-- Takes steps until there is none. Every step makes the state smaller. -/
def runToEnd {τ : Type} (step : τ → Option τ) (size : τ → Nat)
    (shrinks : ∀ {s s'}, step s = some s' → size s' < size s) (s : τ) : τ :=
  match _h : step s with
  | some s' => runToEnd step size shrinks s'
  | none => s
termination_by size s
decreasing_by exact shrinks _h

/-- Lets the workers answer everything that is queued. -/
def finish [Chance σ] (b : Book σ) : Book σ := runToEnd workerStep? stepsLeft stepsLeft_of_workerStep? b

end Book

end Calcbook
