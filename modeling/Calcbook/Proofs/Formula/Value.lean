import Calcbook.Formula.Value
import Calcbook.Proofs.Formula.Parts

/-! Values without chance. Only the random function draws from the source, so a formula that does not call it has
    the same value, or the same fault, with every source. -/

namespace Calcbook

/-- A source that gives the same number at every draw. -/
structure Always where
  number : Float

instance : Chance Always := ⟨fun a => (a.number, a), fun a => (a, a)⟩

variable {σ : Type}

/-- A result that does not depend on the source and leaves it as it is. -/
def Draws.Steady {α : Type} (m : Draws σ α) : Prop := ∃ r : Except EvalFault α, ∀ gen, m gen = r.map (·, gen)

namespace Draws
variable {α β : Type}

theorem steady_pure (x : α) : Steady (pure x : Draws σ α) := ⟨.ok x, fun _ => rfl⟩

theorem steady_throw (e : EvalFault) : Steady (throw e : Draws σ α) := ⟨.error e, fun _ => rfl⟩

theorem Steady.bind {m : Draws σ α} {f : α → Draws σ β} (hm : m.Steady) (hf : ∀ x, (f x).Steady) : (m >>= f).Steady := by
  obtain ⟨r, hr⟩ := hm
  cases r with
  | error e => exact ⟨.error e, fun gen => by simp [StateT.bind, Bind.bind, hr gen, Except.map, Except.bind]⟩
  | ok x =>
    obtain ⟨s, hs⟩ := hf x
    exact ⟨s, fun gen => by simp [StateT.bind, Bind.bind, hr gen, Except.map, Except.bind, hs gen]⟩

end Draws

open Draws

variable [Chance σ]

theorem NamedFunction.steady_apply {f : NamedFunction} (hf : f ≠ .rand) (args : List Float) :
    (f.apply args : Draws σ Float).Steady := by
  unfold NamedFunction.apply
  split
  case h_11 => exact (hf rfl).elim
  case h_12 => exact steady_throw _
  all_goals exact steady_pure _

theorem Operation.steady_apply {op : Operation} (hop : op ≠ .function .rand) (head : String) (args : List Float) :
    (op.apply head args : Draws σ Float).Steady := by
  unfold Operation.apply
  split
  · exact steady_pure _
  · exact steady_pure _
  · exact NamedFunction.steady_apply (fun h => hop (h ▸ rfl)) _
  · exact steady_throw _

theorem NamedFunction.name_of_ofName? {s : String} {f : NamedFunction} (h : ofName? s = some f) : f.name = s := by
  simpa using List.find?_some h

/-- Only its own name stands for a function. -/
theorem Operation.name_of_ofHead {head : String} {f : NamedFunction} (h : ofHead head = .ok (.function f)) :
    f.name = head := by
  unfold ofHead at h
  split at h
  · cases h
  · split at h
    · cases h
    · rename_i f' _ hf
      cases h
      exact NamedFunction.name_of_ofName? hf
    · cases h

namespace Formula

/-- A formula that calls the random function nowhere. -/
def NeverDraws (f : Formula) : Prop := ∀ args, call "rand" args ∉ f.parts

theorem NeverDraws.of_mem_args {head : String} {args : List Formula} (h : (call head args).NeverDraws) {a : Formula}
    (ha : a ∈ args) : a.NeverDraws :=
  fun inner hin => h inner (mem_parts_of_mem_args ha hin)

variable {c : Constants}

theorem steady_evalAll {args : List Formula} (h : ∀ a ∈ args, (a.eval σ c).Steady) : (evalAll σ c args).Steady := by
  induction args with
  | nil => exact steady_pure _
  | cons a args ih =>
    obtain ⟨ha, hargs⟩ := List.forall_mem_cons.mp h
    exact ha.bind fun x => (ih hargs).bind fun xs => steady_pure (x :: xs)

theorem NeverDraws.steady_eval {f : Formula} (h : f.NeverDraws) : (f.eval σ c).Steady := by
  induction f with
  | number x => exact steady_pure x
  | symbol name =>
    unfold eval
    split
    · exact steady_pure _
    · exact steady_throw _
  | call head args ih =>
    have hargs := steady_evalAll fun a ha => ih a ha (h.of_mem_args ha)
    have hhead : head ≠ "rand" := by
      rintro rfl
      exact h args (self_mem_parts _)
    unfold eval
    split
    · rename_i op hop
      refine hargs.bind fun xs => Operation.steady_apply ?_ head xs
      rintro rfl
      exact hhead (Operation.name_of_ofHead hop).symm
    · exact steady_throw _

/-- The value of a formula that never draws is the same with every source. -/
theorem NeverDraws.value_eq {f : Formula} (h : f.NeverDraws) (gen gen' : σ) : f.value c gen = f.value c gen' := by
  obtain ⟨r, hr⟩ : (f.eval σ c).Steady := h.steady_eval
  have hvalue : ∀ gen : σ, f.value c gen = r := fun gen => by
    unfold value StateT.run'
    rw [hr gen]
    cases r <;> rfl
  rw [hvalue gen, hvalue gen']

end Formula

end Calcbook
