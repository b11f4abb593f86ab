import Calcbook.Formula.Basic

/-! The parts of a formula: the formula itself, its arguments, their arguments and so on. What is asked of
    all the numbers, symbols or heads of a formula is asked of its parts. -/

namespace Calcbook.Formula

/-- A property holds of every formula when it holds of a call as soon as it holds of all arguments. -/
@[induction_eliminator]
theorem induct {P : Formula → Prop} (number : ∀ x, P (number x)) (symbol : ∀ name, P (symbol name))
    (call : ∀ head args, (∀ a ∈ args, P a) → P (call head args)) (f : Formula) : P f :=
  @Formula.rec P (fun args => ∀ a ∈ args, P a) number symbol (fun _ _ h => call _ _ h)
    (fun _ h => nomatch h) (fun _ _ h hs => List.forall_mem_cons.mpr ⟨h, hs⟩) f

mutual
/-- A formula and all that it is made of. -/
def parts : Formula → List Formula
  | number x => [number x]
  | symbol name => [symbol name]
  | call head args => call head args :: partsAll args

/-- The parts of some formulas. -/
def partsAll : List Formula → List Formula
  | [] => []
  | a :: as => parts a ++ partsAll as
end

theorem partsAll_eq_flatMap (args : List Formula) : partsAll args = args.flatMap parts := by
  induction args with
  | nil => rfl
  | cons a args ih => rw [partsAll, ih, List.flatMap_cons]

theorem mem_parts_call {head : String} {args : List Formula} {f : Formula} :
    f ∈ parts (call head args) ↔ f = call head args ∨ ∃ a ∈ args, f ∈ parts a := by
  rw [parts, partsAll_eq_flatMap, List.mem_cons, List.mem_flatMap]

theorem self_mem_parts (f : Formula) : f ∈ parts f := by
  cases f <;> simp [parts]

theorem mem_parts_of_mem_args {head : String} {args : List Formula} {a f : Formula} (ha : a ∈ args)
    (hf : f ∈ parts a) : f ∈ parts (call head args) :=
  mem_parts_call.mpr (Or.inr ⟨a, ha, hf⟩)

theorem mem_parts_trans {f g h : Formula} (hfg : f ∈ parts g) (hgh : g ∈ parts h) : f ∈ parts h := by
  induction h with
  | number | symbol =>
    rw [parts, List.mem_singleton] at hgh
    exact hgh ▸ hfg
  | call head args ih =>
    rcases mem_parts_call.mp hgh with rfl | ⟨a, ha, hga⟩
    · exact hfg
    · exact mem_parts_of_mem_args ha (ih a ha hga)

end Calcbook.Formula
