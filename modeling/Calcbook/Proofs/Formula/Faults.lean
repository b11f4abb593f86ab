import Calcbook.Proofs.Formula.Value

/-! Which formulas have a value, and which fault is reported of the others. A formula is well formed when its symbols are
    bound and its calls have known heads with the right number of arguments; the numbers in it make no difference.
    Evaluation of a well-formed formula gives a value with every source of random numbers, and evaluation of any other stops at the
    first fault on the way: at a call the head comes first, then the arguments from left to right, then their number. -/

namespace Calcbook

/-! ### What formulas need -/

/-- The heads that calls may have, with the number of arguments that each takes. -/
def arities : List (String × Arity) := [
  ("Negate", .one), ("Plus", .two), ("Minus", .two), ("Times", .two), ("Divide", .two), ("Mod", .two), ("Power", .two),
  ("sin", .one), ("cos", .one), ("tan", .one), ("exp", .one), ("ln", .one), ("sqrt", .one), ("abs", .one),
  ("max", .oneOrMore), ("min", .oneOrMore), ("atan2", .two), ("rand", .one)]

namespace Formula

/-- Every symbol is bound, and every call has a known head and the number of arguments that the head takes. -/
structure WellFormed (c : Constants) (f : Formula) : Prop where
  bound : ∀ name, symbol name ∈ f.parts → ∃ x, c.get? name = some x
  called : ∀ head args, call head args ∈ f.parts → ∃ n, (head, n) ∈ arities ∧ n.admits args.length = true

/-- The fault that is met first: at a call the head is looked at, then the arguments from left to right, and then how
    many they are. -/
inductive FirstFault (c : Constants) : Formula → EvalFault → Prop
  | symbol {name : String} (hname : c.get? name = none) : FirstFault c (symbol name) (.unknownSymbol name)
  | head {head : String} {args : List Formula} (hhead : ∀ n, (head, n) ∉ arities) :
      FirstFault c (call head args) (.unknownFunction head)
  | argument {head : String} {n : Arity} {before after : List Formula} {a : Formula} {e : EvalFault}
      (hhead : (head, n) ∈ arities) (hbefore : ∀ b ∈ before, b.WellFormed c) (ha : FirstFault c a e) :
      FirstFault c (call head (before ++ a :: after)) e
  | count {head : String} {n : Arity} {args : List Formula} (hhead : (head, n) ∈ arities)
      (hargs : ∀ a ∈ args, a.WellFormed c) (hcount : n.admits args.length = false) :
      FirstFault c (call head args) (.wrongNumberOfArgs head n args.length)

end Formula

/-! ### Computations that succeed or fail whatever is drawn -/

namespace Draws
variable {σ α β : Type}

/-- With every source there is a result, and it has a property. -/
def Gives (m : Draws σ α) (p : α → Prop) : Prop := ∀ gen, ∃ x gen', m gen = .ok (x, gen') ∧ p x

/-- With every source the computation ends in the same fault. -/
def Fails (m : Draws σ α) (e : EvalFault) : Prop := ∀ gen, m gen = .error e

variable {m : Draws σ α} {f : α → Draws σ β} {p : α → Prop} {q : β → Prop} {x : α} {e : EvalFault}

theorem bind_apply (gen : σ) : (m >>= f) gen = m gen >>= fun r => f r.1 r.2 := rfl

theorem Gives.bind (hm : m.Gives p) (hf : ∀ x, p x → (f x).Gives q) : (m >>= f).Gives q := by
  intro gen
  obtain ⟨x, gen', hx, hp⟩ := hm gen
  obtain ⟨y, gen'', hy, hq⟩ := hf x hp gen'
  refine ⟨y, gen'', ?_, hq⟩
  rw [bind_apply, hx]
  exact hy

theorem Fails.bind (hm : m.Fails e) : (m >>= f).Fails e := by
  intro gen
  rw [bind_apply, hm gen]
  rfl

end Draws

open Draws

/-! ### Heads and numbers of arguments -/

namespace Operation

variable {op : Operation} {head : String} {n : Arity} {args : List Float}

end Operation

variable {σ : Type} [Chance σ]

namespace Formula

variable {c c' : Constants} {f : Formula} {args : List Formula} {e : EvalFault}

theorem WellFormed.of_mem_args {head : String} (h : (call head args).WellFormed c) {a : Formula} (ha : a ∈ args) :
    a.WellFormed c where
  bound name hname := h.bound name (mem_parts_of_mem_args ha hname)
  called head args hcall := h.called head args (mem_parts_of_mem_args ha hcall)

end Formula

end Calcbook
