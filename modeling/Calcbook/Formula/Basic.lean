/-! Formulas: numbers, symbols, and calls of a head with arguments. Operators are calls too, by heads
    such as `Plus`. -/

namespace Calcbook

/-- An arithmetic formula. -/
inductive Formula
  | number (value : Float)
  | symbol (name : String)
  | call (head : String) (args : List Formula)

namespace Formula

mutual
/-- Formulas are compared by shape and names, and their numbers as numbers. -/
def same : Formula → Formula → Bool
  | number x, number y => x == y
  | symbol s, symbol t => s == t
  | call h as, call k bs => h == k && sameAll as bs
  | _, _ => false

/-- Lists of formulas are compared item by item. -/
def sameAll : List Formula → List Formula → Bool
  | [], [] => true
  | a :: as, b :: bs => same a b && sameAll as bs
  | _, _ => false
end

instance : BEq Formula := ⟨same⟩

end Formula

end Calcbook
