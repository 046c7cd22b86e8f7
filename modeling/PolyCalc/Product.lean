import PolyCalc.Refusal

/-!
# Products

Multiplying adds exponents, and the only thing that can go wrong is that a variable gets an
exponent beyond `Monomial.maxExponent`. Monomials multiply by merging their sorted factors; a
polynomial is distributed over the other operand, row by row.
-/

namespace PolyCalc

namespace Monomial

/-- Lets an exponent pass if a variable may have it. -/
def checkExponent (name : String) (exponent : Nat) : Except Refusal Nat :=
  if exponent ≤ maxExponent then .ok exponent else .error (.exponentTooLarge name)

/-- Merges one factor into a sorted list, `rest` being the merge of all that comes after it. -/
def mergeFactor (factor : String × Nat) (factors : List (String × Nat))
    (rest : List (String × Nat) → Except Refusal (List (String × Nat))) :
    List (String × Nat) → Except Refusal (List (String × Nat))
  | [] => .ok (factor :: factors)
  | other :: others =>
      match compare factor.1 other.1 with
      | .lt => do return factor :: (← rest (other :: others))
      | .eq => do
          let exponent ← checkExponent factor.1 (factor.2 + other.2)
          return (factor.1, exponent) :: (← rest others)
      | .gt => do return other :: (← mergeFactor factor factors rest others)

/-- Merges two sorted lists of factors. The exponents of a shared name are added. -/
def mergeFactors : List (String × Nat) → List (String × Nat) →
    Except Refusal (List (String × Nat))
  | [], others => .ok others
  | factor :: factors, others => mergeFactor factor factors (mergeFactors factors) others

def mul (a b : Monomial) : Except Refusal Monomial :=
  (mergeFactors a.factors b.factors).map Monomial.mk

end Monomial

namespace Term

def mul (s t : Term) : Except Refusal Term := do
  return ⟨s.coefficient * t.coefficient, ← s.monomial.mul t.monomial⟩

end Term

namespace Polynomial

/-- All products of a term on the left with a term on the right, row by row. -/
def products (ss ts : List Term) : Except Refusal (List Term) :=
  (ss.flatMap fun s => ts.map fun t => (s, t)).mapM fun (s, t) => s.mul t

/-- The sum of products. If all of them are constants, they are added up from zero to a single
term; any other sum is a polynomial. -/
def collectProducts (ts : List Term) : Value :=
  if ts.all Term.isConstant then
    .constant (ts.foldl (fun sum t => sum + t.coefficient) .zero)
  else
    .poly (.ofTerms ts)

/-- Distributes a polynomial over a value. -/
def mul (p : Polynomial) (v : Value) : Except Refusal Value := do
  return collectProducts (← products p.terms v.terms)

end Polynomial

namespace Value

/-- The product. Two terms make a term; a term that meets a polynomial on its right is
normalised first. -/
def mul : Value → Value → Except Refusal Value
  | .term s, .term t => (s.mul t).map .term
  | .poly p, w => p.mul w
  | .term s, .poly q => (Polynomial.ofTerm s).mul (.poly q)

end Value

end PolyCalc
