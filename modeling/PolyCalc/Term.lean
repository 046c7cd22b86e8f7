import PolyCalc.Number
import PolyCalc.Monomial.Order

/-!
# Terms

A term is a coefficient times a monomial. A term with the coefficient zero keeps its monomial:
it is the answer of `x-x`, and only a polynomial drops it.
-/

namespace PolyCalc

/-- A coefficient times a monomial. -/
structure Term where
  coefficient : Number
  monomial : Monomial
  deriving DecidableEq, Inhabited

namespace Term

def constant (c : Number) : Term := ⟨c, .one⟩

/-- The variable itself, with the coefficient one. -/
def var (name : String) : Term := ⟨.one, .var name⟩

def zero : Term := constant .zero

def isConstant (t : Term) : Bool := t.monomial.isConstant

/-- Terms are alike if they differ at most in their coefficients. -/
def isLike (s t : Term) : Bool := decide (s.monomial = t.monomial)

def neg (t : Term) : Term := ⟨-t.coefficient, t.monomial⟩

/-- Multiplies the coefficient; the variables stay. -/
def scale (t : Term) (factor : Number) : Term := ⟨t.coefficient * factor, t.monomial⟩

instance : Neg Term := ⟨neg⟩

/-- Equal coefficients, whatever their kind, and the same monomial. -/
def sameValue (s t : Term) : Bool :=
  s.coefficient == t.coefficient && decide (s.monomial = t.monomial)

instance : BEq Term := ⟨sameValue⟩

/-- The order in which terms are written. Two constants are ordered by their coefficients, all
other terms by their monomials alone. -/
def order (s t : Term) : Ordering :=
  if s.isConstant && t.isConstant then s.coefficient.order t.coefficient
  else s.monomial.order t.monomial

/-- A zero shows no variables, and the coefficient one is written only for a constant. -/
def toText (t : Term) : String :=
  if t.coefficient.isZero then
    t.coefficient.toText
  else if !t.isConstant && t.coefficient.isOne then
    t.monomial.toText
  else
    t.coefficient.toText ++ t.monomial.toText

end Term

end PolyCalc
