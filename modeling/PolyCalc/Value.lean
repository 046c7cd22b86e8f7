import PolyCalc.Polynomial

/-!
# Values and their sums

The value of an expression is a single term as long as nothing had to be kept apart, and a
polynomial in normal form otherwise. The two shapes can describe the same polynomial: `==`
compares what they describe, not the shape.

Sums and differences never fail. Like terms merge into one term, even if that is zero; any other
sum of two terms is a polynomial, and so is every sum in which a polynomial takes part.
-/

namespace PolyCalc

/-- The value of an expression: one term, or a polynomial in normal form. -/
inductive Value where
  | term (t : Term)
  | poly (p : Polynomial)
  deriving DecidableEq, Inhabited

namespace Value

def constant (c : Number) : Value := .term (.constant c)

def var (name : String) : Value := .term (.var name)

/-- The terms as they are held; a single term is there even if its coefficient is zero. -/
def terms : Value → List Term
  | .term t => [t]
  | .poly p => p.terms

/-- The polynomial in normal form that the value describes. -/
def toPolynomial : Value → Polynomial
  | .term t => .ofTerm t
  | .poly p => p

/-- The number that the value is if it depends on no variable. -/
def constant? : Value → Option Number
  | .term t => if t.isConstant || t.coefficient.isZero then some t.coefficient else none
  | .poly p =>
      match p.terms with
      | [] => some .zero
      | [t] => if t.isConstant then some t.coefficient else none
      | _ => none

/-- Whether two values describe the same polynomial. -/
def sameValue (v w : Value) : Bool := v.toPolynomial == w.toPolynomial

instance : BEq Value := ⟨sameValue⟩

def toText : Value → String
  | .term t => t.toText
  | .poly p => p.toText

/-- The sum. A term that meets a polynomial on its right is normalised first. -/
def add : Value → Value → Value
  | .term s, .term t =>
      if s.isLike t then .term ⟨s.coefficient + t.coefficient, s.monomial⟩
      else .poly (.ofTerms [s, t])
  | .poly p, w => .poly (.ofTerms (p.terms ++ w.terms))
  | .term s, .poly q => .poly (.ofTerms ((Polynomial.ofTerm s).terms ++ q.terms))

/-- The difference, by the same cases as the sum. -/
def sub : Value → Value → Value
  | .term s, .term t =>
      if s.isLike t then .term ⟨s.coefficient - t.coefficient, s.monomial⟩
      else .poly (.ofTerms [s, -t])
  | .poly p, w => .poly (.ofTerms (p.terms ++ w.terms.map Term.neg))
  | .term s, .poly q => .poly (.ofTerms ((Polynomial.ofTerm s).terms ++ q.terms.map Term.neg))

end Value

end PolyCalc
