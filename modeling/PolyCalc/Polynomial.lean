import Std.Data.TreeMap
import PolyCalc.Term

/-!
# Polynomials in normal form

A polynomial is a list of terms: no coefficient is zero, no monomial occurs twice, and the terms
stand in the order in which they are written. `ofTerms` brings any list of terms into that form.

Like terms are summed in the order in which they arrive. For integers the order is immaterial;
sums of doubles round, so there it shows.
-/

namespace PolyCalc

/-- A sum of terms. -/
structure Polynomial where
  terms : List Term
  deriving DecidableEq, Inhabited

namespace Polynomial

/-- Coefficients by monomial, in the order of the monomials. -/
abbrev Sums := Std.TreeMap Monomial Number

/-- Adds a term to the sums. A zero is skipped, so it never starts a sum. -/
def accumulate (sums : Sums) (t : Term) : Sums :=
  if t.coefficient.isZero then sums
  else sums.alter t.monomial fun
    | none => some t.coefficient
    | some c => some (c + t.coefficient)

/-- The normal form of a sum of terms: like terms are merged from left to right, zeros are
dropped, and the rest is sorted. -/
def ofTerms (terms : List Term) : Polynomial :=
  let sums := terms.foldl accumulate ∅
  ⟨(sums.toList.filter fun (_, c) => !c.isZero).map fun (m, c) => ⟨c, m⟩⟩

def ofTerm (t : Term) : Polynomial := ofTerms [t]

def zero : Polynomial := ⟨[]⟩

def size (p : Polynomial) : Nat := p.terms.length

def isZero (p : Polynomial) : Bool := p.terms.isEmpty

/-- Whether each term stands strictly before the one after it. -/
def ascending : List Term → Bool
  | s :: t :: rest => s.order t == .lt && ascending (t :: rest)
  | _ => true

/-- Whether the list of terms is in normal form: no zeros, strictly ascending. -/
def isNormal (p : Polynomial) : Bool :=
  (p.terms.all fun t => !t.coefficient.isZero) && ascending p.terms

/-- Equal terms in the same order. -/
def sameValue (p q : Polynomial) : Bool := p.terms == q.terms

instance : BEq Polynomial := ⟨sameValue⟩

/-- A term as it stands after the first one: a positive coefficient gets a `+`, a negative one
brings its own sign. -/
def laterText (t : Term) : String :=
  if t.coefficient.isPositive then "+" ++ t.toText else t.toText

def toText (p : Polynomial) : String :=
  match p.terms with
  | [] => "0"
  | t :: rest => t.toText ++ String.join (rest.map laterText)

end Polynomial

end PolyCalc
