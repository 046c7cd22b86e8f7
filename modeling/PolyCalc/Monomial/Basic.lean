/-!
# Monomials

The variable part of a term, such as `x^2*y`: variables with their exponents, in the order of
their names. A list of factors is canonical if its names strictly increase and no exponent is
zero; then every monomial has exactly one list, and the constant monomial has the empty one.

`ofPairs` brings any list of pairs into that form. Reading an exponent back, `exponent`, searches
the factors by halving, which the order of the names makes sound.
-/

namespace PolyCalc

/-- A product of powers of variables. -/
structure Monomial where
  factors : List (String × Nat)
  deriving DecidableEq, Inhabited

namespace Monomial

/-- The largest exponent that a product or a power may give to a variable, `2 ^ 32 - 1`. -/
def maxExponent : Nat := 4294967295

/-- The largest exponent that a factor can hold, `2 ^ 64 - 1`. Collected pairs stop here instead
of passing it. -/
def maxStoredExponent : Nat := 18446744073709551615

/-- Names strictly increase and every variable occurs. -/
def IsCanonical (m : Monomial) : Prop :=
  m.factors.Pairwise (fun a b => a.1 < b.1) ∧ ∀ f ∈ m.factors, 0 < f.2

/-- The monomial without variables. -/
def one : Monomial := ⟨[]⟩

/-- A single variable to the first power. -/
def var (name : String) : Monomial := ⟨[(name, 1)]⟩

def isConstant (m : Monomial) : Bool := m.factors.isEmpty

/-- The number of variables that occur. -/
def size (m : Monomial) : Nat := m.factors.length

/-! ## Collecting pairs -/

/-- The sum of two exponents, or the largest one that a factor can hold. -/
def saturatingAdd (a b : Nat) : Nat := min (a + b) maxStoredExponent

/-- Puts a pair into a list of factors in order, adding to the exponent of a name that is
there already. -/
def collect (name : String) (exponent : Nat) : List (String × Nat) → List (String × Nat)
  | [] => [(name, saturatingAdd 0 exponent)]
  | (other, e) :: rest =>
      match compare name other with
      | .lt => (name, saturatingAdd 0 exponent) :: (other, e) :: rest
      | .eq => (other, saturatingAdd e exponent) :: rest
      | .gt => (other, e) :: collect name exponent rest

/-- The canonical monomial of arbitrary pairs: sorted by name, exponents of one name summed,
zeros dropped. -/
def ofPairs (pairs : List (String × Nat)) : Monomial :=
  ⟨(pairs.filter fun p => p.2 ≠ 0).foldl (fun factors p => collect p.1 p.2 factors) []⟩

/-! ## Looking up an exponent -/

/-- Halves a sorted list of factors until the name is found or nothing is left. `steps` bounds
the halvings; a list of `n` factors needs no more than `n`. -/
def search (name : String) : Nat → List (String × Nat) → Nat
  | 0, _ => 0
  | steps + 1, factors =>
      match factors.drop (factors.length / 2) with
      | [] => 0
      | (middle, e) :: above =>
          match compare name middle with
          | .lt => search name steps (factors.take (factors.length / 2))
          | .eq => e
          | .gt => search name steps above

/-- The exponent of a variable, zero if it does not occur. -/
def exponent (m : Monomial) (name : String) : Nat :=
  search name m.factors.length m.factors

/-! ## Text -/

/-- A factor as text; the exponent one is not written. -/
def factorText (factor : String × Nat) : String :=
  if factor.2 = 1 then factor.1 else factor.1 ++ "^" ++ toString factor.2

def toText (m : Monomial) : String :=
  "*".intercalate (m.factors.map factorText)

end Monomial

end PolyCalc
