import PolyCalc.Product

/-!
# Powers

An exponent has to be a constant with an exact integer value from zero to
`Monomial.maxExponent`; `2.0` will do as well as `2`. A power of a single term is computed in
closed form, factor by factor; a polynomial of several terms is multiplied out.

Integer powers of integers are exact up to `maxPowerBits` bits. As soon as the base or the
exponent is a double, the power is one too, and then it has to be finite.
-/

namespace PolyCalc

namespace Number

/-- The number as an exponent. -/
def toExponent (e : Number) : Except Refusal Nat :=
  match e.toInt? with
  | some i =>
      if 0 ≤ i ∧ i ≤ Monomial.maxExponent then .ok i.toNat
      else .error (.exponentNotNatural e)
  | none => .error (.exponentNotNatural e)

/-- The length of the magnitude of an integer in bits; zero has none. -/
def bits (i : Int) : Nat :=
  if i = 0 then 0 else i.natAbs.log2 + 1

/-- The integer power, refused on the number of bits that the base times the exponent allow. -/
def powInt (i : Int) (n : Nat) : Except Refusal Int :=
  if 1 < i.natAbs ∧ maxPowerBits < bits i * n then .error (.powerTooLarge i n)
  else .ok (Int.pow i n)

/-- The power of doubles, refused unless it is finite. -/
def powFloat (b e : Number) (n : Nat) : Except Refusal Float :=
  let x := Float.pow b.toFloat (Binary64.ofInt n)
  if x.isFinite then .ok x else .error (.powerOverflows b e)

/-- The power of a number. A double as exponent makes the result a double. -/
def pow (b e : Number) : Except Refusal Number := do
  let n ← e.toExponent
  match b, e with
  | .int i, .int _ => return .int (← powInt i n)
  | b, e => return .float (← powFloat b e n)

end Number

namespace Monomial

/-- Multiplies every exponent. The zeroth power is the constant monomial. -/
def pow (m : Monomial) (n : Nat) : Except Refusal Monomial :=
  if n = 0 then .ok one
  else do
    return ⟨← m.factors.mapM fun (name, e) => do
      return (name, ← checkExponent name (e * n))⟩

end Monomial

namespace Term

def pow (t : Term) (e : Number) : Except Refusal Term := do
  let n ← e.toExponent
  return ⟨← t.coefficient.pow e, ← t.monomial.pow n⟩

end Term

namespace Polynomial

/-- Multiplies a value by the polynomial `n` times. -/
def expand (p : Polynomial) : Nat → Value → Except Refusal Value
  | 0, v => .ok v
  | n + 1, v => do p.expand n (← v.toPolynomial.mul (.poly p))

/-- The power of a polynomial. The identity that the expansion starts from is the number one to
the same power, so that a double as exponent makes it a double. -/
def pow (p : Polynomial) (e : Number) : Except Refusal Value := do
  let n ← e.toExponent
  let identity := Term.constant (← Number.one.pow e)
  match p.terms with
  | [] => return .term (if n = 0 then identity else .zero)
  | [t] =>
      let power ← t.pow e
      return if power.isConstant then .term power else .poly (.ofTerm power)
  | _ :: _ :: _ =>
      if maxExpansionPower < n then .error (.expansionTooLarge n)
      else p.expand n (.term identity)

end Polynomial

namespace Value

/-- The power. The exponent has to be a constant. -/
def pow (v exponent : Value) : Except Refusal Value :=
  match exponent.constant? with
  | none => .error (.exponentNotConstant exponent)
  | some e =>
      match v with
      | .term t => (t.pow e).map .term
      | .poly p => p.pow e

end Value

end PolyCalc
