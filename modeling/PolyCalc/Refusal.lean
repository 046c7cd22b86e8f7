import PolyCalc.Value

/-!
# Refused arithmetic

Products and powers are refused when they would leave the range that the calculator supports.
Every refusal names what was asked for.
-/

namespace PolyCalc

/-- Integer powers are computed up to this size in bits, `2 ^ 20`. -/
def maxPowerBits : Nat := 1048576

/-- A polynomial of more than one term is expanded up to this power. -/
def maxExpansionPower : Nat := 1024

/-- Why a product or a power is not computed. -/
inductive Refusal where
  /-- The exponent is no integer between zero and the largest exponent. -/
  | exponentNotNatural (exponent : Number)
  /-- The exponent depends on a variable. -/
  | exponentNotConstant (exponent : Value)
  /-- The integer power is too large to be written out. -/
  | powerTooLarge (base : Int) (exponent : Nat)
  /-- The power of doubles is infinite or NaN. -/
  | powerOverflows (base exponent : Number)
  /-- A variable would get an exponent beyond the largest one. -/
  | exponentTooLarge (variableName : String)
  /-- A polynomial of several terms is raised too high. -/
  | expansionTooLarge (exponent : Nat)
  deriving DecidableEq

namespace Refusal

def message : Refusal → String
  | .exponentNotNatural e => "exponent must be a non-negative integer, got " ++ e.toText
  | .exponentNotConstant v => "exponent must be a constant, got " ++ v.toText
  | .powerTooLarge i n =>
      toString i ++ "^" ++ toString n ++ " exceeds " ++ toString maxPowerBits ++ " bits"
  | .powerOverflows b e => b.toText ++ "^" ++ e.toText ++ " overflows"
  | .exponentTooLarge x =>
      "exponent of " ++ x ++ " exceeds " ++ toString Monomial.maxExponent
  | .expansionTooLarge n =>
      "polynomial power " ++ toString n ++ " exceeds " ++ toString maxExpansionPower

end Refusal

end PolyCalc
