import PolyCalc.Binary64.Exact

/-!
# Doubles as decimal text

Writing a double is positional at every magnitude. An integral value shows all of its digits and
a `.0` that tells it from an integer; any other value shows the fewest digits after the point
that read back as the same double.

The fewest digits are found on decimal grids. A double stands for an interval of reals, the ones
that round to it. On the grid of step `10 ^ -places` only the two neighbours of the exact value
can be nearest to it, so the first grid that has one of them inside the interval gives the text.
-/

namespace PolyCalc.Binary64

open Float.Model (UnpackedFloat)

/-- The double nearest to `digits / 10 ^ places`, ties going to the even significand. -/
def ofDecimal (digits places : Nat) : Float :=
  Float.ofScientific digits true places

/-- The positive reals that round to one double, over a common denominator: from `low` to `high`
about `value`, ends included when the significand is even. -/
structure Interval where
  low : Nat
  value : Nat
  high : Nat
  denominator : Nat
  closed : Bool

/-- The interval about `significand / 2 ^ shift`. Its ends lie half way to the two neighbouring
doubles; below a power of two the lower neighbour is only half as far away. -/
def Interval.about (significand shift : Nat) : Interval where
  low := if significand = 1 <<< 52 ∧ shift < 1074 then 4 * significand - 1 else 4 * significand - 2
  value := 4 * significand
  high := 4 * significand + 2
  denominator := 4 <<< shift
  closed := significand % 2 = 0

/-- Whether `digits / 10 ^ places` rounds to the double of the interval. -/
def Interval.has (r : Interval) (digits places : Nat) : Bool :=
  let low := r.low * Nat.pow 10 places
  let high := r.high * Nat.pow 10 places
  let point := digits * r.denominator
  if r.closed then low ≤ point ∧ point ≤ high else low < point ∧ point < high

/-- The best number on the grid of step `10 ^ -places` that rounds to the double: of the two
neighbours of the exact value the nearer one, and the upper one where both are as near. -/
def Interval.nearest? (r : Interval) (places : Nat) : Option Nat :=
  let scaled := r.value * Nat.pow 10 places
  let below := scaled / r.denominator
  let above := below + 1
  match r.has below places, r.has above places with
  | true, true =>
      if (below + above) * r.denominator ≤ 2 * scaled then some above
      else some below
  | true, false => some below
  | false, true => some above
  | false, false => none

/-- The digits and the number of places of the shortest decimal that rounds to
`significand / 2 ^ shift`. With `shift` places the grid holds the exact value itself, so the
search never runs out. -/
def shortest (significand shift : Nat) : Nat × Nat :=
  let r := Interval.about significand shift
  ((List.range (shift + 1)).findSome? fun places =>
      (r.nearest? places).map fun digits => (digits, places)).getD
    (significand * Nat.pow 5 shift, shift)

/-- The digits of a fraction, with zeros in front to fill `places`. -/
def padded (digits places : Nat) : String :=
  let text := toString digits
  "".pushn '0' (places - text.length) ++ text

/-- The text of a finite double without its sign. -/
def magnitudeText (significand : Nat) (exponent : Int) : String :=
  match scaled? significand exponent with
  | some n => toString n ++ ".0"
  | none =>
      let (digits, places) := shortest significand (-exponent).toNat
      let unit := Nat.pow 10 places
      toString (digits / unit) ++ "." ++ padded (digits % unit) places

/-- The text of a double: `3.0`, `-0.0`, `0.001`, `inf`, `-inf`, `NaN`. -/
def toText (x : Float) : String :=
  match x.toModel.unpack with
  | .zero .positive => "0.0"
  | .zero .negative => "-0.0"
  | .finite .positive significand exponent _ => magnitudeText significand exponent
  | .finite .negative significand exponent _ => "-" ++ magnitudeText significand exponent
  | .infinity .positive => "inf"
  | .infinity .negative => "-inf"
  | .notANumber => "NaN"

end PolyCalc.Binary64
