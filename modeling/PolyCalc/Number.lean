import PolyCalc.Binary64.Decimal

/-!
# Coefficients

A coefficient is an unbounded integer or a double. Integers stay exact as long as they meet only
integers; as soon as one operand is a double, both are read as doubles and the result is one.

Two comparisons are kept apart. `==` asks for the same exact value whatever the kind, so `1` and
`1.0` are equal and NaN equals nothing. `order` is the total order in which terms are sorted: it
compares doubles by their place in the total order of doubles, after reading integers as doubles.
-/

namespace PolyCalc

/-- A numeric coefficient: an exact integer or a double. -/
inductive Number where
  | int (value : Int)
  | float (value : Float)
  deriving DecidableEq, Inhabited

namespace Number

def zero : Number := .int 0

def one : Number := .int 1

/-- Both zeros of the doubles count, as numbers equal to zero. -/
def isZero : Number → Bool
  | .int i => i == 0
  | .float x => x == 0.0

def isOne : Number → Bool
  | .int i => i == 1
  | .float x => x == 1.0

/-- Strictly greater than zero. NaN is neither positive nor negative. -/
def isPositive : Number → Bool
  | .int i => 0 < i
  | .float x => 0.0 < x

def isNegative : Number → Bool
  | .int i => i < 0
  | .float x => x < 0.0

def isFloat : Number → Bool
  | .int _ => false
  | .float _ => true

/-- Every integer is finite; a double may be infinite or NaN. -/
def isFinite : Number → Bool
  | .int _ => true
  | .float x => x.isFinite

/-- The number as a double; an integer is rounded. -/
def toFloat : Number → Float
  | .int i => Binary64.ofInt i
  | .float x => x

/-- The exact value of the number if it is an integer, whatever its kind. -/
def toInt? : Number → Option Int
  | .int i => some i
  | .float x => Binary64.toInt? x

/-! ## Arithmetic -/

def add : Number → Number → Number
  | .int i, .int j => .int (i + j)
  | a, b => .float (a.toFloat + b.toFloat)

def sub : Number → Number → Number
  | .int i, .int j => .int (i - j)
  | a, b => .float (a.toFloat - b.toFloat)

def mul : Number → Number → Number
  | .int i, .int j => .int (i * j)
  | a, b => .float (a.toFloat * b.toFloat)

def neg : Number → Number
  | .int i => .int (-i)
  | .float x => .float (-x)

instance : Add Number := ⟨add⟩

instance : Sub Number := ⟨sub⟩

instance : Mul Number := ⟨mul⟩

instance : Neg Number := ⟨neg⟩

/-! ## Comparison -/

/-- Whether two numbers have the same exact value. -/
def sameValue : Number → Number → Bool
  | .int i, .int j => i == j
  | .float x, .float y => x == y
  | .int i, .float x => Binary64.toInt? x == some i
  | .float x, .int i => Binary64.toInt? x == some i

instance : BEq Number := ⟨sameValue⟩

/-- The order of coefficients: exact on two integers, the total order of doubles otherwise. -/
def order : Number → Number → Ordering
  | .int i, .int j => compare i j
  | a, b => Binary64.order a.toFloat b.toFloat

/-! ## Text -/

def toText : Number → String
  | .int i => toString i
  | .float x => Binary64.toText x

end Number

end PolyCalc
