/-!
# Doubles as exact numbers

A finite double is a whole number times a power of two, so questions about its exact value -
is it an integer, and which one - are questions of integer arithmetic. `toInt?` answers them.

The other direction rounds: `ofInt` cuts an integer down to 64 bits, rounds these to the nearest
double, ties going to the even significand, and gives an infinity once the integer is out of
range. `rank` numbers the doubles in the total order of IEEE 754, in which the two zeros and the
NaN have places of their own.
-/

namespace PolyCalc.Binary64

open Float.Model (UnpackedFloat)

/-- The whole number `significand * 2 ^ exponent`, if it is one. -/
def scaled? (significand : Nat) : Int → Option Nat
  | .ofNat exponent => some (significand <<< exponent)
  | .negSucc exponent =>
      let n := significand >>> (exponent + 1)
      if n <<< (exponent + 1) = significand then some n else none

/-- The exact value of a double that is an integer; `none` for fractions, infinities and NaN. -/
def toInt? (x : Float) : Option Int :=
  match x.toModel.unpack with
  | .zero _ => some 0
  | .finite sign significand exponent _ =>
      (scaled? significand exponent).map fun n => sign.apply n
  | .infinity _ => none
  | .notANumber => none

def posInfinity : Float := Float.ofBits 0x7ff0000000000000

def negInfinity : Float := Float.ofBits 0xfff0000000000000

/-! ## Rounding integers

A number of more than 64 bits is held in words of 64 bits, of which the topmost may be short. It
is rounded in two steps, first to its leading 64 bits and then to a double. So that the second
step does not take a number just above a tie for the tie itself, the last of the 64 bits is set
if something was cut off.

What was cut off is looked for only at the low end of each word, in as many bits as the topmost
word has. Up to 128 bits nothing is missed. A longer number that lies just above a tie may hide
its surplus in the bits that are not looked at, and then it is rounded as the tie.
-/

/-- The length of the topmost word of a positive number. -/
def topBits (n : Nat) : Nat := n.log2 % 64 + 1

/-- Whether a word below the topmost one has a bit set at its low end. -/
def leavesMark (n : Nat) : Bool :=
  (List.range (n.log2 / 64)).any fun word => (n >>> (64 * word)) % (1 <<< topBits n) != 0

/-- A number of the same length in which only the leading 64 bits can be set. -/
def condensed (n : Nat) : Nat :=
  if n.log2 < 64 then n
  else
    let surplus := n.log2 - 63
    let leading := n >>> surplus
    (if leavesMark n then leading ||| 1 else leading) <<< surplus

/-- The double that an integer rounds to. Every integer from `2 ^ 1024` on rounds to an infinity,
which the first case says without building the significand of a very large number. -/
def ofInt (i : Int) : Float :=
  if 1024 ≤ i.natAbs.log2 then
    if 0 < i then posInfinity else negInfinity
  else
    Float.ofInt (i.sign * condensed i.natAbs)

/-! ## The total order -/

/-- The place of a double in the total order: the bits of a non-negative double count up from
zero, those of a negative one count down from minus one. -/
def rank (x : Float) : Int :=
  let bits := x.toBits.toNat
  if bits < 0x8000000000000000 then bits else 0x7fffffffffffffff - (bits : Int)

/-- The total order of the doubles: `-0.0` lies below `0.0` and NaN above `+inf`. -/
def order (x y : Float) : Ordering :=
  compare (rank x) (rank y)

end PolyCalc.Binary64
