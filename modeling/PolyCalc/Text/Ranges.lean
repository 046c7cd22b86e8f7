/-!
# Runs of characters

A class of characters is a table of runs, each from its first to its last code point.
-/

namespace PolyCalc.Text

/-- Whether a character lies in one of the runs, ends included. -/
def inRanges (ranges : List (Nat × Nat)) (c : Char) : Bool :=
  ranges.any fun (first, last) => first ≤ c.toNat ∧ c.toNat ≤ last

end PolyCalc.Text
