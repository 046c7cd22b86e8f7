import PolyCalc.Proofs.Invariants
import PolyCalc.Proofs.NormalForm

/-!
# When the order of terms is consistent

Terms are compared by their monomials, and two constants by their coefficients. So whatever order
coefficients are in, terms inherit it: if the coefficients of the constants that take part are taken
from numbers whose order is a total preorder, then the order of those terms is one
(`Term.transCmp_order`). Integers are such numbers.
-/

namespace PolyCalc

/-! ## Integers -/

instance Number.transCmp_isInt :
    Std.TransCmp fun a b : {n : Number // n.IsInt} => a.1.order b.1 where
  eq_swap := by
    rintro ⟨_, i, rfl⟩ ⟨_, j, rfl⟩
    exact Std.OrientedOrd.eq_swap
  isLE_trans := by
    rintro ⟨_, i, rfl⟩ ⟨_, j, rfl⟩ ⟨_, k, rfl⟩
    exact Std.TransOrd.isLE_trans

namespace Term

/-- Monomials decide, and between two constants, which share theirs, the coefficients do. -/
theorem order_eq_then (s t : Term) : s.order t = (s.monomial.order t.monomial).then
    (if s.isConstant && t.isConstant then s.coefficient.order t.coefficient else .eq) := by
  unfold order
  split
  · next hc =>
      rw [Bool.and_eq_true] at hc
      have hself : t.monomial.order t.monomial = .eq := Std.ReflCmp.compare_self
      rw [monomial_eq_of_isConstant hc.1 hc.2, hself, Ordering.eq_then]
  · rw [Ordering.then_eq]

/-- Nothing but a constant comes after a constant. -/
theorem isConstant_of_isLE {s t : Term} (hs : s.isConstant = true)
    (h : (s.order t).isLE = true) : t.isConstant = true := by
  by_contra ht
  rw [Bool.not_eq_true] at ht
  have hgt : s.order t = .gt := by
    rw [order, hs, ht]
    show s.monomial.order t.monomial = .gt
    rw [Monomial.order, show s.monomial.isConstant = true from hs,
      show t.monomial.isConstant = false from ht]
  rw [hgt] at h
  cases h

section Coefficients

variable {P : Number → Prop}

/-- The terms among which constants have their coefficients from `P`. -/
abbrev WithConstants (P : Number → Prop) : Type :=
  {t : Term // t.isConstant = true → P t.coefficient}

/-- The order of terms is a total preorder wherever that of the coefficients of constants is. -/
instance transCmp_order [hP : Std.TransCmp fun a b : {n : Number // P n} => a.1.order b.1] :
    Std.TransCmp fun s t : WithConstants P => s.1.order t.1 where
  eq_swap := by
    rintro ⟨s, hs⟩ ⟨t, ht⟩
    show s.order t = (t.order s).swap
    have hmonomial : s.monomial.order t.monomial = (t.monomial.order s.monomial).swap :=
      Std.OrientedCmp.eq_swap
    rw [order_eq_then, order_eq_then t s, Ordering.swap_then, ← hmonomial,
      Bool.and_comm t.isConstant]
    congr 1
    split
    · next hc =>
        rw [Bool.and_eq_true] at hc
        exact hP.eq_swap (a := ⟨_, hs hc.1⟩) (b := ⟨_, ht hc.2⟩)
    · rfl
  isLE_trans := by
    rintro ⟨s, hs⟩ ⟨t, ht⟩ ⟨u, hu⟩ hst htu
    change (s.order t).isLE = true at hst
    change (t.order u).isLE = true at htu
    show (s.order u).isLE = true
    by_cases hsc : s.isConstant = true
    · -- then all three are constants, and their coefficients decide
      have htc := isConstant_of_isLE hsc hst
      have huc := isConstant_of_isLE htc htu
      rw [order, hsc, htc] at hst
      rw [order, htc, huc] at htu
      rw [order, hsc, huc]
      exact hP.isLE_trans (a := ⟨_, hs hsc⟩) (b := ⟨_, ht htc⟩) (c := ⟨_, hu huc⟩) hst htu
    · rw [order_eq_then, Ordering.isLE_then_iff_and] at hst htu
      rw [order, if_neg fun hc => hsc (Bool.and_eq_true_iff.mp hc).1]
      exact Std.TransCmp.isLE_trans hst.1 htu.1

end Coefficients

end Term

end PolyCalc
