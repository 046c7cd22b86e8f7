import PolyCalc.Proofs.ExactValues

/-!
# Laws of sums and products

Exact values obey the laws of a commutative ring, whichever shapes they have: each law holds up to
equality of values, because both of its sides denote the same polynomial.

Sums and differences are always there. Products can be refused, so a law of products also has to
say when its sides are there. Distribution meets no new refusal: a sum holds no monomial that none
of its operands holds, so multiplying by the sum multiplies only monomials that multiplying by the
operands does (`Multiplies.of_add`), and cancellation inside the sum can only take some away.
Associativity is different. The empty polynomial can be multiplied by `x^n` twice, but `x^n*x^n`
may be refused, and so the law is stated for products that are there on both sides.
-/

namespace PolyCalc

namespace Value

variable {u v w : Value}

/-! ## What a sum multiplies -/

/-- A term that meets a polynomial takes part as it is normalised, as a polynomial does. -/
theorem multiplies_poly_iff {q : Polynomial} {a b : Monomial} :
    u.Multiplies (poly q) a b ↔ u.toPolynomial.Multiplies (poly q) a b := by
  cases u <;> rfl

/-- Of a term only the monomial is looked at. -/
theorem multiplies_term_congr {s t : Term} (hm : s.monomial = t.monomial) {a b : Monomial} :
    u.Multiplies (term s) a b → u.Multiplies (term t) a b := by
  cases u with
  | term _ => exact fun ⟨ha, hb⟩ => ⟨ha, hm.symm.trans hb⟩
  | poly p =>
      rintro ⟨x, hx, y, hy, ha, hb⟩
      obtain rfl := List.mem_singleton.mp hy
      exact ⟨x, hx, t, List.mem_singleton.mpr rfl, ha, hm.symm.trans hb⟩

theorem Multiplies.of_add {a b : Monomial} (h : u.Multiplies (v.add w) a b) :
    u.Multiplies v a b ∨ u.Multiplies w a b := by
  rcases add_cases v w with ⟨s, t, rfl, rfl, -, heq⟩ | heq <;> rw [heq] at h
  · have hm : (⟨s.coefficient + t.coefficient, s.monomial⟩ : Term).monomial = s.monomial := rfl
    exact Or.inl (multiplies_term_congr hm h)
  · obtain ⟨x, hx, y, hy, rfl, rfl⟩ := multiplies_poly_iff.mp h
    -- the monomial of `y` has a coefficient in one of the two lists that are added up
    obtain ⟨c, cs, hcs, -⟩ := Polynomial.coefficientsAt_of_mem_ofTerms hy
    obtain ⟨z, hz, hm, -⟩ :=
      Polynomial.exists_mem_of_mem_coefficientsAt (hcs ▸ List.mem_cons_self ..)
    rw [← hm]
    rcases List.mem_append.mp hz with hz | hz
    · exact Or.inl (multiplies_of_mem hx hz)
    · exact Or.inr (multiplies_of_mem hx hz)

/-- What can be multiplied by two values can be multiplied by their sum. -/
theorem mul_add_isOk (hv : ∃ x, u.mul v = .ok x) (hw : ∃ x, u.mul w = .ok x) :
    ∃ x, u.mul (v.add w) = .ok x := by
  rw [mul_isOk_iff] at hv hw ⊢
  intro a b h
  rcases h.of_add with h | h
  · exact hv a b h
  · exact hw a b h

/-! ## The laws -/

namespace IsExact

variable (hu : u.IsExact) (hv : v.IsExact) (hw : w.IsExact)

include hv hw in
theorem add_beq_add_comm : (v.add w == w.add v) = true := by
  rw [(hv.add hw).beq_iff (hw.add hv), denote_add hv.integral hw.integral,
    denote_add hw.integral hv.integral, add_comm]

include hu hv hw in
theorem add_beq_add_assoc : ((u.add v).add w == u.add (v.add w)) = true := by
  have huv := hu.add hv
  have hvw := hv.add hw
  rw [(huv.add hw).beq_iff (hu.add hvw), denote_add huv.integral hw.integral,
    denote_add hu.integral hv.integral, denote_add hu.integral hvw.integral,
    denote_add hv.integral hw.integral, add_assoc]

include hv hw in
theorem sub_add_beq_self : ((v.sub w).add w == v) = true := by
  have hvw := hv.sub hw
  rw [(hvw.add hw).beq_iff hv, denote_add hvw.integral hw.integral,
    denote_sub hv.integral hw.integral, sub_add_cancel]

include hv in
/-- A difference with itself is a zero, whether it keeps variables or not. -/
theorem toPolynomial_sub_self : (v.sub v).toPolynomial = .zero := by
  have hzero : denoteTerms (v.sub v).toPolynomial.terms = denoteTerms Polynomial.zero.terms := by
    rw [denote_toPolynomial (hv.sub hv).integral, denote_sub hv.integral hv.integral, sub_self]
    rfl
  have hempty : Polynomial.zero.IsNormal :=
    Polynomial.isNormal_of_before (List.forall_mem_nil _) List.Pairwise.nil
  exact Polynomial.ext_of_denoteTerms (isNormal_toPolynomial (hv.sub hv).normal) hempty
    (hv.sub hv).integral.toPolynomial (List.forall_mem_nil _)
    (fun t ht => ((hv.sub hv).supported.toPolynomial t ht).1) (List.forall_mem_nil _) hzero

include hu hv hw in
theorem mul_add_beq {x y z : Value} (hx : u.mul v = .ok x) (hy : u.mul w = .ok y)
    (hz : u.mul (v.add w) = .ok z) : (z == x.add y) = true := by
  have hx' := hu.mul hv hx
  have hy' := hu.mul hw hy
  have hvw := hv.add hw
  rw [(hu.mul hvw hz).beq_iff (hx'.add hy'), denote_mul hu.integral hvw.integral hz,
    denote_add hv.integral hw.integral, denote_add hx'.integral hy'.integral,
    denote_mul hu.integral hv.integral hx, denote_mul hu.integral hw.integral hy, mul_add]

include hu hv hw in
theorem mul_beq_mul_assoc {x y z z' : Value} (hx : u.mul v = .ok x) (hz : x.mul w = .ok z)
    (hy : v.mul w = .ok y) (hz' : u.mul y = .ok z') : (z == z') = true := by
  have hx' := hu.mul hv hx
  have hy' := hv.mul hw hy
  rw [(hx'.mul hw hz).beq_iff (hu.mul hy' hz'), denote_mul hx'.integral hw.integral hz,
    denote_mul hu.integral hv.integral hx, denote_mul hu.integral hy'.integral hz',
    denote_mul hv.integral hw.integral hy, mul_assoc]

end IsExact

/-- **Ring laws of exact values.** Sums are commutative and associative, and a difference undoes a
sum. If `p` can be multiplied by `q` and by `r`, it can be multiplied by their sum, and the product
is the sum of the products. Triple products are equal wherever both are there. -/
theorem ring_laws {p q r : Value} (hp : p.IsExact) (hq : q.IsExact) (hr : r.IsExact) :
    (p.add q == q.add p) = true ∧
      ((p.add q).add r == p.add (q.add r)) = true ∧
      ((p.sub q).add q == p) = true ∧
      (p.sub p).toPolynomial = .zero ∧
      (∀ x y, p.mul q = .ok x → p.mul r = .ok y →
        ∃ z, p.mul (q.add r) = .ok z ∧ (z == x.add y) = true) ∧
      ∀ x y z z', p.mul q = .ok x → x.mul r = .ok z → q.mul r = .ok y → p.mul y = .ok z' →
        (z == z') = true := by
  refine ⟨hp.add_beq_add_comm hq, hp.add_beq_add_assoc hq hr, hp.sub_add_beq_self hq,
    hp.toPolynomial_sub_self, fun x y hx hy => ?_, fun x y z z' => hp.mul_beq_mul_assoc hq hr⟩
  obtain ⟨z, hz⟩ := mul_add_isOk ⟨x, hx⟩ ⟨y, hy⟩
  exact ⟨z, hz, hp.mul_add_beq hq hr hx hy hz⟩

/-- The sum of two terms at the limit cancels to a zero that keeps its variable. A polynomial
without that variable can be multiplied by it. -/
theorem ring_laws_of_cancelling :
    let p := poly ⟨[⟨.one, .var "y"⟩, ⟨.one, .one⟩]⟩
    let q := term ⟨.int 1, ⟨[("x", 4294967295)]⟩⟩
    let r := term ⟨.int (-1), ⟨[("x", 4294967295)]⟩⟩
    p.IsExact ∧ q.IsExact ∧ r.IsExact ∧ (q.add r).HidesVariables ∧
      ((p.add q).add r == p.add (q.add r)) = true ∧
      ∃ x y z, p.mul q = .ok x ∧ p.mul r = .ok y ∧ p.mul (q.add r) = .ok z ∧
        (z == x.add y) = true := by
  intro p q r
  have hy : (Value.var "y").IsExact := isExact_power 1 "y" (by decide) (by decide)
  have hp : p.IsExact := hy.add (isExact_constant 1)
  have hq : q.IsExact := isExact_power 1 "x" (by decide) (by decide)
  have hr : r.IsExact := isExact_power (-1) "x" (by decide) (by decide)
  obtain ⟨-, hassoc, -, -, hdistributes, -⟩ := ring_laws hp hq hr
  obtain ⟨z, hz, heq⟩ := hdistributes _ _ rfl rfl
  exact ⟨hp, hq, hr, ⟨_, rfl, rfl, rfl⟩, hassoc, _, _, z, rfl, rfl, hz, heq⟩

end Value

end PolyCalc
