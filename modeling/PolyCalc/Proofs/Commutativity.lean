import PolyCalc.Proofs.ExactValues

/-!
# Where multiplication commutes

Two exact values have the same product in both orders, if both orders give one. But a term that
meets a polynomial is normalised on the left and taken as it is on the right. So a zero that keeps
variables vanishes on the left, and on the right its exponents are still added and checked.

Multiplication therefore commutes, refusals included, exactly if no such zero clashes with the
other operand (`Value.mul_comm_iff`). Where one does, the product is zero in one order and refused
in the other (`Value.Clashes.mul`).
-/

namespace PolyCalc

namespace Value

/-- The one value is a term that is zero and the other a polynomial, and the exponents of a name
that both hold do not add up to one within the limit. -/
def Clashes (z v : Value) : Prop :=
  ∃ t p, z = .term t ∧ v = .poly p ∧ t.coefficient.isZero = true ∧
    ∃ u ∈ p.terms, ¬ u.monomial.Fits t.monomial

variable {v w : Value}

theorem IsExact.mul_beq_mul_comm {u u' : Value} (hv : v.IsExact) (hw : w.IsExact)
    (h : v.mul w = .ok u) (h' : w.mul v = .ok u') : (u == u') = true := by
  rw [(hv.mul hw h).beq_iff (hw.mul hv h'), denote_mul hv.integral hw.integral h,
    denote_mul hw.integral hv.integral h', mul_comm]

theorem mul_zero_term {t : Term} {p : Polynomial} (hz : t.coefficient.isZero = true) :
    (term t).mul (poly p) = .ok (constant .zero) := by
  have hterms : (Polynomial.ofTerm t).terms = [] := by
    rw [Polynomial.terms_ofTerm, hz, if_pos rfl]
  refine Polynomial.mul_eq_ok.mpr ⟨[], ?_, rfl⟩
  rw [hterms]
  exact Polynomial.products_eq_ok.mpr List.Forall₂.nil

/-- A zero that clashes gives zero on the left and a refusal on the right. -/
theorem Clashes.mul (h : v.Clashes w) (hv : v.IsSupported) (hw : w.IsSupported) :
    v.mul w = .ok (constant .zero) ∧ ∃ x, w.mul v = .error (.exponentTooLarge x) := by
  obtain ⟨t, p, rfl, rfl, hz, u, hu, hfits⟩ := h
  refine ⟨mul_zero_term hz, ?_⟩
  cases hmul : (poly p).mul (term t) with
  | ok x =>
      have hall := (mul_isOk_iff_fits hw hv).mp ⟨x, hmul⟩
      exact absurd (hall _ _ ⟨u, hu, t, List.mem_singleton.mpr rfl, rfl, rfl⟩) hfits
  | error r =>
      obtain ⟨x, rfl⟩ := mul_eq_error hmul
      exact ⟨x, rfl⟩

/-- If the same monomials meet in both orders, they fit in the one if they do in the other. -/
theorem fits_comm_of_multiplies_comm
    (h : ∀ a b, v.Multiplies w a b ↔ w.Multiplies v b a) :
    (∀ a b, v.Multiplies w a b → a.Fits b) ↔ ∀ a b, w.Multiplies v a b → a.Fits b := by
  constructor
  · intro hfits a b hab
    exact (hfits b a ((h b a).mpr hab)).symm
  · intro hfits a b hab
    exact (hfits b a ((h a b).mp hab)).symm

/-- Operands of one shape are treated alike on both sides. -/
theorem multiplies_comm_of_terms {s t : Term} (a b : Monomial) :
    (term s).Multiplies (term t) a b ↔ (term t).Multiplies (term s) b a :=
  and_comm

theorem multiplies_comm_of_polys {p q : Polynomial} (a b : Monomial) :
    (poly p).Multiplies (poly q) a b ↔ (poly q).Multiplies (poly p) b a := by
  constructor
  · rintro ⟨s, hs, t, ht, hsa, htb⟩
    exact ⟨t, ht, s, hs, htb, hsa⟩
  · rintro ⟨t, ht, s, hs, htb, hsa⟩
    exact ⟨s, hs, t, ht, hsa, htb⟩

/-- A term that is not zero is the same in normal form. A zero adds no exponents on the left, so
there it depends on the right alone. -/
theorem fits_comm_of_term_poly {t : Term} {p : Polynomial} :
    ((∀ a b, (term t).Multiplies (poly p) a b → a.Fits b) ↔
        ∀ a b, (poly p).Multiplies (term t) a b → a.Fits b) ↔
      ¬ (term t).Clashes (poly p) := by
  have hright : (∀ a b, (poly p).Multiplies (term t) a b → a.Fits b) ↔
      ∀ u ∈ p.terms, u.monomial.Fits t.monomial := by
    constructor
    · intro h u hu
      exact h _ _ ⟨u, hu, t, List.mem_singleton.mpr rfl, rfl, rfl⟩
    · rintro h a b ⟨u, hu, t', ht', rfl, rfl⟩
      obtain rfl := List.mem_singleton.mp ht'
      exact h u hu
  rw [hright]
  cases hz : t.coefficient.isZero with
  | false =>
      have hterms : (Polynomial.ofTerm t).terms = [t] := by
        rw [Polynomial.terms_ofTerm, hz, if_neg nofun]
      refine iff_of_true ⟨?_, ?_⟩ ?_
      · intro h u hu
        exact (h _ _ ⟨t, hterms ▸ List.mem_singleton.mpr rfl, u, hu, rfl, rfl⟩).symm
      · rintro h a b ⟨t', ht', u, hu, rfl, rfl⟩
        rw [hterms] at ht'
        obtain rfl := List.mem_singleton.mp ht'
        exact (h u hu).symm
      · rintro ⟨_, _, heq, -, hz', -⟩
        obtain rfl := Value.term.inj heq
        rw [hz] at hz'
        cases hz'
  | true =>
      have hleft : ∀ a b, (term t).Multiplies (poly p) a b → a.Fits b := by
        rintro a b ⟨t', ht', -⟩
        rw [Polynomial.terms_ofTerm, hz, if_pos rfl] at ht'
        cases ht'
      rw [iff_true_left hleft]
      constructor
      · rintro h ⟨_, _, heq, heq', -, u, hu, hfits⟩
        obtain rfl := Value.term.inj heq
        obtain rfl := Value.poly.inj heq'
        exact hfits (h u hu)
      · intro h u hu
        by_contra hfits
        exact h ⟨t, p, rfl, rfl, hz, u, hu, hfits⟩

/-- Only a term clashes, and only with a polynomial. -/
theorem not_clashes_poly {p : Polynomial} : ¬ (poly p).Clashes v := by
  rintro ⟨_, _, h, -⟩
  cases h

theorem not_clashes_term {t : Term} : ¬ v.Clashes (term t) := by
  rintro ⟨_, _, -, h, -⟩
  cases h

/-- On exact values multiplication commutes, refusals included, exactly if neither operand is a
zero that clashes with the other. -/
theorem mul_comm_iff (hv : v.IsExact) (hw : w.IsExact) :
    Agree (v.mul w) (w.mul v) ↔ ¬ v.Clashes w ∧ ¬ w.Clashes v := by
  rw [agree_iff fun u u' => hv.mul_beq_mul_comm hw, mul_isOk_iff_fits hv.supported hw.supported,
    mul_isOk_iff_fits hw.supported hv.supported]
  cases v with
  | term s =>
      cases w with
      | term t =>
          exact iff_of_true (fits_comm_of_multiplies_comm multiplies_comm_of_terms)
            ⟨not_clashes_term, not_clashes_term⟩
      | poly q => rw [fits_comm_of_term_poly, and_iff_left not_clashes_poly]
  | poly p =>
      cases w with
      | term t =>
          rw [@iff_comm (∀ a b, (poly p).Multiplies (term t) a b → a.Fits b),
            fits_comm_of_term_poly, and_iff_right not_clashes_poly]
      | poly q =>
          exact iff_of_true (fits_comm_of_multiplies_comm multiplies_comm_of_polys)
            ⟨not_clashes_poly, not_clashes_poly⟩

end Value

/-- **Commutativity of multiplication.** For the values of texts with integer literals, the two
products are both refused or both there and equal, exactly if neither value is a zero that clashes
with the other. A zero that clashes gives zero on the left and a refusal on the right. -/
theorem calculate_mul_comm {s t : String} {v w : Value} (hs : HasIntegerLiterals s)
    (ht : HasIntegerLiterals t) (hv : calculate s = .ok v) (hw : calculate t = .ok w) :
    (Agree (v.mul w) (w.mul v) ↔ ¬ v.Clashes w ∧ ¬ w.Clashes v) ∧
      (v.Clashes w → v.mul w = .ok (.constant .zero) ∧
        ∃ x, w.mul v = .error (.exponentTooLarge x)) := by
  have hvexact := (calculate_isPlain hs hv).isExact
  have hwexact := (calculate_isPlain ht hw).isExact
  exact ⟨Value.mul_comm_iff hvexact hwexact,
    fun h => h.mul hvexact.supported hwexact.supported⟩

/-- A zero that keeps a variable, and a polynomial in which that variable does not get too high. -/
theorem calculate_mul_comm_of_zero :
    let v := Value.term ⟨.int 0, .var "x"⟩
    let w := Value.poly ⟨[⟨.one, .var "x"⟩, ⟨.one, .var "y"⟩]⟩
    HasIntegerLiterals "x-x" ∧ HasIntegerLiterals "x+y" ∧ calculate "x-x" = .ok v ∧
      calculate "x+y" = .ok w ∧ Agree (v.mul w) (w.mul v) := by
  intro v w
  have hs : HasIntegerLiterals "x-x" := hasIntegerLiterals_of_no_point (by decide)
  have ht : HasIntegerLiterals "x+y" := hasIntegerLiterals_of_no_point (by decide)
  have hv : calculate "x-x" = .ok v := by rfl
  have hw : calculate "x+y" = .ok w := by rfl
  refine ⟨hs, ht, hv, hw, (calculate_mul_comm hs ht hv hw).1.mpr ⟨?_, Value.not_clashes_poly⟩⟩
  rintro ⟨t, p, ht, hp, -, u, hu, hfits⟩
  obtain rfl := Value.term.inj ht
  obtain rfl := Value.poly.inj hp
  refine hfits fun z d e hd he => ?_
  simp only [Monomial.var, List.mem_singleton, Prod.mk.injEq] at he
  obtain ⟨-, rfl⟩ := he
  simp only [List.mem_cons, List.not_mem_nil, or_false] at hu
  rcases hu with rfl | rfl <;>
    · simp only [Monomial.var, List.mem_singleton, Prod.mk.injEq] at hd
      obtain ⟨-, rfl⟩ := hd
      decide

/-- `x^4294967295-x^4294967295` is a zero that keeps its variable at the limit: its product with
`x+y` is zero on the left and refused on the right. -/
theorem calculate_mul_not_comm :
    let v := Value.term ⟨.int 0, ⟨[("x", 4294967295)]⟩⟩
    let w := Value.poly ⟨[⟨.one, .var "x"⟩, ⟨.one, .var "y"⟩]⟩
    HasIntegerLiterals "x^4294967295-x^4294967295" ∧ HasIntegerLiterals "x+y" ∧
      calculate "x^4294967295-x^4294967295" = .ok v ∧ calculate "x+y" = .ok w ∧
      v.mul w = .ok (.constant .zero) ∧ w.mul v = .error (.exponentTooLarge "x") ∧
      ¬ Agree (v.mul w) (w.mul v) := by
  intro v w
  have hs : HasIntegerLiterals "x^4294967295-x^4294967295" :=
    hasIntegerLiterals_of_no_point (by decide)
  have ht : HasIntegerLiterals "x+y" := hasIntegerLiterals_of_no_point (by decide)
  have hpower : (Expr.binary .pow (.var "x") (.num (.int (4294967295 : Nat)))).value =
      .ok (.term ⟨.one, ⟨[("x", 4294967295)]⟩⟩) :=
    Expr.value_pow_var (by decide) (by decide)
  have hv : calculate "x^4294967295-x^4294967295" = .ok v :=
    calculate_eq_ok.mpr ⟨_, by rfl, Expr.value_binary_eq_ok.mpr ⟨_, _, hpower, hpower, by rfl⟩⟩
  have hw : calculate "x+y" = .ok w := by rfl
  have hleft : v.mul w = .ok (.constant .zero) := by rfl
  have hright : w.mul v = .error (.exponentTooLarge "x") := by rfl
  refine ⟨hs, ht, hv, hw, hleft, hright, ?_⟩
  rw [hleft, hright]
  exact id

end PolyCalc
