import PolyCalc.Proofs.Arithmetic
import PolyCalc.Proofs.CanonicalForm
import PolyCalc.Proofs.RunInvariant

/-!
# Exact values and their equality

A well-formed value with integer coefficients is exact: it is equal to another one if and only if
both denote the same polynomial (`Value.IsExact.beq_iff`), and an operator that gives a value gives
an exact one that the denoted polynomials determine (`Operator.denote_eq_of_apply`).

So a law of polynomials holds of exact values as soon as both of its sides are there. What remains
of such a law is when operations are refused, and that is what `Agree` compares: two results agree
if both are refused, or if both are there and equal.

Refusals look at the terms that are held and not at the polynomial. The two differ in one case
only, a zero that keeps variables (`Value.HidesVariables`): it denotes nothing, but its exponents
still count.
-/

namespace PolyCalc

/-! ## Equality -/

/-- A well-formed value with integer coefficients. -/
structure Value.IsExact (v : Value) : Prop extends v.IsWellFormed where
  integral : v.IsIntegral

theorem Value.IsPlain.isExact {v : Value} (hv : v.IsPlain) : v.IsExact where
  supported := fun t ht => (hv.terms t ht).supported
  normal := hv.normal
  integral := hv.integral

namespace Value.IsExact

variable {v w : Value}

theorem beq_iff (hv : v.IsExact) (hw : w.IsExact) : (v == w) = true ↔ v.denote = w.denote := by
  rw [Value.beq_iff hv.integral hw.integral, ← denote_toPolynomial hv.integral,
    ← denote_toPolynomial hw.integral]
  refine ⟨fun h => by rw [h], ?_⟩
  exact Polynomial.ext_of_denoteTerms (isNormal_toPolynomial hv.normal)
    (isNormal_toPolynomial hw.normal) hv.integral.toPolynomial hw.integral.toPolynomial
    (fun t ht => (hv.supported.toPolynomial t ht).1)
    fun t ht => (hw.supported.toPolynomial t ht).1

end Value.IsExact

theorem Value.isExact_constant (i : Int) : (constant (.int i)).IsExact where
  supported := List.forall_mem_singleton.mpr Monomial.isSupported_one
  normal := trivial
  integral := List.forall_mem_singleton.mpr (Number.isInt_int i)

/-- A multiple of a power of a variable. -/
theorem Value.isExact_power (i : Int) (x : String) {e : Nat} (hpos : 0 < e)
    (hle : e ≤ Monomial.maxExponent) : (term ⟨.int i, ⟨[(x, e)]⟩⟩).IsExact where
  supported := List.forall_mem_singleton.mpr
    ⟨⟨List.pairwise_singleton _ _, List.forall_mem_singleton.mpr hpos⟩,
      List.forall_mem_singleton.mpr hle⟩
  normal := trivial
  integral := List.forall_mem_singleton.mpr (Number.isInt_int i)

namespace Operator

variable {op : Operator} {v v' w w' u u' : Value}

theorem isExact_apply (hv : v.IsExact) (hw : w.IsExact) (h : op.apply v w = .ok u) :
    u.IsExact where
  toIsWellFormed := isWellFormed_apply hv.toIsWellFormed hw.toIsWellFormed h
  integral := Value.isIntegral_iff_meets.mpr (closed_isInt.apply
    (Value.isIntegral_iff_meets.mp hv.integral) (Value.isIntegral_iff_meets.mp hw.integral) h)

/-- What an operator gives denotes a polynomial that those of its operands determine. -/
theorem denote_eq_of_apply (hv : v.IsExact) (hv' : v'.IsExact) (hw : w.IsExact) (hw' : w'.IsExact)
    (hvv : v.denote = v'.denote) (hww : w.denote = w'.denote) (h : op.apply v w = .ok u)
    (h' : op.apply v' w' = .ok u') : u.denote = u'.denote := by
  cases op with
  | add =>
      obtain rfl := Except.ok.inj h
      obtain rfl := Except.ok.inj h'
      rw [Value.denote_add hv.integral hw.integral, Value.denote_add hv'.integral hw'.integral,
        hvv, hww]
  | sub =>
      obtain rfl := Except.ok.inj h
      obtain rfl := Except.ok.inj h'
      rw [Value.denote_sub hv.integral hw.integral, Value.denote_sub hv'.integral hw'.integral,
        hvv, hww]
  | mul =>
      rw [Value.denote_mul hv.integral hw.integral h,
        Value.denote_mul hv'.integral hw'.integral h', hvv, hww]
  | pow =>
      obtain ⟨n, hn, hu⟩ := Value.denote_pow hv.integral hw.integral h
      obtain ⟨n', hn', hu'⟩ := Value.denote_pow hv'.integral hw'.integral h'
      -- both exponents denote one constant, so the base is raised to one number
      obtain rfl : n = n' := by
        rw [← hww, hn] at hn'
        exact_mod_cast MvPolynomial.C_injective _ _ hn'
      rw [hu, hu', hvv]

end Operator

namespace Value.IsExact

variable {v w u : Value}

theorem add (hv : v.IsExact) (hw : w.IsExact) : (v.add w).IsExact := by
  have happly : Operator.add.apply v w = .ok (v.add w) := rfl
  exact Operator.isExact_apply hv hw happly

theorem sub (hv : v.IsExact) (hw : w.IsExact) : (v.sub w).IsExact := by
  have happly : Operator.sub.apply v w = .ok (v.sub w) := rfl
  exact Operator.isExact_apply hv hw happly

theorem mul (hv : v.IsExact) (hw : w.IsExact) (h : v.mul w = .ok u) : u.IsExact := by
  have happly : Operator.mul.apply v w = .ok u := h
  exact Operator.isExact_apply hv hw happly

theorem pow {i : Int} (hv : v.IsExact) (hw : w.constant? = some (.int i)) (h : v.pow w = .ok u) :
    u.IsExact := by
  rw [pow_eq_pow_constant hw] at h
  have happly : Operator.pow.apply v (constant (.int i)) = .ok u := h
  exact Operator.isExact_apply hv (isExact_constant i) happly

end Value.IsExact

/-- The value in the shape of a polynomial. -/
def Value.normalised (v : Value) : Value := .poly v.toPolynomial

theorem Value.IsExact.normalised {v : Value} (hv : v.IsExact) : v.normalised.IsExact where
  supported := hv.supported.toPolynomial
  normal := isNormal_toPolynomial hv.normal
  integral := hv.integral.toPolynomial

/-! ## Agreement -/

/-- Both are refused, or both are there and equal. -/
def Agree : Except Refusal Value → Except Refusal Value → Prop
  | .ok v, .ok w => (v == w) = true
  | .error _, .error _ => True
  | _, _ => False

/-- Where results that are there are equal, they agree if one is there whenever the other is. -/
theorem agree_iff {r s : Except Refusal Value}
    (heq : ∀ v w, r = .ok v → s = .ok w → (v == w) = true) :
    Agree r s ↔ ((∃ v, r = .ok v) ↔ ∃ w, s = .ok w) := by
  cases r with
  | ok v =>
      cases s with
      | ok w => exact iff_of_true (heq v w rfl rfl) (iff_of_true ⟨v, rfl⟩ ⟨w, rfl⟩)
      | error _ => simp [Agree]
  | error _ => cases s <;> simp [Agree]

/-! ## Hidden variables -/

namespace Value

/-- The value is a zero that keeps variables. Such is the answer to `x-x`. -/
def HidesVariables (v : Value) : Prop :=
  ∃ t, v = .term t ∧ t.coefficient.isZero = true ∧ t.isConstant = false

/-- Apart from hidden variables, the terms that are held have the same monomials as those of the
normal form, up to a constant. -/
theorem forall_toPolynomial_iff {v : Value} (hv : ¬ v.HidesVariables) {Q : Monomial → Prop}
    (hconstant : ∀ m, m.isConstant = true → Q m) :
    (∀ t ∈ v.toPolynomial.terms, Q t.monomial) ↔ ∀ t ∈ v.terms, Q t.monomial := by
  cases v with
  | poly p => exact Iff.rfl
  | term t =>
      rw [toPolynomial, Polynomial.terms_ofTerm, terms]
      cases hz : t.coefficient.isZero with
      | false => exact Iff.rfl
      | true =>
          have hc : t.isConstant = true := by
            by_contra h
            exact hv ⟨t, rfl, hz, Bool.eq_false_iff.mpr h⟩
          exact iff_of_true (fun _ h => by cases h)
            (List.forall_mem_singleton.mpr (hconstant _ hc))

theorem denote_eq_zero_of_hidesVariables {v : Value} (hv : v.HidesVariables) : v.denote = 0 := by
  obtain ⟨t, rfl, hz, -⟩ := hv
  rw [denote_term, Term.denote, Number.integer_eq_zero hz, map_zero]

end Value

end PolyCalc
