import PolyCalc.Proofs.Arithmetic
import PolyCalc.Proofs.CanonicalForm
import PolyCalc.Proofs.Exponents

/-!
# Constant values

An exponent has to be a constant. `Value.constant?` finds constants by looking at the terms that a
value holds; here they are compared with the values that take one integer at every valuation.

The two are the same because of the normal form (`constant?_eq_some_iff`). A value that takes one
integer everywhere denotes a constant polynomial, and of that there is one normal form: no term for
zero, and otherwise the constant term alone. So nothing that depends on a variable can be left in
it, whatever cancels at single valuations. A term that is not in a polynomial is not normalised, and
a zero may keep variables there; it counts as the constant that it is.

No other refusal of a power speaks of an exponent that is not constant
(`pow_eq_exponentNotConstant_iff`), so a power is refused for that reason exactly if there is no
such integer.
-/

namespace PolyCalc

/-! ## Refused exponents -/

theorem Term.pow_ne_exponentNotConstant {t : Term} {e : Number} {u : Value} :
    t.pow e ≠ .error (.exponentNotConstant u) := by
  intro h
  rcases bind_eq_error.mp h with h | ⟨n, -, h⟩
  · cases Number.toExponent_eq_error h
  rcases bind_eq_error.mp h with h | ⟨_, -, h⟩
  · rcases Number.pow_eq_error h with h | ⟨_, _, h⟩ | h <;> cases h
  rcases bind_eq_error.mp h with h | ⟨_, -, h⟩
  · obtain ⟨-, x, _, hr, -⟩ := Monomial.pow_eq_error h
    cases hr
  · cases h

theorem Polynomial.pow_ne_exponentNotConstant {p : Polynomial} {e : Number} {u : Value} :
    p.pow e ≠ .error (.exponentNotConstant u) := by
  intro h
  rcases bind_eq_error.mp h with h | ⟨n, -, h⟩
  · cases Number.toExponent_eq_error h
  rcases bind_eq_error.mp h with h | ⟨_, -, h⟩
  · rcases Number.pow_eq_error h with h | ⟨_, _, h⟩ | h <;> cases h
  split at h
  · cases h
  · rcases bind_eq_error.mp h with h | ⟨_, -, h⟩
    · exact Term.pow_ne_exponentNotConstant h
    · cases h
  · split at h
    · cases h
    · obtain ⟨a, b, -, herr⟩ := exists_expand_eq_error h
      obtain ⟨x, hr, -⟩ := Monomial.mul_eq_error herr
      cases hr

namespace Value

theorem pow_eq_exponentNotConstant_iff {v w u : Value} :
    v.pow w = .error (.exponentNotConstant u) ↔ w.constant? = none ∧ u = w := by
  unfold pow
  split
  · next hnone => simp [hnone, eq_comm]
  · next e he =>
      refine iff_of_false (fun h => ?_) fun h => by simp [he] at h
      cases v with
      | term t => exact Term.pow_ne_exponentNotConstant (map_eq_error.mp h)
      | poly p => exact Polynomial.pow_ne_exponentNotConstant h

/-! ## Constants -/

variable {v : Value}

theorem denote_eq_C_iff {i : Int} :
    v.denote = MvPolynomial.C i ↔ ∀ ρ, v.eval ρ = i := by
  constructor
  · intro h ρ
    rw [← eval_denote, h, MvPolynomial.eval_C]
  · intro h
    exact MvPolynomial.funext fun ρ => by rw [eval_denote, h, MvPolynomial.eval_C]

/-- A constant polynomial has one normal form, which is that of a constant term. -/
theorem toPolynomial_eq_of_denote_eq_C (hv : v.IsIntegral)
    (hm : ∀ t ∈ v.terms, t.monomial.IsCanonical) (hn : v.IsNormal) {i : Int}
    (h : v.denote = MvPolynomial.C i) : v.toPolynomial = .ofTerm (.constant (.int i)) := by
  have hone : ∀ t ∈ [Term.constant (.int i)], t.coefficient.IsInt :=
    List.forall_mem_singleton.mpr (Number.isInt_int i)
  have hcanonical : ∀ t ∈ [Term.constant (.int i)], t.monomial.IsCanonical :=
    List.forall_mem_singleton.mpr Monomial.isSupported_one.1
  refine Polynomial.ext_of_denoteTerms (isNormal_toPolynomial hn) (Polynomial.isNormal_ofTerms _)
    hv.toPolynomial (isInt_of_mem_ofTerms hone)
    (fun t ht => hm t (mem_terms_of_mem_toPolynomial ht))
    (fun t ht => hcanonical t (mem_terms_of_mem_toPolynomial (v := .constant (.int i)) ht)) ?_
  rw [denote_toPolynomial hv, h, Polynomial.ofTerm, denoteTerms_ofTerms hone, denoteTerms_cons,
    denoteTerms_nil, add_zero, Term.denote_constant, Number.integer_int]

theorem constant?_eq_some_iff (hv : v.IsIntegral) (hm : ∀ t ∈ v.terms, t.monomial.IsCanonical)
    (hn : v.IsNormal) {c : Number} :
    v.constant? = some c ↔ ∃ i, c = .int i ∧ v.denote = MvPolynomial.C i := by
  constructor
  · intro h
    obtain ⟨i, rfl⟩ := closed_isInt.constant (isIntegral_iff_meets.mp hv) h
    exact ⟨i, rfl, denote_constant h⟩
  · rintro ⟨i, rfl, h⟩
    have hterms := congrArg Polynomial.terms (toPolynomial_eq_of_denote_eq_C hv hm hn h)
    rw [Polynomial.terms_ofTerm] at hterms
    cases v with
    | poly p =>
        split at hterms
        · next hz =>
            obtain rfl : i = 0 := by simpa [Term.constant] using hz
            exact constant?_of_nil hterms
        · exact constant?_of_singleton hterms
    | term t =>
        rw [toPolynomial, Polynomial.terms_ofTerm] at hterms
        obtain ⟨j, hj⟩ := hv t (List.mem_singleton.mpr rfl)
        -- either both terms are zero, or they are the same term
        split at hterms <;> split at hterms
        · next hz hz' =>
            have hj0 : j = 0 := by simpa [hj] using hz
            have hi0 : i = 0 := by simpa [Term.constant] using hz'
            rw [constant?, hz, Bool.or_true, if_pos rfl, hj, hj0, hi0]
        · cases hterms
        · cases hterms
        · obtain rfl := List.singleton_injective hterms
          rfl

/-- **Constants are found exactly.** For a value over the integers in normal form, the constant that
is found is the integer that the value takes at every valuation, and none is found if there is no
such integer. So an exponent is refused for not being constant exactly if it is not, whatever is
raised to it. -/
theorem constant?_decides (hv : v.IsIntegral) (hm : ∀ t ∈ v.terms, t.monomial.IsCanonical)
    (hn : v.IsNormal) :
    (∀ c, v.constant? = some c ↔ ∃ i, c = .int i ∧ ∀ ρ, v.eval ρ = i) ∧
      ∀ base u : Value, base.pow v = .error (.exponentNotConstant u) ↔
        u = v ∧ ¬ ∃ i : Int, ∀ ρ, v.eval ρ = i := by
  have hfound : ∀ c, v.constant? = some c ↔ ∃ i, c = .int i ∧ ∀ ρ, v.eval ρ = i := by
    intro c
    simp only [constant?_eq_some_iff hv hm hn, denote_eq_C_iff]
  refine ⟨hfound, fun base u => ?_⟩
  rw [pow_eq_exponentNotConstant_iff, and_comm, Option.eq_none_iff_forall_ne_some]
  refine and_congr_right fun _ => ⟨?_, ?_⟩
  · rintro hnone ⟨i, hi⟩
    exact hnone (.int i) ((hfound _).mpr ⟨i, rfl, hi⟩)
  · intro hno c hc
    obtain ⟨i, -, hi⟩ := (hfound c).mp hc
    exact hno ⟨i, hi⟩

/-- What is left of `y-y` is the constant zero, though it keeps its variable. -/
theorem constant?_decides_of_cancelled :
    let v := term ⟨.int 0, .var "y"⟩
    v.IsIntegral ∧ (∀ t ∈ v.terms, t.monomial.IsCanonical) ∧ v.IsNormal ∧
      calculate "y-y" = .ok v ∧ (∀ ρ, v.eval ρ = 0) ∧
      ∀ base u : Value, base.pow v ≠ .error (.exponentNotConstant u) := by
  intro v
  have hv : v.IsIntegral := List.forall_mem_singleton.mpr (Number.isInt_int 0)
  have hm : ∀ t ∈ v.terms, t.monomial.IsCanonical :=
    List.forall_mem_singleton.mpr (Monomial.isSupported_var "y").1
  obtain ⟨hfound, hrefused⟩ := constant?_decides hv hm trivial
  obtain ⟨i, hi, heval⟩ := (hfound (.int 0)).mp rfl
  obtain rfl := Number.int.inj hi
  exact ⟨hv, hm, trivial, by rfl, heval, fun base u h => ((hrefused base u).mp h).2 ⟨0, heval⟩⟩

end Value

end PolyCalc
