import PolyCalc.Proofs.ExactValues

/-!
# Equal operands

Equality of values ignores how they are held, so operators should not see it either: equal
operands should give equal results. For exact values this holds of every result that is there,
because the denoted polynomials determine it. It fails for refusals, and in one way only. A zero
that keeps variables is equal to every other zero, but a product or a power still adds or
multiplies the exponents of what it keeps.

The two sides are compared through the normal forms of the operands, which equal values share.
Normalising operands never introduces a refusal (`Operator.isOk_normalised`), and it removes none
unless one of them hides variables (`Operator.isOk_of_normalised`).
-/

namespace PolyCalc

/-! ## Normalised operands -/

namespace Value

variable {v v' w w' u : Value}

theorem IsExact.normalised_eq (hv : v.IsExact) (hv' : v'.IsExact) (h : (v == v') = true) :
    v.normalised = v'.normalised :=
  congrArg poly ((Value.beq_iff hv.integral hv'.integral).mp h)

/-! ### Products -/

theorem multiplies_of_normalised {a b : Monomial} (h : v.normalised.Multiplies w.normalised a b) :
    v.Multiplies w a b := by
  obtain ⟨s, hs, t, ht, rfl, rfl⟩ := h
  exact multiplies_of_mem hs (mem_terms_of_mem_toPolynomial ht)

theorem mul_isOk_normalised (hv : v.IsExact) (hw : w.IsExact) (h : ∃ u, v.mul w = .ok u) :
    ∃ u, v.normalised.mul w.normalised = .ok u := by
  rw [mul_isOk_iff_fits hv.supported hw.supported] at h
  rw [mul_isOk_iff_fits hv.normalised.supported hw.normalised.supported]
  exact fun a b hab => h a b (multiplies_of_normalised hab)

theorem mul_isOk_of_normalised (hv : v.IsExact) (hw : w.IsExact) (hv' : ¬ v.HidesVariables)
    (hw' : ¬ w.HidesVariables) (h : ∃ u, v.normalised.mul w.normalised = .ok u) :
    ∃ u, v.mul w = .ok u := by
  rw [mul_isOk_iff_fits hv.normalised.supported hw.normalised.supported] at h
  rw [mul_isOk_iff_fits hv.supported hw.supported]
  -- constants fit everything, so on either side it does not matter which constant is held
  have hleft : ∀ s ∈ v.terms, ∀ t ∈ w.toPolynomial.terms, s.monomial.Fits t.monomial := by
    refine (forall_toPolynomial_iff (Q := fun m => ∀ t ∈ w.toPolynomial.terms, m.Fits t.monomial)
      hv' fun m hm t _ => Monomial.fits_of_isConstant hm).mp fun s hs t ht => ?_
    exact h _ _ ⟨s, hs, t, ht, rfl, rfl⟩
  have hboth : ∀ t ∈ w.terms, ∀ s ∈ v.terms, s.monomial.Fits t.monomial := by
    refine (forall_toPolynomial_iff (Q := fun m => ∀ s ∈ v.terms, s.monomial.Fits m)
      hw' fun m hm s _ => (Monomial.fits_of_isConstant hm).symm).mp fun t ht s hs => ?_
    exact hleft s hs t ht
  intro a b hab
  obtain ⟨⟨s, hs, rfl⟩, t, ht, rfl⟩ := hab.exists_mem
  exact hboth t ht s hs

/-! ### Powers -/

/-- Whether a value is a constant, and which one, can be seen from its normal form. -/
theorem IsExact.constant?_normalised (hv : v.IsExact) : v.normalised.constant? = v.constant? := by
  cases v with
  | poly p => rfl
  | term t =>
      have hterms := Polynomial.terms_ofTerm t
      change (poly (.ofTerm t)).constant? =
        if t.isConstant || t.coefficient.isZero then some t.coefficient else none
      cases hz : t.coefficient.isZero with
      | true =>
          rw [hz, if_pos rfl] at hterms
          obtain ⟨i, hi⟩ := hv.integral t (List.mem_singleton.mpr rfl)
          obtain rfl : i = 0 := by simpa [hi] using hz
          rw [constant?_of_nil hterms, Bool.or_true, if_pos rfl, hi]
          rfl
      | false =>
          rw [hz, if_neg nofun] at hterms
          rw [constant?_of_singleton hterms, Bool.or_false]

end Value

/-- A zero can be raised unless the exponents that it keeps get too large. -/
theorem Term.pow_zero_cases {t : Term} {i : Int} {n : Nat} (ht : t.coefficient = .int 0)
    (hn : (Number.int i).toExponent = .ok n) :
    (∃ x, t.pow (.int i) = .ok x) ∨
      n ≠ 0 ∧ t.isConstant = false ∧ ∃ x, t.pow (.int i) = .error (.exponentTooLarge x) := by
  have hzero : t.coefficient.pow (.int i) = .ok (.int (Int.pow 0 n)) := by
    rw [ht]
    exact Number.int_pow_int_eq_ok.mpr ⟨n, _, hn, Number.powInt_eq_ok.mpr ⟨by simp, rfl⟩, rfl⟩
  cases hm : t.monomial.pow n with
  | ok m => exact Or.inl ⟨_, pow_eq_ok.mpr ⟨n, _, m, hn, hzero, hm, rfl⟩⟩
  | error r =>
      obtain ⟨hpos, x, e, rfl, hmem, -⟩ := Monomial.pow_eq_error hm
      refine Or.inr ⟨hpos, ?_, x, ?_⟩
      · by_contra hc
        rw [Bool.not_eq_false, isConstant, Monomial.isConstant, List.isEmpty_iff] at hc
        rw [hc] at hmem
        cases hmem
      · refine bind_eq_error.mpr (Or.inr ⟨n, hn, bind_eq_error.mpr (Or.inr ⟨_, hzero, ?_⟩)⟩)
        exact bind_eq_error.mpr (Or.inl hm)

namespace Value

variable {v v' w w' u : Value}

/-- The exponent of a power of exact values is an integer. -/
theorem IsExact.exists_constant?_eq_int (hw : w.IsExact) {e : Number} (he : w.constant? = some e) :
    ∃ i, e = .int i :=
  closed_isInt.constant (isIntegral_iff_meets.mp hw.integral) he

theorem pow_isOk_normalised (hw : w.IsExact) (h : ∃ u, v.pow w = .ok u) :
    ∃ u, v.normalised.pow w.normalised = .ok u := by
  obtain ⟨u, hu⟩ := h
  obtain ⟨e, he, hcases⟩ := pow_cases hu
  obtain ⟨i, rfl⟩ := hw.exists_constant?_eq_int he
  rw [normalised, poly_pow (hw.constant?_normalised.trans he)]
  rcases hcases with ⟨t, x, rfl, hx, -⟩ | ⟨p, rfl, hp⟩
  · have hterms := Polynomial.terms_ofTerm t
    obtain ⟨n, -, -, hn, -⟩ := Term.pow_eq_ok.mp hx
    have hone : Number.one.pow (.int i) = .ok .one := Number.one_pow_int_eq_ok.mpr ⟨⟨n, hn⟩, rfl⟩
    split at hterms
    · exact ⟨_, Polynomial.pow_of_nil hn hone hterms⟩
    · exact ⟨_, (Polynomial.pow_of_singleton hn hone hterms).trans (map_eq_ok.mpr ⟨x, hx, rfl⟩)⟩
  · exact ⟨u, hp⟩

/-- Where normalising the base removes a refusal, the base hides variables, and their exponents
are what was refused. -/
theorem pow_cases_of_normalised (hv : v.IsExact) (hw : w.IsExact)
    (h : ∃ u, v.normalised.pow w.normalised = .ok u) :
    (∃ u, v.pow w = .ok u) ∨ v.HidesVariables ∧ (∃ x, v.pow w = .error (.exponentTooLarge x)) ∧
      ∃ n : ℕ, n ≠ 0 ∧ w.constant? = some (.int n) := by
  obtain ⟨u, hu⟩ := h
  obtain ⟨e, he, ⟨_, _, hterm, -⟩ | ⟨p, hp, hu⟩⟩ := pow_cases hu
  · cases hterm
  obtain rfl := Value.poly.inj hp
  rw [hw.constant?_normalised] at he
  obtain ⟨i, rfl⟩ := hw.exists_constant?_eq_int he
  cases v with
  | poly p => exact Or.inl ⟨u, (poly_pow he).trans hu⟩
  | term t =>
      rw [term_pow he]
      replace hu : (Polynomial.ofTerm t).pow (.int i) = .ok u := hu
      obtain ⟨j, hj⟩ := hv.integral t (List.mem_singleton.mpr rfl)
      have hterms := Polynomial.terms_ofTerm t
      obtain ⟨n, c, hn, -, hcases⟩ := Polynomial.pow_cases hu
      cases hz : t.coefficient.isZero with
      | false =>
          rw [hz, if_neg nofun] at hterms
          rw [hterms] at hcases
          rcases hcases with ⟨hnil, -⟩ | ⟨t', x, hone, hx, -⟩ | ⟨hmany, -⟩
          · cases hnil
          · obtain rfl := List.singleton_injective hone
            exact Or.inl ⟨_, map_eq_ok.mpr ⟨x, hx, rfl⟩⟩
          · cases hmany with | step h => cases h
      | true =>
          obtain rfl : j = 0 := by simpa [hj] using hz
          rcases Term.pow_zero_cases hj hn with ⟨x, hx⟩ | ⟨hpos, hc, x, hx⟩
          · exact Or.inl ⟨_, map_eq_ok.mpr ⟨x, hx, rfl⟩⟩
          · obtain ⟨rfl, -⟩ := Number.toExponent_int.mp hn
            exact Or.inr ⟨⟨t, rfl, hz, hc⟩, ⟨x, map_eq_error.mpr hx⟩, n, hpos, he⟩

end Value

/-! ## Operators -/

namespace Operator

variable {op : Operator} {v v' w w' u : Value}

theorem isOk_normalised (hv : v.IsExact) (hw : w.IsExact) (h : ∃ u, op.apply v w = .ok u) :
    ∃ u, op.apply v.normalised w.normalised = .ok u := by
  cases op with
  | add => exact ⟨_, rfl⟩
  | sub => exact ⟨_, rfl⟩
  | mul => exact Value.mul_isOk_normalised hv hw h
  | pow => exact Value.pow_isOk_normalised hw h

/-- The operator stumbles over a zero that an operand holds: it is refused because of the
exponents of variables that this zero hides, where equal operands give the result zero. -/
def Stumbles (op : Operator) (v w v' w' : Value) : Prop :=
  (v.HidesVariables ∨ w.HidesVariables) ∧
    (∃ x, op.apply v w = .error (.exponentTooLarge x)) ∧
    ∃ u, op.apply v' w' = .ok u ∧ (u == .constant .zero) = true

/-- If equal operands give a result, an operator gives one too or stumbles. -/
theorem isOk_or_stumbles (hv : v.IsExact) (hv' : v'.IsExact) (hw : w.IsExact) (hw' : w'.IsExact)
    (hvv : (v == v') = true) (hww : (w == w') = true) (h : op.apply v' w' = .ok u) :
    (∃ x, op.apply v w = .ok x) ∨ op.Stumbles v w v' w' := by
  have hnormalised : ∃ x, op.apply v.normalised w.normalised = .ok x := by
    rw [hv.normalised_eq hv' hvv, hw.normalised_eq hw' hww]
    exact isOk_normalised hv' hw' ⟨u, h⟩
  have hzero : u.denote = 0 → (u == .constant .zero) = true := by
    intro hu
    refine ((isExact_apply hv' hw' h).beq_iff (Value.isExact_constant 0)).mpr ?_
    rw [hu, Value.constant, Value.denote_term, Term.denote_constant]
    exact (map_zero MvPolynomial.C).symm
  rw [hv.beq_iff hv'] at hvv
  rw [hw.beq_iff hw'] at hww
  cases op with
  | add => exact Or.inl ⟨_, rfl⟩
  | sub => exact Or.inl ⟨_, rfl⟩
  | mul =>
      by_cases hhides : v.HidesVariables ∨ w.HidesVariables
      · cases hmul : v.mul w with
        | ok x => exact Or.inl ⟨x, hmul⟩
        | error r =>
            obtain ⟨x, rfl⟩ := Value.mul_eq_error hmul
            refine Or.inr ⟨hhides, ⟨x, hmul⟩, u, h, hzero ?_⟩
            rw [Value.denote_mul hv'.integral hw'.integral h, ← hvv, ← hww]
            rcases hhides with hhides | hhides
            · rw [Value.denote_eq_zero_of_hidesVariables hhides, zero_mul]
            · rw [Value.denote_eq_zero_of_hidesVariables hhides, mul_zero]
      · rw [not_or] at hhides
        exact Or.inl (Value.mul_isOk_of_normalised hv hw hhides.1 hhides.2 hnormalised)
  | pow =>
      rcases Value.pow_cases_of_normalised hv hw hnormalised with hok | ⟨hhides, hx, n, hn, hc⟩
      · exact Or.inl hok
      · refine Or.inr ⟨Or.inl hhides, hx, u, h, hzero ?_⟩
        obtain ⟨k, hk, hu⟩ := Value.denote_pow hv'.integral hw'.integral h
        rw [← hww, Value.denote_constant hc] at hk
        obtain rfl : n = k := Int.ofNat.inj (MvPolynomial.C_injective _ _ hk)
        rw [hu, ← hvv, Value.denote_eq_zero_of_hidesVariables hhides, zero_pow hn]

theorem Stumbles.refused (h : op.Stumbles v w v' w') : ¬ ∃ u, op.apply v w = .ok u := by
  obtain ⟨-, ⟨x, hx⟩, -⟩ := h
  rintro ⟨u, hu⟩
  rw [hx] at hu
  cases hu

theorem Stumbles.isOk (h : op.Stumbles v w v' w') : ∃ u, op.apply v' w' = .ok u := by
  obtain ⟨-, -, u, hu, -⟩ := h
  exact ⟨u, hu⟩

/-- **Interchangeability of equal operands.** Replacing exact operands by equal ones does not
change what an operator does, up to equality and refusals included, exactly if it stumbles on
neither side. So no harm is done where no operand hides variables. -/
theorem apply_congr (hv : v.IsExact) (hv' : v'.IsExact) (hw : w.IsExact) (hw' : w'.IsExact)
    (hvv : (v == v') = true) (hww : (w == w') = true) :
    (Agree (op.apply v w) (op.apply v' w') ↔ ¬ op.Stumbles v w v' w' ∧ ¬ op.Stumbles v' w' v w) ∧
      (¬ v.HidesVariables → ¬ w.HidesVariables → ¬ v'.HidesVariables → ¬ w'.HidesVariables →
        Agree (op.apply v w) (op.apply v' w')) := by
  have hdenote := (hv.beq_iff hv').mp hvv
  have hdenote' := (hw.beq_iff hw').mp hww
  have hvv' : (v' == v) = true := (hv'.beq_iff hv).mpr hdenote.symm
  have hww' : (w' == w) = true := (hw'.beq_iff hw).mpr hdenote'.symm
  have hequal : ∀ u u', op.apply v w = .ok u → op.apply v' w' = .ok u' → (u == u') = true := by
    intro u u' hu hu'
    refine ((isExact_apply hv hw hu).beq_iff (isExact_apply hv' hw' hu')).mpr ?_
    exact denote_eq_of_apply hv hv' hw hw' hdenote hdenote' hu hu'
  have hagree : Agree (op.apply v w) (op.apply v' w') ↔
      ¬ op.Stumbles v w v' w' ∧ ¬ op.Stumbles v' w' v w := by
    rw [agree_iff hequal]
    constructor
    · intro h
      exact ⟨fun hs => hs.refused (h.mpr hs.isOk), fun hs => hs.refused (h.mp hs.isOk)⟩
    · rintro ⟨hs, hs'⟩
      constructor
      · rintro ⟨u, hu⟩
        exact (isOk_or_stumbles hv' hv hw' hw hvv' hww' hu).resolve_right hs'
      · rintro ⟨u, hu⟩
        exact (isOk_or_stumbles hv hv' hw hw' hvv hww hu).resolve_right hs
  refine ⟨hagree, fun h₁ h₂ h₁' h₂' => hagree.mpr ⟨fun h => ?_, fun h => ?_⟩⟩
  · exact h.1.elim h₁ h₂
  · exact h.1.elim h₁' h₂'

/-- The product of `2x` and a zero that keeps `x`, and the product of their normal forms. -/
theorem apply_congr_of_zero :
    let v := Value.term ⟨.int 2, .var "x"⟩
    let w := Value.term ⟨.int 0, .var "x"⟩
    v.IsExact ∧ w.IsExact ∧ (v == v.normalised) = true ∧ (w == w.normalised) = true ∧
      w.HidesVariables ∧ Agree (mul.apply v w) (mul.apply v.normalised w.normalised) := by
  intro v w
  have hv : v.IsExact := Value.isExact_power 2 "x" (by decide) (by decide)
  have hw : w.IsExact := Value.isExact_power 0 "x" (by decide) (by decide)
  have hvv : (v == v.normalised) = true := by rfl
  have hww : (w == w.normalised) = true := by rfl
  have hleft : mul.apply v w = .ok (.term ⟨.int 0, ⟨[("x", 2)]⟩⟩) := by rfl
  have hright : mul.apply v.normalised w.normalised = .ok (.constant .zero) := by rfl
  refine ⟨hv, hw, hvv, hww, ⟨_, rfl, rfl, rfl⟩,
    (apply_congr hv hv.normalised hw hw.normalised hvv hww).1.mpr ⟨?_, ?_⟩⟩
  · rintro ⟨-, ⟨x, hx⟩, -⟩
    rw [hleft] at hx
    cases hx
  · rintro ⟨-, ⟨x, hx⟩, -⟩
    rw [hright] at hx
    cases hx

/-- A zero that keeps its variable at the limit is equal to the empty polynomial, but only the
latter can be multiplied by `x+y` and squared. -/
theorem apply_not_congr :
    let v := Value.poly ⟨[⟨.one, .var "x"⟩, ⟨.one, .var "y"⟩]⟩
    let w := Value.term ⟨.int 0, ⟨[("x", 4294967295)]⟩⟩
    let w' := Value.poly ⟨[]⟩
    let two := Value.constant (.int 2)
    v.IsExact ∧ w.IsExact ∧ w'.IsExact ∧ two.IsExact ∧ (w == w') = true ∧
      mul.apply v w = .error (.exponentTooLarge "x") ∧ mul.apply v w' = .ok (.constant .zero) ∧
      pow.apply w two = .error (.exponentTooLarge "x") ∧
      pow.apply w' two = .ok (.constant .zero) ∧
      ¬ Agree (mul.apply v w) (mul.apply v w') ∧ ¬ Agree (pow.apply w two) (pow.apply w' two) := by
  intro v w w' two
  have hx : (Value.var "x").IsExact := Value.isExact_power 1 "x" (by decide) (by decide)
  have hy : (Value.var "y").IsExact := Value.isExact_power 1 "y" (by decide) (by decide)
  have hsum : add.apply (.var "x") (.var "y") = .ok v := by rfl
  have hw : w.IsExact := Value.isExact_power 0 "x" (by decide) (by decide)
  have hmul : mul.apply v w = .error (.exponentTooLarge "x") := by rfl
  have hmul' : mul.apply v w' = .ok (.constant .zero) := by rfl
  have hpow : pow.apply w two = .error (.exponentTooLarge "x") := by rfl
  have hpow' : pow.apply w' two = .ok (.constant .zero) := by rfl
  refine ⟨isExact_apply hx hy hsum, hw, hw.normalised, Value.isExact_constant 2, by rfl, hmul,
    hmul', hpow, hpow', ?_, ?_⟩
  · rw [hmul, hmul']
    exact id
  · rw [hpow, hpow']
    exact id

end Operator

end PolyCalc
