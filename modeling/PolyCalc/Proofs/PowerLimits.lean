import PolyCalc.Proofs.Degrees

/-!
# When a power is refused

Four limits guard powers: that of the exponent, that of the length of an integer, that of the
exponents of variables, and a lower one for powers of several terms. A single term is raised in
closed form, so what it is checked for can be read off the term. Several terms are multiplied out,
and exponents are checked in every product of every round, after whatever has cancelled. Degrees say
what comes of it: an expansion is refused exactly if the exponent times the largest exponent of the
base is too large.

`Value.HasPower` collects the conditions, and `Value.pow_isOk_iff` says that they are exact.
-/

namespace PolyCalc

/-! ## Lengths of integers -/

namespace Number

theorem bits_le_iff {i : Int} {k : Nat} : bits i ≤ k ↔ i.natAbs < 2 ^ k := by
  unfold bits
  split
  · next hzero => simp [hzero]
  · next hne => rw [Nat.add_one_le_iff, Nat.log2_lt (Int.natAbs_ne_zero.mpr hne)]

theorem bits_pow_le (i : Int) {n : Nat} (hn : n ≠ 0) : bits (i ^ n) ≤ bits i * n := by
  rw [bits_le_iff, Int.natAbs_pow, pow_mul]
  exact Nat.pow_lt_pow_left (bits_le_iff.mp le_rfl) hn

/-- What passes the check on the length of the base has a power within the limit. -/
theorem bits_pow_le_maxPowerBits {i : Int} {n : Nat}
    (h : 1 < i.natAbs → bits i * n ≤ maxPowerBits) : bits (i ^ n) ≤ maxPowerBits := by
  rcases Nat.eq_zero_or_pos n with rfl | hn
  · rw [pow_zero]
    decide
  · rcases Nat.lt_or_ge 1 i.natAbs with hlong | hshort
    · exact (bits_pow_le i hn.ne').trans (h hlong)
    · rw [bits_le_iff, Int.natAbs_pow]
      calc i.natAbs ^ n ≤ 1 ^ n := Nat.pow_le_pow_left hshort n
        _ = 1 := one_pow n
        _ < 2 ^ maxPowerBits := Nat.one_lt_two_pow (by decide)

theorem toExponent_natCast {n : ℕ} {k : Nat} :
    (int n).toExponent = .ok k ↔ k = n ∧ n ≤ Monomial.maxExponent := by
  rw [toExponent_int]
  constructor
  · rintro ⟨heq, hle⟩
    obtain rfl := Int.ofNat.inj heq
    exact ⟨rfl, hle⟩
  · rintro ⟨rfl, hle⟩
    exact ⟨rfl, hle⟩

theorem int_pow_natCast_eq_ok {i : Int} {n : ℕ} {c : Number} :
    (int i).pow (int n) = .ok c ↔ n ≤ Monomial.maxExponent ∧
      (1 < i.natAbs → bits i * n ≤ maxPowerBits) ∧ c = int (i ^ n) := by
  rw [int_pow_int_eq_ok]
  constructor
  · rintro ⟨k, j, hk, hj, rfl⟩
    obtain ⟨rfl, hle⟩ := toExponent_natCast.mp hk
    obtain ⟨hbits, rfl⟩ := powInt_eq_ok.mp hj
    exact ⟨hle, fun hlong => Nat.le_of_not_lt fun hlt => hbits ⟨hlong, hlt⟩, rfl⟩
  · rintro ⟨hle, hbits, rfl⟩
    refine ⟨n, i ^ n, toExponent_natCast.mpr ⟨rfl, hle⟩, powInt_eq_ok.mpr ⟨?_, rfl⟩, rfl⟩
    exact fun ⟨hlong, hlt⟩ => Nat.not_lt_of_le (hbits hlong) hlt

theorem int_pow_int_eq_error {i j : Int} {r : Refusal} (h : (int i).pow (int j) = .error r) :
    r = .exponentNotNatural (int j) ∨ ∃ n : ℕ, j = n ∧ r = .powerTooLarge i n := by
  rcases bind_eq_error.mp h with h | ⟨n, hn, h⟩
  · exact Or.inl (toExponent_eq_error h)
  · refine Or.inr ⟨n, (toExponent_int.mp hn).1, ?_⟩
    rcases bind_eq_error.mp h with h | ⟨_, -, h⟩
    · unfold powInt at h
      split at h
      · exact (Except.error.inj h).symm
      · cases h
    · cases h

end Number

/-! ## The conditions -/

/-- A power of a term is within the limits: neither its coefficient nor the exponent of a variable
gets too large. Zero, one and minus one have powers of every exponent. -/
def Term.HasPower (t : Term) (n : Nat) : Prop :=
  (∀ i, t.coefficient = .int i → 1 < i.natAbs → Number.bits i * n ≤ maxPowerBits) ∧
    ∀ f ∈ t.monomial.factors, f.2 * n ≤ Monomial.maxExponent

/-- A power of a value is within the limits. -/
structure Value.HasPower (v : Value) (n : Nat) : Prop where
  exponent : n ≤ Monomial.maxExponent
  single : ∀ t, v.terms = [t] → t.HasPower n
  several : 2 ≤ v.terms.length →
    n ≤ maxExpansionPower ∧ n * v.largestExponent ≤ Monomial.maxExponent

theorem Term.HasPower.mono {t : Term} {m n : Nat} (hle : m ≤ n) (h : t.HasPower n) :
    t.HasPower m :=
  ⟨fun i hi hlong => (Nat.mul_le_mul_left _ hle).trans (h.1 i hi hlong),
    fun f hf => (Nat.mul_le_mul_left _ hle).trans (h.2 f hf)⟩

theorem Value.HasPower.mono {v : Value} {m n : Nat} (hle : m ≤ n) (h : v.HasPower n) :
    v.HasPower m where
  exponent := hle.trans h.exponent
  single := fun t ht => (h.single t ht).mono hle
  several := fun hmany => ⟨hle.trans (h.several hmany).1,
    (Nat.mul_le_mul_right _ hle).trans (h.several hmany).2⟩

theorem Value.largestExponent_of_single {v : Value} {t : Term} (ht : v.terms = [t]) :
    v.largestExponent = t.monomial.largestExponent := by
  rw [largestExponent, ht]
  exact Nat.max_zero _

/-- Exponents are limited in one way for all values. -/
theorem Value.HasPower.mul_largestExponent_le {v : Value} {n : Nat} (h : v.HasPower n) :
    n * v.largestExponent ≤ Monomial.maxExponent := by
  match hterms : v.terms with
  | [] =>
      rw [largestExponent, hterms]
      exact Nat.zero_le _
  | [t] =>
      rw [largestExponent_of_single hterms]
      exact Monomial.mul_largestExponent_le_iff.mpr (h.single t hterms).2
  | _ :: _ :: _ => exact (h.several (by simp [hterms])).2

/-! ## Single terms -/

theorem Term.pow_natCast_eq_ok {t u : Term} {i : Int} (ht : t.coefficient = .int i) {n : ℕ} :
    t.pow (.int n) = .ok u ↔ n ≤ Monomial.maxExponent ∧ t.HasPower n ∧
      u.coefficient = .int (i ^ n) ∧ t.monomial.pow n = .ok u.monomial := by
  have hbits : (∀ j, t.coefficient = .int j → 1 < j.natAbs → Number.bits j * n ≤ maxPowerBits) ↔
      (1 < i.natAbs → Number.bits i * n ≤ maxPowerBits) := by
    simp only [ht, Number.int.injEq, forall_eq']
  rw [pow_eq_ok, HasPower, hbits]
  constructor
  · rintro ⟨k, c, m, hk, hc, hm, rfl⟩
    obtain ⟨rfl, -⟩ := Number.toExponent_natCast.mp hk
    rw [ht] at hc
    obtain ⟨hle, hlength, rfl⟩ := Number.int_pow_natCast_eq_ok.mp hc
    refine ⟨hle, ⟨hlength, ?_⟩, rfl, hm⟩
    rcases Monomial.pow_eq_ok.mp hm with ⟨rfl, -⟩ | ⟨-, hexponents, -⟩
    · exact fun _ _ => Nat.zero_le _
    · exact hexponents
  · rintro ⟨hle, ⟨hlength, -⟩, hc, hm⟩
    refine ⟨n, _, _, Number.toExponent_natCast.mpr ⟨rfl, hle⟩, ?_, hm, rfl⟩
    rw [ht, hc]
    exact Number.int_pow_natCast_eq_ok.mpr ⟨hle, hlength, rfl⟩

theorem Monomial.exists_pow_eq_ok {m : Monomial} {n : Nat}
    (h : ∀ f ∈ m.factors, f.2 * n ≤ maxExponent) : ∃ r, m.pow n = .ok r := by
  rcases Nat.eq_zero_or_pos n with hzero | hpos
  · exact ⟨_, pow_eq_ok.mpr (Or.inl ⟨hzero, rfl⟩)⟩
  · exact ⟨_, pow_eq_ok.mpr (Or.inr ⟨hpos.ne', h, rfl⟩)⟩

theorem Term.pow_isOk_iff {t : Term} (ht : t.coefficient.IsInt) {n : ℕ} :
    (∃ u, t.pow (.int n) = .ok u) ↔ n ≤ Monomial.maxExponent ∧ t.HasPower n := by
  obtain ⟨i, hi⟩ := ht
  constructor
  · rintro ⟨u, hu⟩
    obtain ⟨hle, hpower, -⟩ := (pow_natCast_eq_ok hi).mp hu
    exact ⟨hle, hpower⟩
  · rintro ⟨hle, hpower⟩
    obtain ⟨r, hr⟩ := Monomial.exists_pow_eq_ok hpower.2
    exact ⟨⟨.int (i ^ n), r⟩, (pow_natCast_eq_ok hi).mpr ⟨hle, hpower, rfl, hr⟩⟩

theorem Term.pow_int_eq_error {t : Term} (ht : t.coefficient.IsInt) {j : Int} {r : Refusal}
    (h : t.pow (.int j) = .error r) :
    r = .exponentNotNatural (.int j) ∨
      ∃ n : ℕ, j = n ∧ ((∃ i, r = .powerTooLarge i n) ∨ ∃ x, r = .exponentTooLarge x) := by
  obtain ⟨i, hi⟩ := ht
  rcases bind_eq_error.mp h with h | ⟨n, hn, h⟩
  · exact Or.inl (Number.toExponent_eq_error h)
  · rcases bind_eq_error.mp h with h | ⟨_, -, h⟩
    · rw [hi] at h
      rcases Number.int_pow_int_eq_error h with hr | ⟨k, hk, hr⟩
      · exact Or.inl hr
      · exact Or.inr ⟨k, hk, Or.inl ⟨i, hr⟩⟩
    · rcases bind_eq_error.mp h with h | ⟨_, -, h⟩
      · obtain ⟨-, x, _, hr, -⟩ := Monomial.pow_eq_error h
        exact Or.inr ⟨n, (Number.toExponent_int.mp hn).1, Or.inr ⟨x, hr⟩⟩
      · cases h

/-! ## Several terms -/

namespace Polynomial

variable {p : Polynomial}

theorem denoteTerms_ne_zero (hp : (Value.poly p).IsExact) {t : Term} (ht : t ∈ p.terms) :
    denoteTerms p.terms ≠ 0 := by
  intro hzero
  have hsupport := mem_support hp ht
  rw [hzero, MvPolynomial.support_zero] at hsupport
  exact absurd hsupport (Finset.notMem_empty _)

/-- Expanding starts from one, which has no degree. -/
theorem expand_identity_isOk_iff (hp : (Value.poly p).IsExact) (hmany : 2 ≤ p.terms.length)
    {n : ℕ} : (∃ w, p.expand n (.term (.constant .one)) = .ok w) ↔
      n * (Value.poly p).largestExponent ≤ Monomial.maxExponent := by
  obtain ⟨t, ht⟩ := List.exists_mem_of_length_pos (Nat.zero_lt_of_lt hmany)
  have hidentity : (Value.term (.constant .one)).denote = 1 := by
    rw [Value.denote_term, Term.denote_constant]
    exact map_one _
  have hexact : (Value.term (.constant .one)).IsExact := Value.isExact_constant 1
  rw [expand_isOk_iff hp (denoteTerms_ne_zero hp ht) hexact (by rw [hidentity]; exact one_ne_zero),
    ← forall_mul_degreeOf_le_iff hp]
  simp only [hidentity, MvPolynomial.degreeOf_one, Nat.zero_add]

theorem pow_int_eq_error (hp : ∀ t ∈ p.terms, t.coefficient.IsInt) {j : Int} {r : Refusal}
    (h : p.pow (.int j) = .error r) :
    r = .exponentNotNatural (.int j) ∨ ∃ n : ℕ, j = n ∧ ((∃ i, r = .powerTooLarge i n) ∨
      (∃ x, r = .exponentTooLarge x) ∨ r = .expansionTooLarge n) := by
  rcases bind_eq_error.mp h with h | ⟨n, hn, h⟩
  · exact Or.inl (Number.toExponent_eq_error h)
  have hj := (Number.toExponent_int.mp hn).1
  rcases bind_eq_error.mp h with h | ⟨c, hc, h⟩
  · rcases Number.int_pow_int_eq_error h with hr | ⟨k, hk, hr⟩
    · exact Or.inl hr
    · exact Or.inr ⟨k, hk, Or.inl ⟨1, hr⟩⟩
  split at h
  · cases h
  · next t hone =>
      rcases bind_eq_error.mp h with h | ⟨_, -, h⟩
      · have ht := hp t (hone ▸ List.mem_singleton.mpr rfl)
        rcases Term.pow_int_eq_error ht h with hr | ⟨k, hk, hr | hr⟩
        · exact Or.inl hr
        · exact Or.inr ⟨k, hk, Or.inl hr⟩
        · exact Or.inr ⟨k, hk, Or.inr (Or.inl hr)⟩
      · cases h
  · split at h
    · exact Or.inr ⟨n, hj, Or.inr (Or.inr (Except.error.inj h).symm)⟩
    · obtain ⟨a, b, -, herr⟩ := exists_expand_eq_error h
      obtain ⟨x, hr, -⟩ := Monomial.mul_eq_error herr
      exact Or.inr ⟨n, hj, Or.inr (Or.inl ⟨x, hr⟩)⟩

end Polynomial

/-! ## Values -/

namespace Value

variable {v w u : Value}

theorem hasPower_of_single {t : Term} {n : Nat} (ht : v.terms = [t])
    (hle : n ≤ Monomial.maxExponent) (h : t.HasPower n) : v.HasPower n where
  exponent := hle
  single := by
    intro s hs
    obtain rfl := List.singleton_injective (ht.symm.trans hs)
    exact h
  several := by simp [ht]

/-- Zero, one and minus one are within the limits of all exponents. -/
theorem hasPower_constant {i : Int} {n : Nat} (hi : i.natAbs ≤ 1)
    (hle : n ≤ Monomial.maxExponent) : (constant (.int i)).HasPower n := by
  refine hasPower_of_single rfl hle ⟨fun j hj hlong => ?_, List.forall_mem_nil _⟩
  obtain rfl := Number.int.inj hj
  exact absurd hlong (Nat.not_lt_of_le hi)

/-- What a power is, by the number of terms of its base. -/
theorem pow_natCast_cases {n : ℕ} (hw : w.constant? = some (.int n)) (h : v.pow w = .ok u) :
    n ≤ Monomial.maxExponent ∧
      ((v.terms = [] ∧ u = .term (if n = 0 then .constant .one else .zero)) ∨
        (∃ t s, v.terms = [t] ∧ t.pow (.int n) = .ok s ∧
          (u = .term s ∨ (∃ p, v = .poly p) ∧ u = .poly (.ofTerm s))) ∨
        ∃ p, v = .poly p ∧ 2 ≤ p.terms.length ∧ n ≤ maxExpansionPower ∧
          p.expand n (.term (.constant .one)) = .ok u) := by
  obtain ⟨e, he, hcases⟩ := pow_cases h
  obtain rfl := Option.some.inj (hw.symm.trans he)
  rcases hcases with ⟨t, s, rfl, hs, rfl⟩ | ⟨p, rfl, hp⟩
  · obtain ⟨k, -, -, hk, -⟩ := Term.pow_eq_ok.mp hs
    exact ⟨(Number.toExponent_natCast.mp hk).2, Or.inr (Or.inl ⟨t, s, rfl, hs, Or.inl rfl⟩)⟩
  · obtain ⟨k, c, hk, hc, hcases⟩ := Polynomial.pow_cases hp
    obtain ⟨rfl, hle⟩ := Number.toExponent_natCast.mp hk
    obtain rfl := (Number.one_pow_int_eq_ok.mp hc).2
    refine ⟨hle, ?_⟩
    rcases hcases with ⟨hnil, hu⟩ | ⟨t, s, hone, hs, hu⟩ | ⟨hmany, hexpansion, hx⟩
    · exact Or.inl ⟨hnil, hu⟩
    · exact Or.inr (Or.inl ⟨t, s, hone, hs, hu.imp_right fun hu => ⟨⟨p, rfl⟩, hu⟩⟩)
    · exact Or.inr (Or.inr ⟨p, rfl, hmany, hexpansion, hx⟩)

theorem hasPower_of_pow {n : ℕ} (hv : v.IsExact) (hw : w.constant? = some (.int n))
    (h : v.pow w = .ok u) : v.HasPower n := by
  obtain ⟨hle, ⟨hnil, -⟩ | ⟨t, s, ht, hs, -⟩ | ⟨p, rfl, hmany, hexpansion, hx⟩⟩ :=
    pow_natCast_cases hw h
  · exact ⟨hle, by simp [hnil], by simp [hnil]⟩
  · have hint := hv.integral t (ht ▸ List.mem_singleton.mpr rfl)
    exact hasPower_of_single ht hle ((Term.pow_isOk_iff hint).mp ⟨s, hs⟩).2
  · refine ⟨hle, fun t ht => ?_, fun _ =>
      ⟨hexpansion, (Polynomial.expand_identity_isOk_iff hv hmany).mp ⟨u, hx⟩⟩⟩
    rw [terms] at ht
    simp [ht] at hmany

theorem HasPower.pow {n : ℕ} (h : v.HasPower n) (hv : v.IsExact)
    (hw : w.constant? = some (.int n)) : ∃ u, v.pow w = .ok u := by
  have hn := Number.toExponent_natCast.mpr ⟨rfl, h.exponent⟩
  cases v with
  | term t =>
      have ht := hv.integral t (List.mem_singleton.mpr rfl)
      obtain ⟨x, hx⟩ := (Term.pow_isOk_iff ht).mpr ⟨h.exponent, h.single t rfl⟩
      exact ⟨.term x, (term_pow hw).trans (map_eq_ok.mpr ⟨x, hx, rfl⟩)⟩
  | poly p =>
      have hone : Number.one.pow (.int n) = .ok .one := Number.one_pow_int_eq_ok.mpr ⟨⟨n, hn⟩, rfl⟩
      rw [poly_pow hw]
      match hterms : p.terms with
      | [] => exact ⟨_, Polynomial.pow_of_nil hn hone hterms⟩
      | [t] =>
          have ht := hv.integral t (by rw [terms, hterms]; exact List.mem_singleton.mpr rfl)
          obtain ⟨x, hx⟩ := (Term.pow_isOk_iff ht).mpr ⟨h.exponent, h.single t hterms⟩
          exact ⟨_, (Polynomial.pow_of_singleton hn hone hterms).trans
            (map_eq_ok.mpr ⟨x, hx, rfl⟩)⟩
      | _ :: _ :: _ =>
          have hmany : 2 ≤ p.terms.length := by simp [hterms]
          obtain ⟨hexpansion, hdegree⟩ := h.several hmany
          obtain ⟨x, hx⟩ := (Polynomial.expand_identity_isOk_iff hv hmany).mpr hdegree
          exact ⟨x, (Polynomial.pow_of_many hn hone hmany hexpansion).trans hx⟩

theorem pow_isOk_iff {n : ℕ} (hv : v.IsExact) (hw : w.constant? = some (.int n)) :
    (∃ u, v.pow w = .ok u) ↔ v.HasPower n :=
  ⟨fun ⟨_, hu⟩ => hasPower_of_pow hv hw hu, fun h => h.pow hv hw⟩

theorem pow_int_eq_error {n : Int} (hv : v.IsIntegral) (hw : w.constant? = some (.int n))
    {r : Refusal} (h : v.pow w = .error r) :
    r = .exponentNotNatural (.int n) ∨ ∃ k : ℕ, n = k ∧ ((∃ i, r = .powerTooLarge i k) ∨
      (∃ x, r = .exponentTooLarge x) ∨ r = .expansionTooLarge k) := by
  cases v with
  | term t =>
      rw [term_pow hw] at h
      rcases Term.pow_int_eq_error (hv t (List.mem_singleton.mpr rfl)) (map_eq_error.mp h) with
        hr | ⟨k, hk, hr | hr⟩
      · exact Or.inl hr
      · exact Or.inr ⟨k, hk, Or.inl hr⟩
      · exact Or.inr ⟨k, hk, Or.inr (Or.inl hr)⟩
  | poly p =>
      rw [poly_pow hw] at h
      exact Polynomial.pow_int_eq_error hv h

/-- The power of a single term is a single term, in whichever shape the base is held. -/
theorem pow_of_single {t : Term} {n : ℕ} (hv : v.IsExact) (ht : v.terms = [t])
    (hw : w.constant? = some (.int n)) (h : v.pow w = .ok u) :
    ∃ s, t.pow (.int n) = .ok s ∧ u.terms = [s] := by
  obtain ⟨-, ⟨hnil, -⟩ | ⟨t', s, ht', hs, hu⟩ | ⟨p, rfl, hmany, -⟩⟩ := pow_natCast_cases hw h
  · rw [hnil] at ht
    cases ht
  · obtain rfl := List.singleton_injective (ht.symm.trans ht')
    refine ⟨s, hs, ?_⟩
    rcases hu with rfl | ⟨⟨p, rfl⟩, rfl⟩
    · rfl
    · -- the coefficient is not zero, and neither are its powers
      have hmem : t ∈ (poly p).terms := ht' ▸ List.mem_singleton.mpr rfl
      obtain ⟨i, hi⟩ := hv.integral t hmem
      have hnonzero := hv.normal.nonzero t hmem
      rw [hi, Number.isZero_int, decide_eq_false_iff_not] at hnonzero
      obtain ⟨-, -, hc, -⟩ := (Term.pow_natCast_eq_ok hi).mp hs
      have hpower : s.coefficient.isZero = false := by
        rw [hc, Number.isZero_int, decide_eq_false_iff_not]
        exact pow_ne_zero n hnonzero
      rw [terms, Polynomial.terms_ofTerm, hpower, if_neg Bool.false_ne_true]
  · rw [terms] at ht
    simp [ht] at hmany

/-- The limits, each with what passes it. -/
theorem not_hasPower_iff {k : ℕ} (hv : v.IsIntegral) : ¬ v.HasPower k ↔
    Monomial.maxExponent < k ∨
    (∃ t c, v.terms = [t] ∧ t.coefficient = .int c ∧ 1 ≤ k ∧
      (1 < c.natAbs ∧ maxPowerBits < Number.bits c * k ∨
        ∃ f ∈ t.monomial.factors, Monomial.maxExponent < f.2 * k)) ∨
    2 ≤ v.terms.length ∧
      (maxExpansionPower < k ∨ Monomial.maxExponent < k * v.largestExponent) := by
  constructor
  · intro hnot
    by_contra hlimits
    push Not at hlimits
    obtain ⟨hexponent, hsingle, hseveral⟩ := hlimits
    refine hnot ⟨hexponent, fun t ht => ?_, hseveral⟩
    obtain ⟨c, hc⟩ := hv t (ht ▸ List.mem_singleton.mpr rfl)
    rcases Nat.eq_zero_or_pos k with rfl | hk
    · exact ⟨fun _ _ _ => Nat.zero_le _, fun _ _ => Nat.zero_le _⟩
    · obtain ⟨hlength, hfactors⟩ := hsingle t c ht hc hk
      refine ⟨fun i hi => ?_, hfactors⟩
      obtain rfl := Number.int.inj (hi.symm.trans hc)
      exact hlength
  · rintro hlimits ⟨hexponent, hsingle, hseveral⟩
    rcases hlimits with hlt | ⟨t, c, ht, hc, -, ⟨hlong, hlt⟩ | ⟨f, hf, hlt⟩⟩ | ⟨hmany, hlt | hlt⟩
    · omega
    · exact absurd ((hsingle t ht).1 c hc hlong) (Nat.not_le_of_lt hlt)
    · exact absurd ((hsingle t ht).2 f hf) (Nat.not_le_of_lt hlt)
    · exact absurd (hseveral hmany).1 (Nat.not_le_of_lt hlt)
    · exact absurd (hseveral hmany).2 (Nat.not_le_of_lt hlt)

/-- **When a power is refused.** An exact value is raised to an integer unless that is no exponent,
or the power of a single term has too long a coefficient or too large an exponent, or several terms
would be raised too high or get too large an exponent. The evaluator passes the refusal on, which
names one of these reasons. Where the power of a single term is there, its coefficient is within
the limit. -/
theorem pow_refused_iff {n : Int} (hv : v.IsExact) (hw : w.constant? = some (.int n)) :
    ((∃ r, v.pow w = .error r) ↔
      (n < 0 ∨ (Monomial.maxExponent : Int) < n) ∨
      (∃ t c, v.terms = [t] ∧ t.coefficient = .int c ∧ 1 ≤ n ∧
        (1 < c.natAbs ∧ (maxPowerBits : Int) < Number.bits c * n ∨
          ∃ f ∈ t.monomial.factors, (Monomial.maxExponent : Int) < f.2 * n)) ∨
      2 ≤ v.terms.length ∧ ((maxExpansionPower : Int) < n ∨
        (Monomial.maxExponent : Int) < n * v.largestExponent)) ∧
    (∀ r, v.pow w = .error r →
      (r = .exponentNotNatural (.int n) ∨ ∃ k : ℕ, n = k ∧ ((∃ i, r = .powerTooLarge i k) ∨
        (∃ x, r = .exponentTooLarge x) ∨ r = .expansionTooLarge k)) ∧
      ∀ stack index, (Instruction.apply .pow).step (w :: v :: stack) index =
        .error (.refused r)) ∧
    ∀ t u, v.terms = [t] → v.pow w = .ok u →
      ∃ s c, u.terms = [s] ∧ s.coefficient = .int c ∧ Number.bits c ≤ maxPowerBits := by
  refine ⟨?_, fun r hr => ⟨pow_int_eq_error hv.integral hw hr, fun stack index => ?_⟩, ?_⟩
  · rw [exists_eq_error_iff]
    rcases lt_or_ge n 0 with hneg | hnonneg
    · refine iff_of_true ?_ (Or.inl (Or.inl hneg))
      rintro ⟨u, hu⟩
      obtain ⟨k, rfl⟩ := exists_natCast_of_pow hw hu
      exact absurd hneg (Int.not_lt.mpr (Int.natCast_nonneg k))
    · obtain ⟨k, rfl⟩ := Int.eq_ofNat_of_zero_le hnonneg
      rw [pow_isOk_iff hv hw, not_hasPower_iff hv.integral, or_iff_right (Int.not_lt.mpr hnonneg)]
      norm_cast
  · have happly : Operator.pow.apply v w = .error r := hr
    simp only [Instruction.step, happly]
  · intro t u ht hu
    obtain ⟨k, rfl⟩ := exists_natCast_of_pow hw hu
    obtain ⟨s, hs, hterms⟩ := pow_of_single hv ht hw hu
    obtain ⟨c, hc⟩ := hv.integral t (ht ▸ List.mem_singleton.mpr rfl)
    obtain ⟨-, hpower, hcoefficient, -⟩ := (Term.pow_natCast_eq_ok hc).mp hs
    exact ⟨s, c ^ k, hterms, hcoefficient, Number.bits_pow_le_maxPowerBits (hpower.1 c hc)⟩

/-- `x^4194304 + 1` can be raised to 1023, which leaves `x` just below the limit, but not to
1024. -/
theorem pow_refused_iff_of_degree :
    let v := poly ⟨[⟨.one, ⟨[("x", 4194304)]⟩⟩, ⟨.one, .one⟩]⟩
    v.IsExact ∧ v.largestExponent = 4194304 ∧
      (∃ r, v.pow (constant (.int 1024)) = .error r) ∧
      ∃ u, v.pow (constant (.int 1023)) = .ok u := by
  intro v
  have hx : (term ⟨.int 1, ⟨[("x", 4194304)]⟩⟩).IsExact :=
    isExact_power 1 "x" (by decide) (by decide)
  have hv : v.IsExact := hx.add (isExact_constant 1)
  have hlargest : v.largestExponent = 4194304 := by rfl
  have hmany : 2 ≤ v.terms.length := by decide
  have hrefused : ∃ r, v.pow (constant (.int 1024)) = .error r := by
    refine (pow_refused_iff hv rfl).1.mpr (Or.inr (Or.inr ⟨hmany, Or.inr ?_⟩))
    rw [hlargest]
    decide
  have hpassed : ¬ ∃ r, v.pow (constant (.int 1023)) = .error r := by
    rw [(pow_refused_iff hv rfl).1, hlargest]
    rintro (hexponent | ⟨t, c, ht, -⟩ | ⟨-, hlimit⟩)
    · exact absurd hexponent (by decide)
    · cases ht
    · exact absurd hlimit (by decide)
  rw [exists_eq_error_iff, not_not] at hpassed
  exact ⟨hv, hlargest, hrefused, hpassed⟩

end Value

end PolyCalc
