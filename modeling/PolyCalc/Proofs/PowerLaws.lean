import PolyCalc.Proofs.PowerLimits

/-!
# Laws of powers

Powers of exact values obey the laws of exponents, `v^(m+n) = v^m * v^n` and `v^(m*n) = (v^m)^n`,
because both sides denote the same polynomial. What has to be shown is that the other side of a law
is there, and `Value.HasPower` says when it is.

For the first law only exponents count, and a power holds none that is larger than that many times
the largest exponent of its base (`largestExponent_pow_le`). For the second law the power of a power
has to be within the limits for its own number of terms. Here single terms stay single, and several
terms stay several: a monomial has only monomials as divisors (`two_le_length_of_pow`).
-/

namespace PolyCalc

/-! ## Powers of single terms -/

theorem Monomial.largestExponent_pow_le {m r : Monomial} {n : Nat} (h : m.pow n = .ok r) :
    r.largestExponent ≤ n * m.largestExponent := by
  rcases pow_eq_ok.mp h with ⟨-, rfl⟩ | ⟨-, -, rfl⟩
  · exact Nat.zero_le _
  · rw [largestExponent_le_iff, List.forall_mem_map]
    exact mul_largestExponent_le_iff.mp le_rfl

/-- A power of a term has a power if the exponents together are within the limits. The length of
the power is at most that many times the length of the base. -/
theorem Term.HasPower.pow {t u : Term} {i : Int} {m n : ℕ} (h : t.HasPower (m * n))
    (ht : t.coefficient = .int i) (hu : t.pow (.int m) = .ok u) : u.HasPower n := by
  obtain ⟨-, -, hc, hm⟩ := (pow_natCast_eq_ok ht).mp hu
  constructor
  · intro j hj hlong
    obtain rfl := Number.int.inj (hj.symm.trans hc)
    have hne : m ≠ 0 := by
      rintro rfl
      simp at hlong
    have hbase : 1 < i.natAbs := by
      rwa [Int.natAbs_pow, Nat.one_lt_pow_iff hne] at hlong
    calc Number.bits (i ^ m) * n ≤ Number.bits i * m * n :=
          Nat.mul_le_mul_right n (Number.bits_pow_le i hne)
      _ = Number.bits i * (m * n) := Nat.mul_assoc ..
      _ ≤ maxPowerBits := h.1 i ht hbase
  · rw [← Monomial.mul_largestExponent_le_iff]
    calc n * u.monomial.largestExponent ≤ n * (m * t.monomial.largestExponent) :=
          Nat.mul_le_mul_left n (Monomial.largestExponent_pow_le hm)
      _ = m * n * t.monomial.largestExponent := by rw [← Nat.mul_assoc, Nat.mul_comm n]
      _ ≤ Monomial.maxExponent := Monomial.mul_largestExponent_le_iff.mpr h.2

namespace Value

variable {v w u : Value} {m n : ℕ}

/-! ## Powers of several terms -/

theorem denote_ne_zero (hv : v.IsExact) (hmany : 2 ≤ v.terms.length) : v.denote ≠ 0 := by
  cases v with
  | term t => simp [terms] at hmany
  | poly p =>
      obtain ⟨t, ht⟩ := List.exists_mem_of_length_pos (Nat.zero_lt_of_lt hmany)
      exact Polynomial.denoteTerms_ne_zero hv ht

/-- Only single terms divide a single term. -/
theorem length_le_one_of_dvd_monomial {d : String →₀ ℕ} {i : ℤ} (hv : v.IsExact)
    (h : v.denote ∣ MvPolynomial.monomial d i) (hi : i ≠ 0) : v.terms.length ≤ 1 := by
  cases v with
  | term t => exact le_rfl
  | poly p =>
      obtain ⟨e, j, -, -, heq⟩ := (MvPolynomial.dvd_monomial_iff_exists hi).mp h
      replace heq : denoteTerms p.terms = MvPolynomial.monomial e j := heq
      have hsame : ∀ t ∈ p.terms, t.monomial.toFinsupp = e := by
        intro t ht
        have hsupport := Polynomial.mem_support hv ht
        rw [heq] at hsupport
        exact Finset.mem_singleton.mp (MvPolynomial.support_monomial_subset hsupport)
      by_contra hmany
      match hterms : p.terms with
      | [] | [_] => simp [terms, hterms] at hmany
      | s :: t :: rest =>
          have hs : s ∈ p.terms := hterms ▸ List.mem_cons_self ..
          have ht : t ∈ p.terms := hterms ▸ List.mem_cons_of_mem s (List.mem_cons_self ..)
          have hdistinct := hv.normal.distinct
          rw [hterms] at hdistinct
          refine (List.pairwise_cons.mp hdistinct).1 t (List.mem_cons_self ..) ?_
          exact (Monomial.toFinsupp_inj (hv.supported s hs).1 (hv.supported t ht).1).mp
            ((hsame s hs).trans (hsame t ht).symm)

/-- Several terms stay several. -/
theorem two_le_length_of_pow (hv : v.IsExact) (hmany : 2 ≤ v.terms.length) (hn : n ≠ 0)
    (hw : w.constant? = some (.int n)) (h : v.pow w = .ok u) : 2 ≤ u.terms.length := by
  have hdenote := denote_pow_natCast hv.integral hw h
  have hne : u.denote ≠ 0 := hdenote ▸ pow_ne_zero n (denote_ne_zero hv hmany)
  have hdvd : v.denote ∣ u.denote := hdenote ▸ dvd_pow_self v.denote hn
  by_contra hfew
  match hterms : u.terms with
  | [] =>
      rw [denote, hterms] at hne
      exact hne rfl
  | [t] =>
      have hsingle : u.denote =
          MvPolynomial.monomial t.monomial.toFinsupp t.coefficient.integer := by
        rw [denote, hterms, denoteTerms_cons, denoteTerms_nil, add_zero, Term.denote]
      rw [hsingle] at hne hdvd
      have hle := length_le_one_of_dvd_monomial hv hdvd fun hzero => hne (by rw [hzero, map_zero])
      omega
  | _ :: _ :: _ => simp [hterms] at hfew

/-! ## Exponents of powers -/

/-- Degrees are multiplied by the exponent of a power, and so are the exponents that are held. -/
theorem largestExponent_pow_le (hv : v.IsExact) (hw : w.constant? = some (.int n))
    (h : v.pow w = .ok u) : u.largestExponent ≤ n * v.largestExponent := by
  obtain ⟨-, ⟨-, rfl⟩ | ⟨t, -, ht, -⟩ | ⟨p, rfl, hmany, -⟩⟩ := pow_natCast_cases hw h
  · split <;> exact Nat.zero_le _
  · obtain ⟨i, hi⟩ := hv.integral t (ht ▸ List.mem_singleton.mpr rfl)
    obtain ⟨s, hs, hu⟩ := pow_of_single hv ht hw h
    obtain ⟨-, -, -, hm⟩ := (Term.pow_natCast_eq_ok hi).mp hs
    rw [largestExponent_of_single ht, largestExponent_of_single hu]
    exact Monomial.largestExponent_pow_le hm
  · have hv' : (poly p).denote ≠ 0 := denote_ne_zero hv hmany
    have hdenote := denote_pow_natCast hv.integral hw h
    have hu' : u.denote ≠ 0 := hdenote ▸ pow_ne_zero n hv'
    have hdegree := (largestExponent_le_iff_degreeOf hv
      (mt denote_eq_zero_of_hidesVariables hv')).mp le_rfl
    refine (largestExponent_le_iff_degreeOf (hv.pow hw h)
      (mt denote_eq_zero_of_hidesVariables hu')).mpr fun x => ?_
    rw [hdenote]
    exact (MvPolynomial.degreeOf_pow_le x _ n).trans (Nat.mul_le_mul_left n (hdegree x))

/-- Values can be multiplied if their largest exponents may be added. -/
theorem mul_isOk_of_largestExponent (hv : v.IsSupported) (hw : w.IsSupported)
    (h : v.largestExponent + w.largestExponent ≤ Monomial.maxExponent) :
    ∃ u, v.mul w = .ok u := by
  rw [mul_isOk_iff_fits hv hw]
  rintro a b hab x d e hd he
  obtain ⟨⟨s, hs, rfl⟩, t, ht, rfl⟩ := hab.exists_mem
  have hd' := largestExponent_le_iff.mp le_rfl s hs _ hd
  have he' := largestExponent_le_iff.mp le_rfl t ht _ he
  exact (Nat.add_le_add hd' he').trans h

/-- A power has a power if the exponents together are within the limits. -/
theorem HasPower.pow_of_mul (h : v.HasPower (m * n)) (hv : v.IsExact)
    (hn : n ≤ Monomial.maxExponent) (hw : w.constant? = some (.int m)) (hu : v.pow w = .ok u) :
    u.HasPower n := by
  obtain ⟨-, ⟨-, rfl⟩ | ⟨t, -, ht, -⟩ | ⟨p, rfl, hmany, -, hx⟩⟩ := pow_natCast_cases hw hu
  · split
    · exact hasPower_constant (by decide) hn
    · exact hasPower_constant (by decide) hn
  · obtain ⟨i, hi⟩ := hv.integral t (ht ▸ List.mem_singleton.mpr rfl)
    obtain ⟨s, hs, hterms⟩ := pow_of_single hv ht hw hu
    exact hasPower_of_single hterms hn ((h.single t ht).pow hi hs)
  · obtain ⟨hexpansion, hexponent⟩ := h.several hmany
    rcases Nat.eq_zero_or_pos m with rfl | hm
    · -- nothing has been multiplied, and the power is the single term one
      obtain rfl := Except.ok.inj hx
      exact hasPower_constant le_rfl hn
    · have hseveral := two_le_length_of_pow hv hmany hm.ne' hw hu
      refine ⟨hn, fun t ht => ?_, fun _ => ⟨(Nat.le_mul_of_pos_left n hm).trans hexpansion, ?_⟩⟩
      · simp [ht] at hseveral
      · calc n * u.largestExponent ≤ n * (m * (poly p).largestExponent) :=
              Nat.mul_le_mul_left n (largestExponent_pow_le hv hw hu)
          _ = m * n * (poly p).largestExponent := by rw [← Nat.mul_assoc, Nat.mul_comm n]
          _ ≤ Monomial.maxExponent := hexponent

/-! ## The laws -/

variable {a b s : Value}

theorem exists_mul_eq_pow_add (hv : v.IsExact) (ha : a.constant? = some (.int m))
    (hb : b.constant? = some (.int n)) (hs : s.constant? = some (.int (m + n : ℕ))) {x : Value}
    (hx : v.pow s = .ok x) :
    ∃ y z u, v.pow a = .ok y ∧ v.pow b = .ok z ∧ y.mul z = .ok u ∧ (u == x) = true := by
  have hpower := hasPower_of_pow hv hs hx
  obtain ⟨y, hy⟩ := (hpower.mono (Nat.le_add_right m n)).pow hv ha
  obtain ⟨z, hz⟩ := (hpower.mono (Nat.le_add_left n m)).pow hv hb
  have hy' := hv.pow ha hy
  have hz' := hv.pow hb hz
  have hlargest : y.largestExponent + z.largestExponent ≤ Monomial.maxExponent := by
    calc y.largestExponent + z.largestExponent
        ≤ m * v.largestExponent + n * v.largestExponent := Nat.add_le_add
          (largestExponent_pow_le hv ha hy) (largestExponent_pow_le hv hb hz)
      _ = (m + n) * v.largestExponent := (Nat.add_mul ..).symm
      _ ≤ Monomial.maxExponent := hpower.mul_largestExponent_le
  obtain ⟨u, hu⟩ := mul_isOk_of_largestExponent hy'.supported hz'.supported hlargest
  refine ⟨y, z, u, hy, hz, hu, ((hy'.mul hz' hu).beq_iff (hv.pow hs hx)).mpr ?_⟩
  rw [denote_mul hy'.integral hz'.integral hu, denote_pow_natCast hv.integral ha hy,
    denote_pow_natCast hv.integral hb hz, denote_pow_natCast hv.integral hs hx, pow_add]

theorem exists_pow_eq_pow_mul (hv : v.IsExact) (ha : a.constant? = some (.int m))
    (hb : b.constant? = some (.int n)) (hs : s.constant? = some (.int (m * n : ℕ)))
    (hn : n ≤ Monomial.maxExponent) {x y : Value} (hy : v.pow a = .ok y) (hx : v.pow s = .ok x) :
    ∃ u, y.pow b = .ok u ∧ (u == x) = true := by
  have hy' := hv.pow ha hy
  obtain ⟨u, hu⟩ := ((hasPower_of_pow hv hs hx).pow_of_mul hv hn ha hy).pow hy' hb
  refine ⟨u, hu, ((hy'.pow hb hu).beq_iff (hv.pow hs hx)).mpr ?_⟩
  rw [denote_pow_natCast hy'.integral hb hu, denote_pow_natCast hv.integral ha hy,
    denote_pow_natCast hv.integral hs hx, pow_mul]

/-- **Laws of exponents.** If an exact value can be raised to `m+n`, it can be raised to `m` and to
`n`, the powers can be multiplied, and their product is the power by `m+n`. If it can be raised to
`m` and to `m*n`, its power by `m` can be raised to any exponent `n`, and that is the power by
`m*n`. -/
theorem pow_laws {v a b s t : Value} {m n : ℕ} (hv : v.IsExact) (ha : a.constant? = some (.int m))
    (hb : b.constant? = some (.int n)) (hs : s.constant? = some (.int (m + n : ℕ)))
    (ht : t.constant? = some (.int (m * n : ℕ))) (hn : n ≤ Monomial.maxExponent) :
    (∀ x, v.pow s = .ok x →
      ∃ y z u, v.pow a = .ok y ∧ v.pow b = .ok z ∧ y.mul z = .ok u ∧ (u == x) = true) ∧
      ∀ y x, v.pow a = .ok y → v.pow t = .ok x → ∃ u, y.pow b = .ok u ∧ (u == x) = true :=
  ⟨fun _ hx => exists_mul_eq_pow_add hv ha hb hs hx,
    fun _ _ hy hx => exists_pow_eq_pow_mul hv ha hb ht hn hy hx⟩

/-- The powers of `x+1` by two and three, where three is held as a polynomial. -/
theorem pow_laws_of_sum :
    let v := poly ⟨[⟨.one, .var "x"⟩, ⟨.one, .one⟩]⟩
    let a := constant (.int 2)
    let b := poly ⟨[.constant (.int 3)]⟩
    v.IsExact ∧
      (∃ x y z u, v.pow (constant (.int 5)) = .ok x ∧ v.pow a = .ok y ∧ v.pow b = .ok z ∧
        y.mul z = .ok u ∧ (u == x) = true) ∧
      ∃ x y u, v.pow (constant (.int 6)) = .ok x ∧ v.pow a = .ok y ∧ y.pow b = .ok u ∧
        (u == x) = true := by
  intro v a b
  have hvar : (Value.var "x").IsExact := isExact_power 1 "x" (by decide) (by decide)
  have hv : v.IsExact := hvar.add (isExact_constant 1)
  have ha : a.constant? = some (.int (2 : ℕ)) := rfl
  have hb : b.constant? = some (.int (3 : ℕ)) := rfl
  have hfive : (constant (.int 5)).constant? = some (.int (2 + 3 : ℕ)) := rfl
  have hsix : (constant (.int 6)).constant? = some (.int (2 * 3 : ℕ)) := rfl
  have hpower : v.HasPower 6 :=
    { exponent := by decide
      single := fun _ hsingle => by cases hsingle
      several := fun _ => by decide }
  obtain ⟨x, hx⟩ := (hpower.mono (by decide : 5 ≤ 6)).pow hv hfive
  obtain ⟨x', hx'⟩ := hpower.pow hv hsix
  obtain ⟨hadd, hmul⟩ := pow_laws hv ha hb hfive hsix (by decide)
  obtain ⟨y, z, u, hy, hz, hu, heq⟩ := hadd x hx
  obtain ⟨u', hu', heq'⟩ := hmul y x' hy hx'
  exact ⟨hv, ⟨x, y, z, u, hx, hy, hz, hu, heq⟩, x', y, u', hx', hy, hu', heq'⟩

end Value

end PolyCalc
