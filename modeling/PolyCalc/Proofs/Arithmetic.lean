import PolyCalc.Proofs.Meaning

/-!
# Arithmetic on what values denote

Each operation on integral values denotes the operation of polynomials with its name: sums and
differences always (`Value.denote_add`, `Value.denote_sub`), products and powers whenever they
are not refused (`Value.denote_mul`, `Value.denote_pow`). The exponent of a power denotes a
constant, and that constant is the natural number to which the base is raised.
-/

namespace PolyCalc

/-! ## Sums -/

theorem Term.denote_neg {t : Term} (ht : t.coefficient.IsInt) : t.neg.denote = -t.denote := by
  obtain ⟨c, m⟩ := t
  obtain ⟨i, rfl⟩ := ht
  exact map_neg _ i

theorem denoteTerms_map_neg {ts : List Term} (hts : ∀ t ∈ ts, t.coefficient.IsInt) :
    denoteTerms (ts.map Term.neg) = -denoteTerms ts := by
  induction ts with
  | nil => exact neg_zero.symm
  | cons t ts ih =>
      obtain ⟨ht, hts'⟩ := List.forall_mem_cons.mp hts
      rw [List.map_cons, denoteTerms_cons, denoteTerms_cons, ih hts', Term.denote_neg ht, neg_add]

namespace Value

theorem isInt_coefficient_neg {w : Value} (hw : w.IsIntegral) :
    ∀ t ∈ w.terms.map Term.neg, t.coefficient.IsInt := by
  intro t ht
  obtain ⟨u, hu, rfl⟩ := List.mem_map.mp ht
  exact closed_isInt.neg (hw u hu)

theorem denote_add {v w : Value} (hv : v.IsIntegral) (hw : w.IsIntegral) :
    (v.add w).denote = v.denote + w.denote := by
  rcases add_cases v w with ⟨s, t, rfl, rfl, hm, heq⟩ | heq
  · obtain ⟨⟨i, hi⟩, ⟨j, hj⟩⟩ :=
      And.intro (hv s (List.mem_singleton.mpr rfl)) (hw t (List.mem_singleton.mpr rfl))
    rw [heq, denote_term, denote_term, denote_term, Term.denote, Term.denote, Term.denote, hi, hj,
      ← hm]
    exact map_add _ i j
  · have hints : ∀ t ∈ v.terms ++ w.terms, t.coefficient.IsInt :=
      fun t ht => (List.mem_append.mp ht).elim (hv t) (hw t)
    rw [heq, denote, terms, denoteTerms_ofTerms hints, denoteTerms_append]
    rfl

theorem denote_sub {v w : Value} (hv : v.IsIntegral) (hw : w.IsIntegral) :
    (v.sub w).denote = v.denote - w.denote := by
  rcases sub_cases v w with ⟨s, t, rfl, rfl, hm, heq⟩ | heq
  · obtain ⟨⟨i, hi⟩, ⟨j, hj⟩⟩ :=
      And.intro (hv s (List.mem_singleton.mpr rfl)) (hw t (List.mem_singleton.mpr rfl))
    rw [heq, denote_term, denote_term, denote_term, Term.denote, Term.denote, Term.denote, hi, hj,
      ← hm]
    exact map_sub _ i j
  · have hints : ∀ t ∈ v.terms ++ w.terms.map Term.neg, t.coefficient.IsInt :=
      fun t ht => (List.mem_append.mp ht).elim (hv t) (isInt_coefficient_neg hw t)
    rw [heq, denote, terms, denoteTerms_ofTerms hints, denoteTerms_append,
      denoteTerms_map_neg hw, ← sub_eq_add_neg]
    rfl

end Value

/-! ## Products -/

theorem Monomial.Merges.toFinsupp {as bs cs : List (String × Nat)} (h : Merges as bs cs) :
    Monomial.toFinsupp ⟨cs⟩ = Monomial.toFinsupp ⟨as⟩ + Monomial.toFinsupp ⟨bs⟩ := by
  induction h with
  | leftDone => exact (zero_add _).symm
  | rightDone => exact (add_zero _).symm
  | left _ _ ih =>
      simp only [toFinsupp_cons] at ih ⊢
      rw [ih, add_assoc]
  | right _ _ ih =>
      simp only [toFinsupp_cons] at ih ⊢
      rw [ih, add_left_comm]
  | shared _ _ ih =>
      simp only [toFinsupp_cons]
      rw [ih, Finsupp.single_add]
      exact add_add_add_comm _ _ _ _

theorem Term.denote_mul {s t u : Term} (hs : s.coefficient.IsInt) (ht : t.coefficient.IsInt)
    (h : s.mul t = .ok u) : u.denote = s.denote * t.denote := by
  obtain ⟨m, hm, rfl⟩ := mul_eq_ok.mp h
  obtain ⟨i, hi⟩ := hs
  obtain ⟨j, hj⟩ := ht
  have hexponents : m.toFinsupp = s.monomial.toFinsupp + t.monomial.toFinsupp :=
    (Monomial.merges_of_mul hm).toFinsupp
  rw [denote, denote, denote, hi, hj, MvPolynomial.monomial_mul, hexponents]
  rfl

theorem sum_row_products (ss ts : List Term) :
    ((ss.flatMap fun s => ts.map fun t => (s, t)).map fun p => p.1.denote * p.2.denote).sum =
      denoteTerms ss * denoteTerms ts := by
  induction ss with
  | nil => exact (zero_mul _).symm
  | cons s ss ih =>
      rw [List.flatMap_cons, List.map_append, List.sum_append, ih, denoteTerms_cons, add_mul,
        List.map_map]
      congr 1
      exact List.sum_map_mul_left ts Term.denote s.denote

theorem denoteTerms_products {ss ts us : List Term} (hss : ∀ s ∈ ss, s.coefficient.IsInt)
    (hts : ∀ t ∈ ts, t.coefficient.IsInt) (h : Polynomial.products ss ts = .ok us) :
    denoteTerms us = denoteTerms ss * denoteTerms ts := by
  rw [← sum_row_products, denoteTerms]
  have hpairs : ∀ p ∈ ss.flatMap fun s => ts.map fun t => (s, t),
      p.1.coefficient.IsInt ∧ p.2.coefficient.IsInt := by
    intro p hp
    obtain ⟨s, hs, ht⟩ := List.mem_flatMap.mp hp
    obtain ⟨t', ht', rfl⟩ := List.mem_map.mp ht
    exact ⟨hss s hs, hts t' ht'⟩
  have hrows := Polynomial.products_eq_ok.mp h
  clear h
  congr 1
  generalize (ss.flatMap fun s => ts.map fun t => (s, t)) = pairs at hpairs hrows
  induction hrows with
  | nil => rfl
  | cons hmul _ ih =>
      obtain ⟨⟨hs, ht⟩, hpairs'⟩ := List.forall_mem_cons.mp hpairs
      rw [List.map_cons, List.map_cons, ih hpairs', Term.denote_mul hs ht hmul]

theorem denote_collectProducts {us : List Term} (hus : ∀ u ∈ us, u.coefficient.IsInt) :
    (Polynomial.collectProducts us).denote = denoteTerms us := by
  unfold Polynomial.collectProducts
  split
  · next hall =>
      have hconstant : denoteTerms us =
          MvPolynomial.C ((us.map Term.coefficient).map Number.integer).sum := by
        rw [denoteTerms, map_list_sum, List.map_map, List.map_map]
        exact congrArg List.sum (List.map_congr_left fun u hu =>
          Term.denote_eq_C (List.all_eq_true.mp hall u hu))
      have hints : ∀ c ∈ us.map Term.coefficient, c.IsInt := by
        intro c hc
        obtain ⟨u, hu, rfl⟩ := List.mem_map.mp hc
        exact hus u hu
      rw [hconstant, Value.constant, Value.denote_term, Term.denote_constant, ← List.foldl_map,
        Number.zero, foldl_add_int hints, zero_add]
      rfl
  · exact denoteTerms_ofTerms hus

theorem Polynomial.denote_mul {p : Polynomial} {v w : Value}
    (hp : ∀ t ∈ p.terms, t.coefficient.IsInt) (hv : v.IsIntegral) (h : p.mul v = .ok w) :
    w.denote = denoteTerms p.terms * v.denote := by
  obtain ⟨us, hus, rfl⟩ := mul_eq_ok.mp h
  have hints : ∀ u ∈ us, u.coefficient.IsInt := by
    intro u hu
    obtain ⟨s, hs, t, ht, hmul⟩ := mem_products hus hu
    obtain ⟨m, -, rfl⟩ := Term.mul_eq_ok.mp hmul
    exact closed_isInt.mul (hp s hs) (hv t ht)
  rw [denote_collectProducts hints, denoteTerms_products hp hv hus]
  rfl

namespace Value

theorem denote_mul {v w u : Value} (hv : v.IsIntegral) (hw : w.IsIntegral)
    (h : v.mul w = .ok u) : u.denote = v.denote * w.denote := by
  rcases mul_cases h with ⟨s, t, x, rfl, rfl, hx, rfl⟩ | h
  · rw [denote_term, denote_term, denote_term]
    exact Term.denote_mul (hv s (List.mem_singleton.mpr rfl)) (hw t (List.mem_singleton.mpr rfl)) hx
  · rw [Polynomial.denote_mul hv.toPolynomial hw h, denote_toPolynomial hv]

end Value

/-! ## Powers -/

theorem Monomial.toFinsupp_pow {m r : Monomial} {n : Nat} (h : m.pow n = .ok r) :
    r.toFinsupp = n • m.toFinsupp := by
  rcases pow_eq_ok.mp h with ⟨rfl, rfl⟩ | ⟨-, -, rfl⟩
  · exact (zero_nsmul _).symm
  · obtain ⟨fs⟩ := m
    induction fs with
    | nil => exact (nsmul_zero n).symm
    | cons f fs ih =>
        have hfs : Monomial.pow ⟨fs⟩ n = .ok ⟨fs.map fun f => (f.1, f.2 * n)⟩ := by
          rcases pow_eq_ok.mp h with ⟨rfl, heq⟩ | ⟨hn, hle, -⟩
          · cases heq
          · exact pow_eq_ok.mpr
              (Or.inr ⟨hn, fun g hg => hle g (List.mem_cons_of_mem f hg), rfl⟩)
        rw [List.map_cons, toFinsupp_cons, ih hfs, toFinsupp_cons, nsmul_add,
          Finsupp.smul_single, smul_eq_mul, mul_comm]

theorem Term.denote_pow {t u : Term} {i : Int} (ht : t.coefficient.IsInt)
    (h : t.pow (.int i) = .ok u) : ∃ n : ℕ, i = n ∧ u.denote = t.denote ^ n := by
  obtain ⟨n, c, m, hn, hc, hm, rfl⟩ := pow_eq_ok.mp h
  obtain ⟨b, hb⟩ := ht
  rw [hb] at hc
  obtain ⟨n', k, hn', hk, rfl⟩ := Number.int_pow_int_eq_ok.mp hc
  obtain rfl : n = n' := Except.ok.inj (hn.symm.trans hn')
  obtain ⟨-, rfl⟩ := Number.powInt_eq_ok.mp hk
  refine ⟨n, (Number.toExponent_int.mp hn).1, ?_⟩
  rw [denote, denote, hb, Monomial.toFinsupp_pow hm, MvPolynomial.monomial_pow]
  rfl

theorem Polynomial.denote_expand {p : Polynomial} (hp : ∀ t ∈ p.terms, t.coefficient.IsInt) :
    ∀ {n : Nat} {v w : Value}, v.IsIntegral → p.expand n v = .ok w →
      w.denote = v.denote * denoteTerms p.terms ^ n
  | 0, v, w, _, hw => by
      obtain rfl := Except.ok.inj hw
      rw [pow_zero, mul_one]
  | n + 1, v, w, hv, hw => by
      obtain ⟨u, hu, hw⟩ := bind_eq_ok.mp hw
      have hpoly : (Value.poly p).IsIntegral := hp
      have hu' : u.IsIntegral := Value.isIntegral_iff_meets.mpr
        (closed_isInt.mulPolynomial (closed_isInt.toPolynomial (Value.isIntegral_iff_meets.mp hv))
          (Value.isIntegral_iff_meets.mp hpoly) hu)
      rw [denote_expand hp hu' hw, denote_mul hv.toPolynomial hpoly hu,
        Value.denote_toPolynomial hv, pow_succ', mul_assoc]
      rfl

theorem Polynomial.denote_pow {p : Polynomial} {i : Int} {v : Value}
    (hp : ∀ t ∈ p.terms, t.coefficient.IsInt) (h : p.pow (.int i) = .ok v) :
    ∃ n : ℕ, i = n ∧ v.denote = denoteTerms p.terms ^ n := by
  obtain ⟨n, c, hn, hc, hcases⟩ := pow_cases h
  obtain rfl := (Number.one_pow_int_eq_ok.mp hc).2
  refine ⟨n, (Number.toExponent_int.mp hn).1, ?_⟩
  rcases hcases with ⟨hnil, rfl⟩ | ⟨t, u, hone, hu, hv⟩ | ⟨-, -, hv⟩
  · rw [hnil, denoteTerms_nil]
    split
    · next hzero =>
        rw [hzero, pow_zero, Value.denote_term, Term.denote_constant]
        exact map_one _
    · next hpos =>
        rw [zero_pow hpos, Value.denote_term, Term.zero, Term.denote_constant]
        exact map_zero _
  · have ht : t.coefficient.IsInt := hp t (by rw [hone]; exact List.mem_singleton.mpr rfl)
    obtain ⟨n', hn', hdenote⟩ := Term.denote_pow ht hu
    obtain rfl : n = n' := by
      have := (Number.toExponent_int.mp hn).1
      omega
    have hsingle : denoteTerms p.terms = t.denote := by
      rw [hone, denoteTerms_cons, denoteTerms_nil, add_zero]
    rw [hsingle, ← hdenote]
    rcases hv with rfl | rfl
    · exact Value.denote_term u
    · have hu' : (Value.term u).IsIntegral := by
        have hmeets := closed_isInt.powTerm ⟨ht, trivial⟩ (Number.isInt_int i) hu
        exact List.forall_mem_singleton.mpr hmeets.1
      exact (Value.denote_toPolynomial hu').trans (Value.denote_term u)
  · have hidentity : (Value.term (.constant .one)).IsIntegral :=
      List.forall_mem_singleton.mpr (Number.isInt_int 1)
    rw [denote_expand hp hidentity hv, Value.denote_term, Term.denote_constant]
    exact one_mul _

namespace Value

theorem denote_constant {v : Value} {c : Number} (h : v.constant? = some c) :
    v.denote = MvPolynomial.C c.integer := by
  unfold constant? at h
  split at h
  · next t =>
      split at h
      · next hc =>
          obtain rfl := Option.some.inj h
          rw [denote_term]
          rcases Bool.or_eq_true_iff.mp hc with hc | hc
          · exact Term.denote_eq_C hc
          · rw [Term.denote, Number.integer_eq_zero hc, map_zero, map_zero]
      · cases h
  · next p =>
      rw [denote, terms]
      split at h
      · next hnil =>
          obtain rfl := Option.some.inj h
          rw [hnil]
          exact (map_zero _).symm
      · next t hone =>
          split at h
          · next hc =>
              obtain rfl := Option.some.inj h
              rw [hone, denoteTerms_cons, denoteTerms_nil, add_zero]
              exact Term.denote_eq_C hc
          · cases h
      · cases h

theorem denote_pow_natCast {v w u : Value} {n : ℕ} (hv : v.IsIntegral)
    (hw : w.constant? = some (.int n)) (h : v.pow w = .ok u) : u.denote = v.denote ^ n := by
  obtain ⟨e, he, hcases⟩ := pow_cases h
  obtain rfl := Option.some.inj (hw.symm.trans he)
  rcases hcases with ⟨t, x, rfl, hx, rfl⟩ | ⟨p, rfl, hp⟩
  · obtain ⟨k, hk, hdenote⟩ := Term.denote_pow (hv t (List.mem_singleton.mpr rfl)) hx
    obtain rfl := Int.ofNat.inj hk
    rw [denote_term, denote_term, hdenote]
  · obtain ⟨k, hk, hdenote⟩ := Polynomial.denote_pow hv hp
    obtain rfl := Int.ofNat.inj hk
    exact hdenote

/-- A power denotes the power by the natural number that its exponent denotes. -/
theorem denote_pow {v w u : Value} (hv : v.IsIntegral) (hw : w.IsIntegral)
    (h : v.pow w = .ok u) :
    ∃ n : ℕ, w.denote = MvPolynomial.C (n : ℤ) ∧ u.denote = v.denote ^ n := by
  obtain ⟨e, he, -⟩ := pow_cases h
  obtain ⟨i, rfl⟩ := closed_isInt.constant (isIntegral_iff_meets.mp hw) he
  obtain ⟨n, rfl⟩ := exists_natCast_of_pow he h
  exact ⟨n, denote_constant he, denote_pow_natCast hv he h⟩

end Value

end PolyCalc
