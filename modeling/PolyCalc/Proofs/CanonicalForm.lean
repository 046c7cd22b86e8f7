import Mathlib.Algebra.MvPolynomial.Funext
import Mathlib.Data.List.TFAE
import PolyCalc.Proofs.Meaning
import PolyCalc.Proofs.RoundTrip

/-!
# The canonical form

Values over the integers that describe the same function are equal, and equal values are printed
alike, so the text of a value says exactly which function it is.

- A function on the integers determines its polynomial, because the integers are an infinite
  domain.
- A polynomial determines the normal form: canonical monomials are told apart by their exponents
  (`Monomial.toFinsupp_inj`), so the coefficients of the terms are those of the polynomial
  (`coeff_denoteTerms`), and they say which terms are there.
- A text determines the normal form, because it is calculated back to it.
-/

namespace PolyCalc

/-! ## Monomials -/

namespace Monomial

theorem toFinsupp_apply_cons (f : String × Nat) (fs : List (String × Nat)) (x : String) :
    toFinsupp ⟨f :: fs⟩ x = (if f.1 = x then f.2 else 0) + toFinsupp ⟨fs⟩ x := by
  rw [toFinsupp_cons, Finsupp.add_apply, Finsupp.single_apply]

theorem toFinsupp_apply_eq_zero {fs : List (String × Nat)} {x : String}
    (h : ∀ f ∈ fs, f.1 ≠ x) : toFinsupp ⟨fs⟩ x = 0 := by
  induction fs with
  | nil => rfl
  | cons f fs ih =>
      obtain ⟨hf, hfs⟩ := List.forall_mem_cons.mp h
      rw [toFinsupp_apply_cons, if_neg hf, ih hfs]

/-- Where names do not repeat, the factors are the exponents that are not zero. -/
theorem mem_factors_iff {fs : List (String × Nat)} (hlt : fs.Pairwise fun f g => f.1 < g.1)
    (hpos : ∀ f ∈ fs, 0 < f.2) {x : String} {k : Nat} :
    (x, k) ∈ fs ↔ toFinsupp ⟨fs⟩ x = k ∧ 0 < k := by
  induction fs with
  | nil =>
      have hzero : toFinsupp ⟨[]⟩ x = 0 := rfl
      rw [hzero]
      constructor
      · intro h
        cases h
      · rintro ⟨rfl, h⟩
        omega
  | cons f fs ih =>
      obtain ⟨hf, hfs⟩ := List.pairwise_cons.mp hlt
      obtain ⟨hposf, hposfs⟩ := List.forall_mem_cons.mp hpos
      obtain ⟨y, j⟩ := f
      rw [toFinsupp_apply_cons, List.mem_cons, ih hfs hposfs]
      by_cases hxy : y = x
      · subst hxy
        have hrest : toFinsupp ⟨fs⟩ y = 0 :=
          toFinsupp_apply_eq_zero fun g hg heq => (heq ▸ hf g hg).ne rfl
        rw [hrest, if_pos rfl]
        constructor
        · rintro (heq | ⟨rfl, h⟩)
          · obtain rfl := (Prod.mk.inj heq).2
            exact ⟨rfl, hposf⟩
          · omega
        · rintro ⟨rfl, -⟩
          exact Or.inl rfl
      · rw [if_neg hxy, Nat.zero_add, or_iff_right fun heq => hxy (Prod.mk.inj heq).1.symm]

theorem toFinsupp_inj {a b : Monomial} (ha : a.IsCanonical) (hb : b.IsCanonical) :
    a.toFinsupp = b.toFinsupp ↔ a = b := by
  refine ⟨fun h => ?_, fun h => h ▸ rfl⟩
  obtain ⟨as⟩ := a
  obtain ⟨bs⟩ := b
  have hirrefl : Std.Irrefl fun f g : String × Nat => f.1 < g.1 := ⟨fun f => lt_irrefl f.1⟩
  have hantisymm : Std.Antisymm fun f g : String × Nat => f.1 < g.1 :=
    ⟨fun _ _ hlt hgt => absurd hgt hlt.asymm⟩
  have hmem : ∀ f : String × Nat, f ∈ as ↔ f ∈ bs := fun f => by
    rw [mem_factors_iff ha.1 ha.2, mem_factors_iff hb.1 hb.2, h]
  exact congrArg Monomial.mk (ha.1.eq_of_mem_iff hb.1 hmem)

end Monomial

/-! ## Polynomials -/

theorem coeff_denoteTerms {ts : List Term} (hts : ∀ t ∈ ts, t.monomial.IsCanonical)
    {m : Monomial} (hm : m.IsCanonical) :
    MvPolynomial.coeff m.toFinsupp (denoteTerms ts) = collect ts m := by
  induction ts with
  | nil => rfl
  | cons t ts ih =>
      obtain ⟨ht, hts'⟩ := List.forall_mem_cons.mp hts
      rw [denoteTerms_cons, MvPolynomial.coeff_add, ih hts', collect_cons, Finsupp.add_apply,
        Term.denote, MvPolynomial.coeff_monomial, Finsupp.single_apply]
      simp only [Monomial.toFinsupp_inj ht hm]

namespace Polynomial

/-- The terms of a normal form are the coefficients that are not zero. -/
theorem mem_terms_iff {p : Polynomial} (hp : p.IsNormal)
    (hint : ∀ t ∈ p.terms, t.coefficient.IsInt) {m : Monomial} {i : Int} :
    (⟨.int i, m⟩ : Term) ∈ p.terms ↔ collect p.terms m = i ∧ i ≠ 0 := by
  rw [collect_apply_eq_sumAt hint]
  constructor
  · intro hmem
    have hz := hp.nonzero _ hmem
    rw [(sumAt_eq_some_iff hp.distinct hz).mpr hmem]
    exact ⟨rfl, by simpa using hz⟩
  · rintro ⟨hsum, hi⟩
    cases hc : sumAt m p.terms with
    | none =>
        rw [hc] at hsum
        exact absurd hsum.symm hi
    | some c =>
        rw [hc] at hsum
        cases c with
        | float x => exact absurd hsum.symm hi
        | int j =>
            obtain rfl : j = i := hsum
            exact (sumAt_eq_some_iff hp.distinct (by simpa using hi)).mp hc

/-- Normal forms over the integers are told apart by their terms with integer coefficients. -/
theorem IsNormal.ext_int {p q : Polynomial} (hp : p.IsNormal) (hq : q.IsNormal)
    (hpi : ∀ t ∈ p.terms, t.coefficient.IsInt) (hqi : ∀ t ∈ q.terms, t.coefficient.IsInt)
    (h : ∀ i m, (⟨.int i, m⟩ : Term) ∈ p.terms ↔ (⟨.int i, m⟩ : Term) ∈ q.terms) : p = q := by
  refine hp.ext hq fun t => ?_
  obtain ⟨c, m⟩ := t
  cases c with
  | int i => exact h i m
  | float x =>
      refine iff_of_false (fun hmem => ?_) fun hmem => ?_
      · obtain ⟨i, hi⟩ := hpi _ hmem
        cases hi
      · obtain ⟨i, hi⟩ := hqi _ hmem
        cases hi

/-- Normal forms over canonical monomials that denote the same polynomial are the same. -/
theorem ext_of_denoteTerms {p q : Polynomial} (hp : p.IsNormal) (hq : q.IsNormal)
    (hpi : ∀ t ∈ p.terms, t.coefficient.IsInt) (hqi : ∀ t ∈ q.terms, t.coefficient.IsInt)
    (hpc : ∀ t ∈ p.terms, t.monomial.IsCanonical) (hqc : ∀ t ∈ q.terms, t.monomial.IsCanonical)
    (h : denoteTerms p.terms = denoteTerms q.terms) : p = q := by
  refine hp.ext_int hq hpi hqi fun i m => ?_
  -- coefficients are only compared at canonical monomials; no other one is in either list
  by_cases hm : m.IsCanonical
  · have hcollect : collect p.terms m = collect q.terms m := by
      rw [← coeff_denoteTerms hpc hm, ← coeff_denoteTerms hqc hm, h]
    rw [mem_terms_iff hp hpi, mem_terms_iff hq hqi, hcollect]
  · exact iff_of_false (fun hmem => hm (hpc _ hmem)) fun hmem => hm (hqc _ hmem)

theorem eq_of_denoteTerms_eq {p q : Polynomial} (hp : p.IsNormal) (hq : q.IsNormal)
    (hpp : ∀ t ∈ p.terms, t.IsPlain) (hqp : ∀ t ∈ q.terms, t.IsPlain)
    (h : denoteTerms p.terms = denoteTerms q.terms) : p = q :=
  ext_of_denoteTerms hp hq (fun t ht => (hpp t ht).integral) (fun t ht => (hqp t ht).integral)
    (fun t ht => (hpp t ht).supported.1) (fun t ht => (hqp t ht).supported.1) h

end Polynomial

/-! ## Values -/

theorem Value.denote_eq_iff {v w : Value} : v.denote = w.denote ↔ ∀ ρ, v.eval ρ = w.eval ρ := by
  constructor
  · intro h ρ
    rw [← eval_denote, h, eval_denote]
  · intro h
    exact MvPolynomial.funext fun ρ => by rw [eval_denote, eval_denote, h]

/-- **Canonical form.** For the values of texts with integer literals it is the same to describe
the same function, to be equal, and to be printed alike. -/
theorem calculate_canonical {s t : String} {v w : Value} (hs : HasIntegerLiterals s)
    (ht : HasIntegerLiterals t) (hv : calculate s = .ok v) (hw : calculate t = .ok w) :
    List.TFAE [∀ ρ, v.eval ρ = w.eval ρ, (v == w) = true, v.toText = w.toText] := by
  have hvp := calculate_isPlain hs hv
  have hwp := calculate_isPlain ht hw
  rw [Value.beq_iff hvp.integral hwp.integral, ← Value.denote_eq_iff]
  tfae_have 1 → 2 := by
    intro h
    rw [← Value.denote_toPolynomial hvp.integral, ← Value.denote_toPolynomial hwp.integral] at h
    exact Polynomial.eq_of_denoteTerms_eq (Value.isNormal_toPolynomial hvp.normal)
      (Value.isNormal_toPolynomial hwp.normal) hvp.toPolynomial hwp.toPolynomial h
  tfae_have 2 → 1 := by
    intro h
    rw [← Value.denote_toPolynomial hvp.integral, h, Value.denote_toPolynomial hwp.integral]
  tfae_have 2 → 3 := by
    intro h
    rw [← Value.toText_toPolynomial hvp.integral, h, Value.toText_toPolynomial hwp.integral]
  tfae_have 3 → 2 := by
    intro h
    obtain ⟨v', hv', -, hvnormal⟩ := hvp.calculate_eq_ok
    obtain ⟨w', hw', -, hwnormal⟩ := hwp.calculate_eq_ok
    rw [h, hw'] at hv'
    obtain rfl := Except.ok.inj hv'
    rw [← hvnormal, hwnormal]
  tfae_finish

/-- Two ways to the same polynomial, which is a term on one side and a sum of one term on the
other. -/
theorem calculate_canonical_of_shapes :
    let v := Value.term ⟨.int 4, ⟨[("x", 1), ("y", 1)]⟩⟩
    let w := Value.poly ⟨[⟨.int 4, ⟨[("x", 1), ("y", 1)]⟩⟩]⟩
    HasIntegerLiterals "4y*x" ∧ HasIntegerLiterals "(x+y)^2-(x-y)^2" ∧
      calculate "4y*x" = .ok v ∧ calculate "(x+y)^2-(x-y)^2" = .ok w ∧
      List.TFAE [∀ ρ, v.eval ρ = w.eval ρ, (v == w) = true, v.toText = w.toText] ∧
      v.toText = "4x*y" := by
  intro v w
  have hs : HasIntegerLiterals "4y*x" := hasIntegerLiterals_of_no_point (by decide)
  have ht : HasIntegerLiterals "(x+y)^2-(x-y)^2" := hasIntegerLiterals_of_no_point (by decide)
  have hv : calculate "4y*x" = .ok v := by rfl
  have hw : calculate "(x+y)^2-(x-y)^2" = .ok w := by rfl
  exact ⟨hs, ht, hv, hw, calculate_canonical hs ht hv hw, by decide +kernel⟩

end PolyCalc
