import Mathlib.Algebra.MvPolynomial.NoZeroDivisors
import PolyCalc.Proofs.ExactValues

/-!
# Degrees

The degree of a polynomial in a variable is the largest exponent that the variable has in it. A
normal form shows its degrees: no factor exceeds them, and each of them is the exponent of some
factor (`Polynomial.degreeOf_le_iff`, `Polynomial.exists_mem_factors`).

Over the integers the degrees of a product are the sums of degrees. Whatever cancels, the terms of
the highest degree do not. So degrees tell when a product of polynomials is refused
(`Polynomial.mul_isOk_iff_degreeOf`), and also when one of many products in a row is
(`Polynomial.expand_isOk_iff`), where the factors on the way are not known.
-/

namespace PolyCalc

open MvPolynomial (degreeOf)

/-! ## The largest exponent -/

/-- The largest exponent of a monomial, zero for a constant. -/
def Monomial.largestExponent (m : Monomial) : Nat := (m.factors.map Prod.snd).foldr max 0

/-- The largest exponent of any variable in any term that is held. -/
def Value.largestExponent (v : Value) : Nat :=
  (v.terms.map fun t => t.monomial.largestExponent).foldr max 0

theorem foldr_max_le_iff {ns : List Nat} {k : Nat} :
    ns.foldr max 0 ≤ k ↔ ∀ n ∈ ns, n ≤ k := by
  induction ns with
  | nil => simp
  | cons n ns ih => rw [List.foldr_cons, Nat.max_le, ih, List.forall_mem_cons]

theorem Monomial.largestExponent_le_iff {m : Monomial} {k : Nat} :
    m.largestExponent ≤ k ↔ ∀ f ∈ m.factors, f.2 ≤ k := by
  rw [largestExponent, foldr_max_le_iff, List.forall_mem_map]

theorem Monomial.mul_largestExponent_le_iff {m : Monomial} {n k : Nat} :
    n * m.largestExponent ≤ k ↔ ∀ f ∈ m.factors, f.2 * n ≤ k := by
  rcases Nat.eq_zero_or_pos n with rfl | hn
  · simp
  · rw [Nat.mul_comm, ← Nat.le_div_iff_mul_le hn, largestExponent_le_iff]
    simp only [Nat.le_div_iff_mul_le hn]

theorem Value.largestExponent_le_iff {v : Value} {k : Nat} :
    v.largestExponent ≤ k ↔ ∀ t ∈ v.terms, ∀ f ∈ t.monomial.factors, f.2 ≤ k := by
  rw [largestExponent, foldr_max_le_iff, List.forall_mem_map]
  exact forall₂_congr fun t _ => Monomial.largestExponent_le_iff

/-! ## The degrees of a normal form -/

theorem exists_mem_of_mem_support {ts : List Term} {n : String →₀ ℕ}
    (h : n ∈ (denoteTerms ts).support) : ∃ t ∈ ts, t.monomial.toFinsupp = n := by
  induction ts with
  | nil => exact absurd h (by simp)
  | cons t ts ih =>
      rw [denoteTerms_cons] at h
      rcases Finset.mem_union.mp (MvPolynomial.support_add h) with h | h
      · have hsingle := MvPolynomial.support_monomial_subset h
        exact ⟨t, List.mem_cons_self .., (Finset.mem_singleton.mp hsingle).symm⟩
      · obtain ⟨u, hu, heq⟩ := ih h
        exact ⟨u, List.mem_cons_of_mem t hu, heq⟩

namespace Polynomial

variable {p q : Polynomial}

theorem mem_support (hp : (Value.poly p).IsExact) {t : Term} (ht : t ∈ p.terms) :
    t.monomial.toFinsupp ∈ (denoteTerms p.terms).support := by
  obtain ⟨c, m⟩ := t
  obtain ⟨i, rfl⟩ := hp.integral _ ht
  have hcanonical : ∀ u ∈ p.terms, u.monomial.IsCanonical := fun u hu => (hp.supported u hu).1
  obtain ⟨hcollect, hne⟩ := (mem_terms_iff hp.normal hp.integral).mp ht
  rwa [MvPolynomial.mem_support_iff, coeff_denoteTerms hcanonical (hcanonical _ ht), hcollect]

theorem degreeOf_le_iff (hp : (Value.poly p).IsExact) {x : String} {k : ℕ} :
    degreeOf x (denoteTerms p.terms) ≤ k ↔
      ∀ t ∈ p.terms, ∀ e, (x, e) ∈ t.monomial.factors → e ≤ k := by
  rw [MvPolynomial.degreeOf_le_iff]
  constructor
  · intro h t ht e he
    obtain ⟨hlt, hpos⟩ := (hp.supported t ht).1
    obtain ⟨heq, -⟩ := (Monomial.mem_factors_iff hlt hpos).mp he
    exact heq ▸ h _ (mem_support hp ht)
  · intro h n hn
    obtain ⟨t, ht, rfl⟩ := exists_mem_of_mem_support hn
    obtain ⟨hlt, hpos⟩ := (hp.supported t ht).1
    rcases Nat.eq_zero_or_pos (t.monomial.toFinsupp x) with hzero | hoccurs
    · exact hzero ▸ Nat.zero_le k
    · exact h t ht _ ((Monomial.mem_factors_iff hlt hpos).mpr ⟨rfl, hoccurs⟩)

theorem le_degreeOf (hp : (Value.poly p).IsExact) {t : Term} (ht : t ∈ p.terms) {x : String}
    {e : ℕ} (he : (x, e) ∈ t.monomial.factors) : e ≤ degreeOf x (denoteTerms p.terms) :=
  (degreeOf_le_iff hp).mp le_rfl t ht e he

theorem exists_mem_factors (hp : (Value.poly p).IsExact) {x : String}
    (h : 0 < degreeOf x (denoteTerms p.terms)) :
    ∃ t ∈ p.terms, (x, degreeOf x (denoteTerms p.terms)) ∈ t.monomial.factors := by
  have hnot : ¬ degreeOf x (denoteTerms p.terms) ≤ degreeOf x (denoteTerms p.terms) - 1 := by
    omega
  rw [degreeOf_le_iff hp] at hnot
  push Not at hnot
  obtain ⟨t, ht, e, he, hlt⟩ := hnot
  have heq : e = degreeOf x (denoteTerms p.terms) := by
    have := le_degreeOf hp ht he
    omega
  exact ⟨t, ht, heq ▸ he⟩

theorem degreeOf_le_maxExponent (hp : (Value.poly p).IsExact) (x : String) :
    degreeOf x (denoteTerms p.terms) ≤ Monomial.maxExponent :=
  (degreeOf_le_iff hp).mpr fun t ht _ he => (hp.supported t ht).2 _ he

/-- All degrees together are bounded by the largest exponent that is held. -/
theorem forall_degreeOf_le_iff (hp : (Value.poly p).IsExact) {k : ℕ} :
    (∀ x, degreeOf x (denoteTerms p.terms) ≤ k) ↔ (Value.poly p).largestExponent ≤ k := by
  rw [Value.largestExponent_le_iff]
  constructor
  · rintro h t ht ⟨x, e⟩ he
    exact (degreeOf_le_iff hp).mp (h x) t ht e he
  · exact fun h x => (degreeOf_le_iff hp).mpr fun t ht e he => h t ht (x, e) he

theorem forall_mul_degreeOf_le_iff (hp : (Value.poly p).IsExact) {n k : ℕ} :
    (∀ x, n * degreeOf x (denoteTerms p.terms) ≤ k) ↔
      n * (Value.poly p).largestExponent ≤ k := by
  rcases Nat.eq_zero_or_pos n with rfl | hn
  · simp
  · simp only [Nat.mul_comm n, ← Nat.le_div_iff_mul_le hn]
    exact forall_degreeOf_le_iff hp

end Polynomial

/-- A value that hides no variables shows its degrees, in whichever shape it is held. -/
theorem Value.largestExponent_le_iff_degreeOf {v : Value} (hv : v.IsExact)
    (hhides : ¬ v.HidesVariables) {k : ℕ} :
    v.largestExponent ≤ k ↔ ∀ x, degreeOf x v.denote ≤ k := by
  rw [← denote_toPolynomial hv.integral, Polynomial.forall_degreeOf_le_iff hv.normalised,
    largestExponent_le_iff, largestExponent_le_iff]
  refine (forall_toPolynomial_iff (Q := fun m => ∀ f ∈ m.factors, f.2 ≤ k) hhides ?_).symm
  intro m hm f hf
  rw [List.isEmpty_iff.mp hm] at hf
  cases hf

namespace Polynomial

variable {p q : Polynomial}

/-! ## Products in a row -/

theorem mul_isOk_iff_degreeOf (hp : (Value.poly p).IsExact) (hq : (Value.poly q).IsExact) :
    (∃ u, p.mul (.poly q) = .ok u) ↔
      ∀ x, degreeOf x (denoteTerms p.terms) + degreeOf x (denoteTerms q.terms) ≤
        Monomial.maxExponent := by
  have hfits : (∃ u, p.mul (.poly q) = .ok u) ↔
      ∀ a b, (Value.poly p).Multiplies (.poly q) a b → a.Fits b :=
    Value.mul_isOk_iff_fits hp.supported hq.supported
  rw [hfits]
  constructor
  · intro h x
    have hp' := degreeOf_le_maxExponent hp x
    have hq' := degreeOf_le_maxExponent hq x
    -- a variable that one of the factors lacks cannot get too high
    rcases Nat.eq_zero_or_pos (degreeOf x (denoteTerms p.terms)) with hzero | hpos
    · omega
    rcases Nat.eq_zero_or_pos (degreeOf x (denoteTerms q.terms)) with hzero' | hpos'
    · omega
    obtain ⟨s, hs, hd⟩ := exists_mem_factors hp hpos
    obtain ⟨t, ht, he⟩ := exists_mem_factors hq hpos'
    exact h _ _ ⟨s, hs, t, ht, rfl, rfl⟩ x _ _ hd he
  · rintro h a b ⟨s, hs, t, ht, rfl, rfl⟩ x d e hd he
    exact (Nat.add_le_add (le_degreeOf hp hs hd) (le_degreeOf hq ht he)).trans (h x)

/-- Each round adds the degrees of the polynomial to those of what has been multiplied so far,
because neither of them is zero. -/
theorem expand_isOk_iff (hp : (Value.poly p).IsExact) (hne : denoteTerms p.terms ≠ 0) :
    ∀ {n : ℕ} {v : Value}, v.IsExact → v.denote ≠ 0 →
      ((∃ w, p.expand n v = .ok w) ↔
        ∀ x, degreeOf x v.denote + n * degreeOf x (denoteTerms p.terms) ≤ Monomial.maxExponent)
  | 0, v, hv, _ => by
      refine iff_of_true ⟨v, rfl⟩ fun x => ?_
      rw [Nat.zero_mul, Nat.add_zero, ← Value.denote_toPolynomial hv.integral]
      exact degreeOf_le_maxExponent hv.normalised x
  | n + 1, v, hv, hv' => by
      have hpolynomial := Value.denote_toPolynomial hv.integral
      have hround : ∀ u, v.toPolynomial.mul (.poly p) = .ok u → u.IsExact ∧ u.denote ≠ 0 ∧
          ∀ x, degreeOf x u.denote = degreeOf x v.denote + degreeOf x (denoteTerms p.terms) := by
        intro u hu
        have hmul : v.normalised.mul (.poly p) = .ok u := hu
        have hdenote : u.denote = v.denote * denoteTerms p.terms := by
          rw [Value.denote_mul hv.normalised.integral hp.integral hmul, ← hpolynomial]
          rfl
        refine ⟨hv.normalised.mul hp hmul, hdenote ▸ mul_ne_zero hv' hne, fun x => ?_⟩
        rw [hdenote, MvPolynomial.degreeOf_mul_eq hv' hne]
      constructor
      · rintro ⟨w, hw⟩ x
        obtain ⟨u, hu, hw⟩ := bind_eq_ok.mp hw
        obtain ⟨huexact, hu', hdegree⟩ := hround u hu
        have hle := (expand_isOk_iff hp hne huexact hu').mp ⟨w, hw⟩ x
        rw [hdegree] at hle
        rwa [Nat.add_mul, Nat.one_mul, Nat.add_comm (n * _), ← Nat.add_assoc]
      · intro h
        have hfirst : ∃ u, v.toPolynomial.mul (.poly p) = .ok u := by
          refine (mul_isOk_iff_degreeOf hv.normalised hp).mpr fun x => ?_
          rw [hpolynomial]
          refine (Nat.add_le_add_left ?_ _).trans (h x)
          exact Nat.le_mul_of_pos_left _ n.succ_pos
        obtain ⟨u, hu⟩ := hfirst
        obtain ⟨huexact, hu', hdegree⟩ := hround u hu
        have hrest : ∃ w, p.expand n u = .ok w := by
          refine (expand_isOk_iff hp hne huexact hu').mpr fun x => ?_
          rw [hdegree, Nat.add_assoc, Nat.add_comm (degreeOf x (denoteTerms p.terms)),
            ← Nat.succ_mul]
          exact h x
        obtain ⟨w, hw⟩ := hrest
        exact ⟨w, bind_eq_ok.mpr ⟨u, hu, hw⟩⟩

end Polynomial

end PolyCalc
