import Mathlib.Algebra.MvPolynomial.CommRing
import Mathlib.Algebra.MvPolynomial.Eval
import PolyCalc.Proofs.Invariants

/-!
# The polynomial that a value denotes

A value over the integers takes a number at every valuation of its variables: the sum of its
terms, each its coefficient times the powers of its variables (`Value.eval`). It does so as a
polynomial, and to calculate with values is to calculate with these polynomials: `Value.denote` is
the polynomial in Mathlib's sense, and every operation that gives a result denotes the operation
of the same name there.

Nothing here depends on the shape of values. A term that is zero denotes zero whatever variables
it keeps, and the normal form of a list of terms denotes the sum of the list
(`denoteTerms_ofTerms`), which is what merging like terms and dropping zeros come to.
-/

namespace PolyCalc

/-! ## Valuations -/

/-- The integer that a coefficient is. Doubles are not looked at here and count as zero. -/
def Number.integer : Number → Int
  | int i => i
  | float _ => 0

@[simp] theorem Number.integer_int (i : Int) : (Number.int i).integer = i := rfl

/-- The product of the powers of the variables. -/
def Monomial.eval (ρ : String → Int) (m : Monomial) : Int :=
  (m.factors.map fun f => ρ f.1 ^ f.2).prod

def Term.eval (ρ : String → Int) (t : Term) : Int :=
  t.coefficient.integer * t.monomial.eval ρ

/-- The sum of the terms. -/
def Value.eval (ρ : String → Int) (v : Value) : Int := (v.terms.map (Term.eval ρ)).sum

/-! ## Polynomials -/

noncomputable section

/-- The exponents of a monomial by variable. -/
def Monomial.toFinsupp (m : Monomial) : String →₀ ℕ :=
  (m.factors.map fun f => Finsupp.single f.1 f.2).sum

def Term.denote (t : Term) : MvPolynomial String ℤ :=
  MvPolynomial.monomial t.monomial.toFinsupp t.coefficient.integer

def denoteTerms (ts : List Term) : MvPolynomial String ℤ := (ts.map Term.denote).sum

def Value.denote (v : Value) : MvPolynomial String ℤ := denoteTerms v.terms

theorem Monomial.toFinsupp_cons (f : String × Nat) (fs : List (String × Nat)) :
    toFinsupp ⟨f :: fs⟩ = Finsupp.single f.1 f.2 + toFinsupp ⟨fs⟩ := rfl

@[simp] theorem denoteTerms_nil : denoteTerms [] = 0 := rfl

@[simp] theorem denoteTerms_cons (t : Term) (ts : List Term) :
    denoteTerms (t :: ts) = t.denote + denoteTerms ts := rfl

theorem denoteTerms_append (ss ts : List Term) :
    denoteTerms (ss ++ ts) = denoteTerms ss + denoteTerms ts := by
  simp only [denoteTerms, List.map_append, List.sum_append]

@[simp] theorem Value.denote_term (t : Term) : (term t).denote = t.denote := add_zero _

theorem Term.denote_eq_C {t : Term} (h : t.isConstant = true) :
    t.denote = MvPolynomial.C t.coefficient.integer := by
  obtain ⟨c, ⟨fs⟩⟩ := t
  obtain rfl : fs = [] := List.isEmpty_iff.mp h
  rfl

theorem Term.denote_constant (c : Number) :
    (constant c).denote = MvPolynomial.C c.integer := rfl

/-! ## Evaluation of polynomials -/

theorem Monomial.eval_eq_prod (ρ : String → Int) (m : Monomial) :
    m.eval ρ = m.toFinsupp.prod fun x e => ρ x ^ e := by
  obtain ⟨fs⟩ := m
  induction fs with
  | nil => rfl
  | cons f fs ih =>
      have hsingle : (Finsupp.single f.1 f.2).prod (fun x e => ρ x ^ e) = ρ f.1 ^ f.2 :=
        Finsupp.prod_single_index (pow_zero _)
      rw [toFinsupp_cons, Finsupp.prod_add_index' (fun _ => pow_zero _)
        (fun _ _ _ => pow_add _ _ _), hsingle, ← ih]
      rfl

theorem Term.eval_denote (ρ : String → Int) (t : Term) :
    MvPolynomial.eval ρ t.denote = t.eval ρ := by
  rw [denote, MvPolynomial.eval_monomial, eval, Monomial.eval_eq_prod]

theorem Value.eval_denote (ρ : String → Int) (v : Value) :
    MvPolynomial.eval ρ v.denote = v.eval ρ := by
  rw [denote, denoteTerms, map_list_sum, List.map_map, eval]
  exact congrArg List.sum (List.map_congr_left fun t _ => Term.eval_denote ρ t)

/-! ## Normal forms

The coefficients of a list of terms, monomial by monomial, determine what the list denotes, and
the normal form has the same coefficients. -/

/-- The coefficients of a list of terms by monomial. -/
def collect (ts : List Term) : Monomial →₀ ℤ :=
  (ts.map fun t => Finsupp.single t.monomial t.coefficient.integer).sum

theorem collect_cons (t : Term) (ts : List Term) :
    collect (t :: ts) = Finsupp.single t.monomial t.coefficient.integer + collect ts := rfl

theorem denoteTerms_eq_sum_collect (ts : List Term) :
    denoteTerms ts = (collect ts).sum fun m c => MvPolynomial.monomial m.toFinsupp c := by
  induction ts with
  | nil => rfl
  | cons t ts ih =>
      have hsingle : (Finsupp.single t.monomial t.coefficient.integer).sum
          (fun m c => MvPolynomial.monomial m.toFinsupp c) = t.denote :=
        Finsupp.sum_single_index (map_zero _)
      rw [collect_cons, Finsupp.sum_add_index' (fun _ => map_zero _) (fun _ => map_add _),
        hsingle, denoteTerms_cons, ih]

theorem Number.integer_eq_zero {c : Number} (h : c.isZero = true) : c.integer = 0 := by
  cases c with
  | int i => exact of_decide_eq_true h
  | float _ => rfl

theorem collect_apply (ts : List Term) (m : Monomial) :
    collect ts m = ((Polynomial.coefficientsAt m ts).map Number.integer).sum := by
  induction ts with
  | nil => rfl
  | cons t ts ih =>
      rw [collect_cons, Finsupp.add_apply, ih, Polynomial.coefficientsAt_cons,
        Polynomial.coefficientsAt_single, List.map_append, List.sum_append, Finsupp.single_apply]
      congr 1
      by_cases hm : t.monomial = m
      · cases hz : t.coefficient.isZero with
        | true => simp [hm, Number.integer_eq_zero hz]
        | false => simp [hm]
      · simp [hm]

theorem foldl_add_int {cs : List Number} (hcs : ∀ c ∈ cs, c.IsInt) (a : Int) :
    cs.foldl (fun sum c => sum + c) (.int a) = .int (a + (cs.map Number.integer).sum) := by
  induction cs generalizing a with
  | nil => simp
  | cons c cs ih =>
      obtain ⟨⟨i, rfl⟩, hcs'⟩ := List.forall_mem_cons.mp hcs
      rw [List.foldl_cons, Number.int_add_int, ih hcs', List.map_cons, List.sum_cons,
        Number.integer_int, add_assoc]

theorem collect_apply_eq_sumAt {ts : List Term} (hts : ∀ t ∈ ts, t.coefficient.IsInt)
    (m : Monomial) : collect ts m = (Polynomial.sumAt m ts).elim 0 Number.integer := by
  rw [collect_apply, Polynomial.sumAt]
  have hints : ∀ c ∈ Polynomial.coefficientsAt m ts, c.IsInt := by
    intro c hc
    obtain ⟨t, ht, -, rfl⟩ := Polynomial.exists_mem_of_mem_coefficientsAt hc
    exact hts t ht
  cases hcs : Polynomial.coefficientsAt m ts with
  | nil => rfl
  | cons c cs =>
      rw [hcs] at hints
      obtain ⟨⟨i, rfl⟩, hcs'⟩ := List.forall_mem_cons.mp hints
      simp [Polynomial.leftSum, foldl_add_int hcs']

theorem isInt_of_mem_ofTerms {ts : List Term} (hts : ∀ t ∈ ts, t.coefficient.IsInt) :
    ∀ t ∈ (Polynomial.ofTerms ts).terms, t.coefficient.IsInt :=
  fun t ht => (closed_isInt.ofTerms (fun u hu => ⟨hts u hu, trivial⟩) t ht).1

/-- Bringing a list of terms into normal form keeps the coefficient of every monomial. -/
theorem collect_ofTerms {ts : List Term} (hts : ∀ t ∈ ts, t.coefficient.IsInt) :
    collect (Polynomial.ofTerms ts).terms = collect ts := by
  ext m
  rw [collect_apply_eq_sumAt (isInt_of_mem_ofTerms hts), collect_apply_eq_sumAt hts]
  -- the sums can only differ where they are zero or missing
  have hsame : ∀ c : Number, c.isZero = false →
      (Polynomial.sumAt m (Polynomial.ofTerms ts).terms = some c ↔
        Polynomial.sumAt m ts = some c) := by
    intro c hc
    rw [Polynomial.sumAt_eq_some_iff (Polynomial.isNormal_ofTerms ts).distinct hc,
      Polynomial.mem_ofTerms]
    exact and_iff_left hc
  have hzero : ∀ o : Option Number, (∀ c, c.isZero = false → o ≠ some c) →
      o.elim 0 Number.integer = 0 := by
    intro o ho
    cases o with
    | none => rfl
    | some c =>
        cases hc : c.isZero with
        | true => exact Number.integer_eq_zero hc
        | false => exact absurd rfl (ho c hc)
  by_cases hex : ∃ c, c.isZero = false ∧ Polynomial.sumAt m ts = some c
  · obtain ⟨c, hc, hsum⟩ := hex
    rw [(hsame c hc).mpr hsum, hsum]
  · have hnone : ∀ c, c.isZero = false → Polynomial.sumAt m ts ≠ some c :=
      fun c hc hsum => hex ⟨c, hc, hsum⟩
    rw [hzero _ hnone, hzero _ fun c hc hsum => hnone c hc ((hsame c hc).mp hsum)]

theorem denoteTerms_ofTerms {ts : List Term} (hts : ∀ t ∈ ts, t.coefficient.IsInt) :
    denoteTerms (Polynomial.ofTerms ts).terms = denoteTerms ts := by
  rw [denoteTerms_eq_sum_collect, denoteTerms_eq_sum_collect, collect_ofTerms hts]

theorem Value.denote_toPolynomial {v : Value} (hv : v.IsIntegral) :
    denoteTerms v.toPolynomial.terms = v.denote := by
  cases v with
  | poly p => rfl
  | term t => exact denoteTerms_ofTerms hv

end

end PolyCalc
