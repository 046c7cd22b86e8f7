import Mathlib.Algebra.Order.Ring.Int
import PolyCalc.Proofs.Doubles
import PolyCalc.Proofs.RunInvariant

/-!
# The first power

A polynomial of several terms is raised to the power of one by one multiplication, and that gives
it back, whatever its coefficients are (`Polynomial.expand_one`). A single term is raised in closed
form, and then its coefficient has to pass the limits of powers: an integer must not be too long,
and the power of a double has to be finite. Sums and products know no such limits, so there are
values whose first power is refused.

`Value.pow_one_cases` puts both together. For a double the first power is what the power function
makes of it, about which nothing is assumed here.
-/

namespace PolyCalc

namespace Number

/-- The first power. Integers are their own; that of a double is computed. -/
def firstPower : Number → Number
  | .int i => .int i
  | .float x => .float (Float.pow x (Binary64.ofInt 1))

/-- The first power is within the limits of powers. -/
def HasFirstPower : Number → Prop
  | .int i => bits i ≤ maxPowerBits
  | .float x => (Float.pow x (Binary64.ofInt 1)).isFinite = true

def isNaN : Number → Bool
  | .int _ => false
  | .float x => x.isNaN

theorem toExponent_one : one.toExponent = .ok 1 :=
  toExponent_int.mpr ⟨rfl, by decide⟩

theorem one_pow_one : one.pow one = .ok one :=
  one_pow_int_eq_ok.mpr ⟨⟨1, toExponent_one⟩, rfl⟩

theorem bits_le_one {i : Int} (h : i.natAbs ≤ 1) : bits i ≤ 1 := by
  unfold bits
  split
  · exact Nat.zero_le 1
  · next hne =>
      have hone : i.natAbs = 1 := by omega
      rw [hone]
      decide

/-- A power by one is `firstPower`, where that is within the limits. -/
theorem pow_one_eq_ok {c d : Number} : c.pow one = .ok d ↔ c.HasFirstPower ∧ d = c.firstPower := by
  cases c with
  | int i =>
      -- what is too long has more than one bit, so the exception for 0, 1 and -1 plays no part
      have hlong : ¬(1 < i.natAbs ∧ maxPowerBits < bits i * 1) ↔ bits i ≤ maxPowerBits := by
        rw [Nat.mul_one, not_and, not_lt]
        refine ⟨fun h => ?_, fun h _ => h⟩
        rcases Nat.lt_or_ge 1 i.natAbs with hlt | hle
        · exact h hlt
        · exact (bits_le_one hle).trans (by decide)
      rw [one, int_pow_int_eq_ok, HasFirstPower, ← hlong]
      constructor
      · rintro ⟨n, k, hn, hk, rfl⟩
        obtain rfl := Except.ok.inj (toExponent_one.symm.trans hn)
        obtain ⟨hle, rfl⟩ := powInt_eq_ok.mp hk
        exact ⟨hle, congrArg int (Int.pow_one i)⟩
      · rintro ⟨hle, rfl⟩
        exact ⟨1, i, toExponent_one, powInt_eq_ok.mpr ⟨hle, Int.pow_one i⟩, rfl⟩
  | float x =>
      have hpow : (float x).pow one = (powFloat (.float x) one 1).map float := by
        rw [pow, toExponent_one]
        rfl
      rw [hpow, map_eq_ok]
      simp only [powFloat, HasFirstPower, firstPower, toFloat]
      change (∃ y, (if (Float.pow x (Binary64.ofInt 1)).isFinite = true then _ else _) = _ ∧ _) ↔ _
      split
      · next hfinite => simp [hfinite, eq_comm]
      · next hinfinite => simp [hinfinite]

theorem one_mul (c : Number) : one * c = c := by
  cases c with
  | int i => exact congrArg int (Int.one_mul i)
  | float x => exact congrArg float (Binary64.one_mul x)

theorem beq_self {c : Number} (h : c.isNaN = false) : (c == c) = true := by
  cases c with
  | int i => exact beq_self_eq_true i
  | float x => exact Binary64.beq_self h

end Number

/-! ## Single terms -/

theorem Monomial.pow_one {m : Monomial} (hm : m.IsSupported) : m.pow 1 = .ok m := by
  refine pow_eq_ok.mpr (Or.inr ⟨Nat.one_ne_zero, fun f hf => ?_, ?_⟩)
  · rw [Nat.mul_one]
    exact hm.2 f hf
  · simp only [Nat.mul_one, List.map_id']

/-- The first power of a single term has that of the coefficient. -/
def Term.firstPower (t : Term) : Term := ⟨t.coefficient.firstPower, t.monomial⟩

theorem Term.pow_one_eq_ok {t u : Term} (ht : t.monomial.IsSupported) :
    t.pow .one = .ok u ↔ t.coefficient.HasFirstPower ∧ u = t.firstPower := by
  rw [pow_eq_ok]
  constructor
  · rintro ⟨n, c, m, hn, hc, hm, rfl⟩
    obtain rfl := Except.ok.inj (Number.toExponent_one.symm.trans hn)
    obtain rfl := Except.ok.inj ((Monomial.pow_one ht).symm.trans hm)
    obtain ⟨hpower, rfl⟩ := Number.pow_one_eq_ok.mp hc
    exact ⟨hpower, rfl⟩
  · rintro ⟨hpower, rfl⟩
    exact ⟨1, _, _, Number.toExponent_one, Number.pow_one_eq_ok.mpr ⟨hpower, rfl⟩,
      Monomial.pow_one ht, rfl⟩

/-! ## Several terms -/

theorem Term.one_mul (t : Term) : (Term.constant .one).mul t = .ok t := by
  refine mul_eq_ok.mpr ⟨t.monomial, rfl, ?_⟩
  rw [constant, Number.one_mul]

namespace Polynomial

theorem products_one (ts : List Term) : products [Term.constant .one] ts = .ok ts := by
  rw [products_eq_ok, List.flatMap_singleton, List.forall₂_map_left_iff, List.forall₂_same]
  exact fun t _ => Term.one_mul t

/-- Products that are the terms of a normal form add up to it. Of two monomials at most one is
constant, so they are not taken for constants. -/
theorem collectProducts_terms {p : Polynomial} (hp : p.IsNormal) (hmany : 2 ≤ p.terms.length) :
    collectProducts p.terms = .poly p := by
  unfold collectProducts
  split
  · next hconstant =>
      rw [List.all_eq_true] at hconstant
      match hterms : p.terms with
      | [] | [_] => simp [hterms] at hmany
      | s :: t :: rest =>
          have hdistinct := hp.distinct
          rw [hterms] at hdistinct hconstant
          refine absurd ?_ ((List.pairwise_cons.mp hdistinct).1 t (List.mem_cons_self ..))
          exact Term.monomial_eq_of_isConstant (hconstant s (List.mem_cons_self ..))
            (hconstant t (List.mem_cons_of_mem s (List.mem_cons_self ..)))
  · rw [ofTerms_terms hp]

theorem expand_one {p : Polynomial} (hp : p.IsNormal) (hmany : 2 ≤ p.terms.length) :
    p.expand 1 (.term (.constant .one)) = .ok (.poly p) := by
  have hmul : (ofTerm (.constant .one)).mul (.poly p) = .ok (.poly p) := by
    refine mul_eq_ok.mpr ⟨p.terms, ?_, (collectProducts_terms hp hmany).symm⟩
    rw [terms_ofTerm, if_neg (by decide)]
    exact products_one p.terms
  exact bind_eq_ok.mpr ⟨.poly p, hmul, rfl⟩

theorem pow_one_of_nil {p : Polynomial} (hp : p.terms = []) : p.pow .one = .ok (.term .zero) :=
  pow_of_nil Number.toExponent_one Number.one_pow_one hp

theorem pow_one_of_many {p : Polynomial} (hp : p.IsNormal) (hmany : 2 ≤ p.terms.length) :
    p.pow .one = .ok (.poly p) := by
  rw [pow_of_many Number.toExponent_one Number.one_pow_one hmany (by decide), expand_one hp hmany]

end Polynomial

/-! ## Values -/

theorem Term.beq_self {t : Term} (h : t.coefficient.isNaN = false) : (t == t) = true := by
  change ((t.coefficient == t.coefficient) && decide (t.monomial = t.monomial)) = true
  rw [Number.beq_self h, decide_eq_true rfl]
  rfl

theorem Polynomial.beq_terms_self : ∀ {ts : List Term},
    (∀ t ∈ ts, t.coefficient.isNaN = false) → (ts == ts) = true
  | [], _ => rfl
  | t :: ts, h => by
      obtain ⟨ht, hts⟩ := List.forall_mem_cons.mp h
      rw [List.cons_beq_cons, Term.beq_self ht, beq_terms_self hts]
      rfl

namespace Value

variable {v w : Value}

theorem constant?_one : (constant .one).constant? = some .one := rfl

/-- The first power of a value with a single term is that of the term. -/
theorem pow_one_of_terms {t : Term} (hv : v.terms = [t]) :
    (∀ u, t.pow .one = .ok u →
      ∃ w, v.pow (constant .one) = .ok w ∧ w.toPolynomial = .ofTerm u) ∧
    ∀ r, t.pow .one = .error r → v.pow (constant .one) = .error r := by
  cases v with
  | term s =>
      obtain rfl := List.singleton_injective hv
      rw [term_pow constant?_one]
      exact ⟨fun u hu => ⟨.term u, map_eq_ok.mpr ⟨u, hu, rfl⟩, rfl⟩, fun r => map_eq_error.mpr⟩
  | poly p =>
      rw [poly_pow constant?_one,
        Polynomial.pow_of_singleton Number.toExponent_one Number.one_pow_one hv]
      refine ⟨fun u hu => ⟨_, map_eq_ok.mpr ⟨u, hu, rfl⟩, ?_⟩, fun r => map_eq_error.mpr⟩
      split <;> rfl

/-- A value with no terms, or with several, has itself as its first power. -/
theorem pow_one_of_not_single (hv : v.IsNormal) (hterms : ∀ t, v.terms ≠ [t]) :
    ∃ w, v.pow (constant .one) = .ok w ∧ w.toPolynomial = v.toPolynomial := by
  cases v with
  | term t => exact absurd rfl (hterms t)
  | poly p =>
      rw [poly_pow constant?_one]
      match hp : p.terms with
      | [] =>
          refine ⟨_, Polynomial.pow_one_of_nil hp, ?_⟩
          obtain ⟨ts⟩ := p
          obtain rfl : ts = [] := hp
          rfl
      | [t] => exact absurd hp (hterms t)
      | _ :: _ :: _ =>
          exact ⟨.poly p, Polynomial.pow_one_of_many hv (by simp [hp]), rfl⟩

/-- The first power is refused only to a single term, and only if that of its coefficient is
beyond the limits. -/
theorem pow_one_cases (hv : v.IsWellFormed) :
    (∃ t, v.terms = [t] ∧ ¬ t.coefficient.HasFirstPower ∧
      ∃ r, v.pow (constant .one) = .error r) ∨
    ∃ w, v.pow (constant .one) = .ok w ∧
      ((∃ t, v.terms = [t] ∧ t.coefficient.HasFirstPower ∧
          w.toPolynomial = .ofTerm t.firstPower) ∨
        (∀ t, v.terms ≠ [t]) ∧ w.toPolynomial = v.toPolynomial) := by
  by_cases hsingle : ∃ t, v.terms = [t]
  · obtain ⟨t, ht⟩ := hsingle
    have hsupported := hv.supported t (ht ▸ List.mem_singleton.mpr rfl)
    obtain ⟨hok, herror⟩ := pow_one_of_terms ht
    cases hpow : t.pow .one with
    | error r =>
        refine Or.inl ⟨t, ht, fun hpower => ?_, r, herror r hpow⟩
        rw [(Term.pow_one_eq_ok hsupported).mpr ⟨hpower, rfl⟩] at hpow
        cases hpow
    | ok u =>
        obtain ⟨hpower, rfl⟩ := (Term.pow_one_eq_ok hsupported).mp hpow
        obtain ⟨w, hw, hpolynomial⟩ := hok _ hpow
        exact Or.inr ⟨w, hw, Or.inl ⟨t, ht, hpower, hpolynomial⟩⟩
  · have hterms := not_exists.mp hsingle
    obtain ⟨w, hw, hpolynomial⟩ := pow_one_of_not_single hv.normal hterms
    exact Or.inr ⟨w, hw, Or.inr ⟨hterms, hpolynomial⟩⟩

theorem pow_one_isOk_iff (hv : v.IsWellFormed) :
    (∃ w, v.pow (constant .one) = .ok w) ↔ ∀ t, v.terms = [t] → t.coefficient.HasFirstPower := by
  rcases pow_one_cases hv with ⟨t, ht, hpower, r, hr⟩ | ⟨w, hw, hcases⟩
  · refine iff_of_false ?_ fun h => hpower (h t ht)
    rintro ⟨w, hw⟩
    rw [hr] at hw
    cases hw
  · refine iff_of_true ⟨w, hw⟩ fun t ht => ?_
    rcases hcases with ⟨t', ht', hpower, -⟩ | ⟨hterms, -⟩
    · obtain rfl := List.singleton_injective (ht.symm.trans ht')
      exact hpower
    · exact absurd ht (hterms t)

theorem toPolynomial_of_terms {t : Term} (hv : v.IsNormal) (ht : v.terms = [t]) :
    v.toPolynomial = .ofTerm t := by
  cases v with
  | term s => rw [toPolynomial, List.singleton_injective ht]
  | poly p =>
      rw [toPolynomial, Polynomial.ofTerm, ← ht]
      exact (Polynomial.ofTerms_terms hv).symm

/-- Where the first power of the coefficient of a single term is that coefficient, the first power
of a value is the value. -/
theorem toPolynomial_pow_one (hv : v.IsWellFormed) (hw : v.pow (constant .one) = .ok w)
    (hsame : ∀ t, v.terms = [t] → t.coefficient.firstPower = t.coefficient) :
    w.toPolynomial = v.toPolynomial := by
  rcases pow_one_cases hv with ⟨_, _, _, r, hr⟩ | ⟨w', hw', hcases⟩
  · rw [hr] at hw
    cases hw
  · obtain rfl := Except.ok.inj (hw.symm.trans hw')
    rcases hcases with ⟨t, ht, -, hpolynomial⟩ | ⟨-, hpolynomial⟩
    · rw [hpolynomial, toPolynomial_of_terms hv.normal ht, Term.firstPower, hsame t ht]
    · exact hpolynomial

/-- A value without NaN is equal to every value that is the same polynomial. -/
theorem beq_of_toPolynomial_eq (h : w.toPolynomial = v.toPolynomial)
    (hnan : ∀ t ∈ v.terms, t.coefficient.isNaN = false) : (w == v) = true := by
  change (w.toPolynomial.terms == v.toPolynomial.terms) = true
  rw [h]
  exact Polynomial.beq_terms_self fun t ht => hnan t (mem_terms_of_mem_toPolynomial ht)

end Value

/-! ## Integers that are too long

The limit looks at the length of the base, so a power that it lets pass can be multiplied by itself
and is then too long for any power. -/

theorem Number.bits_two_pow (n : Nat) : bits (2 ^ n) = n + 1 := by
  rw [bits, if_neg (pow_ne_zero n two_ne_zero), Int.natAbs_pow]
  exact congrArg Nat.succ Nat.log2_two_pow

theorem Monomial.one_pow (n : Nat) : one.pow n = .ok one := by
  rw [pow_eq_ok]
  rcases Nat.eq_zero_or_pos n with hzero | hpos
  · exact Or.inl ⟨hzero, rfl⟩
  · exact Or.inr ⟨Nat.ne_of_gt hpos, List.forall_mem_nil _, rfl⟩

theorem Term.two_pow {n : Nat} (hn : 2 * n ≤ maxPowerBits) :
    (constant (.int 2)).pow (.int n) = .ok (constant (.int (2 ^ n))) := by
  have hexponent : (Number.int n).toExponent = .ok n :=
    Number.toExponent_int.mpr ⟨rfl, by simp only [maxPowerBits, Monomial.maxExponent] at *; omega⟩
  have hbits : Number.bits 2 = 2 := by decide
  have hpower : (Number.int 2).pow (.int n) = .ok (.int (2 ^ n)) := by
    refine Number.int_pow_int_eq_ok.mpr ⟨n, _, hexponent, Number.powInt_eq_ok.mpr ⟨?_, rfl⟩, rfl⟩
    rw [hbits]
    omega
  exact pow_eq_ok.mpr ⟨n, _, .one, hexponent, hpower, Monomial.one_pow n, rfl⟩

/-- A product of two powers may be as long as both together. -/
theorem Expr.evaluate_square_two_pow {n k : Nat} (hn : 2 * n ≤ maxPowerBits) (hk : n + n = k) :
    let power := binary .pow (num (.int 2)) (num (.int n))
    (binary .mul power power).evaluate = .ok (.constant (.int (2 ^ k))) := by
  intro power
  have hpower : power.value = .ok (.constant (.int (2 ^ n))) :=
    value_binary_eq_ok.mpr ⟨_, _, rfl, rfl, map_eq_ok.mpr ⟨_, Term.two_pow hn, rfl⟩⟩
  have hmul : (Value.constant (.int (2 ^ n))).mul (.constant (.int (2 ^ n))) =
      .ok (.constant (.int (2 ^ k))) := by
    have hterm : (Term.constant (.int (2 ^ n))).mul (.constant (.int (2 ^ n))) =
        .ok (.constant (.int (2 ^ n * 2 ^ n))) := Term.mul_eq_ok.mpr ⟨.one, rfl, rfl⟩
    rw [← hk, pow_add]
    exact map_eq_ok.mpr ⟨_, hterm, rfl⟩
  exact evaluate_eq_ok.mpr (value_binary_eq_ok.mpr ⟨_, _, hpower, hpower, hmul⟩)

theorem Value.not_pow_one_two_pow {k : Nat} (hk : maxPowerBits ≤ k) :
    ¬ ∃ w, (constant (.int (2 ^ k))).pow (constant .one) = .ok w := by
  have hv : (constant (.int (2 ^ k))).IsWellFormed :=
    ⟨List.forall_mem_singleton.mpr Monomial.isSupported_one, trivial⟩
  rw [pow_one_isOk_iff hv]
  intro h
  have hbits : Number.bits (2 ^ k) ≤ maxPowerBits := h _ rfl
  rw [Number.bits_two_pow] at hbits
  omega

/-! ## Trees -/

theorem Expr.isWellFormed_evaluate {e : Expr} {v : Value} (h : e.evaluate = .ok v) :
    v.IsWellFormed := by
  rw [evaluate_eq_ok] at h
  exact ⟨isSupported_value h, isNormal_value h⟩

/-- **The first power of values of trees.** There is one unless the value is a single term whose
coefficient is an integer that is too long or a double whose power is not finite. It is the same
polynomial as the value, and equal to it if there is no NaN, provided that for the coefficient of a
single term the power function gives that coefficient; for integers it does. -/
theorem Expr.evaluate_pow_one {e : Expr} {v : Value} (h : e.evaluate = .ok v) :
    ((∃ w, v.pow (.constant .one) = .ok w) ↔
        ∀ t, v.terms = [t] → t.coefficient.HasFirstPower) ∧
      ∀ w, v.pow (.constant .one) = .ok w →
        (∀ t, v.terms = [t] → t.coefficient.firstPower = t.coefficient) →
          w.toPolynomial = v.toPolynomial ∧
            ((∀ t ∈ v.terms, t.coefficient.isNaN = false) → (w == v) = true) := by
  have hv := isWellFormed_evaluate h
  refine ⟨Value.pow_one_isOk_iff hv, fun w hw hsame => ?_⟩
  have hpolynomial := Value.toPolynomial_pow_one hv hw hsame
  exact ⟨hpolynomial, Value.beq_of_toPolynomial_eq hpolynomial⟩

/-- A single term with an integer, and several terms with doubles. -/
theorem Expr.evaluate_pow_one_of_sum :
    let e := binary .mul (num (.int 2)) (var "x")
    let e' := binary .add (binary .mul (num (.float 0.5)) (var "x")) (num (.float 1.5))
    ∃ v v', e.evaluate = .ok v ∧ e'.evaluate = .ok v' ∧
      (∃ w, v.pow (.constant .one) = .ok w ∧ (w == v) = true) ∧
      ∃ w, v'.pow (.constant .one) = .ok w ∧ (w == v') = true := by
  intro e e'
  have hv : e.evaluate = .ok (.term ⟨.int 2, .var "x"⟩) := by rfl
  have hv' : e'.evaluate = .ok (.poly ⟨[⟨.float 0.5, .var "x"⟩, ⟨.float 1.5, .one⟩]⟩) := by rfl
  refine ⟨_, _, hv, hv', ?_, ?_⟩
  · obtain ⟨hiff, hsame⟩ := evaluate_pow_one hv
    obtain ⟨w, hw⟩ := hiff.mpr fun t ht => by
      obtain rfl := List.singleton_injective ht
      exact (by decide : Number.bits 2 ≤ maxPowerBits)
    refine ⟨w, hw, (hsame w hw fun t ht => ?_).2 ?_⟩
    · obtain rfl := List.singleton_injective ht
      rfl
    · exact List.forall_mem_singleton.mpr rfl
  · obtain ⟨hiff, hsame⟩ := evaluate_pow_one hv'
    obtain ⟨w, hw⟩ := hiff.mpr fun t ht => by cases ht
    refine ⟨w, hw, (hsame w hw fun t ht => by cases ht).2 ?_⟩
    exact List.forall_mem_cons.mpr ⟨by rfl, List.forall_mem_singleton.mpr (by rfl)⟩

/-- The square of `2^524288` is there, but it is one bit too long for a power. -/
theorem Expr.evaluate_not_pow_one :
    let power := binary .pow (num (.int 2)) (num (.int (524288 : Nat)))
    let v := Value.constant (.int (2 ^ 1048576))
    (binary .mul power power).evaluate = .ok v ∧ ¬ ∃ w, v.pow (.constant .one) = .ok w :=
  ⟨evaluate_square_two_pow (by decide) (by decide), Value.not_pow_one_two_pow (by decide)⟩

end PolyCalc
