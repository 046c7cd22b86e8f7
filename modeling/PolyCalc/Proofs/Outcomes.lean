import Mathlib.Data.List.Forall2
import Mathlib.Data.String.Basic
import PolyCalc.Power
import PolyCalc.Proofs.NormalForm

/-!
# What the operations return

Products and powers can be refused, so every statement about them begins with a result that is
there. This file says once, operation by operation, where a result can come from; later files
argue from these facts and leave the operations closed.

Sums never fail, and apart from like terms they have one form: the normal form of all terms of
both operands (`Value.add_cases`), whatever the shapes of the operands are.
-/

namespace PolyCalc

/-! ## Sequencing -/

section Sequencing

variable {ε α β : Type}

theorem bind_eq_ok {x : Except ε α} {f : α → Except ε β} {b : β} :
    (x >>= f) = .ok b ↔ ∃ a, x = .ok a ∧ f a = .ok b := by
  cases x with
  | ok a =>
      refine ⟨fun h => ⟨a, rfl, h⟩, ?_⟩
      rintro ⟨a', ha, h⟩
      obtain rfl := Except.ok.inj ha
      exact h
  | error e =>
      constructor
      · intro h
        cases h
      · rintro ⟨_, h, -⟩
        cases h

theorem bind_eq_error {x : Except ε α} {f : α → Except ε β} {e : ε} :
    (x >>= f) = .error e ↔ x = .error e ∨ ∃ a, x = .ok a ∧ f a = .error e := by
  cases x with
  | error e' =>
      constructor
      · intro h
        exact Or.inl (congrArg Except.error (Except.error.inj h))
      · rintro (h | ⟨_, h, -⟩)
        · exact congrArg Except.error (Except.error.inj h)
        · cases h
  | ok a =>
      refine ⟨fun h => Or.inr ⟨a, rfl, h⟩, ?_⟩
      rintro (h | ⟨a', ha, h⟩)
      · cases h
      · obtain rfl := Except.ok.inj ha
        exact h

theorem exists_eq_ok {x : Except ε α} (h : ∀ e, x ≠ .error e) : ∃ a, x = .ok a := by
  cases x with
  | ok a => exact ⟨a, rfl⟩
  | error e => exact absurd rfl (h e)

theorem exists_eq_error_iff {x : Except ε α} : (∃ e, x = .error e) ↔ ¬ ∃ a, x = .ok a := by
  cases x <;> simp

theorem map_eq_ok {x : Except ε α} {f : α → β} {b : β} :
    x.map f = .ok b ↔ ∃ a, x = .ok a ∧ f a = b := by
  cases x <;> simp [Except.map]

theorem map_eq_error {x : Except ε α} {f : α → β} {e : ε} :
    x.map f = .error e ↔ x = .error e := by
  cases x <;> simp [Except.map]

theorem pure_eq_ok {a b : α} : (pure a : Except ε α) = .ok b ↔ a = b :=
  ⟨Except.ok.inj, congrArg Except.ok⟩

theorem mapM_eq_ok {f : α → Except ε β} {as : List α} {bs : List β} :
    as.mapM f = .ok bs ↔ List.Forall₂ (fun a b => f a = .ok b) as bs := by
  induction as generalizing bs with
  | nil =>
      rw [List.mapM_nil, pure_eq_ok, List.forall₂_nil_left_iff]
      exact eq_comm
  | cons a as ih =>
      simp only [List.mapM_cons, bind_eq_ok, pure_eq_ok, List.forall₂_cons_left_iff, ih]
      constructor
      · rintro ⟨b, hb, bs', hbs, rfl⟩
        exact ⟨b, bs', hb, hbs, rfl⟩
      · rintro ⟨b, bs', hb, hbs, rfl⟩
        exact ⟨b, hb, bs', hbs, rfl⟩

theorem exists_mem_of_mapM_eq_error {f : α → Except ε β} {as : List α} {e : ε}
    (h : as.mapM f = .error e) : ∃ a ∈ as, f a = .error e := by
  induction as with
  | nil => cases h
  | cons a as ih =>
      simp only [List.mapM_cons, bind_eq_error] at h
      rcases h with h | ⟨_, -, h | ⟨_, -, h⟩⟩
      · exact ⟨a, List.mem_cons_self .., h⟩
      · obtain ⟨a', ha', h⟩ := ih h
        exact ⟨a', List.mem_cons_of_mem a ha', h⟩
      · cases h

theorem exists_mem_of_forall₂ {R : α → β → Prop} {as : List α} {bs : List β}
    (h : List.Forall₂ R as bs) {b : β} (hb : b ∈ bs) : ∃ a ∈ as, R a b := by
  induction h with
  | nil => cases hb
  | cons hab _ ih =>
      rcases List.mem_cons.mp hb with rfl | hb
      · exact ⟨_, List.mem_cons_self .., hab⟩
      · obtain ⟨a, ha, hR⟩ := ih hb
        exact ⟨a, List.mem_cons_of_mem _ ha, hR⟩

end Sequencing

/-! ## Monomials -/

namespace Monomial

theorem checkExponent_eq_ok {x : String} {e e' : Nat} :
    checkExponent x e = .ok e' ↔ e ≤ maxExponent ∧ e = e' := by
  unfold checkExponent
  split <;> simp [*]

/-- How two lists of factors are merged: the smaller name goes first, and the exponents of a
shared name are added, within the limit. -/
inductive Merges : (as bs cs : List (String × Nat)) → Prop
  | leftDone (bs : List (String × Nat)) : Merges [] bs bs
  | rightDone (as : List (String × Nat)) : Merges as [] as
  | left {a b : String × Nat} {as bs cs : List (String × Nat)} (hlt : a.1 < b.1)
      (rest : Merges as (b :: bs) cs) : Merges (a :: as) (b :: bs) (a :: cs)
  | right {a b : String × Nat} {as bs cs : List (String × Nat)} (hlt : b.1 < a.1)
      (rest : Merges (a :: as) bs cs) : Merges (a :: as) (b :: bs) (b :: cs)
  | shared {x : String} {d e : Nat} {as bs cs : List (String × Nat)} (hle : d + e ≤ maxExponent)
      (rest : Merges as bs cs) : Merges ((x, d) :: as) ((x, e) :: bs) ((x, d + e) :: cs)

theorem merges_mergeFactor {a : String × Nat} {as : List (String × Nat)}
    {rest : List (String × Nat) → Except Refusal (List (String × Nat))}
    (hrest : ∀ {bs cs}, rest bs = .ok cs → Merges as bs cs) :
    ∀ {bs cs}, mergeFactor a as rest bs = .ok cs → Merges (a :: as) bs cs
  | [], cs, h => by
      obtain rfl := Except.ok.inj h
      exact .rightDone _
  | b :: bs, cs, h => by
      unfold mergeFactor at h
      split at h
      · next hcmp =>
          simp only [bind_eq_ok, pure_eq_ok] at h
          obtain ⟨cs', hcs, rfl⟩ := h
          exact .left (compare_lt_iff_lt.mp hcmp) (hrest hcs)
      · next hcmp =>
          simp only [bind_eq_ok, pure_eq_ok, checkExponent_eq_ok] at h
          obtain ⟨_, ⟨hle, rfl⟩, cs', hcs, rfl⟩ := h
          obtain ⟨x, d⟩ := a
          obtain ⟨y, e⟩ := b
          obtain rfl : x = y := compare_eq_iff_eq.mp hcmp
          exact .shared hle (hrest hcs)
      · next hcmp =>
          simp only [bind_eq_ok, pure_eq_ok] at h
          obtain ⟨cs', hcs, rfl⟩ := h
          exact .right (compare_gt_iff_gt.mp hcmp) (merges_mergeFactor hrest hcs)

theorem merges_mergeFactors : ∀ {as bs cs : List (String × Nat)},
    mergeFactors as bs = .ok cs → Merges as bs cs
  | [], bs, cs, h => by
      obtain rfl := Except.ok.inj h
      exact .leftDone _
  | _ :: _, _, _, h => merges_mergeFactor (fun h' => merges_mergeFactors h') h

theorem merges_of_mul {a b c : Monomial} (h : a.mul b = .ok c) :
    Merges a.factors b.factors c.factors := by
  obtain ⟨cs, hcs, rfl⟩ := map_eq_ok.mp h
  exact merges_mergeFactors hcs

/-- The power of a monomial, and when there is one. -/
theorem pow_eq_ok {m r : Monomial} {n : Nat} :
    m.pow n = .ok r ↔ (n = 0 ∧ r = one) ∨
      (n ≠ 0 ∧ (∀ f ∈ m.factors, f.2 * n ≤ maxExponent) ∧
        r = ⟨m.factors.map fun f => (f.1, f.2 * n)⟩) := by
  unfold pow
  split
  · next hn => simp [hn, eq_comm]
  · next hn =>
      simp only [bind_eq_ok, pure_eq_ok, mapM_eq_ok, checkExponent_eq_ok, hn, false_and,
        false_or, ne_eq, not_false_eq_true, true_and]
      constructor
      · rintro ⟨fs, hfs, rfl⟩
        have hall : ∀ {gs fs : List (String × Nat)}, List.Forall₂ (fun g f =>
            ∃ e, (g.2 * n ≤ maxExponent ∧ g.2 * n = e) ∧ (g.1, e) = f) gs fs →
            (∀ g ∈ gs, g.2 * n ≤ maxExponent) ∧ fs = gs.map fun g => (g.1, g.2 * n) := by
          intro gs fs h
          induction h with
          | nil => exact ⟨by simp, rfl⟩
          | cons hgf _ ih =>
              obtain ⟨_, ⟨hle, rfl⟩, rfl⟩ := hgf
              exact ⟨List.forall_mem_cons.mpr ⟨hle, ih.1⟩, by rw [ih.2, List.map_cons]⟩
        obtain ⟨hle, rfl⟩ := hall hfs
        exact ⟨hle, rfl⟩
      · rintro ⟨hle, rfl⟩
        refine ⟨_, ?_, rfl⟩
        rw [List.forall₂_map_right_iff, List.forall₂_same]
        exact fun f hf => ⟨_, ⟨hle f hf, rfl⟩, rfl⟩

end Monomial

/-! ## Numbers and terms -/

namespace Number

@[simp] theorem int_add_int (i j : Int) : (int i + int j : Number) = int (i + j) := rfl

@[simp] theorem int_mul_int (i j : Int) : (int i * int j : Number) = int (i * j) := rfl

@[simp] theorem isZero_int (i : Int) : (int i).isZero = decide (i = 0) := rfl

theorem toExponent_int {i : Int} {n : Nat} :
    (int i).toExponent = .ok n ↔ i = n ∧ n ≤ Monomial.maxExponent := by
  simp only [toExponent, toInt?]
  split
  · next h => simp only [Except.ok.injEq]; omega
  · next h => simp only [reduceCtorEq, false_iff]; omega

theorem int_pow_int_eq_ok {i j : Int} {c : Number} :
    (int i).pow (int j) = .ok c ↔
      ∃ n k, (int j).toExponent = .ok n ∧ powInt i n = .ok k ∧ c = int k := by
  simp only [pow, bind_eq_ok, pure_eq_ok]
  constructor
  · rintro ⟨n, hn, k, hk, rfl⟩
    exact ⟨n, k, hn, hk, rfl⟩
  · rintro ⟨n, k, hn, hk, rfl⟩
    exact ⟨n, hn, k, hk, rfl⟩

theorem powInt_eq_ok {i k : Int} {n : Nat} :
    powInt i n = .ok k ↔ ¬(1 < i.natAbs ∧ maxPowerBits < bits i * n) ∧ Int.pow i n = k := by
  unfold powInt
  split <;> simp [*]

theorem one_pow_int_eq_ok {i : Int} {c : Number} :
    one.pow (.int i) = .ok c ↔ (∃ n, (int i).toExponent = .ok n) ∧ c = one := by
  rw [one, int_pow_int_eq_ok]
  constructor
  · rintro ⟨n, k, hn, hk, rfl⟩
    obtain ⟨-, rfl⟩ := powInt_eq_ok.mp hk
    exact ⟨⟨n, hn⟩, congrArg int Int.one_pow⟩
  · rintro ⟨⟨n, hn⟩, rfl⟩
    exact ⟨n, 1, hn, powInt_eq_ok.mpr ⟨by simp, Int.one_pow⟩, rfl⟩

end Number

namespace Term

theorem mul_eq_ok {s t u : Term} :
    s.mul t = .ok u ↔
      ∃ m, s.monomial.mul t.monomial = .ok m ∧ u = ⟨s.coefficient * t.coefficient, m⟩ := by
  simp only [mul, bind_eq_ok, pure_eq_ok]
  exact exists_congr fun _ => and_congr_right fun _ => eq_comm

theorem pow_eq_ok {t u : Term} {e : Number} :
    t.pow e = .ok u ↔ ∃ n c m, e.toExponent = .ok n ∧ t.coefficient.pow e = .ok c ∧
      t.monomial.pow n = .ok m ∧ u = ⟨c, m⟩ := by
  simp only [pow, bind_eq_ok, pure_eq_ok]
  constructor
  · rintro ⟨n, hn, c, hc, m, hm, rfl⟩
    exact ⟨n, c, m, hn, hc, hm, rfl⟩
  · rintro ⟨n, c, m, hn, hc, hm, rfl⟩
    exact ⟨n, hn, c, hc, m, hm, rfl⟩

end Term

/-! ## Sums -/

namespace Polynomial

/-- A term that is normalised first brings along the same coefficients as the term itself. -/
theorem coefficientsAt_ofTerm (m : Monomial) (t : Term) :
    coefficientsAt m (ofTerm t).terms = coefficientsAt m [t] := by
  rw [terms_ofTerm]
  split
  · next hz =>
      rw [coefficientsAt_single, if_neg (by simp [hz])]
      rfl
  · rfl

theorem ofTerms_congr {ss ts : List Term} (h : ∀ m, coefficientsAt m ss = coefficientsAt m ts) :
    ofTerms ss = ofTerms ts :=
  (isNormal_ofTerms ss).ext (isNormal_ofTerms ts) fun t => by
    rw [mem_ofTerms, mem_ofTerms, sumAt, sumAt, h]

end Polynomial

namespace Value

theorem mem_terms_of_mem_toPolynomial {v : Value} {t : Term} (ht : t ∈ v.toPolynomial.terms) :
    t ∈ v.terms := by
  cases v with
  | poly p => exact ht
  | term s =>
      rw [toPolynomial, Polynomial.terms_ofTerm] at ht
      split at ht
      · cases ht
      · exact ht

/-- Like terms add up to a term. Every other sum is the normal form of all terms that take
part, whatever the shapes. -/
theorem add_cases (v w : Value) :
    (∃ s t : Term, v = .term s ∧ w = .term t ∧ s.monomial = t.monomial ∧
      v.add w = .term ⟨s.coefficient + t.coefficient, s.monomial⟩) ∨
    v.add w = .poly (.ofTerms (v.terms ++ w.terms)) := by
  cases v with
  | poly p => exact Or.inr rfl
  | term s =>
      cases w with
      | term t =>
          by_cases hm : s.monomial = t.monomial
          · refine Or.inl ⟨s, t, rfl, rfl, hm, ?_⟩
            simp [add, Term.isLike, hm]
          · exact Or.inr (by simp [add, Term.isLike, hm, terms])
      | poly q =>
          refine Or.inr (congrArg Value.poly (Polynomial.ofTerms_congr fun m => ?_))
          rw [Polynomial.coefficientsAt_append, Polynomial.coefficientsAt_append,
            Polynomial.coefficientsAt_ofTerm, terms, terms]

/-- The same for differences, with the terms on the right negated. -/
theorem sub_cases (v w : Value) :
    (∃ s t : Term, v = .term s ∧ w = .term t ∧ s.monomial = t.monomial ∧
      v.sub w = .term ⟨s.coefficient - t.coefficient, s.monomial⟩) ∨
    v.sub w = .poly (.ofTerms (v.terms ++ w.terms.map Term.neg)) := by
  cases v with
  | poly p => exact Or.inr rfl
  | term s =>
      cases w with
      | term t =>
          by_cases hm : s.monomial = t.monomial
          · refine Or.inl ⟨s, t, rfl, rfl, hm, ?_⟩
            simp [sub, Term.isLike, hm]
          · refine Or.inr ?_
            simp only [sub, Term.isLike, hm, decide_false, Bool.false_eq_true, if_false]
            rfl
      | poly q =>
          refine Or.inr (congrArg Value.poly (Polynomial.ofTerms_congr fun m => ?_))
          rw [Polynomial.coefficientsAt_append, Polynomial.coefficientsAt_append,
            Polynomial.coefficientsAt_ofTerm, terms, terms]

end Value

/-! ## Products -/

namespace Polynomial

theorem products_eq_ok {ss ts us : List Term} :
    products ss ts = .ok us ↔ List.Forall₂ (fun p u => p.1.mul p.2 = .ok u)
      (ss.flatMap fun s => ts.map fun t => (s, t)) us :=
  mapM_eq_ok

theorem mem_products {ss ts us : List Term} (h : products ss ts = .ok us) {u : Term}
    (hu : u ∈ us) : ∃ s ∈ ss, ∃ t ∈ ts, s.mul t = .ok u := by
  obtain ⟨⟨s, t⟩, hmem, hmul⟩ := exists_mem_of_forall₂ (products_eq_ok.mp h) hu
  obtain ⟨s', hs, ht⟩ := List.mem_flatMap.mp hmem
  obtain ⟨t', ht', heq⟩ := List.mem_map.mp ht
  obtain ⟨rfl, rfl⟩ := Prod.mk.inj heq
  exact ⟨s', hs, t', ht', hmul⟩

theorem mul_eq_ok {p : Polynomial} {v w : Value} :
    p.mul v = .ok w ↔ ∃ us, products p.terms v.terms = .ok us ∧ w = collectProducts us := by
  simp only [mul, bind_eq_ok, pure_eq_ok]
  exact exists_congr fun _ => and_congr_right fun _ => eq_comm

end Polynomial

namespace Value

/-- Two terms multiply to a term. Otherwise the left operand is distributed as a polynomial. -/
theorem mul_cases {v w u : Value} (h : v.mul w = .ok u) :
    (∃ s t x : Term, v = .term s ∧ w = .term t ∧ s.mul t = .ok x ∧ u = .term x) ∨
    v.toPolynomial.mul w = .ok u := by
  cases v with
  | poly p => exact Or.inr h
  | term s =>
      cases w with
      | poly q => exact Or.inr h
      | term t =>
          obtain ⟨x, hx, rfl⟩ := map_eq_ok.mp h
          exact Or.inl ⟨s, t, x, rfl, rfl, hx, rfl⟩

end Value

/-! ## Powers -/

namespace Polynomial

section Shapes

variable {p : Polynomial} {e c : Number} {n : Nat} (hn : e.toExponent = .ok n)
  (hc : Number.one.pow e = .ok c)

include hn hc

theorem pow_of_nil (hp : p.terms = []) :
    p.pow e = .ok (.term (if n = 0 then .constant c else .zero)) := by
  rw [pow, hn, hc, hp]
  rfl

theorem pow_of_singleton {t : Term} (hp : p.terms = [t]) :
    p.pow e = (t.pow e).map fun u => if u.isConstant then .term u else .poly (.ofTerm u) := by
  rw [pow, hn, hc, hp]
  change (t.pow e >>= fun u => pure (if u.isConstant then Value.term u else .poly (ofTerm u))) = _
  cases t.pow e <;> rfl

theorem pow_of_many (hp : 2 ≤ p.terms.length) (hle : n ≤ maxExpansionPower) :
    p.pow e = p.expand n (.term (.constant c)) := by
  rw [pow, hn, hc]
  match hterms : p.terms with
  | [] | [_] => simp [hterms] at hp
  | _ :: _ :: _ => exact if_neg (Nat.not_lt_of_le hle)

end Shapes

/-- The ways to raise a polynomial: nothing and a single term have closed forms, anything else is
multiplied out. -/
theorem pow_cases {p : Polynomial} {e : Number} {v : Value} (h : p.pow e = .ok v) :
    ∃ n c, e.toExponent = .ok n ∧ Number.one.pow e = .ok c ∧
      ((p.terms = [] ∧ v = .term (if n = 0 then .constant c else .zero)) ∨
        (∃ t u, p.terms = [t] ∧ t.pow e = .ok u ∧
          (v = .term u ∨ v = .poly (.ofTerm u))) ∨
        (2 ≤ p.terms.length ∧ n ≤ maxExpansionPower ∧
          p.expand n (.term (.constant c)) = .ok v)) := by
  simp only [pow, bind_eq_ok] at h
  obtain ⟨n, hn, c, hc, h⟩ := h
  refine ⟨n, c, hn, hc, ?_⟩
  split at h
  · next hnil => exact Or.inl ⟨hnil, (pure_eq_ok.mp h).symm⟩
  · next t hone =>
      simp only [bind_eq_ok, pure_eq_ok] at h
      obtain ⟨u, hu, rfl⟩ := h
      refine Or.inr (Or.inl ⟨t, u, hone, hu, ?_⟩)
      split
      · exact Or.inl rfl
      · exact Or.inr rfl
  · next hmany =>
      split at h
      · cases h
      · next hle =>
          refine Or.inr (Or.inr ⟨?_, Nat.le_of_not_lt hle, h⟩)
          rw [hmany]
          simp

end Polynomial

namespace Value

theorem constant?_of_nil {p : Polynomial} (hp : p.terms = []) :
    (poly p).constant? = some .zero := by
  rw [constant?, hp]

theorem constant?_of_singleton {p : Polynomial} {t : Term} (hp : p.terms = [t]) :
    (poly p).constant? = if t.isConstant then some t.coefficient else none := by
  rw [constant?, hp]

theorem poly_pow {p : Polynomial} {w : Value} {e : Number} (he : w.constant? = some e) :
    (poly p).pow w = p.pow e := by
  rw [pow, he]

theorem term_pow {t : Term} {w : Value} {e : Number} (he : w.constant? = some e) :
    (term t).pow w = (t.pow e).map .term := by
  rw [pow, he]

/-- The exponent of a power is a constant, and the base is raised in its own shape. -/
theorem pow_cases {v w u : Value} (h : v.pow w = .ok u) :
    ∃ e, w.constant? = some e ∧
      ((∃ t x, v = .term t ∧ t.pow e = .ok x ∧ u = .term x) ∨
        ∃ p, v = .poly p ∧ p.pow e = .ok u) := by
  unfold pow at h
  split at h
  · cases h
  · next e he =>
      refine ⟨e, he, ?_⟩
      cases v with
      | poly p => exact Or.inr ⟨p, rfl, h⟩
      | term t =>
          obtain ⟨x, hx, rfl⟩ := map_eq_ok.mp h
          exact Or.inl ⟨t, x, rfl, hx, rfl⟩

/-- Which constant is the exponent matters, and not how it is held. -/
theorem pow_eq_pow_constant {v w : Value} {c : Number} (hw : w.constant? = some c) :
    v.pow w = v.pow (constant c) := by
  have hc : (constant c).constant? = some c := rfl
  rw [pow, pow, hw, hc]

/-- Only natural numbers are exponents. -/
theorem exists_natCast_of_pow {v w u : Value} {i : Int} (hw : w.constant? = some (.int i))
    (h : v.pow w = .ok u) : ∃ n : ℕ, i = n := by
  obtain ⟨e, he, hcases⟩ := pow_cases h
  obtain rfl := Option.some.inj (hw.symm.trans he)
  rcases hcases with ⟨t, x, -, hx, -⟩ | ⟨p, -, hp⟩
  · obtain ⟨n, -, -, hn, -⟩ := Term.pow_eq_ok.mp hx
    exact ⟨n, (Number.toExponent_int.mp hn).1⟩
  · obtain ⟨n, -, hn, -⟩ := Polynomial.pow_cases hp
    exact ⟨n, (Number.toExponent_int.mp hn).1⟩

end Value

end PolyCalc
