import PolyCalc.Proofs.Recursion

/-!
# What evaluation keeps

A condition on coefficients and a condition on monomials hold of every term of a value as soon as
they hold of the leaves, provided that the arithmetic of numbers and the multiplication of
monomials keep them (`Closed`). The argument is the same for every such pair, so it is made once,
operation by operation, and ends in `Closed.value`.

The conditions that matter are given after it: integer coefficients, exponents within the limit,
and names that a text can hold.
-/

namespace PolyCalc

/-- Conditions on coefficients and on monomials that every operation keeps. -/
structure Closed (P : Number → Prop) (Q : Monomial → Prop) : Prop where
  zero : P .zero
  one : P .one
  add : ∀ {a b}, P a → P b → P (a + b)
  sub : ∀ {a b}, P a → P b → P (a - b)
  mul : ∀ {a b}, P a → P b → P (a * b)
  neg : ∀ {a}, P a → P (-a)
  pow : ∀ {b e c}, P b → P e → b.pow e = .ok c → P c
  unit : Q .one
  merge : ∀ {a b c}, Q a → Q b → a.mul b = .ok c → Q c
  power : ∀ {m r n}, Q m → m.pow n = .ok r → Q r

/-- The coefficient meets one condition, the monomial the other. -/
def Term.Meets (P : Number → Prop) (Q : Monomial → Prop) (t : Term) : Prop :=
  P t.coefficient ∧ Q t.monomial

/-- Every term of the value meets the conditions. -/
def Value.Meets (P : Number → Prop) (Q : Monomial → Prop) (v : Value) : Prop :=
  ∀ t ∈ v.terms, t.Meets P Q

/-- The leaves of a tree meet the conditions. -/
def Expr.Meets (P : Number → Prop) (Q : Monomial → Prop) : Expr → Prop
  | num n => P n
  | var x => Q (.var x)
  | binary _ left right => left.Meets P Q ∧ right.Meets P Q

namespace Closed

variable {P : Number → Prop} {Q : Monomial → Prop}

/-! ## Sums of terms -/

theorem foldl_add (h : Closed P Q) {cs : List Number} (hcs : ∀ c ∈ cs, P c) {a : Number}
    (ha : P a) : P (cs.foldl (fun sum c => sum + c) a) := by
  induction cs generalizing a with
  | nil => exact ha
  | cons c cs ih =>
      obtain ⟨hc, hcs'⟩ := List.forall_mem_cons.mp hcs
      exact ih hcs' (h.add ha hc)

theorem ofTerms (h : Closed P Q) {ts : List Term} (hts : ∀ t ∈ ts, t.Meets P Q) :
    ∀ t ∈ (Polynomial.ofTerms ts).terms, t.Meets P Q := by
  intro t ht
  have hfrom : ∀ c ∈ Polynomial.coefficientsAt t.monomial ts, P c ∧ Q t.monomial := by
    intro c hc
    obtain ⟨u, hu, hm, rfl⟩ := Polynomial.exists_mem_of_mem_coefficientsAt hc
    exact ⟨(hts u hu).1, hm ▸ (hts u hu).2⟩
  obtain ⟨c, cs, hcs, hsum⟩ := Polynomial.coefficientsAt_of_mem_ofTerms ht
  rw [hcs] at hfrom
  have hc := hfrom c (List.mem_cons_self ..)
  refine ⟨?_, hc.2⟩
  rw [← hsum]
  exact h.foldl_add (fun d hd => (hfrom d (List.mem_cons_of_mem c hd)).1) hc.1

theorem toPolynomial (h : Closed P Q) {v : Value} (hv : v.Meets P Q) :
    ∀ t ∈ v.toPolynomial.terms, t.Meets P Q := by
  cases v with
  | poly p => exact hv
  | term t => exact h.ofTerms hv

theorem addValue (h : Closed P Q) {v w : Value} (hv : v.Meets P Q) (hw : w.Meets P Q) :
    (v.add w).Meets P Q := by
  rcases Value.add_cases v w with ⟨s, t, rfl, rfl, -, heq⟩ | heq
  · rw [heq]
    have hs := hv s (List.mem_singleton.mpr rfl)
    have ht := hw t (List.mem_singleton.mpr rfl)
    exact List.forall_mem_singleton.mpr ⟨h.add hs.1 ht.1, hs.2⟩
  · rw [heq]
    exact h.ofTerms fun t ht => (List.mem_append.mp ht).elim (hv t) (hw t)

theorem subValue (h : Closed P Q) {v w : Value} (hv : v.Meets P Q) (hw : w.Meets P Q) :
    (v.sub w).Meets P Q := by
  rcases Value.sub_cases v w with ⟨s, t, rfl, rfl, -, heq⟩ | heq
  · rw [heq]
    have hs := hv s (List.mem_singleton.mpr rfl)
    have ht := hw t (List.mem_singleton.mpr rfl)
    exact List.forall_mem_singleton.mpr ⟨h.sub hs.1 ht.1, hs.2⟩
  · rw [heq]
    refine h.ofTerms fun t ht => (List.mem_append.mp ht).elim (hv t) fun ht' => ?_
    obtain ⟨u, hu, rfl⟩ := List.mem_map.mp ht'
    exact ⟨h.neg (hw u hu).1, (hw u hu).2⟩

/-! ## Products -/

theorem mulTerm (h : Closed P Q) {s t u : Term} (hs : s.Meets P Q) (ht : t.Meets P Q)
    (hu : s.mul t = .ok u) : u.Meets P Q := by
  obtain ⟨m, hm, rfl⟩ := Term.mul_eq_ok.mp hu
  exact ⟨h.mul hs.1 ht.1, h.merge hs.2 ht.2 hm⟩

theorem collectProducts (h : Closed P Q) {us : List Term} (hus : ∀ u ∈ us, u.Meets P Q) :
    (Polynomial.collectProducts us).Meets P Q := by
  unfold Polynomial.collectProducts
  split
  · refine List.forall_mem_singleton.mpr ⟨?_, h.unit⟩
    rw [← List.foldl_map]
    refine h.foldl_add (fun c hc => ?_) h.zero
    obtain ⟨u, hu, rfl⟩ := List.mem_map.mp hc
    exact (hus u hu).1
  · exact h.ofTerms hus

theorem mulPolynomial (h : Closed P Q) {p : Polynomial} {v w : Value}
    (hp : ∀ t ∈ p.terms, t.Meets P Q) (hv : v.Meets P Q) (hw : p.mul v = .ok w) :
    w.Meets P Q := by
  obtain ⟨us, hus, rfl⟩ := Polynomial.mul_eq_ok.mp hw
  refine h.collectProducts fun u hu => ?_
  obtain ⟨s, hs, t, ht, hmul⟩ := Polynomial.mem_products hus hu
  exact h.mulTerm (hp s hs) (hv t ht) hmul

theorem mulValue (h : Closed P Q) {v w u : Value} (hv : v.Meets P Q) (hw : w.Meets P Q)
    (hu : v.mul w = .ok u) : u.Meets P Q := by
  rcases Value.mul_cases hu with ⟨s, t, x, rfl, rfl, hx, rfl⟩ | hu
  · exact List.forall_mem_singleton.mpr (h.mulTerm (hv s (List.mem_singleton.mpr rfl))
      (hw t (List.mem_singleton.mpr rfl)) hx)
  · exact h.mulPolynomial (h.toPolynomial hv) hw hu

/-! ## Powers -/

theorem powTerm (h : Closed P Q) {t u : Term} {e : Number} (ht : t.Meets P Q) (he : P e)
    (hu : t.pow e = .ok u) : u.Meets P Q := by
  obtain ⟨n, c, m, -, hc, hm, rfl⟩ := Term.pow_eq_ok.mp hu
  exact ⟨h.pow ht.1 he hc, h.power ht.2 hm⟩

theorem expand (h : Closed P Q) {p : Polynomial} (hp : ∀ t ∈ p.terms, t.Meets P Q) :
    ∀ {n : Nat} {v w : Value}, v.Meets P Q → p.expand n v = .ok w → w.Meets P Q
  | 0, v, w, hv, hw => by
      obtain rfl := Except.ok.inj hw
      exact hv
  | n + 1, v, w, hv, hw => by
      obtain ⟨u, hu, hw⟩ := bind_eq_ok.mp hw
      have hpoly : (Value.poly p).Meets P Q := hp
      exact h.expand hp (h.mulPolynomial (h.toPolynomial hv) hpoly hu) hw

theorem powPolynomial (h : Closed P Q) {p : Polynomial} {e : Number} {v : Value}
    (hp : ∀ t ∈ p.terms, t.Meets P Q) (he : P e) (hv : p.pow e = .ok v) : v.Meets P Q := by
  obtain ⟨n, c, -, hc, hcases⟩ := Polynomial.pow_cases hv
  have hidentity : (Value.term (.constant c)).Meets P Q :=
    List.forall_mem_singleton.mpr ⟨h.pow h.one he hc, h.unit⟩
  rcases hcases with ⟨-, rfl⟩ | ⟨t, u, hone, hu, hv⟩ | ⟨-, -, hv⟩
  · split
    · exact hidentity
    · exact List.forall_mem_singleton.mpr ⟨h.zero, h.unit⟩
  · have hmeets : u.Meets P Q := h.powTerm (hp t (by rw [hone]; simp)) he hu
    rcases hv with rfl | rfl
    · exact List.forall_mem_singleton.mpr hmeets
    · exact h.ofTerms (List.forall_mem_singleton.mpr hmeets)
  · exact h.expand hp hidentity hv

theorem constant (h : Closed P Q) {v : Value} {c : Number} (hv : v.Meets P Q)
    (hc : v.constant? = some c) : P c := by
  unfold Value.constant? at hc
  split at hc
  · split at hc
    · obtain rfl := Option.some.inj hc
      exact (hv _ (List.mem_singleton.mpr rfl)).1
    · cases hc
  · next p =>
      split at hc
      · obtain rfl := Option.some.inj hc
        exact h.zero
      · next t hone =>
          split at hc
          · obtain rfl := Option.some.inj hc
            exact (hv t (by rw [Value.terms, hone]; exact List.mem_singleton.mpr rfl)).1
          · cases hc
      · cases hc

theorem powValue (h : Closed P Q) {v w u : Value} (hv : v.Meets P Q) (hw : w.Meets P Q)
    (hu : v.pow w = .ok u) : u.Meets P Q := by
  obtain ⟨e, he, ⟨t, x, rfl, hx, rfl⟩ | ⟨p, rfl, hp⟩⟩ := Value.pow_cases hu
  · exact List.forall_mem_singleton.mpr
      (h.powTerm (hv t (List.mem_singleton.mpr rfl)) (h.constant hw he) hx)
  · exact h.powPolynomial hv (h.constant hw he) hp

/-! ## Trees -/

theorem apply (h : Closed P Q) {op : Operator} {v w u : Value} (hv : v.Meets P Q)
    (hw : w.Meets P Q) (hu : op.apply v w = .ok u) : u.Meets P Q := by
  cases op with
  | add =>
      obtain rfl := Except.ok.inj hu
      exact h.addValue hv hw
  | sub =>
      obtain rfl := Except.ok.inj hu
      exact h.subValue hv hw
  | mul => exact h.mulValue hv hw hu
  | pow => exact h.powValue hv hw hu

/-- What holds of the leaves of a tree holds of its value. -/
theorem value (h : Closed P Q) : ∀ {e : Expr} {v : Value}, e.Meets P Q → e.value = .ok v →
    v.Meets P Q
  | .num n, v, he, hv => by
      obtain rfl := Except.ok.inj hv
      exact List.forall_mem_singleton.mpr ⟨he, h.unit⟩
  | .var x, v, he, hv => by
      obtain rfl := Except.ok.inj hv
      exact List.forall_mem_singleton.mpr ⟨h.one, he⟩
  | .binary op left right, v, he, hv => by
      obtain ⟨a, b, ha, hb, hv⟩ := Expr.value_binary_eq_ok.mp hv
      exact h.apply (h.value he.1 ha) (h.value he.2 hb) hv

end Closed

/-! ## Normal form -/

/-- The value is a term or a polynomial in normal form. -/
def Value.IsNormal : Value → Prop
  | term _ => True
  | poly p => p.IsNormal

namespace Value

theorem isNormal_ofTerms (ts : List Term) : (poly (.ofTerms ts)).IsNormal :=
  Polynomial.isNormal_ofTerms ts

theorem isNormal_toPolynomial {v : Value} (hv : v.IsNormal) : v.toPolynomial.IsNormal := by
  cases v with
  | poly p => exact hv
  | term t => exact Polynomial.isNormal_ofTerms [t]

theorem isNormal_add (v w : Value) : (v.add w).IsNormal := by
  rcases add_cases v w with ⟨_, _, _, _, _, heq⟩ | heq <;> rw [heq]
  · trivial
  · exact isNormal_ofTerms _

theorem isNormal_sub (v w : Value) : (v.sub w).IsNormal := by
  rcases sub_cases v w with ⟨_, _, _, _, _, heq⟩ | heq <;> rw [heq]
  · trivial
  · exact isNormal_ofTerms _

theorem isNormal_mulPolynomial {p : Polynomial} {v w : Value} (h : p.mul v = .ok w) :
    w.IsNormal := by
  obtain ⟨us, -, rfl⟩ := Polynomial.mul_eq_ok.mp h
  unfold Polynomial.collectProducts
  split
  · trivial
  · exact isNormal_ofTerms _

theorem isNormal_mul {v w u : Value} (h : v.mul w = .ok u) : u.IsNormal := by
  rcases mul_cases h with ⟨_, _, _, _, _, _, rfl⟩ | h
  · trivial
  · exact isNormal_mulPolynomial h

theorem isNormal_expand {p : Polynomial} : ∀ {n : Nat} {v w : Value}, v.IsNormal →
    p.expand n v = .ok w → w.IsNormal
  | 0, v, w, hv, hw => by
      obtain rfl := Except.ok.inj hw
      exact hv
  | n + 1, v, w, _, hw => by
      obtain ⟨u, hu, hw⟩ := bind_eq_ok.mp hw
      exact isNormal_expand (isNormal_mulPolynomial hu) hw

theorem isNormal_pow {v w u : Value} (h : v.pow w = .ok u) : u.IsNormal := by
  obtain ⟨e, -, ⟨_, _, _, _, rfl⟩ | ⟨p, _, hp⟩⟩ := pow_cases h
  · trivial
  · obtain ⟨n, c, -, -, ⟨-, rfl⟩ | ⟨_, _, -, -, rfl | rfl⟩ | ⟨-, -, hv⟩⟩ :=
      Polynomial.pow_cases hp
    · trivial
    · trivial
    · exact isNormal_ofTerms _
    · have hone : (term (.constant c)).IsNormal := trivial
      exact isNormal_expand hone hv

end Value

theorem Operator.isNormal_apply {op : Operator} {v w u : Value} (h : op.apply v w = .ok u) :
    u.IsNormal := by
  cases op with
  | add => exact Except.ok.inj h ▸ Value.isNormal_add v w
  | sub => exact Except.ok.inj h ▸ Value.isNormal_sub v w
  | mul => exact Value.isNormal_mul h
  | pow => exact Value.isNormal_pow h

theorem Expr.isNormal_value {e : Expr} {v : Value} (h : e.value = .ok v) : v.IsNormal := by
  cases e with
  | num _ => exact Except.ok.inj h ▸ trivial
  | var _ => exact Except.ok.inj h ▸ trivial
  | binary op left right =>
      obtain ⟨_, _, -, -, h⟩ := value_binary_eq_ok.mp h
      exact Operator.isNormal_apply h

end PolyCalc
