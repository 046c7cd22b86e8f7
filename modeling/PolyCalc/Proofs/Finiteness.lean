import PolyCalc.Proofs.Doubles
import PolyCalc.Proofs.RoundTrip

/-!
# Where doubles overflow

Every literal is finite, and a power is refused unless it is. But sums, differences and products of
numbers are not checked: they can exceed the largest double, and an integer that is too large to be
a double becomes an infinity as soon as it meets one. So there are values with coefficients that are
not finite (`calculate_not_isFinite`), and their text is read back as a variable.

That is the only way. Which numbers are added, subtracted and multiplied is said operation by
operation (`Operator.Computes`) and collected over a tree (`Expr.Computes`). If none of these steps
leads from finite numbers to one that is not, every coefficient is finite (`calculate_isFinite`).
-/

namespace PolyCalc

/-! ## Finite numbers -/

/-- Steps of arithmetic: two numbers and what is made of them. -/
abbrev Steps := Number → Number → Number → Prop

/-- No step leads from finite numbers to one that is not finite. -/
def Steps.StayFinite (steps : Steps) : Prop :=
  ∀ ⦃a b c⦄, steps a b c → a.isFinite = true → b.isFinite = true → c.isFinite = true

def Term.IsFinite (t : Term) : Prop := t.coefficient.isFinite = true

/-- Every coefficient is an integer or a finite double. -/
def Value.IsFinite (v : Value) : Prop := ∀ t ∈ v.terms, t.IsFinite

namespace Number

theorem isFinite_neg {c : Number} (h : c.isFinite = true) : (-c).isFinite = true := by
  cases c with
  | int i => rfl
  | float x => exact Binary64.isFinite_neg h

/-- Powers of doubles are checked. -/
theorem isFinite_of_pow {b e c : Number} (h : b.pow e = .ok c) : c.isFinite = true := by
  obtain ⟨n, -, h⟩ := bind_eq_ok.mp h
  split at h
  · obtain ⟨k, -, h⟩ := bind_eq_ok.mp h
    obtain rfl := pure_eq_ok.mp h
    rfl
  · obtain ⟨x, hx, h⟩ := bind_eq_ok.mp h
    obtain rfl := pure_eq_ok.mp h
    simp only [powFloat] at hx
    split at hx
    · next hfinite =>
        obtain rfl := Except.ok.inj hx
        exact hfinite
    · cases hx

/-! ## Sums -/

/-- The additions that add up numbers from left to right, beginning with some sum. -/
inductive Additions : (sum : Number) → List Number → Steps
  | here (sum c : Number) (cs : List Number) : Additions sum (c :: cs) sum c (sum + c)
  | later {sum c : Number} {cs : List Number} {a b d : Number}
      (h : Additions (sum + c) cs a b d) : Additions sum (c :: cs) a b d

theorem isFinite_foldl {cs : List Number} {sum : Number}
    (h : Steps.StayFinite (Additions sum cs)) (hsum : sum.isFinite = true)
    (hcs : ∀ c ∈ cs, c.isFinite = true) :
    (cs.foldl (fun sum c => sum + c) sum).isFinite = true := by
  induction cs generalizing sum with
  | nil => exact hsum
  | cons c cs ih =>
      obtain ⟨hc, hcs'⟩ := List.forall_mem_cons.mp hcs
      exact ih (fun _ _ _ hstep => h (.later hstep)) (h (.here sum c cs) hsum hc) hcs'

end Number

namespace Polynomial

/-- The additions that merge like terms. -/
def LikeAdditions (ts : List Term) : Steps := fun a b c =>
  ∃ m d ds, coefficientsAt m ts = d :: ds ∧ Number.Additions d ds a b c

theorem isFinite_ofTerms {ts : List Term} (h : Steps.StayFinite (LikeAdditions ts))
    (hts : ∀ t ∈ ts, t.IsFinite) : ∀ t ∈ (ofTerms ts).terms, t.IsFinite := by
  intro t ht
  have hfrom : ∀ c ∈ coefficientsAt t.monomial ts, c.isFinite = true := by
    intro c hc
    obtain ⟨u, hu, -, rfl⟩ := exists_mem_of_mem_coefficientsAt hc
    exact hts u hu
  obtain ⟨c, cs, hcs, hsum⟩ := coefficientsAt_of_mem_ofTerms ht
  rw [hcs] at hfrom
  obtain ⟨hc, hcs'⟩ := List.forall_mem_cons.mp hfrom
  rw [Term.IsFinite, ← hsum]
  exact Number.isFinite_foldl (fun _ _ _ hstep => h ⟨_, c, cs, hcs, hstep⟩) hc hcs'

theorem isFinite_ofTerm {t : Term} (ht : t.IsFinite) : ∀ u ∈ (ofTerm t).terms, u.IsFinite := by
  intro u hu
  rw [terms_ofTerm] at hu
  split at hu
  · cases hu
  · obtain rfl := List.mem_singleton.mp hu
    exact ht

end Polynomial

namespace Value

/-! ## Sums and differences of values -/

/-- The steps of a sum. -/
inductive AddComputes (v w : Value) : Steps
  | like {s t : Term} (hv : v = .term s) (hw : w = .term t) (hm : s.monomial = t.monomial) :
      AddComputes v w s.coefficient t.coefficient (s.coefficient + t.coefficient)
  | merge {a b c : Number} (hmerge : v.add w = .poly (.ofTerms (v.terms ++ w.terms)))
      (h : Polynomial.LikeAdditions (v.terms ++ w.terms) a b c) : AddComputes v w a b c

/-- The steps of a difference. Where terms are merged, those on the right are negated first. -/
inductive SubComputes (v w : Value) : Steps
  | like {s t : Term} (hv : v = .term s) (hw : w = .term t) (hm : s.monomial = t.monomial) :
      SubComputes v w s.coefficient t.coefficient (s.coefficient - t.coefficient)
  | merge {a b c : Number}
      (hmerge : v.sub w = .poly (.ofTerms (v.terms ++ w.terms.map Term.neg)))
      (h : Polynomial.LikeAdditions (v.terms ++ w.terms.map Term.neg) a b c) :
      SubComputes v w a b c

theorem isFinite_term {t : Term} : (term t).IsFinite ↔ t.IsFinite := List.forall_mem_singleton

theorem IsFinite.toPolynomial {v : Value} (hv : v.IsFinite) :
    ∀ t ∈ v.toPolynomial.terms, t.IsFinite :=
  fun t ht => hv t (mem_terms_of_mem_toPolynomial ht)

theorem isFinite_add {v w : Value} (h : Steps.StayFinite (v.AddComputes w)) (hv : v.IsFinite)
    (hw : w.IsFinite) : (v.add w).IsFinite := by
  rcases add_cases v w with ⟨s, t, hs, ht, hm, heq⟩ | heq
  · have hstep := h (.like hs ht hm)
    rw [heq, isFinite_term]
    subst hs ht
    exact hstep (isFinite_term.mp hv) (isFinite_term.mp hw)
  · have hmerge := heq
    rw [heq]
    exact Polynomial.isFinite_ofTerms (fun _ _ _ hstep => h (.merge hmerge hstep))
      fun t ht => (List.mem_append.mp ht).elim (hv t) (hw t)

theorem isFinite_sub {v w : Value} (h : Steps.StayFinite (v.SubComputes w)) (hv : v.IsFinite)
    (hw : w.IsFinite) : (v.sub w).IsFinite := by
  rcases sub_cases v w with ⟨s, t, hs, ht, hm, heq⟩ | heq
  · have hstep := h (.like hs ht hm)
    rw [heq, isFinite_term]
    subst hs ht
    exact hstep (isFinite_term.mp hv) (isFinite_term.mp hw)
  · have hmerge := heq
    rw [heq]
    refine Polynomial.isFinite_ofTerms (fun _ _ _ hstep => h (.merge hmerge hstep)) fun t ht => ?_
    rcases List.mem_append.mp ht with ht | ht
    · exact hv t ht
    · obtain ⟨u, hu, rfl⟩ := List.mem_map.mp ht
      exact Number.isFinite_neg (hw u hu)

end Value

/-! ## Products -/

namespace Polynomial

/-- The steps of distributing a polynomial over a value: the products of coefficients, and the
additions in which the products are collected. -/
inductive MulComputes (p : Polynomial) (v : Value) : Steps
  | product {s t : Term} (hs : s ∈ p.terms) (ht : t ∈ v.terms) :
      MulComputes p v s.coefficient t.coefficient (s.coefficient * t.coefficient)
  | constants {us : List Term} {a b c : Number} (hus : products p.terms v.terms = .ok us)
      (hconstant : us.all Term.isConstant = true)
      (h : Number.Additions .zero (us.map Term.coefficient) a b c) : MulComputes p v a b c
  | merge {us : List Term} {a b c : Number} (hus : products p.terms v.terms = .ok us)
      (hvariable : us.all Term.isConstant = false) (h : LikeAdditions us a b c) :
      MulComputes p v a b c

theorem isFinite_mul {p : Polynomial} {v w : Value} (h : Steps.StayFinite (p.MulComputes v))
    (hp : ∀ t ∈ p.terms, t.IsFinite) (hv : v.IsFinite) (hw : p.mul v = .ok w) : w.IsFinite := by
  obtain ⟨us, hus, rfl⟩ := mul_eq_ok.mp hw
  have hproducts : ∀ u ∈ us, u.IsFinite := by
    intro u hu
    obtain ⟨s, hs, t, ht, hmul⟩ := mem_products hus hu
    obtain ⟨m, -, rfl⟩ := Term.mul_eq_ok.mp hmul
    exact h (.product hs ht) (hp s hs) (hv t ht)
  unfold collectProducts
  split
  · next hconstant =>
      refine Value.isFinite_term.mpr ?_
      rw [Term.constant, Term.IsFinite, ← List.foldl_map]
      refine Number.isFinite_foldl (fun _ _ _ hstep => h (.constants hus hconstant hstep)) rfl ?_
      exact List.forall_mem_map.mpr hproducts
  · next hvariable =>
      have hvariable := Bool.eq_false_iff.mpr hvariable
      exact isFinite_ofTerms (fun _ _ _ hstep => h (.merge hus hvariable hstep)) hproducts

/-- The steps of an expansion, round by round. -/
def ExpandComputes (p : Polynomial) : Nat → Value → Steps
  | 0, _, _, _, _ => False
  | n + 1, v, a, b, c => v.toPolynomial.MulComputes (.poly p) a b c ∨
      ∃ u, v.toPolynomial.mul (.poly p) = .ok u ∧ p.ExpandComputes n u a b c

theorem isFinite_expand {p : Polynomial} (hp : ∀ t ∈ p.terms, t.IsFinite) :
    ∀ {n : Nat} {v w : Value}, Steps.StayFinite (p.ExpandComputes n v) → v.IsFinite →
      p.expand n v = .ok w → w.IsFinite
  | 0, v, w, _, hv, hw => by
      obtain rfl := Except.ok.inj hw
      exact hv
  | n + 1, v, w, h, hv, hw => by
      obtain ⟨u, hu, hw⟩ := bind_eq_ok.mp hw
      have hround := isFinite_mul (fun _ _ _ hstep => h (Or.inl hstep)) hv.toPolynomial hp hu
      exact isFinite_expand hp (fun _ _ _ hstep => h (Or.inr ⟨u, hu, hstep⟩)) hround hw

end Polynomial

namespace Value

/-- The steps of a product. A term on the left of a polynomial takes part as it is normalised. -/
def MulComputes : Value → Value → Steps
  | .term s, .term t, a, b, c =>
      s.coefficient = a ∧ t.coefficient = b ∧ s.coefficient * t.coefficient = c
  | .poly p, w, a, b, c => p.MulComputes w a b c
  | .term s, .poly q, a, b, c => (Polynomial.ofTerm s).MulComputes (.poly q) a b c

theorem isFinite_mul {v w u : Value} (h : Steps.StayFinite (v.MulComputes w)) (hv : v.IsFinite)
    (hw : w.IsFinite) (hu : v.mul w = .ok u) : u.IsFinite := by
  cases v with
  | poly p => exact Polynomial.isFinite_mul h hv hw hu
  | term s =>
      cases w with
      | poly q => exact Polynomial.isFinite_mul h hv.toPolynomial hw hu
      | term t =>
          obtain ⟨x, hx, rfl⟩ := map_eq_ok.mp hu
          obtain ⟨m, -, rfl⟩ := Term.mul_eq_ok.mp hx
          exact isFinite_term.mpr (h ⟨rfl, rfl, rfl⟩ (isFinite_term.mp hv) (isFinite_term.mp hw))

end Value

/-! ## Powers and operators -/

namespace Operator

/-- The steps of an operator. A power computes in steps only if it is expanded; the closed form of
a single term is checked as a whole. -/
inductive Computes : Operator → Value → Value → Steps
  | add {v w : Value} {a b c : Number} (h : v.AddComputes w a b c) : Computes .add v w a b c
  | sub {v w : Value} {a b c : Number} (h : v.SubComputes w a b c) : Computes .sub v w a b c
  | mul {v w : Value} {a b c : Number} (h : v.MulComputes w a b c) : Computes .mul v w a b c
  | expand {p : Polynomial} {w : Value} {e i : Number} {n : Nat} {a b c : Number}
      (he : w.constant? = some e) (hn : e.toExponent = .ok n) (hi : Number.one.pow e = .ok i)
      (hmany : 2 ≤ p.terms.length) (hle : n ≤ maxExpansionPower)
      (h : p.ExpandComputes n (.term (.constant i)) a b c) : Computes .pow (.poly p) w a b c

end Operator

theorem Term.isFinite_of_pow {t u : Term} {e : Number} (h : t.pow e = .ok u) : u.IsFinite := by
  obtain ⟨_, _, _, -, hc, -, rfl⟩ := pow_eq_ok.mp h
  exact Number.isFinite_of_pow hc

theorem Value.isFinite_pow {v w u : Value} (h : Steps.StayFinite (Operator.pow.Computes v w))
    (hv : v.IsFinite) (hu : v.pow w = .ok u) : u.IsFinite := by
  obtain ⟨e, he, ⟨t, x, -, hx, rfl⟩ | ⟨p, rfl, hp⟩⟩ := pow_cases hu
  · exact isFinite_term.mpr (Term.isFinite_of_pow hx)
  · obtain ⟨n, i, hn, hi, hcases⟩ := Polynomial.pow_cases hp
    have hidentity : (term (.constant i)).IsFinite :=
      isFinite_term.mpr (Number.isFinite_of_pow hi)
    rcases hcases with ⟨-, rfl⟩ | ⟨t, x, -, hx, rfl | rfl⟩ | ⟨hmany, hle, hu⟩
    · split
      · exact hidentity
      · exact isFinite_term.mpr rfl
    · exact isFinite_term.mpr (Term.isFinite_of_pow hx)
    · exact Polynomial.isFinite_ofTerm (Term.isFinite_of_pow hx)
    · exact Polynomial.isFinite_expand hv
        (fun _ _ _ hstep => h (.expand he hn hi hmany hle hstep)) hidentity hu

theorem Operator.isFinite_apply {op : Operator} {v w u : Value}
    (h : Steps.StayFinite (op.Computes v w)) (hv : v.IsFinite) (hw : w.IsFinite)
    (hu : op.apply v w = .ok u) : u.IsFinite := by
  cases op with
  | add =>
      obtain rfl := Except.ok.inj hu
      exact Value.isFinite_add (fun _ _ _ hstep => h (.add hstep)) hv hw
  | sub =>
      obtain rfl := Except.ok.inj hu
      exact Value.isFinite_sub (fun _ _ _ hstep => h (.sub hstep)) hv hw
  | mul => exact Value.isFinite_mul (fun _ _ _ hstep => h (.mul hstep)) hv hw hu
  | pow => exact Value.isFinite_pow h hv hu

/-! ## Trees and texts -/

namespace Expr

/-- The steps of a tree: those of its operators, at the values of their operands. -/
inductive Computes : Expr → Steps
  | left {op : Operator} {left right : Expr} {a b c : Number} (h : left.Computes a b c) :
      Computes (.binary op left right) a b c
  | right {op : Operator} {left right : Expr} {a b c : Number} (h : right.Computes a b c) :
      Computes (.binary op left right) a b c
  | here {op : Operator} {left right : Expr} {v w : Value} {a b c : Number}
      (hv : left.value = .ok v) (hw : right.value = .ok w) (h : op.Computes v w a b c) :
      Computes (.binary op left right) a b c

theorem isFinite_value : ∀ {e : Expr} {v : Value}, Steps.StayFinite e.Computes →
    e.Meets (fun n => n.isFinite = true) (fun _ => True) → e.value = .ok v → v.IsFinite
  | .num n, v, _, he, hv => by
      obtain rfl := Except.ok.inj hv
      exact Value.isFinite_term.mpr he
  | .var x, v, _, _, hv => by
      obtain rfl := Except.ok.inj hv
      exact Value.isFinite_term.mpr rfl
  | .binary op left right, v, h, he, hv => by
      obtain ⟨a, b, ha, hb, hv⟩ := value_binary_eq_ok.mp hv
      have hleft := isFinite_value (fun _ _ _ hstep => h (.left hstep)) he.1 ha
      have hright := isFinite_value (fun _ _ _ hstep => h (.right hstep)) he.2 hb
      exact Operator.isFinite_apply (fun _ _ _ hstep => h (.here ha hb hstep)) hleft hright hv

theorem isFinite_of_ofNumber {n : Number} {e : Expr} (h : ofNumber n = .ok e) :
    n.isFinite = true := by
  unfold ofNumber at h
  split at h
  · next hfinite => exact hfinite
  · cases h

end Expr

theorem Value.IsIntegral.isFinite {v : Value} (hv : v.IsIntegral) : v.IsFinite := by
  intro t ht
  obtain ⟨i, hi⟩ := hv t ht
  rw [Term.IsFinite, hi]
  rfl

/-- **Finite coefficients.** Numbers that are read, numeric leaves and powers are finite. A text
without doubles has a value with finite coefficients, and so has any other text if none of the
sums, differences and products on the way leads from finite numbers to one that is not. -/
theorem calculate_isFinite (text : String) :
    (∀ tokens, Token.ofText text = .ok tokens →
      ∀ n, .number n ∈ tokens.map PlacedToken.token → n.isFinite = true) ∧
    (∀ n e, Expr.ofNumber n = .ok e → n.isFinite = true) ∧
    (∀ b e c : Number, b.pow e = .ok c → c.isFinite = true) ∧
    ∀ e v, Expr.ofText text = .ok e → calculate text = .ok v →
      HasIntegerLiterals text ∨ Steps.StayFinite e.Computes → v.IsFinite := by
  refine ⟨fun _ h n => Token.isFinite_of_mem_ofText h, fun _ _ => Expr.isFinite_of_ofNumber,
    fun _ _ _ => Number.isFinite_of_pow, fun e v he hv h => ?_⟩
  rcases h with hintegers | hsteps
  · exact (calculate_isPlain hintegers hv).integral.isFinite
  · obtain ⟨e', he', hvalue⟩ := calculate_eq_ok.mp hv
    obtain rfl := Except.ok.inj (he.symm.trans he')
    have hleaves : e.Meets (fun n => n.isFinite = true) (fun _ => True) :=
      Expr.meets_of_ofText (P := fun n => n.isFinite = true) rfl Number.isFinite_neg he
        (fun _ htokens _ => Token.isFinite_of_mem_ofText htokens) fun _ _ => trivial
    exact Expr.isFinite_value hsteps hleaves hvalue

/-- The steps for `1.5*x+2.5*x` are two products by one and the sum of the coefficients. -/
theorem calculate_isFinite_of_sum :
    let e := Expr.binary .add (.binary .mul (.num (.float 1.5)) (.var "x"))
      (.binary .mul (.num (.float 2.5)) (.var "x"))
    let v := Value.term ⟨.float 4.0, .var "x"⟩
    Expr.ofText "1.5*x+2.5*x" = .ok e ∧ Steps.StayFinite e.Computes ∧
      calculate "1.5*x+2.5*x" = .ok v ∧ v.IsFinite := by
  intro e v
  have he : Expr.ofText "1.5*x+2.5*x" = .ok e := by decide +kernel
  have hv : calculate "1.5*x+2.5*x" = .ok v := by decide +kernel
  have hproduct : ∀ {x : Float} {a b c : Number}, (Number.float x * .one).isFinite = true →
      (Expr.binary .mul (.num (.float x)) (.var "x")).Computes a b c → c.isFinite = true := by
    intro x a b c hfinite h
    cases h with
    | left h => cases h
    | right h => cases h
    | here hl hr h =>
        obtain rfl := Except.ok.inj hl
        obtain rfl := Except.ok.inj hr
        cases h with
        | mul h =>
            obtain ⟨-, -, rfl⟩ := h
            exact hfinite
  have hsteps : Steps.StayFinite e.Computes := by
    intro a b c h _ _
    change Expr.Computes (.binary .add _ _) a b c at h
    cases h with
    | left h => exact hproduct (by decide +kernel) h
    | right h => exact hproduct (by decide +kernel) h
    | here hl hr h =>
        have hleft : (Expr.binary .mul (.num (.float 1.5)) (.var "x")).value =
            .ok (.term ⟨.float 1.5, .var "x"⟩) := by decide +kernel
        have hright : (Expr.binary .mul (.num (.float 2.5)) (.var "x")).value =
            .ok (.term ⟨.float 2.5, .var "x"⟩) := by decide +kernel
        obtain rfl := Except.ok.inj (hleft.symm.trans hl)
        obtain rfl := Except.ok.inj (hright.symm.trans hr)
        cases h with
        | add h =>
            cases h with
            | like hs ht _ =>
                obtain rfl := Value.term.inj hs
                obtain rfl := Value.term.inj ht
                decide +kernel
            | merge hmerge _ => cases hmerge
  exact ⟨he, hsteps, hv, (calculate_isFinite _).2.2.2 e v he hv (Or.inr hsteps)⟩

/-- An integer that is too large for a double is infinite as soon as a double is added to it. The
text of that value is a name, and it is read as a variable. -/
theorem calculate_not_isFinite :
    let v := Value.term ⟨.float Binary64.posInfinity, .one⟩
    calculate "2^1024+0.5" = .ok v ∧ ¬ v.IsFinite ∧ v.toText = "inf" ∧
      calculate "inf" = .ok (.var "inf") := by
  intro v
  have hinfinite : Binary64.posInfinity.isFinite = false := by decide +kernel
  refine ⟨by decide +kernel, fun h => ?_, by decide +kernel, by decide +kernel⟩
  exact Bool.false_ne_true (hinfinite.symm.trans (Value.isFinite_term.mp h))

end PolyCalc
