import PolyCalc.Expr.Leaf
import PolyCalc.Proofs.Closure

/-!
# Integers, exponents, names

Three conditions that evaluation keeps. Coefficients stay integers as long as no leaf is a
double. Factors stay in the order of their names with exponents from one to the limit, whatever
the leaves are: a product is merged, and every exponent that is added or multiplied is checked.
And no operation makes up a name.
-/

namespace PolyCalc

/-! ## Integers -/

/-- The number is an integer and not a double. -/
def Number.IsInt (n : Number) : Prop := ∃ i, n = .int i

theorem Number.isInt_int (i : Int) : (Number.int i).IsInt := ⟨i, rfl⟩

theorem closed_isInt : Closed Number.IsInt fun _ => True where
  zero := ⟨0, rfl⟩
  one := ⟨1, rfl⟩
  add := by rintro _ _ ⟨i, rfl⟩ ⟨j, rfl⟩; exact ⟨i + j, rfl⟩
  sub := by rintro _ _ ⟨i, rfl⟩ ⟨j, rfl⟩; exact ⟨i - j, rfl⟩
  mul := by rintro _ _ ⟨i, rfl⟩ ⟨j, rfl⟩; exact ⟨i * j, rfl⟩
  neg := by rintro _ ⟨i, rfl⟩; exact ⟨-i, rfl⟩
  pow := by
    rintro _ _ c ⟨i, rfl⟩ ⟨j, rfl⟩ h
    obtain ⟨_, k, -, -, rfl⟩ := Number.int_pow_int_eq_ok.mp h
    exact ⟨k, rfl⟩
  unit := trivial
  merge := fun _ _ _ => trivial
  power := fun _ _ => trivial

/-- All coefficients are integers. -/
def Value.IsIntegral (v : Value) : Prop := ∀ t ∈ v.terms, t.coefficient.IsInt

/-- All numeric leaves are integers. -/
def Expr.IsIntegral : Expr → Prop
  | num n => n.IsInt
  | var _ => True
  | binary _ left right => left.IsIntegral ∧ right.IsIntegral

theorem Value.isIntegral_iff_meets {v : Value} :
    v.IsIntegral ↔ v.Meets Number.IsInt fun _ => True :=
  forall₂_congr fun _ _ => (and_iff_left trivial).symm

theorem Value.IsIntegral.toPolynomial {v : Value} (hv : v.IsIntegral) :
    ∀ t ∈ v.toPolynomial.terms, t.coefficient.IsInt :=
  fun t ht => (closed_isInt.toPolynomial (isIntegral_iff_meets.mp hv) t ht).1

theorem Expr.IsIntegral.meets : ∀ {e : Expr}, e.IsIntegral → e.Meets Number.IsInt fun _ => True
  | num _, h => h
  | var _, _ => trivial
  | binary _ _ _, h => ⟨h.1.meets, h.2.meets⟩

theorem Expr.IsIntegral.value {e : Expr} {v : Value} (he : e.IsIntegral)
    (hv : e.value = .ok v) : v.IsIntegral :=
  Value.isIntegral_iff_meets.mpr (closed_isInt.value he.meets hv)

/-! ## Exponents -/

/-- A canonical monomial with exponents within the limit. -/
def Monomial.IsSupported (m : Monomial) : Prop :=
  m.IsCanonical ∧ ∀ f ∈ m.factors, f.2 ≤ Monomial.maxExponent

namespace Monomial

theorem Merges.forall_mem {p : String × Nat → Prop} {as bs cs : List (String × Nat)}
    (h : Merges as bs cs)
    (hadd : ∀ x d e, p (x, d) → p (x, e) → d + e ≤ maxExponent → p (x, d + e))
    (has : ∀ f ∈ as, p f) (hbs : ∀ f ∈ bs, p f) : ∀ f ∈ cs, p f := by
  induction h with
  | leftDone => exact hbs
  | rightDone => exact has
  | left _ _ ih =>
      obtain ⟨ha, has'⟩ := List.forall_mem_cons.mp has
      exact List.forall_mem_cons.mpr ⟨ha, ih has' hbs⟩
  | right _ _ ih =>
      obtain ⟨hb, hbs'⟩ := List.forall_mem_cons.mp hbs
      exact List.forall_mem_cons.mpr ⟨hb, ih has hbs'⟩
  | shared hle _ ih =>
      obtain ⟨ha, has'⟩ := List.forall_mem_cons.mp has
      obtain ⟨hb, hbs'⟩ := List.forall_mem_cons.mp hbs
      exact List.forall_mem_cons.mpr ⟨hadd _ _ _ ha hb hle, ih has' hbs'⟩

/-- A merge of sorted lists is sorted. What comes first in it has the smallest name of both
lists, and every later name stands behind the first one of its own list. -/
theorem Merges.pairwise {as bs cs : List (String × Nat)} (h : Merges as bs cs)
    (has : as.Pairwise fun f g => f.1 < g.1) (hbs : bs.Pairwise fun f g => f.1 < g.1) :
    cs.Pairwise fun f g => f.1 < g.1 := by
  induction h with
  | leftDone => exact hbs
  | rightDone => exact has
  | left hlt rest ih =>
      obtain ⟨ha, has'⟩ := List.pairwise_cons.mp has
      -- the first name is smaller than the first of the other list, hence than all of it
      refine List.pairwise_cons.mpr ⟨rest.forall_mem (fun _ _ _ h _ _ => h) ha ?_, ih has' hbs⟩
      exact List.forall_mem_cons.mpr ⟨hlt, fun f hf =>
        String.lt_trans hlt ((List.pairwise_cons.mp hbs).1 f hf)⟩
  | right hlt rest ih =>
      obtain ⟨hb, hbs'⟩ := List.pairwise_cons.mp hbs
      refine List.pairwise_cons.mpr ⟨rest.forall_mem (fun _ _ _ h _ _ => h) ?_ hb, ih has hbs'⟩
      exact List.forall_mem_cons.mpr ⟨hlt, fun f hf =>
        String.lt_trans hlt ((List.pairwise_cons.mp has).1 f hf)⟩
  | shared _ rest ih =>
      obtain ⟨ha, has'⟩ := List.pairwise_cons.mp has
      obtain ⟨hb, hbs'⟩ := List.pairwise_cons.mp hbs
      exact List.pairwise_cons.mpr
        ⟨rest.forall_mem (fun _ _ _ h _ _ => h) ha hb, ih has' hbs'⟩

theorem isSupported_one : one.IsSupported :=
  ⟨⟨List.Pairwise.nil, by simp [one]⟩, by simp [one]⟩

theorem isSupported_var (x : String) : (var x).IsSupported :=
  ⟨⟨List.pairwise_singleton _ _, by simp [var]⟩, by simp [var, maxExponent]⟩

theorem IsCanonical.mul {a b c : Monomial} (ha : a.IsCanonical) (hb : b.IsCanonical)
    (h : a.mul b = .ok c) : c.IsCanonical := by
  have hmerge := merges_of_mul h
  exact ⟨hmerge.pairwise ha.1 hb.1,
    hmerge.forall_mem (fun _ _ _ hd _ _ => Nat.add_pos_left hd _) ha.2 hb.2⟩

theorem IsSupported.mul {a b c : Monomial} (ha : a.IsSupported) (hb : b.IsSupported)
    (h : a.mul b = .ok c) : c.IsSupported :=
  ⟨ha.1.mul hb.1 h,
    (merges_of_mul h).forall_mem (fun _ _ _ _ _ hle => hle) ha.2 hb.2⟩

theorem IsSupported.pow {m r : Monomial} {n : Nat} (hm : m.IsSupported) (h : m.pow n = .ok r) :
    r.IsSupported := by
  rcases pow_eq_ok.mp h with ⟨-, rfl⟩ | ⟨hn, hle, rfl⟩
  · exact isSupported_one
  · refine ⟨⟨List.pairwise_map.mpr hm.1.1, ?_⟩, ?_⟩
    · intro f hf
      obtain ⟨g, hg, rfl⟩ := List.mem_map.mp hf
      exact Nat.mul_pos (hm.1.2 g hg) (Nat.pos_of_ne_zero hn)
    · intro f hf
      obtain ⟨g, hg, rfl⟩ := List.mem_map.mp hf
      exact hle g hg

end Monomial

/-- No condition on numbers is needed for exponents to stay within the limit. -/
theorem closed_isSupported : Closed (fun _ => True) Monomial.IsSupported where
  zero := trivial
  one := trivial
  add := fun _ _ => trivial
  sub := fun _ _ => trivial
  mul := fun _ _ => trivial
  neg := fun _ => trivial
  pow := fun _ _ _ => trivial
  unit := Monomial.isSupported_one
  merge := Monomial.IsSupported.mul
  power := Monomial.IsSupported.pow

def Value.IsSupported (v : Value) : Prop := ∀ t ∈ v.terms, t.monomial.IsSupported

theorem Expr.meets_isSupported : ∀ e : Expr, e.Meets (fun _ => True) Monomial.IsSupported
  | num _ => trivial
  | var x => Monomial.isSupported_var x
  | binary _ left right => ⟨left.meets_isSupported, right.meets_isSupported⟩

theorem Expr.isSupported_value {e : Expr} {v : Value} (hv : e.value = .ok v) : v.IsSupported :=
  fun t ht => (closed_isSupported.value e.meets_isSupported hv t ht).2

/-! ## Names -/

/-- Every variable is called by a name that can stand in a text. -/
def Monomial.IsNamed (m : Monomial) : Prop := ∀ f ∈ m.factors, Expr.isName f.1 = true

theorem closed_isNamed : Closed (fun _ => True) Monomial.IsNamed where
  zero := trivial
  one := trivial
  add := fun _ _ => trivial
  sub := fun _ _ => trivial
  mul := fun _ _ => trivial
  neg := fun _ => trivial
  pow := fun _ _ _ => trivial
  unit := by simp [Monomial.IsNamed, Monomial.one]
  merge := fun ha hb h => (Monomial.merges_of_mul h).forall_mem (fun _ _ _ hx _ _ => hx) ha hb
  power := by
    intro m r n hm h f hf
    rcases Monomial.pow_eq_ok.mp h with ⟨-, rfl⟩ | ⟨-, -, rfl⟩
    · cases hf
    · obtain ⟨g, hg, rfl⟩ := List.mem_map.mp hf
      exact hm g hg

end PolyCalc
