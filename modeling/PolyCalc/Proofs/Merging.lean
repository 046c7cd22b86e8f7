import PolyCalc.Proofs.Arithmetic
import PolyCalc.Proofs.Collecting
import PolyCalc.Proofs.Exponents

/-!
# Merging factors

A product of monomials is merged from two sorted lists of factors, without sorting or looking
anything up. For canonical monomials it does what adding exponents name by name would do:

- **Where there is a product**, it gives every name the sum of both exponents (`exponent_mul`). So
  it is the monomial that is collected from the factors of both, as long as these are exponents that
  a factor can hold (`IsStorable`): collecting stops at the largest one, merging never gets there.
- **Where there is none**, the name that is refused is the smallest one whose exponents add up to
  too much (`StopsAt.isLeast`), because merging goes through the names in their order.

Both descriptions are symmetric in the two monomials, and whether three monomials can be multiplied
is symmetric in all three (`mul_mul_isOk_iff`): it depends on the exponents of each name alone.
-/

namespace PolyCalc.Monomial

variable {a b c m : Monomial}

/-- Every exponent is one that a factor can hold. -/
def IsStorable (m : Monomial) : Prop := ∀ f ∈ m.factors, f.2 ≤ maxStoredExponent

/-! ## Products that are there -/

theorem exponent_mul (ha : a.IsCanonical) (hb : b.IsCanonical) (h : a.mul b = .ok m) (x : String) :
    m.exponent x = a.exponent x + b.exponent x := by
  have hsum : m.toFinsupp = a.toFinsupp + b.toFinsupp := (merges_of_mul h).toFinsupp
  rw [exponent_eq_toFinsupp (ha.mul hb h), exponent_eq_toFinsupp ha, exponent_eq_toFinsupp hb, hsum,
    Finsupp.add_apply]

theorem fits_iff_exponent (ha : a.IsCanonical) (hb : b.IsCanonical) :
    a.Fits b ↔ ∀ x, a.exponent x = 0 ∨ b.exponent x = 0 ∨
      a.exponent x + b.exponent x ≤ maxExponent := by
  simp only [Fits, mem_factors_iff_exponent ha, mem_factors_iff_exponent hb]
  constructor
  · intro h x
    by_cases hx : a.exponent x = 0
    · exact Or.inl hx
    by_cases hx' : b.exponent x = 0
    · exact Or.inr (Or.inl hx')
    · exact Or.inr (Or.inr (h x _ _ ⟨rfl, Nat.pos_of_ne_zero hx⟩ ⟨rfl, Nat.pos_of_ne_zero hx'⟩))
  · rintro h x _ _ ⟨rfl, hd⟩ ⟨rfl, he⟩
    have hx := h x
    omega

theorem IsStorable.exponent_le (hm : m.IsStorable) (hc : m.IsCanonical) (x : String) :
    m.exponent x ≤ maxStoredExponent := by
  by_cases hx : m.exponent x = 0
  · rw [hx]
    exact Nat.zero_le _
  · exact hm _ ((mem_factors_iff_exponent hc).mpr ⟨rfl, Nat.pos_of_ne_zero hx⟩)

/-- Merging two lists of factors is collecting one list from both. -/
theorem eq_ofPairs_of_mul (ha : a.IsCanonical) (hb : b.IsCanonical) (has : a.IsStorable)
    (hbs : b.IsStorable) (h : a.mul b = .ok m) : m = ofPairs (a.factors ++ b.factors) := by
  refine ext_exponent (ha.mul hb h) (isCanonical_ofPairs _) fun x => ?_
  have hfits := (fits_iff_exponent ha hb).mp ((mul_isOk_iff ha hb).mp ⟨m, h⟩) x
  have hax := has.exponent_le ha x
  have hbx := hbs.exponent_le hb x
  have hlimit : maxExponent ≤ maxStoredExponent := by decide
  rw [exponent_ofPairs, toFinsupp_append, Finsupp.add_apply, ← exponent_eq_toFinsupp ha,
    ← exponent_eq_toFinsupp hb, exponent_mul ha hb h]
  -- a sum of two exponents fits, and an exponent by itself can be held
  omega

/-! ## Products that are refused -/

theorem Overflow.symm {x : String} {as bs : List (String × Nat)} (h : Overflow x as bs) :
    Overflow x bs as := by
  obtain ⟨d, e, hd, he, hlt⟩ := h
  exact ⟨e, d, he, hd, Nat.add_comm d e ▸ hlt⟩

theorem exists_overflow_iff : (∃ x, Overflow x a.factors b.factors) ↔ ¬ a.Fits b := by
  simp only [Overflow, Fits, not_forall, Nat.not_le, exists_prop]

/-- Names before the one that stops the merge have been passed, so their exponents fit. -/
theorem StopsAt.isLeast {x : String} {as bs : List (String × Nat)} (h : StopsAt x as bs)
    (has : as.Pairwise fun f g => f.1 < g.1) (hbs : bs.Pairwise fun f g => f.1 < g.1) :
    IsLeast {y | Overflow y as bs} x := by
  refine ⟨h.overflow, ?_⟩
  rintro y ⟨d, e, hd, he, hlt⟩
  induction h with
  | here as bs _ =>
      rcases List.mem_cons.mp hd with heq | hd
      · exact (Prod.mk.inj heq).1.ge
      · exact ((List.pairwise_cons.mp has).1 _ hd).le
  | left hltFirst _ ih => exact ih has.of_cons hbs (mem_tail_of_lt hltFirst hbs hd he) he
  | right hltFirst _ ih => exact ih has hbs.of_cons hd (mem_tail_of_lt hltFirst has he hd)
  | shared hle _ ih =>
      rcases heads_or_tails has hbs hd he with ⟨rfl, rfl⟩ | ⟨hd, he⟩
      · exact absurd hle (Nat.not_le_of_lt hlt)
      · exact ih has.of_cons hbs.of_cons hd he

theorem isLeast_of_mul_eq_error {r : Refusal} (ha : a.IsCanonical) (hb : b.IsCanonical)
    (h : a.mul b = .error r) :
    ∃ x, r = .exponentTooLarge x ∧ IsLeast {y | Overflow y a.factors b.factors} x := by
  obtain ⟨x, hr, hx⟩ := stopsAt_of_mul h
  exact ⟨x, hr, hx.isLeast ha.1 hb.1⟩

theorem mul_isRefused_iff (ha : a.IsCanonical) (hb : b.IsCanonical) :
    (∃ r, a.mul b = .error r) ↔ ∃ x, Overflow x a.factors b.factors := by
  rw [exists_eq_error_iff, mul_isOk_iff ha hb, exists_overflow_iff]

/-! ## Laws -/

protected theorem mul_one (a : Monomial) : a.mul one = .ok a := by
  obtain ⟨as⟩ := a
  cases as <;> rfl

protected theorem mul_comm (ha : a.IsCanonical) (hb : b.IsCanonical) : a.mul b = b.mul a := by
  cases h : a.mul b with
  | ok m =>
      obtain ⟨m', h'⟩ := (mul_isOk_iff hb ha).mpr ((mul_isOk_iff ha hb).mp ⟨m, h⟩).symm
      rw [h']
      refine congrArg Except.ok (ext_exponent (ha.mul hb h) (hb.mul ha h') fun x => ?_)
      rw [exponent_mul ha hb h, exponent_mul hb ha h', Nat.add_comm]
  | error r =>
      obtain ⟨x, rfl, hx⟩ := isLeast_of_mul_eq_error ha hb h
      obtain ⟨r', h'⟩ := (mul_isRefused_iff hb ha).mpr ⟨x, hx.1.symm⟩
      obtain ⟨x', rfl, hx'⟩ := isLeast_of_mul_eq_error hb ha h'
      have hset : {y | Overflow y b.factors a.factors} = {y | Overflow y a.factors b.factors} :=
        Set.ext fun y => ⟨Overflow.symm, Overflow.symm⟩
      rw [hset] at hx'
      rw [h', hx.unique hx']

/-- Three exponents of one name can be added one after the other. A sum is only checked where two
exponents that are not zero meet, so a single one beyond the limit goes through. -/
def FitsThree (d e f : Nat) : Prop :=
  (d = 0 ∨ e = 0 ∨ d + e ≤ maxExponent) ∧ (d + e = 0 ∨ f = 0 ∨ d + e + f ≤ maxExponent)

theorem fitsThree_rotate (d e f : Nat) : FitsThree d e f ↔ FitsThree e f d := by
  unfold FitsThree
  omega

theorem mul_mul_isOk_iff (ha : a.IsCanonical) (hb : b.IsCanonical) (hc : c.IsCanonical) :
    (∃ m, (do (← a.mul b).mul c) = Except.ok m) ↔
      ∀ x, FitsThree (a.exponent x) (b.exponent x) (c.exponent x) := by
  simp only [FitsThree, forall_and, ← fits_iff_exponent ha hb]
  constructor
  · rintro ⟨m, hm⟩
    obtain ⟨ab, hab, hm⟩ := bind_eq_ok.mp hm
    have hfits := (mul_isOk_iff (ha.mul hb hab) hc).mp ⟨m, hm⟩
    simp only [fits_iff_exponent (ha.mul hb hab) hc, exponent_mul ha hb hab] at hfits
    exact ⟨(mul_isOk_iff ha hb).mp ⟨ab, hab⟩, hfits⟩
  · rintro ⟨hfits, hfits'⟩
    obtain ⟨ab, hab⟩ := (mul_isOk_iff ha hb).mpr hfits
    simp only [← exponent_mul ha hb hab, ← fits_iff_exponent (ha.mul hb hab) hc] at hfits'
    obtain ⟨m, hm⟩ := (mul_isOk_iff (ha.mul hb hab) hc).mpr hfits'
    exact ⟨m, bind_eq_ok.mpr ⟨ab, hab, hm⟩⟩

theorem exponent_mul_mul (ha : a.IsCanonical) (hb : b.IsCanonical) (hc : c.IsCanonical)
    (h : (do (← a.mul b).mul c) = Except.ok m) :
    m.IsCanonical ∧ ∀ x, m.exponent x = a.exponent x + b.exponent x + c.exponent x := by
  obtain ⟨ab, hab, hm⟩ := bind_eq_ok.mp h
  have habc := ha.mul hb hab
  refine ⟨habc.mul hc hm, fun x => ?_⟩
  rw [exponent_mul habc hc hm, exponent_mul ha hb hab]

/-- Multiplying on the left by a product is multiplying on the right by its factors, in turn. -/
theorem mul_bind_comm (ha : a.IsCanonical) (hb : b.IsCanonical) (hc : c.IsCanonical) :
    (do a.mul (← b.mul c)) = (do (← b.mul c).mul a) := by
  cases h : b.mul c with
  | error r => rfl
  | ok bc => exact Monomial.mul_comm ha (hb.mul hc h)

theorem mul_assoc_cases (ha : a.IsCanonical) (hb : b.IsCanonical) (hc : c.IsCanonical) :
    ((∃ r, (do (← a.mul b).mul c) = Except.error r) ∧
        ∃ r, (do a.mul (← b.mul c)) = Except.error r) ∨
      ∃ m, (do (← a.mul b).mul c) = Except.ok m ∧ (do a.mul (← b.mul c)) = Except.ok m := by
  have hsame : (∃ m, (do (← a.mul b).mul c) = Except.ok m) ↔
      ∃ m, (do (← b.mul c).mul a) = Except.ok m := by
    rw [mul_mul_isOk_iff ha hb hc, mul_mul_isOk_iff hb hc ha]
    exact forall_congr' fun x => fitsThree_rotate _ _ _
  rw [mul_bind_comm ha hb hc, exists_eq_error_iff, exists_eq_error_iff, ← hsame, and_self]
  refine (em _).symm.imp_right fun hok => ?_
  obtain ⟨m, hm⟩ := hok
  obtain ⟨m', hm'⟩ := hsame.mp ⟨m, hm⟩
  obtain ⟨hcanonical, hsum⟩ := exponent_mul_mul ha hb hc hm
  obtain ⟨hcanonical', hsum'⟩ := exponent_mul_mul hb hc ha hm'
  obtain rfl : m = m' := ext_exponent hcanonical hcanonical' fun x => by
    rw [hsum, hsum']
    omega
  exact ⟨m, hm, hm'⟩

/-- **Merging adds exponents.** Canonical monomials have a product unless the exponents of some name
that occurs in both add up to more than the limit, and then the smallest such name is refused. A
product is canonical, gives every name the sum of both exponents, and is what the factors of both
collect to, as far as factors can hold them. So products commute, refusals included, have the
constant monomial as their unit, and associate: both ways are refused or both come to the same
monomial. -/
theorem mul_agrees (ha : a.IsCanonical) (hb : b.IsCanonical) :
    ((∃ r, a.mul b = .error r) ↔ ∃ x, Overflow x a.factors b.factors) ∧
      (∀ r, a.mul b = .error r →
        ∃ x, r = .exponentTooLarge x ∧ IsLeast {y | Overflow y a.factors b.factors} x) ∧
      ((¬ ∃ x, Overflow x a.factors b.factors) → ∃ m, a.mul b = .ok m ∧ m.IsCanonical ∧
        (a.IsStorable → b.IsStorable → m = ofPairs (a.factors ++ b.factors)) ∧
        ∀ x, m.exponent x = a.exponent x + b.exponent x) ∧
      a.mul b = b.mul a ∧ a.mul one = .ok a ∧ one.mul a = .ok a ∧
      ∀ c : Monomial, c.IsCanonical →
        ((∃ r, (do (← a.mul b).mul c) = Except.error r) ∧
            ∃ r, (do a.mul (← b.mul c)) = Except.error r) ∨
          ∃ m, (do (← a.mul b).mul c) = Except.ok m ∧ (do a.mul (← b.mul c)) = Except.ok m := by
  refine ⟨mul_isRefused_iff ha hb, fun r => isLeast_of_mul_eq_error ha hb, fun hno => ?_,
    Monomial.mul_comm ha hb, Monomial.mul_one a, rfl, fun c hc => mul_assoc_cases ha hb hc⟩
  rw [exists_overflow_iff, not_not, ← mul_isOk_iff ha hb] at hno
  obtain ⟨m, hm⟩ := hno
  exact ⟨m, hm, ha.mul hb hm, fun has hbs => eq_ofPairs_of_mul ha hb has hbs hm,
    exponent_mul ha hb hm⟩

/-- Two names have exponents that add up to too much. From either side the smaller one is refused,
and not the one with the larger sum. -/
theorem mul_agrees_of_overflow :
    let a : Monomial := ⟨[("x", 4294967295), ("y", 2), ("z", 9)]⟩
    let b : Monomial := ⟨[("x", 1), ("z", 4294967295)]⟩
    a.IsCanonical ∧ b.IsCanonical ∧ a.mul b = .error (.exponentTooLarge "x") ∧
      IsLeast {y | Overflow y a.factors b.factors} "x" ∧
      b.mul a = .error (.exponentTooLarge "x") := by
  intro a b
  have ha : a.IsCanonical := by
    unfold IsCanonical
    decide
  have hb : b.IsCanonical := by
    unfold IsCanonical
    decide
  have hrefused : a.mul b = .error (.exponentTooLarge "x") := by rfl
  obtain ⟨-, hleast, -, hcomm, -⟩ := mul_agrees ha hb
  obtain ⟨x, heq, hx⟩ := hleast _ hrefused
  obtain rfl := Refusal.exponentTooLarge.inj heq
  exact ⟨ha, hb, hrefused, hx, hcomm ▸ hrefused⟩

end PolyCalc.Monomial
