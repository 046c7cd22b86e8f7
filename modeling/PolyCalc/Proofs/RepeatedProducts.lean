import PolyCalc.Proofs.Merging
import PolyCalc.Proofs.PowerLimits

/-!
# Powers of monomials as products

A power of a monomial is made in one pass that multiplies each exponent and checks it. The same
monomial comes out of multiplying by the monomial again and again, which merges two lists each time
and checks the exponents of each round. Both are refused in the same cases: exponents only grow, so
if one gets too large on the way, it is too large at the end.

What holds after every round is `IsPower`: each name has so many times its exponent. There is one
monomial of which that is true, which makes both the same.
-/

namespace PolyCalc.Monomial

variable {a m r : Monomial} {n : Nat}

/-- One, multiplied by the monomial `n` times. -/
def multiplied (a : Monomial) : Nat → Except Refusal Monomial
  | 0 => .ok one
  | n + 1 => do (← a.multiplied n).mul a

/-- Every name has `n` times its exponent. -/
structure IsPower (a : Monomial) (n : Nat) (m : Monomial) : Prop where
  canonical : m.IsCanonical
  exponent : ∀ x, m.exponent x = a.exponent x * n

theorem mul_largestExponent_le_iff_exponent (ha : a.IsCanonical) {k : Nat} :
    n * a.largestExponent ≤ k ↔ ∀ x, a.exponent x * n ≤ k := by
  rw [mul_largestExponent_le_iff]
  constructor
  · intro h x
    rcases Nat.eq_zero_or_pos (a.exponent x) with hzero | hpos
    · rw [hzero, Nat.zero_mul]
      exact Nat.zero_le k
    · exact h (x, a.exponent x) ((mem_factors_iff_exponent ha).mpr ⟨rfl, hpos⟩)
  · rintro h ⟨x, e⟩ hf
    obtain ⟨rfl, -⟩ := (mem_factors_iff_exponent ha).mp hf
    exact h x

theorem IsSupported.exponent_le (ha : a.IsSupported) (x : String) :
    a.exponent x ≤ maxExponent := by
  have hle := (mul_largestExponent_le_iff_exponent ha.1).mp
    ((Nat.one_mul _).trans_le (largestExponent_le_iff.mpr ha.2)) x
  rwa [Nat.mul_one] at hle

/-! ## One round -/

theorem isPower_one (a : Monomial) : a.IsPower 0 one := ⟨isSupported_one.1, fun _ => rfl⟩

namespace IsPower

theorem unique (h : a.IsPower n m) (h' : a.IsPower n r) : m = r :=
  ext_exponent h.canonical h'.canonical fun x => (h.exponent x).trans (h'.exponent x).symm

theorem mul (ha : a.IsCanonical) (h : a.IsPower n m) (hr : m.mul a = .ok r) :
    a.IsPower (n + 1) r where
  canonical := h.canonical.mul ha hr
  exponent x := by rw [exponent_mul h.canonical ha hr, h.exponent, Nat.mul_succ]

/-- A round is refused if and only if its own power is too large. In the first one nothing is added
up, but there the exponents are those of the monomial. -/
theorem mul_isOk_iff (ha : a.IsSupported) (h : a.IsPower n m) :
    (∃ r, m.mul a = .ok r) ↔ (n + 1) * a.largestExponent ≤ maxExponent := by
  rw [Monomial.mul_isOk_iff h.canonical ha.1, fits_iff_exponent h.canonical ha.1,
    mul_largestExponent_le_iff_exponent ha.1]
  refine forall_congr' fun x => ?_
  rw [h.exponent, Nat.mul_succ]
  by_cases hzero : a.exponent x * n = 0
  · rw [hzero, Nat.zero_add]
    exact iff_of_true (Or.inl rfl) (ha.exponent_le x)
  · rw [or_iff_right hzero, or_iff_right fun h => hzero (by rw [h, Nat.zero_mul])]

end IsPower

/-! ## All rounds -/

theorem isPower_of_multiplied (ha : a.IsCanonical) :
    ∀ {n : Nat} {m : Monomial}, a.multiplied n = .ok m → a.IsPower n m
  | 0, m, h => by
      obtain rfl := Except.ok.inj h
      exact isPower_one a
  | n + 1, r, h => by
      obtain ⟨m, hm, hr⟩ := bind_eq_ok.mp h
      exact (isPower_of_multiplied ha hm).mul ha hr

theorem multiplied_isOk_iff (ha : a.IsSupported) :
    ∀ n : Nat, (∃ m, a.multiplied n = .ok m) ↔ n * a.largestExponent ≤ maxExponent
  | 0 => by
      rw [Nat.zero_mul]
      exact iff_of_true ⟨one, rfl⟩ (Nat.zero_le _)
  | n + 1 => by
      constructor
      · rintro ⟨r, h⟩
        obtain ⟨m, hm, hr⟩ := bind_eq_ok.mp h
        exact ((isPower_of_multiplied ha.1 hm).mul_isOk_iff ha).mp ⟨r, hr⟩
      · intro hle
        have hbefore : n * a.largestExponent ≤ maxExponent :=
          (Nat.mul_le_mul_right _ n.le_succ).trans hle
        obtain ⟨m, hm⟩ := (multiplied_isOk_iff ha n).mpr hbefore
        obtain ⟨r, hr⟩ := ((isPower_of_multiplied ha.1 hm).mul_isOk_iff ha).mpr hle
        exact ⟨r, bind_eq_ok.mpr ⟨m, hm, hr⟩⟩

/-! ## Powers -/

theorem isPower_of_pow (ha : a.IsSupported) (h : a.pow n = .ok m) : a.IsPower n m where
  canonical := (ha.pow h).1
  exponent x := by
    rw [exponent_eq_toFinsupp (ha.pow h).1, exponent_eq_toFinsupp ha.1, toFinsupp_pow h,
      Finsupp.smul_apply, smul_eq_mul, Nat.mul_comm]

theorem pow_isOk_iff : (∃ m, a.pow n = .ok m) ↔ n * a.largestExponent ≤ maxExponent := by
  rw [mul_largestExponent_le_iff]
  refine ⟨?_, exists_pow_eq_ok⟩
  rintro ⟨m, h⟩ f hf
  rcases pow_eq_ok.mp h with ⟨rfl, -⟩ | ⟨-, hle, -⟩
  · exact Nat.zero_le _
  · exact hle f hf

theorem pow_eq_ok_iff_multiplied (ha : a.IsSupported) :
    a.pow n = .ok m ↔ a.multiplied n = .ok m := by
  have hsame : (∃ r, a.pow n = .ok r) ↔ ∃ r, a.multiplied n = .ok r :=
    pow_isOk_iff.trans (multiplied_isOk_iff ha n).symm
  constructor
  · intro h
    obtain ⟨r, hr⟩ := hsame.mp ⟨m, h⟩
    rwa [(isPower_of_pow ha h).unique (isPower_of_multiplied ha.1 hr)]
  · intro h
    obtain ⟨r, hr⟩ := hsame.mpr ⟨m, h⟩
    rwa [(isPower_of_multiplied ha.1 h).unique (isPower_of_pow ha hr)]

/-- **Powers are repeated products.** Raising a monomial within the limit to a power gives what
multiplying one by it as often gives, and that is canonical and within the limit. Both are refused
exactly if the exponent times the largest exponent of the monomial exceeds the limit. -/
theorem pow_agrees_multiplied (ha : a.IsSupported) (n : Nat) :
    (∀ m, a.pow n = .ok m ↔ a.multiplied n = .ok m) ∧
      (∀ m, a.pow n = .ok m → m.IsSupported) ∧
      ((∃ r, a.pow n = .error r) ↔ maxExponent < n * a.largestExponent) ∧
      ((∃ r, a.multiplied n = .error r) ↔ maxExponent < n * a.largestExponent) := by
  refine ⟨fun m => pow_eq_ok_iff_multiplied ha, fun m h => ha.pow h, ?_, ?_⟩
  · rw [exists_eq_error_iff, pow_isOk_iff, not_le]
  · rw [exists_eq_error_iff, multiplied_isOk_iff ha, not_le]

/-- The last power that is within the limit, and the next one. -/
theorem pow_agrees_multiplied_of_pair :
    let a : Monomial := ⟨[("x", 2147483647), ("y", 3)]⟩
    a.IsSupported ∧ a.multiplied 2 = .ok ⟨[("x", 4294967294), ("y", 6)]⟩ ∧
      (∃ r, a.pow 3 = .error r) ∧ ∃ r, a.multiplied 3 = .error r := by
  intro a
  have ha : a.IsSupported := by
    unfold IsSupported IsCanonical
    decide
  obtain ⟨hiff, -⟩ := pow_agrees_multiplied ha 2
  obtain ⟨-, -, hpow, hmultiplied⟩ := pow_agrees_multiplied ha 3
  exact ⟨ha, (hiff _).mp (by rfl), hpow.mpr (by decide), hmultiplied.mpr (by decide)⟩

/-- The names that are refused may differ: a power is refused at its first name, a product at the
first name of the first round that goes too far. -/
example :
    let a : Monomial := ⟨[("x", 1500000000), ("y", 2200000000)]⟩
    a.pow 3 = .error (.exponentTooLarge "x") ∧
      a.multiplied 3 = .error (.exponentTooLarge "y") := ⟨rfl, rfl⟩

end PolyCalc.Monomial
