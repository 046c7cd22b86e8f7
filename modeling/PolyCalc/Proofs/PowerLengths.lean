import PolyCalc.Proofs.FirstPower
import PolyCalc.Proofs.PowerLimits

/-!
# The length of an integer power

Whether an integer power is too long is decided before it is computed, from the length of the base
times the exponent. That product bounds the length of the power from above, so no power over the
limit is ever computed. It is no more than a bound: each factor but the first may add one bit less
than the base has, and in powers of two it does. With the base two that is half of what is counted,
so a refused power may be half as long as the limit, but no shorter (`Number.int_pow_natCast_spec`).
-/

namespace PolyCalc

namespace Number

theorem lt_bits_iff {i : Int} {k : Nat} : k < bits i ↔ 2 ^ k ≤ i.natAbs := by
  rw [← not_le, bits_le_iff, not_lt]

theorem two_le_bits_iff {i : Int} : 2 ≤ bits i ↔ 1 < i.natAbs := by
  rw [Nat.succ_le_iff, lt_bits_iff, pow_one]
  exact Iff.rfl

/-- Every factor adds all bits of the base but one. -/
theorem mul_lt_bits_pow {i : Int} (hi : i ≠ 0) (n : Nat) : (bits i - 1) * n < bits (i ^ n) := by
  have hpos : 0 < bits i := by
    rw [lt_bits_iff, pow_zero]
    exact Int.natAbs_pos.mpr hi
  rw [lt_bits_iff, Int.natAbs_pow, pow_mul]
  exact Nat.pow_le_pow_left (lt_bits_iff.mp (Nat.sub_lt hpos Nat.one_pos)) n

/-- The product of length and exponent is less than twice the length of the power. -/
theorem bits_mul_lt_two_mul_bits_pow {i : Int} (hi : 1 < i.natAbs) (n : Nat) :
    bits i * n + 1 < 2 * bits (i ^ n) := by
  have hlower : (bits i - 1) * n < bits (i ^ n) := mul_lt_bits_pow (by omega) n
  have hlength : bits i ≤ 2 * (bits i - 1) := by
    have := two_le_bits_iff.mpr hi
    omega
  calc bits i * n + 1 ≤ 2 * (bits i - 1) * n + 1 :=
        Nat.add_le_add_right (Nat.mul_le_mul_right n hlength) 1
    _ = 2 * ((bits i - 1) * n) + 1 := by rw [Nat.mul_assoc]
    _ < 2 * bits (i ^ n) := by omega

theorem int_pow_natCast {i : Int} {n : ℕ} (hn : n ≤ Monomial.maxExponent) :
    (int i).pow (int n) = if 1 < i.natAbs ∧ maxPowerBits < bits i * n then
      .error (.powerTooLarge i n) else .ok (int (i ^ n)) := by
  have hexponent : (int n).toExponent = .ok n := toExponent_natCast.mpr ⟨rfl, hn⟩
  split
  · next hlong =>
      have hpower : powInt i n = .error (.powerTooLarge i n) := if_pos hlong
      exact bind_eq_error.mpr (Or.inr ⟨n, hexponent, bind_eq_error.mpr (Or.inl hpower)⟩)
  · next hshort =>
      refine int_pow_natCast_eq_ok.mpr ⟨hn, fun hlong => ?_, rfl⟩
      exact Nat.le_of_not_lt fun hbits => hshort ⟨hlong, hbits⟩

theorem int_pow_natCast_isRefused_iff {i : Int} {n : ℕ} (hn : n ≤ Monomial.maxExponent) :
    (int i).pow (int n) = .error (.powerTooLarge i n) ↔
      1 < i.natAbs ∧ maxPowerBits < bits i * n := by
  rw [int_pow_natCast hn]
  split
  · next hlong => exact iff_of_true rfl hlong
  · next hshort => exact iff_of_false (by rintro ⟨⟩) hshort

theorem two_mul_bits_pow_of_isRefused {i : Int} {n : ℕ} (hn : n ≤ Monomial.maxExponent)
    (h : (int i).pow (int n) = .error (.powerTooLarge i n)) :
    maxPowerBits + 2 < 2 * bits (i ^ n) := by
  obtain ⟨hlong, hbits⟩ := (int_pow_natCast_isRefused_iff hn).mp h
  have := bits_mul_lt_two_mul_bits_pow hlong n
  omega

/-- **Which integer powers are refused.** Those of bases other than zero, one and minus one for
which the length of the base times the exponent exceeds the limit, and the refusal names the power.
Every other power is exact. No power over the limit is computed. A power within the limit need not
be computed either, unless it has no more than one bit over half the limit. -/
theorem int_pow_natCast_spec (i : Int) {n : ℕ} (hn : n ≤ Monomial.maxExponent) :
    ((int i).pow (int n) = .ok (int (i ^ n)) ∨
        (int i).pow (int n) = .error (.powerTooLarge i n)) ∧
      ((int i).pow (int n) = .error (.powerTooLarge i n) ↔
        1 < i.natAbs ∧ maxPowerBits < bits i * n) ∧
      (maxPowerBits < bits (i ^ n) → (int i).pow (int n) = .error (.powerTooLarge i n)) ∧
      (bits (i ^ n) ≤ maxPowerBits / 2 + 1 → (int i).pow (int n) = .ok (int (i ^ n))) := by
  have heither : (int i).pow (int n) = .ok (int (i ^ n)) ∨
      (int i).pow (int n) = .error (.powerTooLarge i n) := by
    rw [int_pow_natCast hn]
    split
    · exact Or.inr rfl
    · exact Or.inl rfl
  refine ⟨heither, int_pow_natCast_isRefused_iff hn, fun hlong => ?_, fun hshort => ?_⟩
  · refine heither.resolve_left fun hok => ?_
    have := bits_pow_le_maxPowerBits (int_pow_natCast_eq_ok.mp hok).2.1
    omega
  · refine heither.resolve_right fun hrefused => ?_
    have := two_mul_bits_pow_of_isRefused hn hrefused
    omega

/-- Powers of two at both ends. -/
theorem int_pow_natCast_spec_two :
    (int 2).pow (int (524288 : ℕ)) = .ok (int (2 ^ 524288)) ∧
      (int 2).pow (int (1048576 : ℕ)) = .error (.powerTooLarge 2 1048576) := by
  obtain ⟨-, -, -, hcomputed⟩ :=
    int_pow_natCast_spec 2 (by decide : 524288 ≤ Monomial.maxExponent)
  obtain ⟨-, -, hrefused, -⟩ :=
    int_pow_natCast_spec 2 (by decide : 1048576 ≤ Monomial.maxExponent)
  rw [bits_two_pow] at hcomputed hrefused
  exact ⟨hcomputed (by decide), hrefused (by decide)⟩

/-- A power of two that is refused with one bit more than half of what the limit allows. -/
theorem two_pow_isRefused_within_limit :
    ((int 2).pow (int (524289 : ℕ)) = .error (.powerTooLarge 2 524289) ∧
        bits (2 ^ 524289) = maxPowerBits / 2 + 2) ∧
      ¬ ∀ (i : Int) (n : ℕ), n ≤ Monomial.maxExponent →
        ((∃ r, (int i).pow (int n) = .error r) ↔ maxPowerBits < bits (i ^ n)) := by
  have hrefused : (int 2).pow (int (524289 : ℕ)) = .error (.powerTooLarge 2 524289) :=
    (int_pow_natCast_isRefused_iff (by decide)).mpr (by decide)
  have hbits : bits (2 ^ 524289) = maxPowerBits / 2 + 2 := bits_two_pow 524289
  refine ⟨⟨hrefused, hbits⟩, fun hall => ?_⟩
  have hlong := (hall 2 524289 (by decide)).mp ⟨_, hrefused⟩
  rw [hbits] at hlong
  exact absurd hlong (by decide)

end Number

end PolyCalc
