import Mathlib.Algebra.Order.Field.Power
import Mathlib.Algebra.Order.Field.Rat
import Mathlib.Data.Int.Cast.Lemmas
import PolyCalc.Proofs.Doubles

/-!
# The finite doubles by value

A finite double is a whole multiple of the least positive one. Taken in order from zero on, the
doubles are numbered by their bits, and the magnitude grows with the number (`magnitude_lt_iff`): up
to `2 ^ 53` by one unit at a time, and then by a step that doubles whenever the magnitude has. So the
place of a finite double in the total order says what its value is (`value_eq`).

The total order of doubles is therefore the order of their values, except that the two zeros have
one value and two places (`order_eq_exact`). Two finite doubles are equal if they have the same value
(`beq_iff_value_eq`), and `toInt?` answers with the value where it is an integer
(`toInt?_eq_some_iff`).
-/

namespace PolyCalc.Binary64

open Float.Model
open Float.Model.UnpackedFloat

/-- The exact value of a finite number. -/
def unpackedValue : UnpackedFloat → ℚ
  | .finite s m e _ => (s.apply m : ℤ) * 2 ^ e
  | .zero _ => 0
  | .infinity _ => 0
  | .notANumber => 0

theorem unpackedValue_zero (s : Sign) : unpackedValue (.zero s) = 0 := rfl

theorem unpackedValue_finite {s : Sign} {m : Nat} {e : Int} {hm : 0 < m} :
    unpackedValue (.finite s m e hm) = (s.apply m : ℤ) * 2 ^ e := rfl

/-- The exact value of a finite double. -/
def value (x : Float) : ℚ := unpackedValue x.toModel.unpack

/-! ## Magnitudes -/

/-- How often one is halved until it is the least positive double. -/
def unitBits : Nat := 1074

/-- The least positive double. -/
def unit : ℚ := 2 ^ (-(unitBits : ℤ))

theorem unit_pos : 0 < unit := zpow_pos two_pos _

/-- The magnitude of the `k`-th double from zero on, in units. -/
def magnitude (k : Nat) : Nat :=
  if k < 2 ^ 53 then k else (2 ^ 52 + k % 2 ^ 52) * 2 ^ (k / 2 ^ 52 - 1)

/-- The place at which the infinity stands. -/
def infinityPlace : Nat := 2047 * 2 ^ 52

/-- The place of a significand at an exponent. The significand may just have outgrown its 53 bits:
its place is then that of its half at the next exponent. -/
theorem magnitude_place {m d : Nat} (hm : m ≤ 2 ^ 53) (h : d = 0 ∨ 2 ^ 52 ≤ m) :
    magnitude (d * 2 ^ 52 + m) = m * 2 ^ d := by
  unfold magnitude
  rcases Nat.eq_zero_or_pos d with rfl | hd
  · rw [Nat.zero_mul, Nat.zero_add, Nat.pow_zero, Nat.mul_one]
    split
    · rfl
    · obtain rfl : m = 2 ^ 53 := by omega
      rfl
  · have hlow := h.resolve_left hd.ne'
    rw [if_neg (by omega)]
    rcases hm.lt_or_eq with hlt | rfl
    · have hquot : (d * 2 ^ 52 + m) / 2 ^ 52 - 1 = d := by omega
      have hrem : 2 ^ 52 + (d * 2 ^ 52 + m) % 2 ^ 52 = m := by omega
      rw [hquot, hrem]
    · have hquot : (d * 2 ^ 52 + 2 ^ 53) / 2 ^ 52 - 1 = d + 1 := by omega
      have hrem : 2 ^ 52 + (d * 2 ^ 52 + 2 ^ 53) % 2 ^ 52 = 2 ^ 52 := by omega
      rw [hquot, hrem, Nat.pow_succ' (n := d), ← Nat.mul_assoc, ← Nat.pow_succ]

theorem exists_significand (k : Nat) :
    ∃ m d, k = d * 2 ^ 52 + m ∧ m < 2 ^ 53 ∧ (d = 0 ∨ 2 ^ 52 ≤ m) := by
  refine ⟨k - (k / 2 ^ 52 - 1) * 2 ^ 52, k / 2 ^ 52 - 1, ?_, ?_, ?_⟩ <;> omega

theorem magnitude_lt_succ (k : Nat) : magnitude k < magnitude (k + 1) := by
  obtain ⟨m, d, rfl, hm, hd⟩ := exists_significand k
  rw [Nat.add_assoc, magnitude_place hm.le hd, magnitude_place hm (hd.imp_right (by omega))]
  exact Nat.mul_lt_mul_of_pos_right m.lt_succ_self (Nat.two_pow_pos d)

theorem strictMono_magnitude : StrictMono magnitude :=
  strictMono_nat_of_lt_succ magnitude_lt_succ

theorem magnitude_lt_iff {j k : Nat} : magnitude j < magnitude k ↔ j < k :=
  strictMono_magnitude.lt_iff_lt

/-! ## Places -/

/-- The place in the total order of the `k`-th double from zero on, with the sign. -/
def signedPlace : Sign → Nat → Int
  | .positive, k => k
  | .negative, k => -1 - k

theorem signedPlace_inj {s t : Sign} {j k : Nat} (h : signedPlace s j = signedPlace t k) :
    s = t ∧ j = k := by
  cases s <;> cases t <;> simp only [signedPlace] at h
  · exact ⟨rfl, by omega⟩
  · omega
  · omega
  · exact ⟨rfl, by omega⟩

/-- Further up the value is greater, but for the two zeros. -/
theorem apply_magnitude_of_lt {s t : Sign} {j k : Nat} (h : signedPlace s j < signedPlace t k) :
    s.apply (magnitude j) < t.apply (magnitude k) ∨
      (s = .negative ∧ j = 0) ∧ t = .positive ∧ k = 0 := by
  cases s <;> cases t <;> simp only [signedPlace] at h
  · have hlt := magnitude_lt_iff.mpr (show k < j by omega)
    exact Or.inl (Int.neg_lt_neg (Int.ofNat_lt.mpr hlt))
  · rcases Nat.eq_zero_or_pos (j + k) with hzero | hpos
    · exact Or.inr ⟨⟨rfl, by omega⟩, rfl, by omega⟩
    · have hj := strictMono_magnitude.le_apply (x := j)
      have hk := strictMono_magnitude.le_apply (x := k)
      refine Or.inl ?_
      show -(magnitude j : Int) < magnitude k
      omega
  · omega
  · exact Or.inl (Int.ofNat_lt.mpr (magnitude_lt_iff.mpr (Int.ofNat_lt.mp h)))

theorem toNat_unpackExponent (b : BitVec Format.binary64.numBits) :
    (unpackExponent b).toNat = b.toNat % 2 ^ 63 / 2 ^ 52 := by
  simp only [unpackExponent, BitVec.toNat_cast, BitVec.extractLsb_toNat]
  change b.toNat >>> 52 % 2 ^ 11 = _
  rw [Nat.shiftRight_eq_div_pow]
  omega

theorem toNat_unpackMantissa (b : BitVec Format.binary64.numBits) :
    (unpackMantissa b).toNat = b.toNat % 2 ^ 63 % 2 ^ 52 := by
  simp only [unpackMantissa, BitVec.toNat_cast, BitVec.extractLsb_toNat]
  change b.toNat >>> 0 % 2 ^ 52 = _
  rw [Nat.shiftRight_zero]
  omega

/-- The 64 bits of the double. -/
def word (x : Float) : BitVec Format.binary64.numBits := x.toBits.toBitVec

/-- The number of doubles from zero to the double, whatever its sign. -/
def place (x : Float) : Nat := (word x).toNat % 2 ^ 63

def sign (x : Float) : Sign := Sign.ofBitVec (unpackSign (word x))

theorem sign_eq (x : Float) :
    sign x = if (word x).toNat < 2 ^ 63 then .positive else .negative := by
  have hlt := (word x).isLt
  have hbit : unpackSign (word x) = 0#1 ↔ (word x).toNat < 2 ^ 63 := by
    rw [BitVec.toNat_eq]
    change (word x).toNat >>> 63 % 2 ^ 1 = 0 ↔ _
    change (word x).toNat < 2 ^ 64 at hlt
    rw [Nat.shiftRight_eq_div_pow]
    omega
  simp only [sign, Sign.ofBitVec, hbit]

theorem rank_eq_signedPlace (x : Float) : rank x = signedPlace (sign x) (place x) := by
  have hlt : (word x).toNat < 2 ^ 64 := (word x).isLt
  rw [sign_eq]
  change (if (word x).toNat < 2 ^ 63 then ((word x).toNat : Int) else _ - ((word x).toNat : Int)) = _
  split <;> simp only [signedPlace, place] <;> omega

theorem rank_inj {x y : Float} (h : rank x = rank y) : x = y := by
  have hword : (word x).toNat = (word y).toNat := by
    have hx : (word x).toNat < 2 ^ 64 := (word x).isLt
    have hy : (word y).toNat < 2 ^ 64 := (word y).isLt
    rw [rank_eq_signedPlace, rank_eq_signedPlace] at h
    obtain ⟨hsign, hplace⟩ := signedPlace_inj h
    rw [sign_eq, sign_eq] at hsign
    unfold place at hplace
    split at hsign <;> split at hsign <;> first | omega | cases hsign
  obtain ⟨⟨x, _⟩⟩ := x
  obtain ⟨⟨y, _⟩⟩ := y
  have hbits : x = y := UInt64.toNat_inj.mp hword
  subst hbits
  rfl

/-! ## Values -/

theorem apply_mul (s : Sign) (i j : Int) : s.apply (i * j) = s.apply i * j := by
  cases s
  · exact (Int.neg_mul i j).symm
  · rfl

/-- A significand at an exponent that is given in units. -/
theorem value_significand (s : Sign) (m d : Nat) :
    ((s.apply m : ℤ) : ℚ) * 2 ^ ((d : ℤ) - unitBits) = (s.apply ((m * 2 ^ d : ℕ) : ℤ) : ℤ) * unit := by
  rw [sub_eq_add_neg, zpow_add₀ two_ne_zero, zpow_natCast, ← mul_assoc, Nat.cast_mul, apply_mul,
    Int.cast_mul, Int.cast_natCast, Nat.cast_pow, Nat.cast_ofNat, unit]

section Word

variable {b : BitVec Format.binary64.numBits} {u : UnpackedFloat}

theorem Holds.isFinite_iff (h : Holds b u) :
    u.isFinite = true ↔ b.toNat % 2 ^ 63 < infinityPlace := by
  have hexponent := toNat_unpackExponent b
  cases h with
  | infinity he =>
      have hones : (unpackExponent b).toNat = 2047 := congrArg BitVec.toNat he
      exact iff_of_false nofun (by unfold infinityPlace; omega)
  | notANumber he =>
      have hones : (unpackExponent b).toNat = 2047 := congrArg BitVec.toNat he
      exact iff_of_false nofun (by unfold infinityPlace; omega)
  | zero he =>
      have hzero : (unpackExponent b).toNat = 0 := congrArg BitVec.toNat he
      exact iff_of_true rfl (by unfold infinityPlace; omega)
  | subnormal he =>
      have hzero : (unpackExponent b).toNat = 0 := congrArg BitVec.toNat he
      exact iff_of_true rfl (by unfold infinityPlace; omega)
  | normal _ hhigh => exact iff_of_true rfl (by unfold infinityPlace; omega)

theorem Holds.unpackedValue_eq (h : Holds b u) (hu : u.isFinite = true) : unpackedValue u =
    ((Sign.ofBitVec (unpackSign b)).apply (magnitude (b.toNat % 2 ^ 63) : ℕ) : ℤ) * unit := by
  have hexponent := toNat_unpackExponent b
  have hmantissa := toNat_unpackMantissa b
  cases h with
  | infinity => cases hu
  | notANumber => cases hu
  | zero he hm =>
      have hzero : (unpackExponent b).toNat = 0 := congrArg BitVec.toNat he
      have hzero' : (unpackMantissa b).toNat = 0 := congrArg BitVec.toNat hm
      have hplace : b.toNat % 2 ^ 63 = 0 := by omega
      rw [hplace, unpackedValue_zero]
      cases Sign.ofBitVec (unpackSign b) <;> simp [magnitude, Sign.apply]
  | subnormal he =>
      have hzero : (unpackExponent b).toNat = 0 := congrArg BitVec.toNat he
      have hplace : b.toNat % 2 ^ 63 = 0 * 2 ^ 52 + (unpackMantissa b).toNat := by omega
      rw [hplace, magnitude_place (by omega) (Or.inl rfl)]
      exact value_significand _ _ 0
  | normal hlow hhigh =>
      obtain ⟨d, hd⟩ := Nat.exists_eq_add_of_lt hlow
      have hplace : b.toNat % 2 ^ 63 = d * 2 ^ 52 + (1#1 ++ unpackMantissa b).toNat := by
        rw [toNat_implicit]
        omega
      have hexp : ((unpackExponent b).toNat : Int) - 1075 = d - unitBits := by
        unfold unitBits
        omega
      rw [hplace, magnitude_place _ (Or.inr _), unpackedValue_finite, hexp]
      · exact value_significand _ _ d
      · rw [toNat_implicit]
        omega
      · rw [toNat_implicit]
        omega

end Word

section Floats

variable {x y : Float}

/-- A double is finite if its place lies before that of the infinity. -/
theorem isFinite_iff_place : x.isFinite = true ↔ place x < infinityPlace :=
  (holds_unpack (word x)).isFinite_iff

/-- The place of a finite double gives its value. -/
theorem value_eq (hx : x.isFinite = true) :
    value x = ((sign x).apply (magnitude (place x) : ℕ) : ℤ) * unit :=
  (holds_unpack (word x)).unpackedValue_eq hx

theorem eq_of_place {s : Sign} {k : Nat} (hx : sign x = s ∧ place x = k)
    (hy : sign y = s ∧ place y = k) : x = y := by
  refine rank_inj ?_
  rw [rank_eq_signedPlace, rank_eq_signedPlace, hx.1, hx.2, hy.1, hy.2]

theorem value_zero : value 0.0 = 0 := by
  rfl

theorem value_negative_zero : value (-0.0) = 0 := by
  rfl

/-- The double further up has the greater value, except that the zeros have one value. -/
theorem value_of_rank_lt (hx : x.isFinite = true) (hy : y.isFinite = true)
    (h : rank x < rank y) : value x < value y ∨ x = -0.0 ∧ y = 0.0 := by
  rw [rank_eq_signedPlace, rank_eq_signedPlace] at h
  rcases apply_magnitude_of_lt h with hlt | ⟨hnegative, hpositive⟩
  · rw [value_eq hx, value_eq hy]
    exact Or.inl (mul_lt_mul_of_pos_right (Int.cast_lt.mpr hlt) unit_pos)
  · exact Or.inr ⟨eq_of_place hnegative ⟨by rfl, by rfl⟩, eq_of_place hpositive ⟨by rfl, by rfl⟩⟩

/-- The total order of finite doubles. -/
theorem order_eq_exact (hx : x.isFinite = true) (hy : y.isFinite = true) :
    order x y = (compare (value x) (value y)).then
      (compare (decide (x ≠ -0.0)) (decide (y ≠ -0.0))) := by
  rcases lt_trichotomy (rank x) (rank y) with hlt | heq | hgt
  · rw [order, compare_lt_iff_lt.mpr hlt]
    rcases value_of_rank_lt hx hy hlt with hvalue | ⟨rfl, rfl⟩
    · rw [compare_lt_iff_lt.mpr hvalue, Ordering.lt_then]
    · rw [value_zero, value_negative_zero, compare_eq_iff_eq.mpr rfl]
      rfl
  · obtain rfl := rank_inj heq
    simp only [order, Std.ReflCmp.compare_self, Ordering.then_eq]
  · rw [order, compare_gt_iff_gt.mpr hgt]
    rcases value_of_rank_lt hy hx hgt with hvalue | ⟨rfl, rfl⟩
    · rw [compare_gt_iff_gt.mpr hvalue, Ordering.gt_then]
    · rw [value_zero, value_negative_zero, compare_eq_iff_eq.mpr rfl]
      rfl

/-! ## Equality -/

theorem eq_of_then_eq {e f : Int} {m n : Nat} (h : (compare e f).then (compare m n) = .eq) :
    e = f ∧ m = n := by
  rwa [Ordering.then_eq_eq, compare_eq_iff_eq, compare_eq_iff_eq] at h

theorem unpackedValue_eq_of_compare {u v : UnpackedFloat} (hu : u.isFinite = true)
    (hv : v.isFinite = true) (h : u.compare v = some .eq) : unpackedValue u = unpackedValue v := by
  cases u with
  | infinity => cases hu
  | notANumber => cases hu
  | zero s =>
      cases v with
      | infinity => cases hv
      | notANumber => cases hv
      | zero => rfl
      | finite t => cases t <;> cases h
  | finite s m e =>
      cases v with
      | infinity => cases hv
      | notANumber => cases hv
      | zero => cases s <;> cases h
      | finite t n f =>
          cases s <;> cases t
          · -- both are negative
            obtain ⟨rfl, rfl⟩ := eq_of_then_eq (Ordering.swap_eq_eq.mp (Option.some.inj h))
            rfl
          · cases h
          · cases h
          · obtain ⟨rfl, rfl⟩ := eq_of_then_eq (Option.some.inj h)
            rfl

theorem isNaN_of_isFinite (hx : x.isFinite = true) : x.isNaN = false := by
  change x.toModel.unpack.isFinite = true at hx
  change x.toModel.unpack.isNaN = false
  cases h : x.toModel.unpack with
  | notANumber =>
      rw [h] at hx
      cases hx
  | infinity => rfl
  | zero => rfl
  | finite => rfl

/-- Finite doubles are equal if they have one value. -/
theorem beq_iff_value_eq (hx : x.isFinite = true) (hy : y.isFinite = true) :
    (x == y) = true ↔ value x = value y := by
  refine ⟨fun h => unpackedValue_eq_of_compare hx hy (beq_iff_eq.mp h), fun h => ?_⟩
  rcases lt_trichotomy (rank x) (rank y) with hlt | heq | hgt
  · rcases value_of_rank_lt hx hy hlt with hvalue | ⟨rfl, rfl⟩
    · exact absurd h hvalue.ne
    · decide
  · obtain rfl := rank_inj heq
    exact beq_self (isNaN_of_isFinite hx)
  · rcases value_of_rank_lt hy hx hgt with hvalue | ⟨rfl, rfl⟩
    · exact absurd h hvalue.ne'
    · decide

end Floats

/-! ## Integers among the values -/

theorem scaled?_eq_some_iff {m n : Nat} {e : Int} :
    scaled? m e = some n ↔ (m : ℚ) * 2 ^ e = n := by
  cases e with
  | ofNat e =>
      rw [scaled?, Option.some_inj, Nat.shiftLeft_eq, Int.ofNat_eq_natCast, zpow_natCast]
      exact_mod_cast Iff.rfl
  | negSucc e =>
      have hpos : 0 < 2 ^ (e + 1) := Nat.two_pow_pos _
      have hvalue : (m : ℚ) * 2 ^ Int.negSucc e = n ↔ m = n * 2 ^ (e + 1) := by
        rw [zpow_negSucc, mul_inv_eq_iff_eq_mul₀ (pow_pos two_pos _).ne']
        exact_mod_cast Iff.rfl
      rw [hvalue, scaled?]
      simp only [Nat.shiftLeft_eq, Nat.shiftRight_eq_div_pow, Option.ite_none_right_eq_some,
        Option.some_inj]
      constructor
      · rintro ⟨hdvd, rfl⟩
        exact hdvd.symm
      · rintro rfl
        rw [Nat.mul_div_cancel _ hpos]
        exact ⟨rfl, rfl⟩

theorem abs_apply_mul_zpow (s : Sign) (m : Nat) (e : Int) :
    |((s.apply m : ℤ) : ℚ) * 2 ^ e| = m * 2 ^ e := by
  have habs : |((s.apply m : ℤ) : ℚ)| = m := by
    cases s <;> simp [Sign.apply]
  rw [abs_mul, habs, abs_of_pos (zpow_pos two_pos e)]

theorem cast_apply_of_eq {s : Sign} {m n : Nat} {e : Int} (h : (m : ℚ) * 2 ^ e = n) :
    ((s.apply m : ℤ) : ℚ) * 2 ^ e = (s.apply n : ℤ) := by
  cases s <;> simp [Sign.apply, h]

/-- `toInt?` finds the value if it is an integer. -/
theorem toInt?_eq_some_iff {x : Float} (hx : x.isFinite = true) {i : Int} :
    toInt? x = some i ↔ value x = i := by
  change x.toModel.unpack.isFinite = true at hx
  unfold toInt? value
  cases hu : x.toModel.unpack with
  | notANumber =>
      rw [hu] at hx
      cases hx
  | infinity =>
      rw [hu] at hx
      cases hx
  | zero =>
      rw [Option.some_inj, unpackedValue_zero]
      exact_mod_cast Iff.rfl
  | finite s m e =>
      rw [unpackedValue_finite]
      dsimp only
      cases hn : scaled? m e with
      | some n =>
          change some (s.apply (n : ℤ)) = some i ↔ _
          rw [Option.some_inj, cast_apply_of_eq (scaled?_eq_some_iff.mp hn),
            Int.cast_inj]
      | none =>
          refine iff_of_false (Option.some_ne_none i).symm fun h => ?_
          have habs : (m : ℚ) * 2 ^ e = i.natAbs := by
            rw [← abs_apply_mul_zpow s, h, Nat.cast_natAbs, Int.cast_abs]
          rw [scaled?_eq_some_iff.mpr habs] at hn
          cases hn

end PolyCalc.Binary64
