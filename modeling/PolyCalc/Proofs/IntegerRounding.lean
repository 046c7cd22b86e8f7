import Mathlib.Data.Nat.Log
import PolyCalc.Proofs.DoubleOrder

/-!
# Integers rounded to doubles

An integer is first cut down to its leading 64 bits, the last of which may mark that something was
cut off, and then rounded to 53. The mark stands below the bits that are kept (`condensed_div`), and
an integer that is a double leaves none (`leavesMark_eq_false`). So the mark may decide which way a
number is rounded, and it may be missing where it should not, but the result is always one of the two
doubles next to the integer.

This is what an order needs to know (`ofInt_faithful`): no finite double lies strictly between an
integer and what it is rounded to, and an integer that is a double is rounded to that double. Integers
up to `2 ^ 53` are doubles (`value_ofInt_of_natAbs_le`).

Places in the total order carry the argument. A significand and its exponent make up the place of
a double, and a significand that is rounded up by one has the next place, also where it carries into
the exponent or on to the infinity (`exists_rank_of_round`).
-/

namespace PolyCalc.Binary64

open Float.Model
open Float.Model.UnpackedFloat

/-! ## The place of what was packed -/

section Packed

variable {x : Float} {s : Sign}

theorem toNat_packComponents (s : Sign) (e : BitVec Format.binary64.exponentBits)
    (m : BitVec Format.binary64.mantissaBitsWithoutImplicit) :
    (packComponents .binary64 s e m).toNat =
      s.toBitVec.toNat * 2 ^ 63 + (e.toNat * 2 ^ 52 + m.toNat) := by
  have he : e.toNat < 2 ^ 11 := e.isLt
  have hm : m.toNat < 2 ^ 52 := m.isLt
  rw [packComponents]
  change ((s.toBitVec ++ e) ++ m).toNat = _
  rw [BitVec.toNat_append, BitVec.toNat_append, ← Nat.shiftLeft_add_eq_or_of_lt hm,
    ← Nat.shiftLeft_add_eq_or_of_lt he, Nat.shiftLeft_eq, Nat.shiftLeft_eq]
  omega

theorem rank_of_components {e : BitVec Format.binary64.exponentBits}
    {m : BitVec Format.binary64.mantissaBitsWithoutImplicit}
    (h : word x = packComponents .binary64 s e m) :
    rank x = signedPlace s (e.toNat * 2 ^ 52 + m.toNat) := by
  have he : e.toNat < 2 ^ 11 := e.isLt
  have hm : m.toNat < 2 ^ 52 := m.isLt
  rw [rank_eq_signedPlace, sign_eq, place, h, toNat_packComponents]
  cases s with
  | positive =>
      rw [show Sign.positive.toBitVec.toNat = 0 from rfl, Nat.zero_mul, Nat.zero_add,
        if_pos (by omega), Nat.mod_eq_of_lt (by omega)]
  | negative =>
      rw [show Sign.negative.toBitVec.toNat = 1 from rfl, Nat.one_mul, if_neg (by omega),
        Nat.add_mod_left, Nat.mod_eq_of_lt (by omega)]

theorem pack_overflow {m : Nat} {e : Int} {hm : 0 < m} (he : e = 972) :
    UnpackedFloat.pack .binary64 (.finite s m e hm) = packComponents .binary64 s (-1#_) 0#_ := by
  subst he
  rw [pack_finite, if_pos (by decide)]

/-- A significand of 53 bits is packed under the exponent that makes up its place with it. The least
one at the exponent that is too large is packed as the infinity. -/
theorem rank_of_pack {m d : Nat} {e : Int} {hm : 0 < m} (hlow : 2 ^ 52 ≤ m) (hhigh : m < 2 ^ 53)
    (he : e = d - 1074) (hd : d ≤ 2045 ∨ d = 2046 ∧ m = 2 ^ 52)
    (h : word x = UnpackedFloat.pack .binary64 (.finite s m e hm)) :
    rank x = signedPlace s (d * 2 ^ 52 + m) := by
  rcases hd with hd | ⟨rfl, rfl⟩
  · have hlog : m.log2 = 52 := (Nat.log2_eq_iff hm.ne').mpr ⟨hlow, hhigh⟩
    have hbiased : e = ((d + 1 : ℕ) : ℤ) - 1075 := by omega
    rw [pack_normal hlog (by omega) hbiased] at h
    refine (rank_of_components h).trans (congrArg (signedPlace s) ?_)
    rw [BitVec.toNat_ofNat, BitVec.toNat_ofNat, show Format.binary64.exponentBits = 11 from rfl,
      show Format.binary64.mantissaBitsWithoutImplicit = 52 from rfl]
    omega
  · rw [pack_overflow (by omega)] at h
    exact (rank_of_components h).trans (congrArg (signedPlace s) rfl)

end Packed

/-! ## Rounding -/

theorem mantissa_repeat_shiftRightOne (em : ExtendedMantissa) (n : Nat) :
    (n.repeat ExtendedMantissa.shiftRightOne em).mantissa = em.mantissa / 2 ^ n := by
  induction n with
  | zero => rw [Nat.repeat, Nat.pow_zero, Nat.div_one]
  | succ n ih =>
      rw [Nat.repeat, ExtendedMantissa.shiftRightOne, ih, Nat.div_div_eq_div_mul, Nat.pow_succ]

theorem roundedMantissa_cases (em : ExtendedMantissa) :
    em.roundedMantissa = em.mantissa ∨ em.roundedMantissa = em.mantissa + 1 := by
  obtain ⟨m, r, t⟩ := em
  cases r <;> cases t
  · exact Or.inl rfl
  · exact Or.inl rfl
  · show m + m % 2 = m ∨ m + m % 2 = m + 1
    omega
  · exact Or.inr rfl

/-- What remains of a number when its last `k` bits are rounded off: one of the two neighbours, and
the number itself if nothing was cut off. -/
def RoundsOff (k m q : Nat) : Prop :=
  q = m / 2 ^ k ∨ q = m / 2 ^ k + 1 ∧ ¬ 2 ^ k ∣ m

theorem roundsOff_repeat_shiftRightOne (m k : Nat) :
    RoundsOff k m (k.repeat ExtendedMantissa.shiftRightOne ⟨m, false, false⟩).roundedMantissa := by
  have hcases := roundedMantissa_cases (k.repeat ExtendedMantissa.shiftRightOne ⟨m, false, false⟩)
  rw [mantissa_repeat_shiftRightOne] at hcases
  refine hcases.imp_right fun hup => ⟨hup, ?_⟩
  rintro ⟨n, rfl⟩
  rw [Nat.mul_comm, repeat_shiftRightOne, Nat.mul_div_cancel _ (Nat.two_pow_pos k)] at hup
  exact absurd hup (Nat.ne_of_lt n.lt_succ_self)

theorem shiftToTargetExponent_eq {m k : Nat} {e : Int} (hlog : m.log2 = 52 + k)
    (he : -1074 ≤ e + k) : shiftToTargetExponent .binary64 m e .exact =
      (k.repeat ExtendedMantissa.shiftRightOne ⟨m, false, false⟩, e + k) := by
  have htarget : Format.binary64.targetExponent (totalExponent m e) = e + k := by
    rw [totalExponent, hlog, targetExponent_of_le] <;> omega
  have hamount : (e + k - e).toNat = k := by omega
  rw [shiftToTargetExponent, htarget, shiftToExponent, hamount]
  rfl

/-- The place of a number of at least 53 bits after rounding. If the rounding carries into a new bit,
the place is that of the next exponent, and the infinity follows the last finite double. -/
theorem exists_rank_of_round {x : Float} {s : Sign} {m k d : Nat} {e : Int}
    (hlog : m.log2 = 52 + k) (he : e + k = d - 1074) (hd : d ≤ 2045)
    (h : word x = UnpackedFloat.pack .binary64 (roundWithAccuracy .binary64 s m e .exact)) :
    ∃ q, RoundsOff k m q ∧ rank x = signedPlace s (d * 2 ^ 52 + q) := by
  have hne : m ≠ 0 := by
    rintro rfl
    exact absurd hlog (by rw [Nat.log2_zero]; omega)
  obtain ⟨hle, hlt⟩ := (Nat.log2_eq_iff hne).mp hlog
  have hlow : 2 ^ 52 ≤ m / 2 ^ k := by
    rwa [Nat.le_div_iff_mul_le (Nat.two_pow_pos k), ← Nat.pow_add]
  have hhigh : m / 2 ^ k < 2 ^ 53 := by
    rw [Nat.add_right_comm] at hlt
    rwa [Nat.div_lt_iff_lt_mul (Nat.two_pow_pos k), ← Nat.pow_add]
  have hfirst := shiftToTargetExponent_eq (e := e) hlog (by omega)
  have hrounds := roundsOff_repeat_shiftRightOne m k
  generalize k.repeat ExtendedMantissa.shiftRightOne ⟨m, false, false⟩ = em at hfirst hrounds
  refine ⟨_, hrounds, ?_⟩
  have hq : 2 ^ 52 ≤ em.roundedMantissa ∧ em.roundedMantissa ≤ 2 ^ 53 := by
    rcases hrounds with hq | ⟨hq, -⟩ <;> omega
  rcases hq.2.lt_or_eq with hlt | hcarry
  · have hlog' : em.roundedMantissa.log2 = 52 + 0 :=
      (Nat.log2_eq_iff (by omega)).mpr ⟨hq.1, hlt⟩
    have hsecond := shiftToTargetExponent_eq hlog' (e := e + k) (by omega)
    rw [roundWithAccuracy_eq (Nat.lt_of_lt_of_le (Nat.two_pow_pos 52) hq.1) hfirst hsecond] at h
    exact rank_of_pack hq.1 hlt (by omega) (Or.inl hd) h
  · have hsecond : shiftToTargetExponent .binary64 em.roundedMantissa (e + k) .exact =
        (⟨2 ^ 52, false, false⟩, e + k + (1 : ℕ)) := by
      rw [hcarry, shiftToTargetExponent_eq (k := 1) (by rw [Nat.log2_two_pow]) (by omega)]
      rfl
    rw [roundWithAccuracy_eq (Nat.two_pow_pos 52) hfirst hsecond] at h
    have hrank := rank_of_pack (d := d + 1) le_rfl (by decide) (by omega) (by omega) h
    exact hrank.trans (congrArg (signedPlace s) (by omega))

/-! ## Natural numbers -/

theorem roundsOff_mul {k m q : Nat} (j : Nat) :
    RoundsOff (k + j) (m * 2 ^ j) q ↔ RoundsOff k m q := by
  have hpos := Nat.two_pow_pos j
  rw [RoundsOff, RoundsOff, Nat.pow_add, Nat.mul_div_mul_right _ _ hpos,
    Nat.mul_dvd_mul_iff_right hpos]

theorem ofNat_of_lt {n : Nat} (h : n < 2 ^ 53) : Float.ofNat n = n.toUInt64.toFloat := by
  show Float.ofScientific n false 0 = _
  rw [Float.ofScientific, dif_pos ⟨h, Nat.zero_le _⟩]
  exact mul_one _

theorem ofNat_of_le {n : Nat} (h : 2 ^ 53 ≤ n) :
    word (Float.ofNat n) = UnpackedFloat.pack .binary64
      (roundWithAccuracy .binary64 .positive (n * 2 ^ 53) (-53) .exact) := by
  show word (Float.ofScientific n false 0) = _
  rw [Float.ofScientific, dif_neg (by omega)]
  show UnpackedFloat.pack .binary64 (UnpackedFloat.ofScientific .binary64 n 0) = _
  have hlow : ¬ (0 : Int) < -(2 ^ Format.binary64.exponentBits + n.log2) := by
    change ¬ (0 : Int) < -(2048 + n.log2)
    omega
  have hone : n <<< Format.binary64.mantissaBits * 10 ^ (0 : Int).toNat = n * 2 ^ 53 := by
    rw [Int.toNat_zero, Nat.pow_zero, Nat.mul_one, Nat.shiftLeft_eq]
    rfl
  rw [UnpackedFloat.ofScientific, dif_neg (by omega), if_neg (by decide), if_neg hlow,
    if_pos le_rfl, finite_mul_finite, hone]
  rfl

theorem word_toFloat {n : Nat} (hn : n ≠ 0) (h : n < 2 ^ 53) :
    word n.toUInt64.toFloat = UnpackedFloat.pack .binary64
      (roundWithAccuracy .binary64 .positive (n * 2 ^ (52 - n.log2)) (n.log2 - 52) .exact) := by
  have hlog : n.log2 < 53 := (Nat.log2_lt hn).mpr h
  have htoNat : n.toUInt64.toNat = n := Nat.mod_eq_of_lt (h.trans (by decide))
  have htarget : Format.binary64.targetExponent (totalExponent n 0) = n.log2 - 52 := by
    rw [totalExponent, targetExponent_of_le] <;> omega
  have hamount : (0 - ((n.log2 : Int) - 52)).toNat = 52 - n.log2 := by omega
  show UnpackedFloat.pack .binary64 (UnpackedFloat.ofNat .binary64 n.toUInt64.toNat) = _
  rw [htoNat, UnpackedFloat.ofNat, UnpackedFloat.ofInt, UnpackedFloat.normalize,
    compare_gt_iff_gt.mpr (by omega)]
  simp only [UnpackedFloat.round, Int.toNat_natCast, htarget, decreaseExponent, hamount,
    Nat.shiftLeft_eq]
  rw [show (0 : Int) - (52 - n.log2 : ℕ) = n.log2 - 52 by omega]

/-- The double that a natural number rounds to, as a significand of 53 bits at an exponent. -/
theorem exists_rank_ofNat {n : Nat} (hn : n ≠ 0) (hlog : n.log2 < 1024) :
    ∃ q, RoundsOff n.log2 (n * 2 ^ 52) q ∧
      rank (Float.ofNat n) = ((n.log2 + 1022) * 2 ^ 52 + q : ℕ) := by
  rcases Nat.lt_or_ge n (2 ^ 53) with hlt | hge
  · have hlog' : n.log2 < 53 := (Nat.log2_lt hn).mpr hlt
    obtain ⟨q, hq, hrank⟩ := exists_rank_of_round (k := 0) (d := n.log2 + 1022)
      (by rw [log2_mul_two_pow hn]; omega) (by omega) (by omega) (word_toFloat hn hlt)
    refine ⟨q, ?_, (congrArg rank (ofNat_of_lt hlt)).trans hrank⟩
    rw [← roundsOff_mul n.log2, Nat.mul_assoc, ← Nat.pow_add, Nat.zero_add,
      Nat.sub_add_cancel (by omega)] at hq
    exact hq
  · obtain ⟨q, hq, hrank⟩ := exists_rank_of_round (k := n.log2 + 1) (d := n.log2 + 1022)
      (by rw [log2_mul_two_pow hn]; omega) (by omega) (by omega) (ofNat_of_le hge)
    rw [show n * 2 ^ 53 = n * 2 ^ 52 * 2 ^ 1 by omega] at hq
    exact ⟨q, (roundsOff_mul 1).mp hq, hrank⟩

/-! ## Leading bits -/

theorem log2_eq_of_div {a b k : Nat} (h : a / 2 ^ k = b / 2 ^ k) (hb : 2 ^ k ≤ b) :
    a.log2 = b.log2 := by
  have hpos := Nat.two_pow_pos k
  have hle : 1 ≤ b / 2 ^ k := (Nat.le_div_iff_mul_le hpos).mpr (by rwa [Nat.one_mul])
  have ha : 2 ^ k ≤ a := by
    rw [← h, Nat.le_div_iff_mul_le hpos, Nat.one_mul] at hle
    exact hle
  have hlog := congrArg (Nat.log 2) h
  rw [Nat.log_div_base_pow, Nat.log_div_base_pow, ← Nat.log2_eq_log_two, ← Nat.log2_eq_log_two]
    at hlog
  have hka := (Nat.le_log2 (by omega)).mpr ha
  have hkb := (Nat.le_log2 (by omega)).mpr hb
  omega

theorem condensed_of_lt {n : Nat} (h : n.log2 < 64) : condensed n = n :=
  if_pos h

/-- The mark stands below the bits that a double keeps. -/
theorem condensed_div {n : Nat} (h : 64 ≤ n.log2) :
    condensed n / 2 ^ (n.log2 - 52) = n / 2 ^ (n.log2 - 52) := by
  have hsplit : n.log2 - 52 = n.log2 - 63 + 11 := by omega
  have hmark : ∀ a : Nat, (a ||| 1) >>> 11 = a >>> 11 := fun a => by
    rw [Nat.shiftRight_or_distrib]
    exact Nat.or_zero _
  simp only [← Nat.shiftRight_eq_div_pow, condensed]
  rw [if_neg (by omega), hsplit, Nat.shiftRight_add, Nat.shiftRight_add, Nat.shiftLeft_shiftRight]
  split
  · rw [hmark]
  · rfl

theorem log2_condensed (n : Nat) : (condensed n).log2 = n.log2 := by
  rcases Nat.lt_or_ge n.log2 64 with hlt | hge
  · rw [condensed_of_lt hlt]
  · have hn : n ≠ 0 := by
      rintro rfl
      exact absurd hge (by decide)
    refine log2_eq_of_div (condensed_div hge) ?_
    exact (Nat.pow_le_pow_right two_pos (Nat.sub_le _ _)).trans (Nat.log2_self_le hn)

theorem condensed_ne_zero {n : Nat} (hn : n ≠ 0) : condensed n ≠ 0 := by
  rcases Nat.lt_or_ge n.log2 64 with hlt | hge
  · rwa [condensed_of_lt hlt]
  · intro hzero
    have hlog := log2_condensed n
    rw [hzero, Nat.log2_zero] at hlog
    omega

/-- A number that a double holds leaves no mark. -/
theorem leavesMark_eq_false {n : Nat} (h : 2 ^ (n.log2 - 52) ∣ n) : leavesMark n = false := by
  rw [leavesMark, List.any_eq_false]
  intro i hi
  rw [List.mem_range] at hi
  have hends : 64 * i + topBits n ≤ n.log2 - 52 := by
    unfold topBits
    omega
  have hdvd : 2 ^ (64 * i) * 2 ^ topBits n ∣ n := by
    rw [← Nat.pow_add]
    exact (Nat.pow_dvd_pow 2 hends).trans h
  rw [Nat.shiftRight_eq_div_pow, Nat.shiftLeft_eq, Nat.one_mul,
    Nat.mod_eq_zero_of_dvd (Nat.dvd_div_of_mul_dvd hdvd)]
  decide

theorem condensed_eq_self {n : Nat} (h : 2 ^ (n.log2 - 52) ∣ n) : condensed n = n := by
  rcases Nat.lt_or_ge n.log2 64 with hlt | hge
  · exact condensed_of_lt hlt
  · have hdvd : 2 ^ (n.log2 - 63) ∣ n := (Nat.pow_dvd_pow 2 (by omega)).trans h
    simp only [condensed, leavesMark_eq_false h]
    rw [if_neg (by omega), if_neg (by decide), Nat.shiftRight_eq_div_pow, Nat.shiftLeft_eq,
      Nat.div_mul_cancel hdvd]

/-- Between the two neighbours the mark may decide, but both remain neighbours. -/
theorem RoundsOff.of_condensed {n q : Nat} (h : RoundsOff n.log2 (condensed n * 2 ^ 52) q) :
    RoundsOff n.log2 (n * 2 ^ 52) q := by
  rcases Nat.lt_or_ge n.log2 64 with hlt | hge
  · rwa [condensed_of_lt hlt] at h
  · have hsplit : n.log2 - 52 + 52 = n.log2 := by omega
    rw [← hsplit, roundsOff_mul] at h ⊢
    rcases h with rfl | ⟨rfl, hnot⟩
    · exact Or.inl (condensed_div hge)
    · refine Or.inr ⟨by rw [condensed_div hge], fun hdvd => hnot ?_⟩
      rwa [condensed_eq_self hdvd]

/-! ## Faithful rounding -/

/-- One in units. -/
def unitsPerOne : Nat := 2 ^ unitBits

/-- The significands with `l` binary digits before the point and one more, in units. -/
theorem exists_magnitude_eq : ∃ u, 0 < u ∧ unitsPerOne = 2 ^ 52 * u ∧ ∀ l m, 2 ^ 52 ≤ m →
    m ≤ 2 ^ 53 → magnitude ((l + 1022) * 2 ^ 52 + m) = m * 2 ^ l * u := by
  obtain ⟨e, he⟩ : ∃ e, e = unitBits - 52 := ⟨_, rfl⟩
  have hexponent : 1022 = e := he.symm
  refine ⟨2 ^ e, Nat.two_pow_pos e, ?_, fun l m hlow hhigh => ?_⟩
  · rw [unitsPerOne, ← Nat.pow_add, he, Nat.add_sub_cancel' (by decide)]
  · rw [hexponent, magnitude_place hhigh (Or.inr hlow), Nat.pow_add, Nat.mul_assoc]

/-- The `k`-th double from zero on is next to the natural number: no other finite double lies
between them, and if the number is a double it is that one. -/
def IsNextTo (n k : Nat) : Prop :=
  ∀ j < infinityPlace, (magnitude j ≤ n * unitsPerOne → j ≤ k) ∧
    (n * unitsPerOne ≤ magnitude j → k ≤ j)

/-- Of the two neighbours either will do, unless one of them is the number. -/
theorem isNextTo_of_between {n k r : Nat} (hlow : magnitude k ≤ n * unitsPerOne)
    (hhigh : n * unitsPerOne < magnitude (k + 1))
    (hr : r = k ∨ r = k + 1 ∧ magnitude k ≠ n * unitsPerOne) : IsNextTo n r := by
  intro j _
  constructor
  · intro hj
    have hlt := magnitude_lt_iff.mp (hj.trans_lt hhigh)
    omega
  · intro hj
    have hle := strictMono_magnitude.le_iff_le.mp (hlow.trans hj)
    rcases hr with rfl | ⟨rfl, hne⟩
    · exact hle
    · refine hle.lt_of_ne ?_
      rintro rfl
      exact hne (hlow.antisymm hj)

section Natural

variable {n q : Nat}

theorem significand_bounds (hn : n ≠ 0) :
    2 ^ 52 ≤ n * 2 ^ 52 / 2 ^ n.log2 ∧ n * 2 ^ 52 / 2 ^ n.log2 < 2 ^ 53 := by
  have hpos := Nat.two_pow_pos n.log2
  obtain ⟨hle, hlt⟩ := (Nat.log2_eq_iff hn).mp rfl
  rw [Nat.pow_succ] at hlt
  rw [Nat.le_div_iff_mul_le hpos, Nat.div_lt_iff_lt_mul hpos]
  constructor <;> omega

theorem isNextTo_of_roundsOff (hn : n ≠ 0) (h : RoundsOff n.log2 (n * 2 ^ 52) q) :
    IsNextTo n ((n.log2 + 1022) * 2 ^ 52 + q) := by
  obtain ⟨hlow, hhigh⟩ := significand_bounds hn
  obtain ⟨u, hu, hone, hplace⟩ := exists_magnitude_eq
  have hunits : n * unitsPerOne = n * 2 ^ 52 * u := by
    rw [hone, Nat.mul_assoc]
  have hquot := Nat.div_add_mod' (n * 2 ^ 52) (2 ^ n.log2)
  have hrem := Nat.mod_lt (n * 2 ^ 52) (Nat.two_pow_pos n.log2)
  refine isNextTo_of_between (k := (n.log2 + 1022) * 2 ^ 52 + n * 2 ^ 52 / 2 ^ n.log2) ?_ ?_ ?_
  · rw [hplace _ _ hlow hhigh.le, hunits]
    exact Nat.mul_le_mul_right _ (by omega)
  · rw [Nat.add_assoc, hplace _ _ (by omega) hhigh, hunits, Nat.succ_mul]
    exact Nat.mul_lt_mul_of_pos_right (by omega) hu
  · rcases h with rfl | ⟨rfl, hnot⟩
    · exact Or.inl rfl
    · refine Or.inr ⟨(Nat.add_assoc _ _ 1).symm, fun heq => hnot ?_⟩
      rw [hplace _ _ hlow hhigh.le, hunits] at heq
      exact ⟨_, (Nat.eq_of_mul_eq_mul_right hu heq).symm.trans (Nat.mul_comm _ _)⟩

theorem RoundsOff.le (hn : n ≠ 0) (h : RoundsOff n.log2 (n * 2 ^ 52) q) : q ≤ 2 ^ 53 := by
  have hhigh := (significand_bounds hn).2
  rcases h with rfl | ⟨rfl, -⟩ <;> omega

theorem ofInt_natCast (hn : n ≠ 0) (hlog : n.log2 < 1024) :
    ofInt n = Float.ofNat (condensed n) := by
  rw [ofInt, Int.natAbs_natCast, if_neg (by omega), Int.sign_natCast_of_ne_zero hn, Int.one_mul]
  rfl

/-- The infinity is next to every number from `2 ^ 1024` on. -/
theorem isNextTo_infinityPlace (h : 1024 ≤ n.log2) : IsNextTo n infinityPlace := by
  obtain ⟨u, hu, hone, hplace⟩ := exists_magnitude_eq
  have hn : n ≠ 0 := by
    rintro rfl
    exact absurd h (by decide)
  have hle : magnitude infinityPlace ≤ n * unitsPerOne := by
    calc magnitude infinityPlace
        ≤ magnitude ((n.log2 + 1022) * 2 ^ 52 + 2 ^ 52) :=
          strictMono_magnitude.monotone (by unfold infinityPlace; omega)
      _ = 2 ^ n.log2 * unitsPerOne := by
          rw [hplace _ _ le_rfl (by decide), hone, Nat.mul_left_comm, Nat.mul_assoc]
      _ ≤ n * unitsPerOne := Nat.mul_le_mul_right _ (Nat.log2_self_le hn)
  intro j hj
  refine ⟨fun _ => hj.le, fun hle' => ?_⟩
  exact absurd (hle.trans hle') (magnitude_lt_iff.mpr hj).not_ge

/-- A natural number is rounded to a double next to it. -/
theorem exists_rank_ofInt_natCast (n : Nat) :
    ∃ k ≤ infinityPlace, rank (ofInt n) = k ∧ IsNextTo n k := by
  rcases Nat.eq_zero_or_pos n with rfl | hpos
  · refine ⟨0, Nat.zero_le _, by rfl, fun j _ => ⟨fun hj => ?_, fun _ => j.zero_le⟩⟩
    have hle := strictMono_magnitude.le_apply (x := j)
    omega
  rcases Nat.lt_or_ge n.log2 1024 with hlt | hge
  · have hlog : (condensed n).log2 < 1024 := by rwa [log2_condensed]
    obtain ⟨q, hq, hrank⟩ := exists_rank_ofNat (condensed_ne_zero hpos.ne') hlog
    rw [log2_condensed] at hq hrank
    refine ⟨_, ?_, (congrArg rank (ofInt_natCast hpos.ne' hlt)).trans hrank,
      isNextTo_of_roundsOff hpos.ne' hq.of_condensed⟩
    have hle := hq.of_condensed.le hpos.ne'
    unfold infinityPlace
    omega
  · have hofInt : ofInt n = posInfinity := by
      rw [ofInt, Int.natAbs_natCast, if_pos hge, if_pos (by omega)]
    rw [hofInt]
    exact ⟨infinityPlace, le_rfl, by rfl, isNextTo_infinityPlace hge⟩

end Natural

/-! ## Negative numbers -/

theorem Holds.ne_notANumber {b : BitVec Format.binary64.numBits} {u : UnpackedFloat}
    (h : Holds b u) (hplace : b.toNat % 2 ^ 63 ≤ infinityPlace) : u ≠ .notANumber := by
  have hexponent := toNat_unpackExponent b
  have hmantissa := toNat_unpackMantissa b
  cases h with
  | notANumber he hm =>
      have hones : (unpackExponent b).toNat = 2047 := congrArg BitVec.toNat he
      have hpos : 0 < (unpackMantissa b).toNat :=
        Nat.pos_of_ne_zero fun hzero => hm (BitVec.eq_of_toNat_eq hzero)
      unfold infinityPlace at hplace
      omega
  | infinity => nofun
  | zero => nofun
  | subnormal => nofun
  | normal => nofun

theorem signedPlace_neg (s : Sign) (k : Nat) : signedPlace (-s) k = -1 - signedPlace s k := by
  cases s
  · show (k : Int) = -1 - (-1 - k)
    omega
  · rfl

/-- Negation turns the total order about. -/
theorem rank_neg {x : Float} (h : place x ≤ infinityPlace) : rank (-x) = -1 - rank x := by
  have hholds := holds_unpack (word x)
  have hneg := hholds.pack_neg (hholds.ne_notANumber h)
  rw [rank_of_components (x := -x) hneg, signedPlace_neg, rank_eq_signedPlace,
    toNat_unpackExponent, toNat_unpackMantissa, Nat.div_add_mod']
  rfl

theorem ofInt_neg {n : Nat} (hn : n ≠ 0) : ofInt (-n) = -ofInt n := by
  rw [ofInt, ofInt, Int.natAbs_neg, Int.natAbs_natCast]
  split
  · rw [if_neg (by omega), if_pos (by omega)]
    rfl
  · rw [Int.sign_neg, Int.sign_natCast_of_ne_zero hn, Int.neg_mul, Int.one_mul]
    obtain ⟨c, hc⟩ := Nat.exists_eq_succ_of_ne_zero (condensed_ne_zero hn)
    rw [hc]
    rfl

/-- An integer is rounded to a double next to it and of its sign. -/
theorem exists_rank_ofInt (i : Int) : ∃ s k, i = s.apply i.natAbs ∧ (s = .negative → i ≠ 0) ∧
    rank (ofInt i) = signedPlace s k ∧ IsNextTo i.natAbs k := by
  obtain ⟨k, hle, hrank, hnext⟩ := exists_rank_ofInt_natCast i.natAbs
  rcases lt_or_ge i 0 with hneg | hnonneg
  · have hi : i = -(i.natAbs : ℤ) := by omega
    refine ⟨.negative, k, hi, fun _ => hneg.ne, ?_, hnext⟩
    have hplace : place (ofInt i.natAbs) = k :=
      (signedPlace_inj ((rank_eq_signedPlace _).symm.trans hrank : _ = signedPlace .positive k)).2
    rw [hi, ofInt_neg (by omega), rank_neg (by rwa [hplace]), hrank]
    rfl
  · have hi : (i.natAbs : ℤ) = i := Int.natAbs_of_nonneg hnonneg
    rw [hi] at hrank
    exact ⟨.positive, k, hi.symm, nofun, hrank, hnext⟩

theorem unitsPerOne_mul_unit : (unitsPerOne : ℚ) * unit = 1 := by
  rw [unitsPerOne, unit, Nat.cast_pow, Nat.cast_ofNat, zpow_neg]
  exact mul_inv_cancel₀ (pow_ne_zero _ two_ne_zero)

theorem intCast_eq_mul_unit (i : Int) : (i : ℚ) = ((i * unitsPerOne : ℤ) : ℚ) * unit := by
  rw [Int.cast_mul, Int.cast_natCast, mul_assoc, unitsPerOne_mul_unit, Rat.mul_one]

/-- What is next to a number is next to it among the numbers with a sign. -/
theorem IsNextTo.signed {n k j : Nat} {s t : Sign} (h : IsNextTo n k) (hj : j < infinityPlace)
    (hn : s = .negative → n ≠ 0) :
    (t.apply (magnitude j) < s.apply n * unitsPerOne → signedPlace t j ≤ signedPlace s k) ∧
      (s.apply n * unitsPerOne < t.apply (magnitude j) → signedPlace s k ≤ signedPlace t j) ∧
      (t.apply (magnitude j) = s.apply n * unitsPerOne →
        signedPlace t j = signedPlace s k ∨ t = .negative ∧ j = 0) := by
  obtain ⟨hbelow, habove⟩ := h j hj
  have hself := strictMono_magnitude.le_apply (x := j)
  have hpos : s = .negative → 0 < n * unitsPerOne := fun hs =>
    Nat.mul_pos (Nat.pos_of_ne_zero (hn hs)) (Nat.two_pow_pos unitBits)
  rw [← apply_mul, ← Nat.cast_mul]
  generalize n * unitsPerOne = m at *
  -- of one sign the order of the places decides, of two signs the sign does
  cases s <;> cases t <;>
    simp only [signedPlace, Sign.apply, reduceCtorEq, true_and, false_and, or_false,
      forall_const, IsEmpty.forall_iff] at * <;> omega

/-- **Faithful rounding.** A finite double that lies below an integer is not above what the integer
is rounded to, one that lies above it is not below, and one that has its value is what it is rounded
to, if it is not the negative zero. -/
theorem ofInt_faithful {x : Float} (hx : x.isFinite = true) (i : Int) :
    (value x < i → rank x ≤ rank (ofInt i)) ∧ (i < value x → rank (ofInt i) ≤ rank x) ∧
      (value x = i → x = ofInt i ∨ x = -0.0) := by
  obtain ⟨s, k, hi, hsign, hrank, hnext⟩ := exists_rank_ofInt i
  obtain ⟨hbelow, habove, hat⟩ := hnext.signed (t := sign x) (isFinite_iff_place.mp hx)
    fun hs => Int.natAbs_ne_zero.mpr (hsign hs)
  rw [← hi, ← hrank, ← rank_eq_signedPlace] at hbelow habove hat
  rw [value_eq hx, intCast_eq_mul_unit i, mul_lt_mul_iff_of_pos_right unit_pos,
    mul_lt_mul_iff_of_pos_right unit_pos, mul_left_inj' unit_pos.ne', Int.cast_lt, Int.cast_lt,
    Int.cast_inj]
  refine ⟨hbelow, habove, fun h => ?_⟩
  rcases hat h with heq | hzero
  · exact Or.inl (rank_inj heq)
  · exact Or.inr (eq_of_place hzero ⟨by rfl, by rfl⟩)

/-! ## Integers that are doubles -/

/-- A number with at most 53 bits between its first and its last is a double. -/
theorem exists_place_of_dvd {n : Nat} (hlog : n.log2 < 1024) (hdvd : 2 ^ (n.log2 - 52) ∣ n) :
    ∃ j < infinityPlace, magnitude j = n * unitsPerOne := by
  rcases Nat.eq_zero_or_pos n with rfl | hpos
  · refine ⟨0, Nat.mul_pos (by decide) (Nat.two_pow_pos 52), ?_⟩
    rw [Nat.zero_mul]
    rfl
  · obtain ⟨hlow, hhigh⟩ := significand_bounds hpos.ne'
    obtain ⟨u, -, hone, hplace⟩ := exists_magnitude_eq
    refine ⟨(n.log2 + 1022) * 2 ^ 52 + n * 2 ^ 52 / 2 ^ n.log2, ?_, ?_⟩
    · unfold infinityPlace
      omega
    · have hmul := Nat.mul_dvd_mul_right hdvd (2 ^ 52)
      rw [← Nat.pow_add] at hmul
      have hdvd' : 2 ^ n.log2 ∣ n * 2 ^ 52 := (Nat.pow_dvd_pow 2 (by omega)).trans hmul
      rw [hplace _ _ hlow hhigh.le, Nat.div_mul_cancel hdvd', hone, Nat.mul_assoc]

/-- An integer that is a double is rounded to itself. -/
theorem value_ofInt {i : Int} {j : Nat} (hj : j < infinityPlace)
    (h : magnitude j = i.natAbs * unitsPerOne) :
    (ofInt i).isFinite = true ∧ value (ofInt i) = i := by
  obtain ⟨s, k, hi, -, hrank, hnext⟩ := exists_rank_ofInt i
  obtain ⟨hbelow, habove⟩ := hnext j hj
  obtain rfl : k = j := (habove h.ge).antisymm (hbelow h.le)
  obtain ⟨hsign, hplace⟩ := signedPlace_inj ((rank_eq_signedPlace _).symm.trans hrank)
  have hfinite : (ofInt i).isFinite = true := isFinite_iff_place.mpr (by rwa [hplace])
  refine ⟨hfinite, ?_⟩
  rw [value_eq hfinite, hsign, hplace, h, Nat.cast_mul, apply_mul, ← hi, ← intCast_eq_mul_unit]

theorem value_ofInt_of_natAbs_le {i : Int} (h : i.natAbs ≤ 2 ^ 53) :
    (ofInt i).isFinite = true ∧ value (ofInt i) = i := by
  have hparts : i.natAbs.log2 ≤ 53 ∧ 2 ^ (i.natAbs.log2 - 52) ∣ i.natAbs := by
    rcases h.lt_or_eq with hlt | heq
    · have hlog : i.natAbs.log2 ≤ 52 := by
        rw [Nat.log2_eq_log_two]
        exact Nat.le_of_lt_succ (Nat.log_lt_of_lt_pow' (by decide) hlt)
      rw [Nat.sub_eq_zero_of_le hlog]
      exact ⟨by omega, Nat.one_dvd _⟩
    · rw [heq, Nat.log2_two_pow]
      exact ⟨le_rfl, Nat.pow_dvd_pow 2 (by decide)⟩
  obtain ⟨j, hj, hmagnitude⟩ := exists_place_of_dvd (by omega) hparts.2
  exact value_ofInt hj hmagnitude

end PolyCalc.Binary64
