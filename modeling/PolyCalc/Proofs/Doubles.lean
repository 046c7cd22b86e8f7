import Mathlib.Algebra.Ring.Nat
import PolyCalc.Number

/-!
# One times a double

A product of doubles is unpacked, multiplied, rounded and packed again. That nothing is lost when
one factor is one takes both halves of that round trip: the product of the significands with that
of one is shifted back without a remainder (`mul_unpacked_one`), and packing what a double was
unpacked to gives the double (`pack_unpack`).

The sign is packed apart from the rest, so the negation of a finite double is finite
(`isFinite_neg`). Equality of doubles is reflexive, apart from NaN (`beq_self`).
-/

namespace PolyCalc.Binary64

open Float.Model
open Float.Model.UnpackedFloat

/-! ## Packing -/

theorem ofBitVec_toBitVec (s : BitVec 1) : (Sign.ofBitVec s).toBitVec = s := by
  revert s
  decide

/-- The three components of a word make up the word. -/
theorem packComponents_eq {b : BitVec Format.binary64.numBits}
    {e : BitVec Format.binary64.exponentBits}
    {m : BitVec Format.binary64.mantissaBitsWithoutImplicit} (he : unpackExponent b = e)
    (hm : unpackMantissa b = m) :
    packComponents .binary64 (Sign.ofBitVec (unpackSign b)) e m = b := by
  subst he hm
  rw [packComponents, ofBitVec_toBitVec]
  change b.extractLsb' 63 1 ++ b.extractLsb' 52 11 ++ b.extractLsb' 0 52 = b
  rw [BitVec.extractLsb'_append_extractLsb'_eq_extractLsb' (rfl : 63 = 52 + 11),
    BitVec.extractLsb'_append_extractLsb'_eq_extractLsb' (rfl : 52 = 0 + 52)]
  exact BitVec.extractLsb'_eq_self

theorem toNat_implicit (m : BitVec 52) : (1#1 ++ m).toNat = 2 ^ 52 + m.toNat := by
  rw [BitVec.toNat_append, ← Nat.shiftLeft_add_eq_or_of_lt m.isLt]
  simp [Nat.shiftLeft_eq]

theorem log2_implicit (m : BitVec 52) : (1#1 ++ m).toNat.log2 = 52 := by
  have hm := m.isLt
  rw [toNat_implicit, Nat.log2_eq_iff (by omega)]
  omega

theorem ofNat_implicit (m : BitVec 52) : BitVec.ofNat 52 (1#1 ++ m).toNat = m := by
  refine BitVec.eq_of_toNat_eq ?_
  rw [BitVec.toNat_ofNat, toNat_implicit]
  exact (Nat.add_mod_left _ _).trans (Nat.mod_eq_of_lt m.isLt)

theorem log2_lt (m : BitVec 52) : m.toNat.log2 < 52 := by
  rcases Nat.eq_zero_or_pos m.toNat with hzero | hpos
  · rw [hzero]
    decide
  · exact (Nat.log2_lt (Nat.ne_of_gt hpos)).mpr m.isLt

/-- A finite number overflows, or has 53 bits and is packed without the first of them, or is
packed under zero. -/
theorem pack_finite {s : Sign} {m : Nat} {e : Int} {hm : 0 < m} :
    UnpackedFloat.pack .binary64 (.finite s m e hm) =
      if 2 ^ 11 ≤ (e + 1023 + 52).toNat + 1 then packComponents .binary64 s (-1#_) 0#_
      else if m.log2 + 1 = 53 then
        packComponents .binary64 s (BitVec.ofNat _ (e + 1023 + 52).toNat) (BitVec.ofNat _ m)
      else packComponents .binary64 s 0#_ (BitVec.ofNat _ m) := rfl

/-- A significand with 53 bits is packed under its exponent. -/
theorem pack_normal {s : Sign} {m n : Nat} {e : Int} {hm : 0 < m} (hlog : m.log2 = 52)
    (hn : n + 1 < 2 ^ 11) (he : e = n - 1075) :
    UnpackedFloat.pack .binary64 (.finite s m e hm) =
      packComponents .binary64 s (BitVec.ofNat _ n) (BitVec.ofNat _ m) := by
  have hbiased : (e + 1023 + 52).toNat = n := by omega
  rw [pack_finite, hbiased, hlog, if_neg (Nat.not_le_of_lt hn), if_pos rfl]

/-- A shorter one belongs to the smallest exponent, and is packed under zero. -/
theorem pack_subnormal {s : Sign} {m : Nat} {hm : 0 < m} (hlog : m.log2 < 52) :
    UnpackedFloat.pack .binary64 (.finite s m (-1074) hm) =
      packComponents .binary64 s 0#_ (BitVec.ofNat _ m) := by
  rw [pack_finite, if_neg (by decide), if_neg (by omega)]

/-- What a word of 64 bits holds. The significand of a normal number has one more bit than is
stored, and a subnormal number has the smallest exponent. -/
inductive Holds (b : BitVec Format.binary64.numBits) : UnpackedFloat → Prop
  | infinity (he : unpackExponent b = -1#_) (hm : unpackMantissa b = 0#_) :
      Holds b (.infinity (Sign.ofBitVec (unpackSign b)))
  | notANumber (he : unpackExponent b = -1#_) (hm : unpackMantissa b ≠ 0#_) :
      Holds b .notANumber
  | zero (he : unpackExponent b = 0#_) (hm : unpackMantissa b = 0#_) :
      Holds b (.zero (Sign.ofBitVec (unpackSign b)))
  | subnormal (he : unpackExponent b = 0#_) (hpos : 0 < (unpackMantissa b).toNat) :
      Holds b (.finite (Sign.ofBitVec (unpackSign b)) (unpackMantissa b).toNat (-1074) hpos)
  | normal (hlow : 0 < (unpackExponent b).toNat) (hhigh : (unpackExponent b).toNat + 1 < 2 ^ 11)
      (hpos : 0 < (1#1 ++ unpackMantissa b).toNat) :
      Holds b (.finite (Sign.ofBitVec (unpackSign b)) (1#1 ++ unpackMantissa b).toNat
        ((unpackExponent b).toNat - 1075) hpos)

theorem holds_unpack (b : BitVec Format.binary64.numBits) :
    Holds b (UnpackedFloat.unpack .binary64 b) := by
  change Holds b (ite _ _ _)
  by_cases hones : unpackExponent b = -1#_
  · rw [if_pos hones]
    by_cases hm : unpackMantissa b = 0#_
    · rw [if_pos hm]
      exact .infinity hones hm
    · rw [if_neg hm]
      exact .notANumber hones hm
  · rw [if_neg hones]
    by_cases he : unpackExponent b = 0#_
    · rw [if_pos he]
      by_cases hm : unpackMantissa b = 0#_
      · rw [dif_pos hm]
        exact .zero he hm
      · have hpos : 0 < (unpackMantissa b).toNat :=
          Nat.pos_of_ne_zero fun h => hm (BitVec.eq_of_toNat_eq h)
        have heq : ((unpackExponent b).toNat : Int) - (Format.binary64.exponentBias +
            Format.binary64.mantissaBitsWithoutImplicit) + 1 = -1074 := by
          rw [he]
          rfl
        rw [dif_neg hm, heq]
        exact .subnormal he hpos
    · have hlt : (unpackExponent b).toNat < 2 ^ 11 := (unpackExponent b).isLt
      have hones' : (unpackExponent b).toNat ≠ 2 ^ 11 - 1 := fun h =>
        hones (BitVec.eq_of_toNat_eq h)
      rw [if_neg he]
      refine .normal (Nat.pos_of_ne_zero fun h => he (BitVec.eq_of_toNat_eq h)) ?_ _
      omega

theorem pack_unpack_bits {b : BitVec Format.binary64.numBits} (hb : Format.binary64.Valid b) :
    UnpackedFloat.pack .binary64 (UnpackedFloat.unpack .binary64 b) = b := by
  have hb' := holds_unpack b
  generalize UnpackedFloat.unpack .binary64 b = u at hb' ⊢
  cases hb' with
  | infinity he hm => exact packComponents_eq he hm
  | notANumber he hm => exact (hb.eq_packedNaN he hm).symm
  | zero he hm => exact packComponents_eq he hm
  | subnormal he =>
      rw [pack_subnormal (log2_lt _), BitVec.ofNat_toNat, BitVec.setWidth_eq]
      exact packComponents_eq he rfl
  | normal _ hhigh =>
      rw [pack_normal (log2_implicit _) hhigh rfl, BitVec.ofNat_toNat, BitVec.setWidth_eq]
      exact packComponents_eq rfl (ofNat_implicit _).symm

theorem pack_unpack (x : Float.Model) : Float.Model.pack x.unpack = x := by
  have hbits : (Float.Model.pack x.unpack).toBits = x.toBits :=
    congrArg UInt64.ofBitVec (pack_unpack_bits x.valid)
  generalize Float.Model.pack x.unpack = y at hbits
  obtain ⟨bits, _⟩ := x
  obtain ⟨bits', _⟩ := y
  obtain rfl : bits' = bits := hbits
  rfl

/-! ## Rounding -/

/-- Zeros that stand at the low end are shifted out without a trace. -/
theorem repeat_shiftRightOne (m n : Nat) :
    n.repeat ExtendedMantissa.shiftRightOne ⟨m * 2 ^ n, false, false⟩ = ⟨m, false, false⟩ := by
  induction n generalizing m with
  | zero => rw [Nat.pow_zero, Nat.mul_one, Nat.repeat]
  | succ n ih =>
      rw [Nat.repeat, Nat.pow_succ', ← Nat.mul_assoc, ih (m * 2)]
      simp [ExtendedMantissa.shiftRightOne]

/-- A significand stands at the exponent that the format wants for it. -/
def IsCanonical : UnpackedFloat → Prop
  | .finite _ m e _ => e = Format.binary64.targetExponent (totalExponent m e)
  | _ => True

/-- A number is held to 53 bits, unless that takes an exponent below the least one. -/
theorem targetExponent_of_le {i : Int} (h : -1021 ≤ i) :
    Format.binary64.targetExponent i = i - 53 :=
  Int.max_eq_left (Int.sub_le_sub_right h 53)

theorem targetExponent_of_ge {i : Int} (h : i ≤ -1021) :
    Format.binary64.targetExponent i = -1074 :=
  Int.max_eq_right (Int.sub_le_sub_right h 53)

theorem Holds.isCanonical {b : BitVec Format.binary64.numBits} {u : UnpackedFloat}
    (h : Holds b u) : IsCanonical u := by
  cases h with
  | infinity => trivial
  | notANumber => trivial
  | zero => trivial
  | subnormal he =>
      have hlog := log2_lt (unpackMantissa b)
      refine (targetExponent_of_ge ?_).symm
      simp only [totalExponent]
      omega
  | normal hlow =>
      refine ((targetExponent_of_le ?_).trans ?_).symm
      all_goals
        simp only [totalExponent, log2_implicit]
        omega

theorem log2_mul_two_pow {m : Nat} (hm : m ≠ 0) (n : Nat) : (m * 2 ^ n).log2 = m.log2 + n := by
  induction n with
  | zero => rw [Nat.pow_zero, Nat.mul_one, Nat.add_zero]
  | succ n ih =>
      have hne : m * 2 ^ n ≠ 0 := Nat.mul_ne_zero hm (Nat.ne_of_gt (Nat.two_pow_pos n))
      rw [Nat.pow_succ', Nat.mul_left_comm, Nat.log2_two_mul hne, ih, Nat.add_assoc]

theorem shiftToTargetExponent_mul_two_pow {s : Sign} {m : Nat} {e : Int} {hm : 0 < m}
    (h : IsCanonical (.finite s m e hm)) (n : Nat) :
    shiftToTargetExponent .binary64 (m * 2 ^ n) (e - n) .exact = (⟨m, false, false⟩, e) := by
  have htotal : totalExponent (m * 2 ^ n) (e - n) = totalExponent m e := by
    simp only [totalExponent, log2_mul_two_pow (Nat.ne_of_gt hm)]
    omega
  have hamount : (e - (e - n)).toNat = n := by omega
  rw [shiftToTargetExponent, htotal, ← h, shiftToExponent, hamount]
  exact Prod.ext (repeat_shiftRightOne m n) (Int.sub_add_cancel e n)

/-- Rounding shifts to the target exponent twice, as the first shift may round up into a new bit. -/
theorem roundWithAccuracy_eq {s : Sign} {m n : Nat} {e f g : Int} {em : ExtendedMantissa}
    {r t : Bool} (hn : 0 < n) (hfirst : shiftToTargetExponent .binary64 m e .exact = (em, f))
    (hsecond : shiftToTargetExponent .binary64 em.roundedMantissa f .exact = (⟨n, r, t⟩, g)) :
    roundWithAccuracy .binary64 s m e .exact = .finite s n g hn := by
  rw [roundWithAccuracy, hfirst]
  dsimp only
  rw [hsecond]
  exact dif_neg (Nat.ne_of_gt hn)

/-- A canonical number that was multiplied by a power of two, and its exponent lowered for that,
is rounded back to itself. -/
theorem roundWithAccuracy_mul_two_pow {s : Sign} {m : Nat} {e : Int} {hm : 0 < m}
    (h : IsCanonical (.finite s m e hm)) (n : Nat) :
    roundWithAccuracy .binary64 s (m * 2 ^ n) (e - n) .exact = .finite s m e hm := by
  -- the second shift has nothing left to do
  have hstay := shiftToTargetExponent_mul_two_pow h 0
  rw [Nat.pow_zero, Nat.mul_one, Int.natCast_zero, Int.sub_zero] at hstay
  exact roundWithAccuracy_eq hm (shiftToTargetExponent_mul_two_pow h n) hstay

/-! ## The product -/

theorem unpack_one : Float.Model.unpack (1.0 : Float).toModel =
    .finite .positive (2 ^ 52) (-52) (Nat.two_pow_pos 52) := by
  rfl

theorem positive_mul (s : Sign) : .positive * s = s := by
  cases s <;> rfl

theorem finite_mul_finite {s t : Sign} {m n : Nat} {e f : Int} {hm : 0 < m} {hn : 0 < n} :
    UnpackedFloat.mul .binary64 (.finite s m e hm) (.finite t n f hn) =
      roundWithAccuracy .binary64 (s * t) (m * n) (e + f) .exact := rfl

theorem mul_unpacked_one {u : UnpackedFloat} (h : IsCanonical u) :
    UnpackedFloat.mul .binary64 (.finite .positive (2 ^ 52) (-52) (Nat.two_pow_pos 52)) u = u := by
  cases u with
  | notANumber => rfl
  | infinity s => exact congrArg UnpackedFloat.infinity (positive_mul s)
  | zero s => exact congrArg UnpackedFloat.zero (positive_mul s)
  | finite s m e hm =>
      rw [finite_mul_finite, positive_mul, Nat.mul_comm, Int.add_comm]
      exact roundWithAccuracy_mul_two_pow h 52

/-- One is neutral, whatever the other factor is. -/
theorem one_mul (x : Float) : 1.0 * x = x := by
  have hx : IsCanonical x.toModel.unpack := (holds_unpack _).isCanonical
  change Float.ofModel (Float.Model.mul (1.0 : Float).toModel x.toModel) = x
  rw [Float.Model.mul, unpack_one, mul_unpacked_one hx, pack_unpack]

theorem unpacked_mul_comm (u v : UnpackedFloat) :
    UnpackedFloat.mul .binary64 u v = UnpackedFloat.mul .binary64 v u := by
  have hsign : ∀ s t : Sign, s * t = t * s := by
    intro s t
    cases s <;> cases t <;> rfl
  cases u with
  | notANumber => cases v <;> rfl
  | infinity s => cases v <;> first | rfl | exact congrArg UnpackedFloat.infinity (hsign _ _)
  | zero s => cases v <;> first | rfl | exact congrArg UnpackedFloat.zero (hsign _ _)
  | finite s m e hm =>
      cases v with
      | notANumber => rfl
      | infinity t => exact congrArg UnpackedFloat.infinity (hsign _ _)
      | zero t => exact congrArg UnpackedFloat.zero (hsign _ _)
      | finite t n f hn =>
          rw [finite_mul_finite, finite_mul_finite, hsign, Nat.mul_comm, Int.add_comm]

theorem mul_one (x : Float) : x * 1.0 = x := by
  have hcomm : x * 1.0 = 1.0 * x :=
    congrArg (fun u => Float.ofModel (Float.Model.pack u)) (unpacked_mul_comm _ _)
  rw [hcomm, one_mul]

/-! ## Negation -/

theorem Holds.isFinite {b : BitVec Format.binary64.numBits} {u : UnpackedFloat} (h : Holds b u)
    (he : unpackExponent b ≠ -1#_) : u.isFinite = true := by
  cases h with
  | infinity hones => exact absurd hones he
  | notANumber hones => exact absurd hones he
  | zero => rfl
  | subnormal => rfl
  | normal => rfl

/-- Negation packs the other sign with the same exponent and significand. -/
theorem Holds.pack_neg {b : BitVec Format.binary64.numBits} {u : UnpackedFloat} (h : Holds b u)
    (hu : u ≠ .notANumber) : UnpackedFloat.pack .binary64 u.neg =
      packComponents .binary64 (-Sign.ofBitVec (unpackSign b)) (unpackExponent b)
        (unpackMantissa b) := by
  cases h with
  | notANumber => exact absurd rfl hu
  | infinity he hm =>
      rw [he, hm]
      rfl
  | zero he hm =>
      rw [he, hm]
      rfl
  | subnormal he =>
      refine (pack_subnormal (log2_lt _)).trans ?_
      rw [he, BitVec.ofNat_toNat, BitVec.setWidth_eq]
  | normal _ hhigh =>
      refine (pack_normal (log2_implicit _) hhigh rfl).trans ?_
      rw [BitVec.ofNat_toNat, BitVec.setWidth_eq]
      exact congrArg (packComponents .binary64 _ _) (ofNat_implicit _)

/-- The sign takes no part in whether a word holds a finite number. -/
theorem Holds.isFinite_neg {b : BitVec Format.binary64.numBits} {u : UnpackedFloat}
    (h : Holds b u) (hu : u.isFinite = true) :
    (UnpackedFloat.unpack .binary64 (UnpackedFloat.pack .binary64 u.neg)).isFinite = true := by
  have hnumber : u ≠ .notANumber := by
    rintro rfl
    cases hu
  rw [h.pack_neg hnumber]
  refine (holds_unpack _).isFinite ?_
  rw [unpackExponent_packComponents]
  cases h with
  | infinity => cases hu
  | notANumber => cases hu
  | zero he =>
      rw [he]
      decide
  | subnormal he =>
      rw [he]
      decide
  | normal _ hhigh =>
      intro hones
      have hvalue : (unpackExponent b).toNat = 2 ^ 11 - 1 := congrArg BitVec.toNat hones
      omega

theorem isFinite_neg {x : Float} (h : x.isFinite = true) : (-x).isFinite = true :=
  (holds_unpack _).isFinite_neg h

/-! ## Equality -/

theorem compare_self {u : UnpackedFloat} (h : u.isNaN = false) : u.compare u = some .eq := by
  cases u with
  | notANumber => cases h
  | infinity s => cases s <;> rfl
  | zero s => rfl
  | finite s m e hm =>
      have hself : (compare e e).then (compare m m) = .eq := by simp
      cases s with
      | positive => exact congrArg some hself
      | negative => exact congrArg (fun o => some (Ordering.swap o)) hself

theorem beq_self {x : Float} (h : x.isNaN = false) : (x == x) = true := by
  change (x.toModel.unpack.compare x.toModel.unpack == some .eq) = true
  rw [compare_self h]
  rfl

end PolyCalc.Binary64
