import Mathlib
import MarkupQuery.Number.Binary

namespace MarkupQuery.Number

open Float.Model Float.Model.UnpackedFloat

variable {n : Nat}

def significand (n : Nat) : Nat := n * 2 ^ (52 - n.log2)

theorem log2_lt (hn : n < 2 ^ 53) (hpos : 0 < n) : n.log2 < 53 :=
  (Nat.log2_lt (by omega)).mpr hn

theorem significand_bounds (hn : n < 2 ^ 53) (hpos : 0 < n) :
    2 ^ 52 ≤ significand n ∧ significand n < 2 ^ 53 := by
  have hlog := log2_lt hn hpos
  have hlow : 2 ^ n.log2 ≤ n := Nat.log2_self_le (by omega)
  have hhigh : n < 2 ^ (n.log2 + 1) := Nat.lt_log2_self
  have hlowPow : 2 ^ n.log2 * 2 ^ (52 - n.log2) = 2 ^ 52 := by
    rw [← Nat.pow_add]
    congr 1
    omega
  have hhighPow : 2 ^ (n.log2 + 1) * 2 ^ (52 - n.log2) = 2 ^ 53 := by
    rw [← Nat.pow_add]
    congr 1
    omega
  unfold significand
  constructor
  · rw [← hlowPow]
    exact Nat.mul_le_mul_right _ hlow
  · rw [← hhighPow]
    exact Nat.mul_lt_mul_of_pos_right hhigh (Nat.two_pow_pos _)

theorem log2_of_bounds {m k : Nat} (hlow : 2 ^ k ≤ m) (hhigh : m < 2 ^ (k + 1)) : m.log2 = k := by
  have hpos : 0 < 2 ^ k := Nat.two_pow_pos k
  exact (Nat.log2_eq_iff (by omega)).mpr ⟨hlow, hhigh⟩

def wholeForm (n : Nat) (h : 0 < significand n) : UnpackedFloat :=
  .finite .positive (significand n) ((n.log2 : Int) - 52) h

theorem significand_pos (hpos : 0 < n) : 0 < significand n :=
  Nat.mul_pos hpos (Nat.two_pow_pos _)

/-- Shifting out zeros is exact. -/
theorem shift_zeros (m k : Nat) :
    (ExtendedMantissa.mk (m * 2 ^ k) false false) >>> k = ExtendedMantissa.mk m false false := by
  show Nat.repeat ExtendedMantissa.shiftRightOne k _ = _
  induction k generalizing m with
  | zero => simp [Nat.repeat]
  | succ k ih =>
    have hmul : m * 2 ^ (k + 1) = m * 2 * 2 ^ k := by
      rw [Nat.pow_succ, Nat.mul_comm (2 ^ k), Nat.mul_assoc]
    rw [Nat.repeat, hmul, ih]
    simp [ExtendedMantissa.shiftRightOne]

theorem log2_mul_pow {m : Nat} (hlow : 2 ^ 52 ≤ m) (hhigh : m < 2 ^ 53) (k : Nat) :
    (m * 2 ^ k).log2 = 52 + k := by
  refine log2_of_bounds ?_ ?_
  · rw [Nat.pow_add]
    exact Nat.mul_le_mul_right _ hlow
  · rw [Nat.add_right_comm, Nat.pow_add]
    exact Nat.mul_lt_mul_of_pos_right hhigh (Nat.two_pow_pos _)

/-- With 53 significant bits a number is where its exponent puts it. -/
theorem shiftToTargetExponent_eq {m : Nat} {e : Int} (hlow : 2 ^ 52 ≤ m) (hhigh : m < 2 ^ 53)
    (he : -1074 ≤ e) (k : Nat) :
    shiftToTargetExponent .binary64 (m * 2 ^ k) (e - k) .exact =
      (ExtendedMantissa.mk m false false, e) := by
  have htarget : Format.binary64.targetExponent (totalExponent (m * 2 ^ k) (e - k)) = e := by
    simp only [Format.targetExponent, totalExponent, log2_mul_pow hlow hhigh, Format.mantissaBits,
      Format.minExponent]
    norm_num
    omega
  have hshift : (e - (e - (k : Int))).toNat = k := by omega
  -- the target counts all bits, so what is shifted out is the `k` zeros at the end
  simp only [shiftToTargetExponent, htarget, shiftToExponent, hshift,
    ExtendedMantissa.ofMantissaAndAccuracy, shift_zeros, Int.sub_add_cancel]

/-- What has 53 significant bits at its exponent is not rounded. -/
theorem round_exact {m k : Nat} {e : Int} (hlow : 2 ^ 52 ≤ m) (hhigh : m < 2 ^ 53) (he : -1074 ≤ e)
    (hm : 0 < m) :
    roundWithAccuracy .binary64 .positive (m * 2 ^ k) (e - k) .exact = .finite .positive m e hm := by
  have hagain := shiftToTargetExponent_eq hlow hhigh he 0
  rw [Nat.pow_zero, Nat.mul_one, Nat.cast_zero, Int.sub_zero] at hagain
  have hrounded : (ExtendedMantissa.mk m false false).roundedMantissa = m := rfl
  -- rounding shifts twice, and the second time nothing is left to shift out
  simp only [roundWithAccuracy, shiftToTargetExponent_eq hlow hhigh he, hrounded, hagain]
  rw [dif_neg (by omega)]

/-- A whole number is not rounded. -/
theorem ofNat_eq_wholeForm (hn : n < 2 ^ 53) (hpos : 0 < n) :
    UnpackedFloat.ofNat .binary64 n = wholeForm n (significand_pos hpos) := by
  obtain ⟨hlow, hhigh⟩ := significand_bounds hn hpos
  have hlog := log2_lt hn hpos
  have hcompare : compare (n : Int) 0 = .gt := by
    rw [Int.compare_eq_gt]
    omega
  have htarget : Format.binary64.targetExponent (totalExponent n 0) = (n.log2 : Int) - 52 := by
    simp only [Format.targetExponent, totalExponent, Format.mantissaBits, Format.minExponent]
    norm_num
    omega
  have hshift : (0 - ((n.log2 : Int) - 52)).toNat = 52 - n.log2 := by omega
  have hexponent : (0 : Int) - ((52 - n.log2 : Nat) : Int) = (n.log2 : Int) - 52 - (0 : Nat) := by
    omega
  have hround := round_exact (k := 0) (e := (n.log2 : Int) - 52) hlow hhigh (by omega)
    (significand_pos hpos)
  rw [Nat.pow_zero, Nat.mul_one] at hround
  simp only [UnpackedFloat.ofNat, UnpackedFloat.ofInt, UnpackedFloat.normalize, hcompare,
    Int.toNat_natCast, UnpackedFloat.round, htarget, decreaseExponent, hshift, hexponent,
    Nat.shiftLeft_eq]
  exact hround

/-- The bits of a whole number: its exponent with the bias, and its significand without the first
bit. -/
theorem pack_wholeForm (hn : n < 2 ^ 53) (hpos : 0 < n) :
    UnpackedFloat.pack .binary64 (wholeForm n (significand_pos hpos)) =
      packComponents .binary64 .positive (BitVec.ofNat 11 (n.log2 + 1023))
        (BitVec.ofNat 52 (significand n)) := by
  obtain ⟨hlow, hhigh⟩ := significand_bounds hn hpos
  have hlog := log2_lt hn hpos
  have hbits : (significand n).log2 = 52 := log2_of_bounds hlow hhigh
  have hbiased : ((n.log2 : Int) - 52 + Format.binary64.exponentBias +
      Format.binary64.mantissaBitsWithoutImplicit).toNat = n.log2 + 1023 := by
    show ((n.log2 : Int) - 52 + (2 ^ (11 - 1) - 1 : Nat) + (52 : Nat)).toNat = n.log2 + 1023
    omega
  rw [wholeForm, UnpackedFloat.pack]
  simp only [hbits, hbiased]
  rw [if_neg (by omega), if_pos (by simp [Format.mantissaBits])]

/-- Nothing is lost when a whole number is packed. -/
theorem unpack_pack_wholeForm (hn : n < 2 ^ 53) (hpos : 0 < n) :
    UnpackedFloat.unpack .binary64 (UnpackedFloat.pack .binary64
      (wholeForm n (significand_pos hpos))) = wholeForm n (significand_pos hpos) := by
  obtain ⟨hlow, hhigh⟩ := significand_bounds hn hpos
  have hlog := log2_lt hn hpos
  have hexponent : (BitVec.ofNat 11 (n.log2 + 1023)).toNat = n.log2 + 1023 :=
    Nat.mod_eq_of_lt (by omega)
  have hones : BitVec.ofNat 11 (n.log2 + 1023) ≠ -1#11 := fun h => by
    have hnat := congrArg BitVec.toNat h
    rw [hexponent] at hnat
    simp at hnat
    omega
  have hzero : BitVec.ofNat 11 (n.log2 + 1023) ≠ 0#11 := fun h => by
    have hnat := congrArg BitVec.toNat h
    rw [hexponent] at hnat
    simp at hnat
  have hmantissa : (1#1 ++ BitVec.ofNat 52 (significand n)).toNat = significand n := by
    rw [BitVec.toNat_append, ← Nat.shiftLeft_add_eq_or_of_lt (BitVec.isLt _), BitVec.toNat_ofNat,
      Nat.shiftLeft_eq]
    simp
    omega
  have hvalue : ((n.log2 + 1023 : Nat) : Int) - (Format.binary64.exponentBias +
      Format.binary64.mantissaBitsWithoutImplicit) = (n.log2 : Int) - 52 := by
    show ((n.log2 + 1023 : Nat) : Int) - ((2 ^ (11 - 1) - 1 : Nat) + (52 : Nat)) = _
    omega
  rw [pack_wholeForm hn hpos, UnpackedFloat.unpack]
  simp only [unpackMantissa_packComponents, unpackExponent_packComponents,
    unpackSign_packComponents, Sign.ofBitVec_toBitVec]
  rw [if_neg hones, if_neg hzero]
  simp only [hmantissa, hexponent, hvalue, wholeForm]

def wholeModel (n : Nat) (h : 0 < significand n) : Float.Model := Float.Model.pack (wholeForm n h)

theorem unpack_wholeModel (hn : n < 2 ^ 53) (hpos : 0 < n) :
    (wholeModel n (significand_pos hpos)).unpack = wholeForm n (significand_pos hpos) :=
  unpack_pack_wholeForm hn hpos

theorem ofUInt64_eq (hn : n < 2 ^ 53) (hpos : 0 < n) :
    Float.Model.ofUInt64 n.toUInt64 = wholeModel n (significand_pos hpos) := by
  have hnat : n.toUInt64.toNat = n := by
    simp only [Nat.toUInt64_eq, UInt64.toNat_ofNat']
    omega
  rw [Float.Model.ofUInt64, UnpackedFloat.ofUInt64, hnat, ofNat_eq_wholeForm hn hpos]
  rfl

theorem ofNat_eq (hn : n < 2 ^ 53) (hpos : 0 < n) :
    Float.ofNat n = .ofModel (wholeModel n (significand_pos hpos)) := by
  obtain ⟨hlow, hhigh⟩ := significand_bounds hn hpos
  have hlog := log2_lt hn hpos
  have hone : (Float.ofBits 0x3FF0000000000000).toModel.unpack =
      .finite .positive (2 ^ 52) (-52) (by decide) := rfl
  -- a small number is multiplied by a power of ten, which is one for a whole number
  have hscientific : Float.ofNat n = n.toUInt64.toFloat * Float.ofBits 0x3FF0000000000000 :=
    dif_pos ⟨hn, by decide⟩
  have hmul : (wholeModel n (significand_pos hpos)).mul (Float.ofBits 0x3FF0000000000000).toModel =
      wholeModel n (significand_pos hpos) := by
    rw [Float.Model.mul, unpack_wholeModel hn hpos, hone, wholeForm, UnpackedFloat.mul]
    exact congrArg Float.Model.pack (round_exact (k := 52) hlow hhigh (by omega) _)
  rw [hscientific]
  show Float.ofModel ((Float.Model.ofUInt64 n.toUInt64).mul _) = _
  rw [ofUInt64_eq hn hpos, hmul]

theorem scaled_one (hn : n < 2 ^ 53) (hpos : 0 < n) :
    scaled 1 ((n.log2 : Int) - 52) = (1, 2 ^ (52 - n.log2)) := by
  have hlog := log2_lt hn hpos
  unfold scaled
  split
  · have hlast : n.log2 = 52 := by omega
    simp [hlast, powerOfTwo]
  · have hexponent : (-((n.log2 : Int) - 52)).toNat = 52 - n.log2 := by omega
    rw [hexponent]
    rfl

theorem exponentOf_one (hn : n < 2 ^ 53) (hpos : 0 < n) :
    exponentOf n 1 = (n.log2 : Int) - 52 := by
  have hlow : 2 ^ 52 ≤ n * 2 ^ (52 - n.log2) := (significand_bounds hn hpos).1
  have hone : (n.log2 : Int) - (Nat.log2 1 : Nat) - 52 = (n.log2 : Int) - 52 := by
    rw [show Nat.log2 1 = 0 from rfl]
    omega
  have hnot : ¬ n * 2 ^ (52 - n.log2) < powerOfTwo 52 * 1 := by
    rw [Nat.mul_one]
    exact Nat.not_lt.mpr hlow
  unfold exponentOf
  simp only [hone, scaled_one hn hpos, if_neg hnot]
  omega

/-- The bits that are worked out for a whole number are those of its packed form. -/
theorem toBitVec_bits (hn : n < 2 ^ 53) (hpos : 0 < n) :
    (UInt64.ofNat ((n.log2 + 1022) * 2 ^ 52 + significand n)).toBitVec =
      UnpackedFloat.pack .binary64 (wholeForm n (significand_pos hpos)) := by
  obtain ⟨hlow, hhigh⟩ := significand_bounds hn hpos
  have hlog := log2_lt hn hpos
  have hfraction : (BitVec.ofNat 52 (significand n)).toNat = significand n - 2 ^ 52 := by
    rw [BitVec.toNat_ofNat]
    omega
  have hexponent : (Sign.toBitVec .positive ++ BitVec.ofNat 11 (n.log2 + 1023)).toNat =
      n.log2 + 1023 := by
    rw [BitVec.toNat_append, ← Nat.shiftLeft_add_eq_or_of_lt (BitVec.isLt _), BitVec.toNat_ofNat]
    simp [Sign.toBitVec]
    omega
  rw [pack_wholeForm hn hpos]
  apply BitVec.eq_of_toNat_eq
  rw [packComponents, BitVec.toNat_append, ← Nat.shiftLeft_add_eq_or_of_lt (BitVec.isLt _),
    hexponent, hfraction, Nat.shiftLeft_eq]
  -- the first bit of the significand is carried into the exponent, which is one too small
  show (UInt64.ofNat _).toNat = _
  rw [UInt64.toNat_ofNat']
  simp only [Nat.reducePow] at *
  omega

/-- The double nearest to a whole number is the number. -/
theorem nearest_whole (hn : n < 2 ^ 53) (hpos : 0 < n) : nearest n 1 = Float.ofNat n := by
  have hhigh := (significand_bounds hn hpos).2
  have hlog := log2_lt hn hpos
  have hround : roundHalfEven (n * 2 ^ (52 - n.log2)) 1 = significand n := by
    simp [roundHalfEven, Nat.mod_one, significand]
  have hexponent : ((n.log2 : Int) - 52 + 1074).toNat = n.log2 + 1022 := by omega
  have hmin : min ((n.log2 + 1022) * powerOfTwo 52 + significand n) (2047 * powerOfTwo 52) =
      (n.log2 + 1022) * 2 ^ 52 + significand n := by
    refine Nat.min_eq_left ?_
    show (n.log2 + 1022) * 2 ^ 52 + significand n ≤ 2047 * 2 ^ 52
    omega
  have hmodel : Float.Model.ofBits (UInt64.ofNat ((n.log2 + 1022) * 2 ^ 52 + significand n)) =
      wholeModel n (significand_pos hpos) := by
    rw [Float.Model.ofBits, toBitVec_bits hn hpos, unpack_pack_wholeForm hn hpos]
    rfl
  unfold nearest
  rw [if_neg (by omega), ofNat_eq hn hpos]
  simp only [exponentOf_one hn hpos, scaled_one hn hpos, hround, hexponent, hmin]
  rw [Float.ofBits, hmodel]

/-- Different whole numbers are different as doubles. -/
theorem ofNat_beq {k : Nat} (hn : n < 2 ^ 53) (hpos : 0 < n) (hk : k < 2 ^ 53) (hkpos : 0 < k) :
    (Float.ofNat n == Float.ofNat k) = true ↔ n = k := by
  rw [ofNat_eq hn hpos, ofNat_eq hk hkpos]
  show ((wholeModel n _).unpack.compare (wholeModel k _).unpack == some .eq) = true ↔ _
  rw [unpack_wholeModel hn hpos, unpack_wholeModel hk hkpos, wholeForm, wholeForm,
    UnpackedFloat.compare]
  simp only [Option.some_beq_some, beq_iff_eq, Ordering.then_eq_eq, compare_eq_iff_eq]
  constructor
  · rintro ⟨hexponent, hsignificand⟩
    have hlog : n.log2 = k.log2 := by omega
    unfold significand at hsignificand
    rw [hlog] at hsignificand
    exact Nat.eq_of_mul_eq_mul_right (Nat.two_pow_pos _) hsignificand
  · rintro rfl
    exact ⟨rfl, rfl⟩

end MarkupQuery.Number
