import Mathlib
import MarkupQuery.Proofs.Number.Numerals

namespace MarkupQuery.Number

section Signs

open Float.Model Float.Model.UnpackedFloat

theorem unpacked_neg_neg (u : UnpackedFloat) : u.neg.neg = u := by
  have hsign : ∀ s : Sign, - -s = s := by
    rintro (_ | _) <;> rfl
  cases u <;> simp [UnpackedFloat.neg, hsign]

/-- The negation of what stands for some bits stands for some bits as well. -/
theorem exists_unpack_neg (b : BitVec Format.binary64.numBits) :
    ∃ b', Format.binary64.Valid b' ∧
      (UnpackedFloat.unpack .binary64 b).neg = UnpackedFloat.unpack .binary64 b' := by
  by_cases hnan : isNaNBits b = true
  · -- whatever its sign, what is no number is the same value, which has packed bits
    refine ⟨packedNaN .binary64, ⟨fun _ _ => rfl⟩, ?_⟩
    simp only [isNaNBits, decide_eq_true_eq] at hnan
    rw [unpack_packedNaN, UnpackedFloat.unpack, if_pos hnan.1, if_neg hnan.2]
    rfl
  · refine ⟨packComponents .binary64 (-Sign.ofBitVec (unpackSign b))
      (unpackExponent b) (unpackMantissa b), ⟨?_⟩, ?_⟩
    · rw [unpackExponent_packComponents, unpackMantissa_packComponents]
      intro hexponent hmantissa
      exact absurd (decide_eq_true ⟨hexponent, hmantissa⟩) hnan
    · unfold UnpackedFloat.unpack
      simp only [unpackExponent_packComponents, unpackMantissa_packComponents,
        unpackSign_packComponents, Sign.ofBitVec_toBitVec]
      split
      · split <;> rfl
      · split
        · split <;> rfl
        · rfl

theorem unpack_neg (x : Float) : (-x).toModel.unpack = x.toModel.unpack.neg := by
  obtain ⟨b, hb, hneg⟩ := exists_unpack_neg x.toModel.toBits.toBitVec
  have hpacked : UnpackedFloat.unpack .binary64
      (UnpackedFloat.pack .binary64 (UnpackedFloat.unpack .binary64 b)) =
        UnpackedFloat.unpack .binary64 b := by
    rw [pack_unpack_of_valid hb]
  rw [← hneg] at hpacked
  exact hpacked

theorem neg_neg (x : Float) : - -x = x := by
  rw [← Float.toBits_inj, ← UInt64.toBitVec_inj]
  show UnpackedFloat.pack .binary64 (-x).toModel.unpack.neg = x.toModel.toBits.toBitVec
  rw [unpack_neg, unpacked_neg_neg]
  exact pack_unpack_of_valid x.toModel.valid

theorem isNaN_neg (x : Float) : (-x).isNaN = x.isNaN := by
  show (-x).toModel.unpack.isNaN = x.toModel.unpack.isNaN
  rw [unpack_neg]
  cases x.toModel.unpack <;> rfl

/-- Bits up to those of infinity are those of a number. -/
theorem isNaN_ofBits {n : Nat} (h : n ≤ 2047 * 2 ^ 52) :
    (Float.ofBits (UInt64.ofNat n)).isNaN = false := by
  have hbits : (UInt64.ofNat n).toBitVec.toNat = n := by
    show (UInt64.ofNat n).toNat = n
    rw [UInt64.toNat_ofNat']
    omega
  have hnan : @isNaNBits .binary64 (UInt64.ofNat n).toBitVec = false := by
    refine decide_eq_false fun ⟨hexponent, hmantissa⟩ => hmantissa ?_
    have hscale := congrArg BitVec.toNat hexponent
    apply BitVec.eq_of_toNat_eq
    rw [unpackExponent_def, BitVec.extractLsb'_toNat, hbits, Nat.shiftRight_eq_div_pow] at hscale
    rw [unpackMantissa_def, BitVec.extractLsb'_toNat, hbits, Nat.shiftRight_eq_div_pow]
    have hones : (-BitVec.ofNat Format.binary64.exponentBits 1).toNat = 2047 := by decide
    rw [hones] at hscale
    show n / 2 ^ 0 % 2 ^ 52 = 0
    change n / 2 ^ 52 % 2 ^ 11 = 2047 at hscale
    omega
  have hvalid : Format.binary64.Valid (UInt64.ofNat n).toBitVec := ⟨fun hexponent hmantissa => by
    rw [isNaNBits, decide_eq_true ⟨hexponent, hmantissa⟩] at hnan
    cases hnan⟩
  rw [← Bool.not_eq_true]
  show ¬ (UnpackedFloat.unpack .binary64 (UnpackedFloat.pack .binary64
    (UnpackedFloat.unpack .binary64 (UInt64.ofNat n).toBitVec))).isNaN = true
  rw [pack_unpack_of_valid hvalid, isNaN_unpack_iff_of_valid hvalid]
  intro hpacked
  rw [hpacked, isNaNBits_packedNaN] at hnan
  cases hnan

end Signs

open MarkupQuery.Text

variable {s digits whole fraction : List Char} {negative : Bool} {x y : Float}

theorem isNaN_notANumber : notANumber.isNaN = true := by decide

/-- The double nearest to a quotient is a number, possibly infinity. -/
theorem isNaN_nearest (num den : Nat) : (nearest num den).isNaN = false := by
  unfold nearest
  split
  · decide
  · exact isNaN_ofBits (Nat.min_le_right _ _)

theorem isNaN_withSign (negative : Bool) (x : Float) : (withSign negative x).isNaN = x.isNaN := by
  cases negative with
  | false => rfl
  | true => exact isNaN_neg x

theorem withSign_inj : withSign negative x = withSign negative y ↔ x = y := by
  cases negative with
  | false => rfl
  | true => exact ⟨fun h => by rw [← neg_neg x, ← neg_neg y]; exact congrArg _ h, congrArg _⟩

theorem isNaN_of_numeral {r : List Char} (h : wholeNumeral? s = some (y, r)) : y.isNaN = false := by
  unfold wholeNumeral? at h
  dsimp only at h
  split at h
  all_goals
    split at h
    · cases h
    · obtain ⟨rfl, -⟩ := Prod.mk.inj (Option.some.inj h)
      exact isNaN_nearest _ _

/-- A string is read as a number by reading a numeral behind its sign, to the end. -/
theorem ofText_eq (s : List Char) : ofText s =
    let negative := (trim s).head? == some '-'
    match wholeNumeral? (if negative then (trim s).drop 1 else trim s) with
    | some (y, []) => withSign negative y
    | _ => notANumber := by
  unfold ofText
  dsimp only
  generalize ((trim s).head? == some '-') = negative
  generalize (if negative then (trim s).drop 1 else trim s) = digits
  rcases digits_cases digits with ⟨whole, fraction, after, rfl, hw, hf, hafter⟩ |
    ⟨whole, rest, rfl, hw, hrest⟩
  · obtain ⟨htake, hdrop⟩ := takeWhile_point hw
    rw [wholeNumeral_fraction hw hf hafter, htake, hdrop]
    -- both readers take the same digits; the string is a number if nothing is left behind them
    have hall : (fraction ++ after).all Char.isDigit = after.isEmpty := by
      cases after with
      | nil => simpa using hf
      | cons c after => simp [hafter c rfl]
    simp only [hall]
    cases after with
    | nil =>
      simp only [List.isEmpty_nil, if_true, List.append_nil]
      split <;> simp
    | cons c after =>
      simp only [List.isEmpty_cons, Bool.false_eq_true, if_false]
      cases whole.isEmpty && fraction.isEmpty <;> rfl
  · obtain ⟨htake, hdrop⟩ := takeWhile_digits hw fun c hc => (hrest c hc).1
    rw [wholeNumeral_whole hw hrest, htake, hdrop]
    cases rest with
    | nil => cases whole <;> simp
    | cons c rest => cases whole <;> simp [(hrest c rfl).2]

def minusSign (negative : Bool) : List Char := if negative then ['-'] else []

/-- No numeral starts with a sign. -/
theorem head_of_numeral {r : List Char} (h : wholeNumeral? s = some (y, r)) :
    s.head? ≠ some '-' := by
  intro hhead
  obtain ⟨s, rfl⟩ := List.head?_eq_some_iff.mp hhead
  have hnone : wholeNumeral? ('-' :: s) = none := rfl
  rw [hnone] at h
  cases h

theorem ofText_of_numeral (hs : trim s = minusSign negative ++ digits)
    (h : wholeNumeral? digits = some (y, [])) : ofText s = withSign negative y := by
  have hnegative : ((trim s).head? == some '-') = negative := by
    rw [hs]
    cases negative with
    | true => rfl
    | false => simpa [minusSign] using head_of_numeral h
  have hdigits : (if negative then (trim s).drop 1 else trim s) = digits := by
    rw [hs]
    cases negative <;> rfl
  rw [ofText_eq]
  dsimp only
  rw [hnegative, hdigits, h]

/-- A string that is a number is a numeral behind its sign. -/
theorem exists_numeral_of_ofText (h : (ofText s).isNaN = false) : ∃ negative digits y,
    trim s = minusSign negative ++ digits ∧ wholeNumeral? digits = some (y, []) := by
  rw [ofText_eq] at h
  dsimp only at h
  split at h
  · rename_i y hread
    refine ⟨(trim s).head? == some '-', _, y, ?_, hread⟩
    cases hnegative : (trim s).head? == some '-' with
    | false => rfl
    | true =>
      obtain ⟨rest, hrest⟩ := List.head?_eq_some_iff.mp (beq_iff_eq.mp hnegative)
      rw [hrest]
      rfl
  · rw [isNaN_notANumber] at h
    cases h

/-- A string is a number exactly if it is a numeral behind an optional minus sign, blanks around it
aside. It is the number that the numeral is read as where a query goes on behind it. Where a query
ends with the numeral that is the same number unless the numeral loses its fraction. -/
theorem ofText_numeral (s : List Char) :
    ((ofText s).isNaN = false ↔ ∃ negative digits x,
      trim s = minusSign negative ++ digits ∧ numeral? digits = some (x, [])) ∧
    ∀ negative digits x, trim s = minusSign negative ++ digits → numeral? digits = some (x, []) →
      (∃ y, numeral? (digits ++ [' ']) = some (y, [' ']) ∧ ofText s = withSign negative y) ∧
      (ofText s = withSign negative x ↔ ¬ LosesFraction digits) := by
  constructor
  · constructor
    · intro h
      obtain ⟨negative, digits, y, hs, hread⟩ := exists_numeral_of_ofText h
      obtain ⟨x, hx⟩ := exists_numeral_iff.mpr ⟨y, hread⟩
      exact ⟨negative, digits, x, hs, hx⟩
    · rintro ⟨negative, digits, x, hs, hx⟩
      obtain ⟨y, hread⟩ := exists_numeral_iff.mp ⟨x, hx⟩
      rw [ofText_of_numeral hs hread, isNaN_withSign, isNaN_of_numeral hread]
  · intro negative digits x hs hx
    obtain ⟨y, hread⟩ := exists_numeral_iff.mp ⟨x, hx⟩
    rw [ofText_of_numeral hs hread]
    refine ⟨⟨y, numeral_append_space.mp hread, rfl⟩, ?_⟩
    rw [withSign_inj, ← numeral_eq_whole_iff, hx, hread]
    simp [eq_comm]

/-- Nothing stands in front of the point, so the fraction counts in a query as well. -/
theorem ofText_numeral_signed : trim " -.50 ".toList = minusSign true ++ ".50".toList ∧
    numeral? ".50".toList = some (ofDigits [] ['5', '0'], []) ∧
    (ofText " -.50 ".toList).isNaN = false ∧
    ofText " -.50 ".toList = withSign true (ofDigits [] ['5', '0']) := by
  have hs : trim " -.50 ".toList = minusSign true ++ ".50".toList := by decide
  have hx : numeral? ".50".toList = some (ofDigits [] ['5', '0'], []) := by decide +kernel
  have hsame : numeral? ".50".toList = wholeNumeral? ".50".toList := by decide +kernel
  obtain ⟨hnumber, hvalue⟩ := ofText_numeral " -.50 ".toList
  exact ⟨hs, hx, hnumber.mpr ⟨true, _, _, hs, hx⟩,
    (hvalue true _ _ hs hx).2.mpr (numeral_eq_whole_iff.mp hsame)⟩

/-- A string that is a number, with its fraction, and a query that is the same text. -/
theorem fraction_counted : ∃ x, trim "1.5".toList = minusSign false ++ "1.5".toList ∧
    numeral? "1.5".toList = some (x, []) ∧ ofText "1.5".toList ≠ withSign false x := by
  refine ⟨ofDigits ['1'] [], ?_, ?_, ?_⟩ <;> decide +kernel

end MarkupQuery.Number
