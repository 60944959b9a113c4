import Mathlib
import LineBasic.Proofs.Unsigned
import LineBasic.Number.Binary

/-!
# Whole numbers as doubles

The parts that are cut from the bits of a double are those of its logical model, so the model's
rounding says which doubles are whole numbers. Main statements: every natural number below `2 ^ 53`
converts to a double that is that number, and from one up that double is the only one.
-/

namespace LineBasic.Number

set_option autoImplicit false

open Float.Model Float.Model.UnpackedFloat

/-! ### The parts of a double -/

theorem toNat_unpackMantissa (b : BitVec 64) :
    (@unpackMantissa .binary64 b).toNat = b.toNat % Binary.leadingBit := by
  change (BitVec.extractLsb 51 0 b).toNat = _
  simp [BitVec.extractLsb_toNat, Binary.leadingBit]

theorem toNat_unpackExponent (b : BitVec 64) :
    (@unpackExponent .binary64 b).toNat = b.toNat / Binary.leadingBit % 2048 := by
  change (BitVec.extractLsb 62 52 b).toNat = _
  simp [BitVec.extractLsb_toNat, Binary.leadingBit, Nat.shiftRight_eq_div_pow]

theorem toNat_unpackSign (b : BitVec 64) :
    (@unpackSign .binary64 b).toNat = b.toNat / Binary.signBit % 2 := by
  change (BitVec.extractLsb 63 63 b).toNat = _
  simp [BitVec.extractLsb_toNat, Binary.signBit, Nat.shiftRight_eq_div_pow]

/-- The exact value of a number with its parts taken apart. -/
def Binary.ofUnpacked? : UnpackedFloat → Option Binary
  | .infinity _ | .notANumber => none
  | .zero sign => some ⟨sign == .negative, 0, -1074⟩
  | .finite sign mantissa exponent _ => some ⟨sign == .negative, mantissa, exponent⟩

theorem isNegative_unpackSign (b : BitVec 64) :
    (Sign.ofBitVec (@unpackSign .binary64 b) == .negative) =
      (b.toNat / Binary.signBit % 2 == 1) := by
  rw [← toNat_unpackSign b]
  generalize @unpackSign .binary64 b = s
  revert s
  decide

theorem toNat_leading (v : BitVec 52) : (1#1 ++ v).toNat = Binary.leadingBit + v.toNat := by
  rw [BitVec.toNat_append, ← Nat.shiftLeft_add_eq_or_of_lt v.isLt]
  rfl

theorem ofFloat?_eq (x : Float) : Binary.ofFloat? x = Binary.ofUnpacked? x.toModel.unpack := by
  have hfraction := toNat_unpackMantissa x.toBits.toBitVec
  have hfield := toNat_unpackExponent x.toBits.toBitVec
  have hsign := isNegative_unpackSign x.toBits.toBitVec
  change Binary.ofFloat? x = Binary.ofUnpacked? (UnpackedFloat.unpack .binary64 x.toBits.toBitVec)
  unfold Binary.ofFloat? UnpackedFloat.unpack
  rw [UInt64.toNat_toBitVec] at hfraction hfield hsign
  dsimp only
  rw [← hsign, ← hfield, ← hfraction]
  generalize Sign.ofBitVec (@unpackSign .binary64 x.toBits.toBitVec) = sign
  generalize @unpackExponent .binary64 x.toBits.toBitVec = exponent
  change BitVec 11 at exponent
  by_cases hones : exponent = -1#11
  · have hall : exponent.toNat = 2047 := congrArg BitVec.toNat hones
    rw [if_pos hall, if_pos hones]
    split <;> rfl
  · have hfinite : exponent.toNat ≠ 2047 := fun h => hones (BitVec.eq_of_toNat_eq h)
    rw [if_neg hfinite, if_neg hones]
    by_cases hzero : exponent = 0#11
    · have hnone : exponent.toNat = 0 := congrArg BitVec.toNat hzero
      rw [if_pos hnone, if_pos hzero, hnone]
      split
      · rename_i hm
        rw [hm]
        rfl
      · rfl
    · have hnormal : exponent.toNat ≠ 0 := fun h => hzero (BitVec.eq_of_toNat_eq h)
      rw [if_neg hnormal, if_neg hzero]
      refine congrArg some ?_
      rw [Binary.mk.injEq]
      exact ⟨rfl, (toNat_leading _).symm, rfl⟩

theorem isSome_ofFloat? (x : Float) : (Binary.ofFloat? x).isSome = x.isFinite := by
  rw [ofFloat?_eq]
  change _ = x.toModel.unpack.isFinite
  cases x.toModel.unpack <;> rfl

theorem pack_unpack_eq (f : Float.Model) : Float.Model.pack f.unpack = f := by
  -- Batteries has this of bits; of Mathlib's modules only the whole library imports it.
  have hpacked := @pack_unpack .binary64 f.toBits.toBitVec (by decide)
  have hbits : (Float.Model.pack f.unpack).toBits = f.toBits := by
    apply UInt64.toBitVec_inj.mp
    refine hpacked.trans ?_
    split
    · rename_i hnan
      obtain ⟨hones, hm⟩ := of_decide_eq_true hnan
      exact (f.valid.eq_packedNaN hones hm).symm
    · rfl
  cases f
  generalize Float.Model.pack _ = g at hbits ⊢
  cases g
  subst hbits
  rfl

theorem eq_of_unpack {x y : Float} (h : x.toModel.unpack = y.toModel.unpack) : x = y := by
  cases x
  cases y
  exact congrArg Float.ofModel
    ((pack_unpack_eq _).symm.trans ((congrArg _ h).trans (pack_unpack_eq _)))

/-! ### Full mantissas -/

/-- The mantissas and exponents of all but the smallest doubles. -/
structure IsNormal (mantissa : Nat) (exponent : Int) : Prop where
  lower : Binary.leadingBit ≤ mantissa
  upper : mantissa < 2 * Binary.leadingBit
  least : -1074 ≤ exponent
  most : exponent ≤ 971

namespace IsNormal

variable {m : Nat} {e : Int} (h : IsNormal m e)
include h

theorem pos : 0 < m :=
  Nat.lt_of_lt_of_le (by decide) h.lower

theorem log2_mul (k : Nat) : (m * 2 ^ k).log2 = 52 + k := by
  rw [Nat.log2_eq_iff (Nat.mul_pos h.pos (Nat.two_pow_pos k)).ne', Nat.pow_add,
    show 52 + k + 1 = 53 + k from by omega, Nat.pow_add]
  exact ⟨Nat.mul_le_mul_right _ h.lower, Nat.mul_lt_mul_of_pos_right h.upper (Nat.two_pow_pos k)⟩

theorem target (k : Nat) :
    Format.binary64.targetExponent (totalExponent (m * 2 ^ k) (e - k)) = e := by
  have hleast := h.least
  simp only [Format.targetExponent, totalExponent, h.log2_mul, Format.mantissaBits,
    Format.minExponent]
  omega

omit h in
theorem shift_exact (k : Nat) :
    (ExtendedMantissa.ofMantissaAndAccuracy (m * 2 ^ k) .exact >>> k) =
      ExtendedMantissa.ofMantissaAndAccuracy m .exact := by
  induction k generalizing m with
  | zero => rw [Nat.pow_zero, Nat.mul_one]; rfl
  | succ k ih =>
    have hdouble : m * 2 ^ (k + 1) = m * 2 * 2 ^ k := by rw [Nat.pow_succ]; ring
    change ExtendedMantissa.shiftRightOne
      (ExtendedMantissa.ofMantissaAndAccuracy (m * 2 ^ (k + 1)) .exact >>> k) = _
    rw [hdouble, ih]
    simp [ExtendedMantissa.shiftRightOne, ExtendedMantissa.ofMantissaAndAccuracy]

theorem round_shifted (sign : Sign) (k : Nat) :
    roundWithAccuracy .binary64 sign (m * 2 ^ k) (e - k) .exact = .finite sign m e h.pos := by
  have hshift (m : Nat) (k : Nat) (ht : Format.binary64.targetExponent
      (totalExponent (m * 2 ^ k) (e - k)) = e) :
      shiftToTargetExponent .binary64 (m * 2 ^ k) (e - k) .exact =
        (ExtendedMantissa.ofMantissaAndAccuracy m .exact, e) := by
    have hk : (e - (e - k)).toNat = k := by omega
    simp only [shiftToTargetExponent, ht, shiftToExponent, hk, shift_exact]
    rw [Int.sub_add_cancel]
  have hagain := hshift m 0 (h.target 0)
  rw [Nat.pow_zero, Nat.mul_one, Int.natCast_zero, Int.sub_zero] at hagain
  have hrounded : (ExtendedMantissa.ofMantissaAndAccuracy m .exact).roundedMantissa = m := rfl
  simp only [roundWithAccuracy, hshift m k (h.target k), hrounded, hagain]
  exact dif_neg h.pos.ne'

theorem unpack_pack (sign : Sign) :
    (Float.Model.pack (.finite sign m e h.pos)).unpack = .finite sign m e h.pos := by
  have hlog : m.log2 = 52 := by simpa using h.log2_mul 0
  obtain ⟨hlower, hupper, hleast, hmost⟩ := h
  have hbiased : (e + 1023 + 52).toNat < 2047 := by omega
  have hpositive : 0 < (e + 1023 + 52).toNat := by omega
  have hpack (hpos : 0 < m) : UnpackedFloat.pack .binary64 (.finite sign m e hpos) =
      packComponents .binary64 sign (BitVec.ofNat 11 (e + 1023 + 52).toNat)
        (BitVec.ofNat 52 m) := by
    change (if _ then _ else if m.log2 + 1 = 53 then _ else _) = _
    rw [hlog, if_pos rfl, if_neg]
    · rfl
    · change ¬ 2 ^ 11 ≤ (e + 1023 + 52).toNat + 1
      omega
  have hexponent : (BitVec.ofNat 11 (e + 1023 + 52).toNat).toNat = (e + 1023 + 52).toNat := by
    rw [BitVec.toNat_ofNat]
    omega
  change UnpackedFloat.unpack .binary64 (UnpackedFloat.pack .binary64 _) = _
  rw [hpack]
  unfold UnpackedFloat.unpack
  simp only [unpackMantissa_packComponents, unpackExponent_packComponents,
    unpackSign_packComponents]
  rw [if_neg, if_neg]
  · simp only [finite.injEq]
    refine ⟨by cases sign <;> rfl, ?_, ?_⟩
    · refine (toNat_leading _).trans ?_
      rw [BitVec.toNat_ofNat]
      unfold Binary.leadingBit at *
      omega
    · change ((BitVec.ofNat 11 (e + 1023 + 52).toNat).toNat : Int) - (1023 + 52) = e
      rw [hexponent]
      omega
  · intro hzero
    have hnone : (BitVec.ofNat 11 (e + 1023 + 52).toNat).toNat = 0 := congrArg BitVec.toNat hzero
    omega
  · intro hones
    have hall : (BitVec.ofNat 11 (e + 1023 + 52).toNat).toNat = 2047 := congrArg BitVec.toNat hones
    omega

end IsNormal

theorem unpack_finite {x : Float} {sign : Sign} {m : Nat} {e : Int} {hpos : 0 < m}
    (h : x.toModel.unpack = .finite sign m e hpos) :
    IsNormal m e ∨ m < Binary.leadingBit ∧ e = -1074 := by
  have hparts := ofFloat?_eq x
  rw [h] at hparts
  have hfraction := Nat.mod_lt x.toBits.toNat (show 0 < Binary.leadingBit from by decide)
  have hfield := Nat.mod_lt (x.toBits.toNat / Binary.leadingBit) (show 0 < 2048 from by decide)
  unfold Binary.ofFloat? at hparts
  dsimp only [Binary.ofUnpacked?] at hparts
  generalize x.toBits.toNat % Binary.leadingBit = fraction at *
  generalize x.toBits.toNat / Binary.leadingBit % 2048 = field at *
  split at hparts
  · cases hparts
  · split at hparts
    · obtain ⟨-, rfl, rfl⟩ := Binary.mk.inj (Option.some.inj hparts)
      exact .inr ⟨hfraction, rfl⟩
    · obtain ⟨-, rfl, rfl⟩ := Binary.mk.inj (Option.some.inj hparts)
      exact .inl ⟨by omega, by omega, by omega, by omega⟩

/-! ### Natural numbers -/

/-- The places by which a natural number is moved to fill a mantissa. -/
def padding (n : Nat) : Nat :=
  52 - n.log2

theorem isNormal_padded {n : Nat} (hpos : 0 < n) (hlt : n < 2 * Binary.leadingBit) :
    IsNormal (n * 2 ^ padding n) (-padding n) := by
  have hlog : n.log2 ≤ 52 := Nat.le_of_lt_succ ((Nat.log2_lt hpos.ne').mpr hlt)
  have hbelow : 2 ^ n.log2 * 2 ^ padding n = Binary.leadingBit := by
    rw [← Nat.pow_add, padding, Nat.add_sub_cancel' hlog]
    rfl
  have hlower := Nat.mul_le_mul_right (2 ^ padding n) (Nat.log2_self_le hpos.ne')
  have hupper := Nat.mul_lt_mul_of_pos_right (@Nat.lt_log2_self n) (Nat.two_pow_pos (padding n))
  have hp : padding n ≤ 52 := Nat.sub_le _ _
  refine ⟨hbelow ▸ hlower, ?_, by omega, by omega⟩
  rw [← hbelow]
  calc n * 2 ^ padding n < 2 ^ (n.log2 + 1) * 2 ^ padding n := hupper
    _ = 2 * (2 ^ n.log2 * 2 ^ padding n) := by ring

theorem round_nat {n : Nat} (hpos : 0 < n) (hlt : n < 2 * Binary.leadingBit) :
    UnpackedFloat.ofNat .binary64 n =
      .finite .positive (n * 2 ^ padding n) (-padding n) (isNormal_padded hpos hlt).pos := by
  have hnormal := isNormal_padded hpos hlt
  have hcompare : compare (n : Int) 0 = .gt := compare_gt_iff_gt.mpr (by omega)
  have htarget : Format.binary64.targetExponent (totalExponent n 0) = -padding n := by
    have hlog : n.log2 < 53 := (Nat.log2_lt hpos.ne').mpr hlt
    simp only [Format.targetExponent, totalExponent, Format.mantissaBits, Format.minExponent,
      padding]
    omega
  have hshift : decreaseExponent n 0 (-padding n) = (n * 2 ^ padding n, -(padding n : Int)) := by
    simp [decreaseExponent, Nat.shiftLeft_eq]
  have hround := hnormal.round_shifted .positive 0
  rw [Nat.pow_zero, Nat.mul_one, Int.natCast_zero, Int.sub_zero] at hround
  simp only [UnpackedFloat.ofNat, UnpackedFloat.ofInt, UnpackedFloat.normalize, hcompare,
    UnpackedFloat.round, Int.toNat_natCast, htarget, hshift, hround]

/-- A natural number is scaled by a power of ten, which is one here. -/
theorem unpack_ofNat {n : Nat} (hpos : 0 < n) (hlt : n < 2 * Binary.leadingBit) :
    (Float.ofNat n).toModel.unpack =
      .finite .positive (n * 2 ^ padding n) (-padding n) (isNormal_padded hpos hlt).pos := by
  have hnormal := isNormal_padded hpos hlt
  have hsmall : n % 2 ^ 64 = n := Nat.mod_eq_of_lt (Nat.lt_of_lt_of_le hlt (by decide))
  have hscaled : Float.ofNat n = n.toUInt64.toFloat * 1 := by
    change Float.ofScientific n false 0 = _
    unfold Float.ofScientific
    rw [dif_pos ⟨hlt, by decide⟩]
    rfl
  have hfirst : n.toUInt64.toFloat.toModel.unpack =
      .finite .positive (n * 2 ^ padding n) (-padding n) hnormal.pos := by
    change (Float.Model.pack (UnpackedFloat.ofUInt64 .binary64 n.toUInt64)).unpack = _
    rw [UnpackedFloat.ofUInt64, UInt64.toNat_ofNat', hsmall, round_nat hpos hlt,
      hnormal.unpack_pack]
  have hone : (1 : Float).toModel.unpack = .finite .positive (2 ^ 52) (-52) (by decide) := rfl
  rw [hscaled]
  change (Float.Model.pack (UnpackedFloat.mul .binary64 n.toUInt64.toFloat.toModel.unpack
    (1 : Float).toModel.unpack)).unpack = _
  rw [hfirst, hone]
  change (Float.Model.pack (roundWithAccuracy .binary64 .positive (n * 2 ^ padding n * 2 ^ 52)
    (-padding n - (52 : Nat)) .exact)).unpack = _
  rw [hnormal.round_shifted, hnormal.unpack_pack]

theorem shift_padded (n k : Nat) : Binary.shift (n * 2 ^ k) (-k) = n := by
  unfold Binary.shift
  split
  · obtain rfl : k = 0 := by omega
    simp
  · rw [Int.neg_neg, Int.toNat_natCast]
    exact Nat.mul_div_cancel n (Nat.two_pow_pos k)

theorem isWhole_padded (negative : Bool) (n k : Nat) :
    (Binary.mk negative (n * 2 ^ k) (-k)).isWhole = true := by
  have hrest : n * 2 ^ k % Nat.pow 2 (- -(k : Int)).toNat = 0 := by
    rw [Int.neg_neg, Int.toNat_natCast]
    exact Nat.mul_mod_left n (2 ^ k)
  rw [Binary.isWhole, hrest]
  simp

theorem nat?_ofNat {n : Nat} (hlt : n < 2 * Binary.leadingBit) : nat? (Float.ofNat n) = some n := by
  rcases Nat.eq_zero_or_pos n with rfl | hpos
  · decide +kernel
  · have hparts : Binary.ofFloat? (Float.ofNat n) =
        some ⟨false, n * 2 ^ padding n, -padding n⟩ := by
      rw [ofFloat?_eq, unpack_ofNat hpos hlt]
      rfl
    simp only [nat?, whole?, hparts, isWhole_padded, Binary.wholePart, shift_padded]
    rfl

theorem parts_of_nat? {x : Float} {n : Nat} (h : nat? x = some n) (hpos : 0 < n) :
    ∃ m e hm, x.toModel.unpack = .finite .positive m e hm ∧
      (Binary.mk false m e).isWhole = true ∧ Binary.shift m e = n := by
  have hwhole : whole? x = some (n : Int) := by
    unfold nat? at h
    split at h
    · rename_i k hk
      rw [hk, Option.some.inj h]
      rfl
    · cases h
  unfold whole? at hwhole
  rw [ofFloat?_eq] at hwhole
  cases hx : x.toModel.unpack with
  | infinity sign => rw [hx] at hwhole; cases hwhole
  | notANumber => rw [hx] at hwhole; cases hwhole
  | zero sign =>
    rw [hx] at hwhole
    have hnone : Binary.wholePart ⟨sign == .negative, 0, -1074⟩ = 0 := Nat.zero_div _
    simp only [Binary.ofUnpacked?, hnone, Int.natCast_zero, Int.neg_zero, ite_self] at hwhole
    split at hwhole
    · have := Option.some.inj hwhole
      omega
    · cases hwhole
  | finite sign m e hm =>
    rw [hx] at hwhole
    simp only [Binary.ofUnpacked?] at hwhole
    split at hwhole
    · rename_i hisWhole
      have hvalue := Option.some.inj hwhole
      cases sign with
      | positive => exact ⟨m, e, hm, rfl, hisWhole, Int.ofNat_inj.mp hvalue⟩
      | negative =>
        change -(Binary.wholePart _ : Int) = n at hvalue
        omega
    · cases hwhole

/-- A whole number below `2 ^ 53` is a mantissa without the zeros at its end. -/
theorem IsNormal.shifted {m n : Nat} {e : Int} (h : IsNormal m e)
    (hwhole : (Binary.mk false m e).isWhole = true) (hshift : Binary.shift m e = n)
    (hlt : n < 2 * Binary.leadingBit) : ∃ k : Nat, e = -k ∧ m = n * 2 ^ k := by
  unfold Binary.shift at hshift
  split at hshift
  · rename_i hnonneg
    obtain ⟨k, rfl⟩ := Int.eq_ofNat_of_zero_le hnonneg
    rw [Int.toNat_natCast] at hshift
    cases k with
    | zero => exact ⟨0, rfl, by rw [← hshift]; simp⟩
    | succ k =>
      have hlower := Nat.mul_le_mul h.lower (Nat.pow_le_pow_right Nat.two_pos (Nat.le_add_left 1 k))
      change _ ≤ m * Nat.pow 2 (k + 1) at hlower
      omega
  · rename_i hneg
    refine ⟨(-e).toNat, by omega, ?_⟩
    have hrest : m % 2 ^ (-e).toNat = 0 := by simpa [Binary.isWhole, hneg] using hwhole
    rw [← hshift]
    exact (Nat.div_mul_cancel (Nat.dvd_of_mod_eq_zero hrest)).symm

theorem IsNormal.le_of_shifted {n k l : Nat} {e e' : Int} (h : IsNormal (n * 2 ^ k) e)
    (h' : IsNormal (n * 2 ^ l) e') : k ≤ l := by
  refine Nat.le_of_not_lt fun hlt => Nat.not_lt.mpr ?_ h.upper
  calc 2 * Binary.leadingBit ≤ 2 * (n * 2 ^ l) := Nat.mul_le_mul_left 2 h'.lower
    _ = n * 2 ^ (l + 1) := by ring
    _ ≤ n * 2 ^ k := Nat.mul_le_mul_left n (Nat.pow_le_pow_right (by decide) hlt)

theorem eq_ofNat {x : Float} {n : Nat} (h : nat? x = some n) (hpos : 0 < n)
    (hlt : n < 2 * Binary.leadingBit) : x = Float.ofNat n := by
  obtain ⟨m, e, hm, hx, hwhole, hshift⟩ := parts_of_nat? h hpos
  rcases unpack_finite hx with hnormal | ⟨hsmall, rfl⟩
  · obtain ⟨k, rfl, rfl⟩ := hnormal.shifted hwhole hshift hlt
    have hpadded := isNormal_padded hpos hlt
    obtain rfl : k = padding n :=
      Nat.le_antisymm (hnormal.le_of_shifted hpadded) (hpadded.le_of_shifted hnormal)
    exact eq_of_unpack (hx.trans (unpack_ofNat hpos hlt).symm)
  · -- the smallest doubles are below one
    have hbelow (k : Nat) (hk : 52 ≤ k) : m / Nat.pow 2 k = 0 :=
      Nat.div_eq_of_lt (Nat.lt_of_lt_of_le hsmall (Nat.pow_le_pow_right Nat.two_pos hk))
    rw [Binary.shift, if_neg (by decide), hbelow _ (by decide)] at hshift
    omega

end LineBasic.Number
