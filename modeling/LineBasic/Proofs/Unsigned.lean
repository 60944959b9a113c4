import LineBasic.Number.Read

/-!
# Numbers without a sign

A number that is written in a program has no sign: signs are operators. So the number that is read
is neither negative nor undefined, though it may be infinite. This is followed through the
arithmetic of reading, which multiplies, divides and adds such numbers only.
-/

namespace LineBasic.Number

set_option autoImplicit false

open Float.Model
open Float.Model.UnpackedFloat

/-- Neither negative nor undefined; a zero has a positive sign. -/
inductive IsUnsigned : UnpackedFloat → Prop where
  | infinity : IsUnsigned (.infinity .positive)
  | zero : IsUnsigned (.zero .positive)
  | finite (mantissa : Nat) (exponent : Int) (h : 0 < mantissa) :
      IsUnsigned (.finite .positive mantissa exponent h)

/-- Positive and finite. -/
def isScale : UnpackedFloat → Bool
  | .finite .positive .. => true
  | _ => false

/-- A number as it can be written in a program. -/
def Unsigned (x : Float) : Prop :=
  IsUnsigned x.toModel.unpack

theorem unpackSign_packComponents {spec : Format} (sign : Sign) (exponent : BitVec spec.exponentBits)
    (mantissa : BitVec spec.mantissaBitsWithoutImplicit) :
    unpackSign (packComponents spec sign exponent mantissa) = sign.toBitVec := by
  ext i hi
  obtain rfl : i = 0 := by omega
  change ((BitVec.extractLsb (spec.mantissaBitsWithoutImplicit + spec.exponentBits)
    (spec.mantissaBitsWithoutImplicit + spec.exponentBits)
    (sign.toBitVec ++ exponent ++ mantissa)).cast _)[0] = _
  simp [BitVec.getElem_append, BitVec.getLsbD_append]

theorem isUnsigned_dite {c : Prop} [Decidable c] {f : c → UnpackedFloat} {g : ¬c → UnpackedFloat}
    (hf : ∀ h, IsUnsigned (f h)) (hg : ∀ h, IsUnsigned (g h)) : IsUnsigned (dite c f g) := by
  split
  · exact hf _
  · exact hg _

theorem isUnsigned_ite {c : Prop} [Decidable c] {f g : UnpackedFloat} (hf : IsUnsigned f)
    (hg : IsUnsigned g) : IsUnsigned (if c then f else g) := by
  split
  · exact hf
  · exact hg

theorem isUnsigned_unpack {bits : BitVec 64}
    (hsign : Sign.ofBitVec (@unpackSign .binary64 bits) = .positive)
    (h : @unpackExponent .binary64 bits = -1#11 → @unpackMantissa .binary64 bits = 0#52) :
    IsUnsigned (UnpackedFloat.unpack .binary64 bits) := by
  unfold UnpackedFloat.unpack
  dsimp only
  rw [hsign]
  by_cases hones : @unpackExponent .binary64 bits = -1#11
  · rw [if_pos hones, if_pos (h hones)]
    exact .infinity
  · rw [if_neg hones]
    exact isUnsigned_ite (isUnsigned_dite (fun _ => .zero) fun _ => .finite ..) (.finite ..)

theorem isUnsigned_components {exponent : BitVec 11} {mantissa : BitVec 52}
    (h : exponent = -1#11 → mantissa = 0#52) : IsUnsigned (UnpackedFloat.unpack .binary64
      (packComponents .binary64 .positive exponent mantissa)) := by
  apply isUnsigned_unpack
  · rw [unpackSign_packComponents]
    rfl
  · rw [unpackExponent_packComponents, unpackMantissa_packComponents]
    exact h

section

variable {f g : UnpackedFloat}

theorem IsUnsigned.pack (h : IsUnsigned f) : IsUnsigned (Float.Model.pack f).unpack := by
  change IsUnsigned (UnpackedFloat.unpack .binary64 (UnpackedFloat.pack .binary64 f))
  cases h with
  | infinity => exact isUnsigned_components fun _ => rfl
  | zero => exact isUnsigned_components fun _ => rfl
  | finite mantissa exponent h =>
    unfold UnpackedFloat.pack
    dsimp only
    generalize (exponent + _ + _).toNat = biased
    split
    · exact isUnsigned_components fun _ => rfl
    · rename_i hfits
      split
      · -- the exponent of a number that does not overflow is not that of infinity
        refine isUnsigned_components fun hones => absurd (congrArg BitVec.toNat hones) ?_
        have hlarge : (-1#11).toNat = 2047 := rfl
        rw [BitVec.toNat_ofNat, hlarge]
        omega
      · exact isUnsigned_components fun hones => absurd hones (by decide)

theorem isUnsigned_round (mantissa : Nat) (exponent : Int) (accuracy : Accuracy) :
    IsUnsigned (roundWithAccuracy .binary64 .positive mantissa exponent accuracy) := by
  unfold roundWithAccuracy
  exact isUnsigned_dite (fun _ => .zero) fun _ => .finite ..

theorem isUnsigned_normalize {mantissa : Int} (h : 0 ≤ mantissa) (exponent : Int) :
    IsUnsigned (UnpackedFloat.normalize .binary64 mantissa exponent .positive) := by
  unfold UnpackedFloat.normalize
  split
  · rename_i hlt
    exact absurd (Int.compare_eq_lt.mp hlt) (Int.not_lt.mpr h)
  · exact .zero
  · exact isUnsigned_round ..

theorem eq_finite_of_isScale (h : isScale f = true) :
    ∃ mantissa exponent hpos, f = .finite .positive mantissa exponent hpos := by
  cases f with
  | finite sign mantissa exponent hpos =>
    cases sign with
    | positive => exact ⟨mantissa, exponent, hpos, rfl⟩
    | negative => cases h
  | _ => cases h

theorem IsUnsigned.mul (h : IsUnsigned f) (hg : isScale g = true) :
    IsUnsigned (UnpackedFloat.mul .binary64 f g) := by
  obtain ⟨m, e, hm, rfl⟩ := eq_finite_of_isScale hg
  cases h with
  | infinity => exact .infinity
  | zero => exact .zero
  | finite => exact isUnsigned_round ..

theorem IsUnsigned.div (h : IsUnsigned f) (hg : isScale g = true) :
    IsUnsigned (UnpackedFloat.div .binary64 f g) := by
  obtain ⟨m, e, hm, rfl⟩ := eq_finite_of_isScale hg
  cases h with
  | infinity => exact .infinity
  | zero => exact .zero
  | finite => exact isUnsigned_round ..

theorem IsUnsigned.add (hf : IsUnsigned f) (hg : IsUnsigned g) :
    IsUnsigned (UnpackedFloat.add .binary64 f g) := by
  cases hf with
  | infinity => cases hg <;> exact .infinity
  | zero => cases hg <;> constructor
  | finite m e hm =>
    cases hg with
    | infinity => exact .infinity
    | zero => exact .finite ..
    | finite m' e' hm' =>
      exact isUnsigned_normalize (Int.add_nonneg (Int.natCast_nonneg _) (Int.natCast_nonneg _)) _

theorem isUnsigned_ofScientific (m : Nat) (e : Int) :
    IsUnsigned (UnpackedFloat.ofScientific .binary64 m e) := by
  unfold UnpackedFloat.ofScientific
  refine isUnsigned_dite (fun _ => .zero) fun _ => ?_
  refine isUnsigned_ite .infinity (isUnsigned_ite .zero (isUnsigned_ite ?_ ?_))
  · exact (IsUnsigned.finite ..).mul rfl
  · exact (IsUnsigned.finite ..).div rfl

end

theorem isScale_powersOfTen :
    ∀ x ∈ Float.exactlyRepresentablePowersOfTen, isScale x.toModel.unpack = true := by
  decide +kernel

theorem unsigned_ofScientific (m : Nat) (negative : Bool) (e : Nat) :
    Unsigned (Float.ofScientific m negative e) := by
  unfold Float.ofScientific
  split
  · have hwhole : Unsigned m.toUInt64.toFloat :=
      (isUnsigned_normalize (Int.natCast_nonneg _) 0).pack
    dsimp only
    split
    · exact (hwhole.div (isScale_powersOfTen _ (Array.getElem_mem _))).pack
    · exact (hwhole.mul (isScale_powersOfTen _ (Array.getElem_mem _))).pack
  · exact (isUnsigned_ofScientific ..).pack

theorem unsigned_ofDecimal (whole fraction : List Char) (exponent : Int) :
    Unsigned (ofDecimal whole fraction exponent) := by
  unfold ofDecimal
  dsimp only
  split
  · exact unsigned_ofScientific ..
  · split
    · exact unsigned_ofScientific ..
    · split
      · exact unsigned_ofScientific ..
      · split
        · exact unsigned_ofScientific ..
        · exact unsigned_ofScientific ..

theorem unsigned_ofHexDigits (cs : List Char) : Unsigned (ofHexDigits cs) := by
  have hsixteen : isScale (16 : Float).toModel.unpack = true := by decide +kernel
  unfold ofHexDigits
  generalize hstart : (0 : Float) = x
  have hx : Unsigned x := hstart ▸ unsigned_ofScientific ..
  clear hstart
  induction cs generalizing x with
  | nil => exact hx
  | cons c cs ih => exact ih _ ((hx.mul hsixteen).pack.add (unsigned_ofScientific ..)).pack

theorem Unsigned.nonneg {x : Float} (h : Unsigned x) : 0 ≤ x := by
  have hzero : ((0 : Float).toModel.unpack == .zero .positive) = true := by decide +kernel
  have hunsigned : Unsigned 0 := unsigned_ofScientific ..
  refine decide_eq_true (p := (0 : Float).toModel ≤ x.toModel) ?_
  change UnpackedFloat.le (0 : Float).toModel.unpack x.toModel.unpack = true
  unfold Unsigned at h hunsigned
  generalize x.toModel.unpack = f at h
  generalize (0 : Float).toModel.unpack = zero at hzero hunsigned
  cases hunsigned with
  | zero => cases h <;> rfl
  | infinity => cases hzero
  | finite => cases hzero

theorem Unsigned.isFinite {x : Float} (h : Unsigned x) (hinf : x.isInf = false) :
    x.isFinite = true := by
  unfold Unsigned at h
  unfold Float.isInf Float.Model.isInf at hinf
  unfold Float.isFinite Float.Model.isFinite
  generalize x.toModel.unpack = f at h hinf
  cases h with
  | infinity => cases hinf
  | zero => rfl
  | finite => rfl

end LineBasic.Number
