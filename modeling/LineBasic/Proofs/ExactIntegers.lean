import LineBasic.Proofs.WholeNumbers

/-!
# Doubles count whole numbers exactly

Up to `2 ^ 53` in magnitude every whole number is a double, and a sum of doubles is rounded only if it
is none. Main statements: sums of whole numbers that stay within this range are exact, and doubles
that are whole numbers compare like them.
-/

namespace LineBasic.Number

set_option autoImplicit false

open Float.Model Float.Model.UnpackedFloat

/-! ### Rounding what needs no rounding -/

theorem log2_of_mul {m k : Nat} (hlower : 2 ^ 52 ≤ m * 2 ^ k) (hupper : m * 2 ^ k < 2 ^ 53) :
    m.log2 + k = 52 := by
  have hpos : m ≠ 0 := by
    rintro rfl
    simp at hlower
  have hlog : (m * 2 ^ k).log2 = 52 := (Nat.log2_eq_iff (by omega)).mpr ⟨hlower, hupper⟩
  have hbelow : 2 ^ (m.log2 + k) ≤ m * 2 ^ k := by
    rw [Nat.pow_add]
    exact Nat.mul_le_mul_right _ (Nat.log2_self_le hpos)
  have habove : m * 2 ^ k < 2 ^ (m.log2 + k + 1) := by
    rw [Nat.add_right_comm, Nat.pow_add]
    exact Nat.mul_lt_mul_of_pos_right Nat.lt_log2_self (Nat.two_pow_pos k)
  exact ((Nat.log2_eq_iff (by omega)).mpr ⟨hbelow, habove⟩).symm.trans hlog

/-- A mantissa that is full after it is moved. The number is the same in both forms. -/
theorem IsNormal.round_eq {m n : Nat} {e f : Int} (h : IsNormal m e) (sign : Sign) (he : -52 ≤ e)
    (hf : -52 ≤ f) (hvalue : n * 2 ^ (f + 52).toNat = m * 2 ^ (e + 52).toNat) :
    UnpackedFloat.round .binary64 sign n f = .finite sign m e h.pos := by
  rcases Int.le_total f e with hle | hle
  · obtain ⟨k, rfl⟩ : ∃ k : Nat, f = e - k := ⟨(e - f).toNat, by omega⟩
    obtain rfl : n = m * 2 ^ k := by
      have hsplit : (e + 52).toNat = k + (e - k + 52).toNat := by omega
      rw [hsplit, Nat.pow_add, ← Nat.mul_assoc] at hvalue
      exact Nat.eq_of_mul_eq_mul_right (Nat.two_pow_pos _) hvalue
    have hkeep : decreaseExponent (m * 2 ^ k) (e - k) e = (m * 2 ^ k, e - k) := by
      simp [decreaseExponent]
    simp only [UnpackedFloat.round, h.target, hkeep, h.round_shifted]
  · obtain ⟨k, rfl⟩ : ∃ k : Nat, f = e + k := ⟨(f - e).toNat, by omega⟩
    obtain rfl : m = n * 2 ^ k := by
      have hsplit : (e + k + 52).toNat = k + (e + 52).toNat := by omega
      rw [hsplit, Nat.pow_add, ← Nat.mul_assoc] at hvalue
      exact (Nat.eq_of_mul_eq_mul_right (Nat.two_pow_pos _) hvalue).symm
    have hlog := log2_of_mul h.lower h.upper
    have hleast := h.least
    have htarget : Format.binary64.targetExponent (totalExponent n (e + k)) = e := by
      simp only [Format.targetExponent, totalExponent, Format.mantissaBits, Format.minExponent]
      omega
    have hmove : decreaseExponent n (e + k) e = (n * 2 ^ k, e) := by
      simp [decreaseExponent, Nat.shiftLeft_eq]
    have hround := h.round_shifted sign 0
    rw [Nat.pow_zero, Nat.mul_one, Int.natCast_zero, Int.sub_zero] at hround
    simp only [UnpackedFloat.round, htarget, hmove, hround]

/-! ### Whole numbers and their parts -/

/-- The parts of a whole number other than zero. -/
structure Spells (z : Int) (sign : Sign) (m : Nat) (e : Int) : Prop extends IsNormal m e where
  fine : -52 ≤ e
  value : sign.apply m * 2 ^ (e + 52).toNat = z * 2 ^ 52

/-- A number with its parts taken apart is a whole number; zero has no sign. -/
inductive Stores (z : Int) : UnpackedFloat → Prop where
  | zero (h : z = 0) : Stores z (.zero .positive)
  | finite {sign : Sign} {m : Nat} {e : Int} (h : Spells z sign m e) :
      Stores z (.finite sign m e h.pos)

theorem stores_ofNat {n : Nat} (hn : n ≤ 2 ^ 53) : Stores n (Float.ofNat n).toModel.unpack := by
  rcases Nat.eq_zero_or_pos n with rfl | hpos
  · exact .zero rfl
  · rcases Nat.lt_or_eq_of_le hn with hlt | rfl
    · have hnormal := isNormal_padded hpos hlt
      have hp : padding n ≤ 52 := Nat.sub_le _ _
      have hvalue : n * 2 ^ padding n * 2 ^ (-(padding n : Int) + 52).toNat = n * 2 ^ 52 := by
        rw [Nat.mul_assoc, ← Nat.pow_add]
        congr 2
        omega
      rw [unpack_ofNat hpos hlt]
      refine .finite ⟨hnormal, by omega, ?_⟩
      change ((n * 2 ^ padding n : Nat) : Int) * 2 ^ _ = _
      exact_mod_cast hvalue
    · have hlargest : Spells (2 ^ 53) .positive (2 ^ 52) 1 :=
        ⟨⟨by decide, by decide, by decide, by decide⟩, by decide, by decide⟩
      exact .finite hlargest

theorem apply_neg (sign : Sign) (k : Int) : (-sign).apply k = -sign.apply k := by
  cases sign
  · exact (Int.neg_neg k).symm
  · rfl

theorem Spells.neg {z : Int} {sign : Sign} {m : Nat} {e : Int} (h : Spells z sign m e) :
    Spells (-z) (-sign) m e :=
  ⟨h.toIsNormal, h.fine, by rw [apply_neg, Int.neg_mul, h.value, Int.neg_mul]⟩

theorem Stores.unpack_pack {z : Int} {u : UnpackedFloat} (h : Stores z u) :
    (Float.Model.pack u).unpack = u := by
  cases h with
  | zero _ => rfl
  | finite h => exact h.unpack_pack _

theorem stores_ofInt {z : Int} (hz : z.natAbs ≤ 2 ^ 53) : Stores z (Float.ofInt z).toModel.unpack := by
  cases z with
  | ofNat n => exact stores_ofNat hz
  | negSucc n =>
    have hn : Stores (n + 1 : Nat) (Float.ofNat (n + 1)).toModel.unpack := stores_ofNat hz
    change Stores (-(n + 1 : Nat)) (Float.Model.pack (Float.ofNat (n + 1)).toModel.unpack.neg).unpack
    generalize (Float.ofNat (n + 1)).toModel.unpack = u at hn ⊢
    cases hn with
    | zero h => omega
    | finite h =>
      have hneg := Stores.finite h.neg
      change Stores _ (Float.Model.pack (.finite (-_) _ _ _)).unpack
      rwa [hneg.unpack_pack]

/-! ### Order -/

/-- Full mantissas are ordered by their exponents first. -/
theorem IsNormal.lt_of_exponent {m n : Nat} {e f : Int} (h : IsNormal m e) (h' : IsNormal n f)
    (he : -52 ≤ e) (hlt : e < f) : m * 2 ^ (e + 52).toNat < n * 2 ^ (f + 52).toNat := by
  obtain ⟨k, rfl⟩ : ∃ k : Nat, f = e + 1 + k := ⟨(f - e - 1).toNat, by omega⟩
  have hsplit : (e + 1 + k + 52).toNat = (e + 52).toNat + (1 + k) := by omega
  calc m * 2 ^ (e + 52).toNat < 2 * Binary.leadingBit * 2 ^ (e + 52).toNat :=
        Nat.mul_lt_mul_of_pos_right h.upper (Nat.two_pow_pos _)
    _ ≤ 2 * n * 2 ^ (e + 52).toNat := Nat.mul_le_mul_right _ (Nat.mul_le_mul_left 2 h'.lower)
    _ = n * 2 ^ (e + 52).toNat * 2 ^ 1 := by ring
    _ ≤ n * 2 ^ (e + 52).toNat * 2 ^ (1 + k) :=
        Nat.mul_le_mul_left _ (Nat.pow_le_pow_right Nat.two_pos (Nat.le_add_right 1 k))
    _ = n * 2 ^ (e + 1 + k + 52).toNat := by rw [hsplit, Nat.pow_add _ _ (1 + k), Nat.mul_assoc]

theorem IsNormal.compare_eq {m n : Nat} {e f : Int} (h : IsNormal m e) (h' : IsNormal n f)
    (he : -52 ≤ e) (hf : -52 ≤ f) :
    compare (m * 2 ^ (e + 52).toNat) (n * 2 ^ (f + 52).toNat) =
      (compare e f).then (compare m n) := by
  rcases lt_trichotomy e f with hlt | rfl | hlt
  · rw [compare_lt_iff_lt.mpr hlt, compare_lt_iff_lt.mpr (h.lt_of_exponent h' he hlt)]
    rfl
  · have hmono : StrictMono fun k : Nat => k * 2 ^ (e + 52).toNat := fun a b hab =>
      Nat.mul_lt_mul_of_pos_right hab (Nat.two_pow_pos _)
    rw [compare_eq_iff_eq.mpr rfl, ← cmp_eq_compare, ← cmp_eq_compare]
    exact hmono.cmp_map_eq m n
  · rw [compare_gt_iff_gt.mpr hlt, compare_gt_iff_gt.mpr (h'.lt_of_exponent h hf hlt)]
    rfl

theorem compare_scaled (a b : Int) : compare (a * 2 ^ 52) (b * 2 ^ 52) = compare a b := by
  have hmono : StrictMono fun k : Int => k * 2 ^ 52 := fun a b hab => by
    dsimp only
    omega
  rw [← cmp_eq_compare, ← cmp_eq_compare]
  exact hmono.cmp_map_eq a b

theorem compare_natCast (a b : Nat) : compare (a : Int) (b : Int) = compare a b := by
  rw [← cmp_eq_compare, ← cmp_eq_compare]
  exact Int.natCast_strictMono.cmp_map_eq a b

theorem compare_neg (a b : Int) : compare (-a) (-b) = (compare a b).swap := by
  have hanti : StrictAnti fun k : Int => -k := fun a b hab => neg_lt_neg hab
  rw [← cmp_eq_compare, ← cmp_eq_compare, cmp_swap]
  exact hanti.cmp_map_eq a b

theorem Spells.pos_iff {z : Int} {sign : Sign} {m : Nat} {e : Int} (h : Spells z sign m e) :
    (sign = .positive → 0 < z) ∧ (sign = .negative → z < 0) := by
  have hpos : (0 : Int) < m * 2 ^ (e + 52).toNat := by
    have := Nat.mul_pos h.pos (Nat.two_pow_pos (e + 52).toNat)
    exact_mod_cast this
  have hvalue := h.value
  constructor <;> rintro rfl <;> simp only [Sign.apply] at hvalue
  · omega
  · rw [Int.neg_mul] at hvalue
    omega

theorem Stores.compare_eq {a b : Int} {u v : UnpackedFloat} (hu : Stores a u) (hv : Stores b v) :
    u.compare v = some (compare a b) := by
  cases hu with
  | zero ha =>
    subst ha
    cases hv with
    | zero hb => subst hb; rfl
    | @finite sign n f hb =>
      cases sign with
      | positive => exact congrArg some (compare_lt_iff_lt.mpr (hb.pos_iff.1 rfl)).symm
      | negative => exact congrArg some (compare_gt_iff_gt.mpr (hb.pos_iff.2 rfl)).symm
  | @finite sign m e ha =>
    cases hv with
    | zero hb =>
      subst hb
      cases sign with
      | positive => exact congrArg some (compare_gt_iff_gt.mpr (ha.pos_iff.1 rfl)).symm
      | negative => exact congrArg some (compare_lt_iff_lt.mpr (ha.pos_iff.2 rfl)).symm
    | @finite sign' n f hb =>
      have hparts := ha.toIsNormal.compare_eq hb.toIsNormal ha.fine hb.fine
      have hvalue := ha.value
      have hvalue' := hb.value
      rw [← compare_natCast] at hparts
      cases sign with
      | positive =>
        cases sign' with
        | positive =>
          rw [← compare_scaled, ← hvalue, ← hvalue']
          exact congrArg some hparts.symm
        | negative =>
          have := ha.pos_iff.1 rfl
          have := hb.pos_iff.2 rfl
          exact congrArg some (compare_gt_iff_gt.mpr (by omega)).symm
      | negative =>
        cases sign' with
        | positive =>
          have := ha.pos_iff.2 rfl
          have := hb.pos_iff.1 rfl
          exact congrArg some (compare_lt_iff_lt.mpr (by omega)).symm
        | negative =>
          rw [← compare_scaled, ← hvalue, ← hvalue']
          change some _ = some (compare (-(m : Int) * _) (-(n : Int) * _))
          rw [Int.neg_mul, Int.neg_mul, compare_neg]
          exact congrArg (fun o => some (Ordering.swap o)) hparts.symm

theorem Spells.unique {z : Int} {sign sign' : Sign} {m n : Nat} {e f : Int} (h : Spells z sign m e)
    (h' : Spells z sign' n f) : sign = sign' ∧ m = n ∧ e = f := by
  have hsame : sign = sign' ∧ m * 2 ^ (e + 52).toNat = n * 2 ^ (f + 52).toNat := by
    have hvalue := h.value.trans h'.value.symm
    cases sign with
    | positive =>
      cases sign' with
      | positive =>
        simp only [Sign.apply] at hvalue
        exact ⟨rfl, by exact_mod_cast hvalue⟩
      | negative => exact absurd (h.pos_iff.1 rfl) (Int.not_lt.mpr (h'.pos_iff.2 rfl).le)
    | negative =>
      cases sign' with
      | positive => exact absurd (h'.pos_iff.1 rfl) (Int.not_lt.mpr (h.pos_iff.2 rfl).le)
      | negative =>
        simp only [Sign.apply, Int.neg_mul, Int.neg_inj] at hvalue
        exact ⟨rfl, by exact_mod_cast hvalue⟩
  have hparts := h.toIsNormal.compare_eq h'.toIsNormal h.fine h'.fine
  rw [hsame.2, compare_eq_iff_eq.mpr rfl] at hparts
  obtain ⟨he, hm⟩ := Ordering.then_eq_eq.mp hparts.symm
  exact ⟨hsame.1, compare_eq_iff_eq.mp hm, compare_eq_iff_eq.mp he⟩

theorem Stores.unique {z : Int} {u v : UnpackedFloat} (hu : Stores z u) (hv : Stores z v) : u = v := by
  cases hu with
  | zero hz =>
    subst hz
    cases hv with
    | zero _ => rfl
    | @finite sign m e h =>
      cases sign with
      | positive => exact absurd (h.pos_iff.1 rfl) (Int.lt_irrefl 0)
      | negative => exact absurd (h.pos_iff.2 rfl) (Int.lt_irrefl 0)
  | @finite sign m e h =>
    cases hv with
    | zero hz =>
      subst hz
      cases sign with
      | positive => exact absurd (h.pos_iff.1 rfl) (Int.lt_irrefl 0)
      | negative => exact absurd (h.pos_iff.2 rfl) (Int.lt_irrefl 0)
    | finite h' =>
      obtain ⟨rfl, rfl, rfl⟩ := h.unique h'
      rfl

/-! ### Sums -/

theorem stores_normalize {z k f : Int} (hf : -52 ≤ f) (hk : k * 2 ^ (f + 52).toNat = z * 2 ^ 52)
    (hz : z.natAbs ≤ 2 ^ 53) : Stores z (UnpackedFloat.normalize .binary64 k f .positive) := by
  have hstores := stores_ofInt hz
  have hpow : (0 : Int) < 2 ^ (f + 52).toNat := by positivity
  generalize (Float.ofInt z).toModel.unpack = u at hstores
  cases hstores with
  | zero h =>
    subst h
    obtain rfl : k = 0 := by
      rcases Int.mul_eq_zero.mp (hk.trans (Int.zero_mul _)) with h | h
      · exact h
      · omega
    exact .zero rfl
  | @finite sign m e h =>
    have hvalue := h.value.trans hk.symm
    cases sign with
    | positive =>
      have hpos : 0 < k := by
        have hz := h.pos_iff.1 rfl
        exact (mul_pos_iff_of_pos_right hpow).mp (by omega)
      simp only [Sign.apply] at hvalue
      obtain ⟨n, rfl⟩ := Int.eq_ofNat_of_zero_le hpos.le
      have hround := h.round_eq (n := n) .positive h.fine hf (by exact_mod_cast hvalue.symm)
      rw [UnpackedFloat.normalize, compare_gt_iff_gt.mpr hpos]
      exact hround ▸ .finite h
    | negative =>
      have hneg : k < 0 := by
        have hz := h.pos_iff.2 rfl
        exact neg_of_mul_neg_left (by omega) hpow.le
      obtain ⟨n, rfl⟩ : ∃ n : Nat, k = -n := ⟨k.natAbs, by omega⟩
      simp only [Sign.apply, Int.neg_mul, Int.neg_inj] at hvalue
      have hround := h.round_eq (n := n) .negative h.fine hf (by exact_mod_cast hvalue.symm)
      rw [UnpackedFloat.normalize, compare_lt_iff_lt.mpr hneg, Int.neg_neg, Int.toNat_natCast]
      exact hround ▸ .finite h

theorem apply_decreaseExponent (sign : Sign) (m : Nat) {e f : Int} (hf : -52 ≤ f) (hle : f ≤ e) :
    sign.apply (decreaseExponent m e f).1 * 2 ^ (f + 52).toNat =
      sign.apply m * 2 ^ (e + 52).toNat := by
  obtain ⟨k, rfl⟩ : ∃ k : Nat, e = f + k := ⟨(e - f).toNat, by omega⟩
  have hmoved : (decreaseExponent m (f + k) f).1 = m * 2 ^ k := by
    simp [decreaseExponent, Nat.shiftLeft_eq]
  have hsplit : (f + k + 52).toNat = k + (f + 52).toNat := by omega
  rw [hmoved, hsplit, pow_add]
  cases sign <;> simp only [Sign.apply, Nat.cast_mul, Nat.cast_pow, Nat.cast_ofNat] <;> ring

theorem Stores.add {a b : Int} {u v : UnpackedFloat} (hu : Stores a u) (hv : Stores b v)
    (hab : (a + b).natAbs ≤ 2 ^ 53) : Stores (a + b) (UnpackedFloat.add .binary64 u v) := by
  cases hu with
  | zero ha =>
    subst ha
    rw [Int.zero_add]
    cases hv with
    | zero hb => exact .zero hb
    | finite hb => exact .finite hb
  | @finite sign m e ha =>
    cases hv with
    | zero hb =>
      subst hb
      rw [Int.add_zero]
      exact .finite ha
    | @finite sign' n f hb =>
      have he := ha.fine
      have hf := hb.fine
      have hsum : (sign.apply (decreaseExponent m e (min e f)).1 +
          sign'.apply (decreaseExponent n f (min e f)).1) * 2 ^ (min e f + 52).toNat =
            (a + b) * 2 ^ 52 := by
        rw [Int.add_mul, apply_decreaseExponent sign m (by omega) (Int.min_le_left e f),
          apply_decreaseExponent sign' n (by omega) (Int.min_le_right e f), ha.value, hb.value,
          Int.add_mul]
      exact stores_normalize (by omega) hsum hab

theorem ofInt_add {a b : Int} (ha : a.natAbs ≤ 2 ^ 53) (hb : b.natAbs ≤ 2 ^ 53)
    (hab : (a + b).natAbs ≤ 2 ^ 53) : Float.ofInt a + Float.ofInt b = Float.ofInt (a + b) := by
  have hsum := (stores_ofInt ha).add (stores_ofInt hb) hab
  refine eq_of_unpack ?_
  change (Float.Model.pack (UnpackedFloat.add .binary64 (Float.ofInt a).toModel.unpack
    (Float.ofInt b).toModel.unpack)).unpack = _
  rw [hsum.unpack_pack]
  exact hsum.unique (stores_ofInt hab)

theorem ofInt_le_ofInt {a b : Int} (ha : a.natAbs ≤ 2 ^ 53) (hb : b.natAbs ≤ 2 ^ 53) :
    Float.ofInt a ≤ Float.ofInt b ↔ a ≤ b := by
  have hcompare := (stores_ofInt ha).compare_eq (stores_ofInt hb)
  change decide ((Float.ofInt a).toModel.unpack.le (Float.ofInt b).toModel.unpack = true) = true ↔ _
  rw [decide_eq_true_iff, UnpackedFloat.le, hcompare]
  exact Std.isLE_compare

theorem ofInt_lt_ofInt {a b : Int} (ha : a.natAbs ≤ 2 ^ 53) (hb : b.natAbs ≤ 2 ^ 53) :
    Float.ofInt a < Float.ofInt b ↔ a < b := by
  have hcompare := (stores_ofInt ha).compare_eq (stores_ofInt hb)
  change decide ((Float.ofInt a).toModel.unpack.lt (Float.ofInt b).toModel.unpack = true) = true ↔ _
  rw [decide_eq_true_iff, UnpackedFloat.lt, hcompare, beq_iff_eq, Option.some_inj]
  exact compare_lt_iff_lt

end LineBasic.Number
