import Mathlib.Tactic

/-!
# The product of two words in a wider word

Words whose signs are extended have the product of the signed numbers, and it fits in twice the
width. Read without a sign it is the product of the unsigned numbers only where no sign is set, or
where each factor is the least number.
-/

namespace WideProduct

variable {w v : ℕ}

/-- The value of a product of two words with their signs extended. -/
theorem signExtend_mul_eq_ofInt (x y : BitVec w) :
    x.signExtend v * y.signExtend v = BitVec.ofInt v (x.toInt * y.toInt) := by
  rw [BitVec.ofInt_mul, BitVec.signExtend, BitVec.signExtend]

/-- The signed product fits in twice the width. -/
theorem toInt_signExtend_mul (hw : 0 < w) (hv : w + w ≤ v) (x y : BitVec w) :
    (x.signExtend v * y.signExtend v).toInt = x.toInt * y.toInt := by
  have hle : (2 : ℤ) ^ (w * 2 - 2) < 2 ^ (v - 1) := pow_lt_pow_right₀ (by norm_num) (by omega)
  have hlow := BitVec.le_toInt_mul_toInt (x := x) (y := y)
  have hhigh := BitVec.toInt_mul_toInt_le (x := x) (y := y)
  rw [signExtend_mul_eq_ofInt]
  exact BitVec.toInt_ofInt_eq_self (by omega) (by omega) (by omega)

/-- The low half of the product does not depend on the signs. -/
theorem mul_eq_ofInt (x y : BitVec w) : x * y = BitVec.ofInt w (x.toInt * y.toInt) := by
  rw [BitVec.ofInt_mul, BitVec.ofInt_toInt, BitVec.ofInt_toInt]

/-- The product of the low halves is exact where the signed product is a word. -/
theorem toInt_mul_eq_iff (hw : 0 < w) (x y : BitVec w) :
    (x * y).toInt = x.toInt * y.toInt ↔
      -2 ^ (w - 1) ≤ x.toInt * y.toInt ∧ x.toInt * y.toInt < 2 ^ (w - 1) := by
  constructor
  · intro h
    rw [← h]
    exact ⟨BitVec.le_toInt _, BitVec.toInt_lt⟩
  · rintro ⟨hlow, hhigh⟩
    rw [mul_eq_ofInt]
    exact BitVec.toInt_ofInt_eq_self hw hlow hhigh

/-! ## The two halves -/

/-- A word is put together again from its halves. -/
theorem append_halves (t : BitVec (w + w)) :
    (t.sshiftRight w).setWidth w ++ t.setWidth w = t := by
  apply BitVec.eq_of_getLsbD_eq
  intro i hi
  rw [BitVec.getLsbD_append]
  by_cases hlow : i < w
  · rw [if_pos hlow, BitVec.getLsbD_setWidth, decide_eq_true hlow, Bool.true_and]
  · have hhigh : i - w < w := by omega
    have hback : w + (i - w) = i := by omega
    rw [if_neg hlow, BitVec.getLsbD_setWidth, decide_eq_true hhigh, Bool.true_and,
      BitVec.getLsbD_sshiftRight, hback, if_pos hi, decide_eq_false (by omega), Bool.not_false,
      Bool.true_and]

/-- The number a word stands for is put together from its halves. -/
theorem toNat_halves (t : BitVec (w + w)) :
    ((t >>> w).setWidth w).toNat * 2 ^ w + (t.setWidth w).toNat = t.toNat := by
  have hlt : t.toNat / 2 ^ w < 2 ^ w := by
    have ht := t.isLt
    rw [Nat.pow_add] at ht
    exact Nat.div_lt_of_lt_mul ht
  rw [BitVec.toNat_setWidth, BitVec.toNat_setWidth, BitVec.toNat_ushiftRight,
    Nat.shiftRight_eq_div_pow, Nat.mod_eq_of_lt hlt, Nat.div_add_mod']

/-- The high half is zero exactly for the numbers below the modulus of the low half. -/
theorem high_eq_zero_iff (hw : 0 < w) (t : BitVec (w + w)) :
    (t.sshiftRight w).setWidth w = 0#w ↔ 0 ≤ t.toInt ∧ t.toInt < 2 ^ w := by
  have ht := congrArg BitVec.toInt (append_halves t)
  have hlo : ((t.setWidth w).toNat : ℤ) < 2 ^ w := by exact_mod_cast (t.setWidth w).isLt
  rw [BitVec.toInt_append, if_neg (by rw [beq_iff_eq]; omega)] at ht
  rw [← BitVec.toInt_inj, BitVec.toInt_zero, ← ht]
  generalize ((t.sshiftRight w).setWidth w).toInt = a
  generalize hb : (t.setWidth w).toNat = b at hlo
  constructor
  · rintro rfl
    omega
  · rintro ⟨hnonneg, hlt⟩
    by_contra hne
    rcases Int.lt_or_gt_of_ne hne with hneg | hpos
    · nlinarith
    · nlinarith

/-! ## Halves whose signs are extended -/

/-- A low half whose sign is set covers the high half when it is widened. -/
theorem or_signExtend_of_msb (hi : BitVec w) {lo : BitVec w} (h : lo.msb = true) :
    (hi.signExtend (w + w) <<< w) ||| lo.signExtend (w + w) = lo.signExtend (w + w) := by
  apply BitVec.eq_of_getLsbD_eq
  intro i hi'
  rw [BitVec.getLsbD_or, BitVec.getLsbD_shiftLeft, BitVec.getLsbD_signExtend lo]
  by_cases hlow : i < w <;> simp [hlow, hi', h]

/-- Otherwise the two halves stand side by side. -/
theorem or_signExtend_of_not_msb (hi : BitVec w) {lo : BitVec w} (h : lo.msb = false) :
    (hi.signExtend (w + w) <<< w) ||| lo.signExtend (w + w) = hi ++ lo := by
  apply BitVec.eq_of_getLsbD_eq
  intro i hi'
  rw [BitVec.getLsbD_or, BitVec.getLsbD_shiftLeft, BitVec.getLsbD_signExtend,
    BitVec.getLsbD_signExtend, BitVec.getLsbD_append]
  by_cases hlow : i < w
  · simp [hlow, hi']
  · have hhigh : i - w < w := by omega
    have hin : i - w < w + w := by omega
    simp [hlow, hi', h, hhigh, hin]

/-- The signed number left after a word is cut. -/
theorem toInt_setWidth_of_le (hv : w ≤ v) (t : BitVec v) :
    (t.setWidth w).toInt = t.toInt.bmod (2 ^ w) := by
  rw [BitVec.toInt_setWidth, BitVec.toInt_eq_toNat_bmod, Int.bmod_bmod_of_dvd]
  exact_mod_cast Nat.pow_dvd_pow 2 hv

/-- The remainder by a word is a word: it is closer to zero than the divisor. -/
theorem bmod_tmod_toInt (z : ℤ) {d : BitVec w} (hd : d ≠ 0#w) :
    (z.tmod d.toInt).bmod (2 ^ w) = z.tmod d.toInt := by
  have hne : d.toInt ≠ 0 := by
    intro h
    exact hd (BitVec.toInt_inj.mp (h.trans BitVec.toInt_zero.symm))
  have hlt : (z.tmod d.toInt).natAbs < d.toInt.natAbs := by
    rw [Int.natAbs_tmod]
    exact Nat.mod_lt _ (Int.natAbs_pos.mpr hne)
  have hlow := BitVec.le_two_mul_toInt (x := d)
  have hhigh := BitVec.two_mul_toInt_lt (x := d)
  apply Int.bmod_eq_of_le_mul_two
  · push_cast
    omega
  · push_cast
    omega

/-! ## Read without a sign -/

/-- A number that fits is the value of a word exactly if it differs from it by a multiple of the
modulus. -/
theorem toNat_ofInt_eq_iff {n k : ℕ} (hk : k < 2 ^ n) (z : ℤ) :
    (BitVec.ofInt n z).toNat = k ↔ (2 ^ n : ℤ) ∣ z - k := by
  have hmod : ((k : ℤ)) % (2 ^ n : ℤ) = k :=
    Int.emod_eq_of_lt (by positivity) (by exact_mod_cast hk)
  have hpos : (0 : ℤ) ≤ z % (2 ^ n : ℤ) := Int.emod_nonneg _ (by positivity)
  rw [BitVec.toNat_ofInt, Int.dvd_iff_emod_eq_zero, ← Int.emod_eq_emod_iff_emod_sub_eq_zero, hmod]
  push_cast
  omega

/-- Each sign that is set takes the other factor off the high half of the product. -/
theorem dvd_sub_mul_sub_iff (a b s t : ℤ) :
    (2 ^ 128 : ℤ) ∣ (a - s * 2 ^ 64) * (b - t * 2 ^ 64) - a * b ↔
      (18446744073709551616 : ℤ) ∣ s * b + t * a := by
  have hhigh : (a - s * 2 ^ 64) * (b - t * 2 ^ 64) - a * b =
      18446744073709551616 * (18446744073709551616 * (s * t) - (s * b + t * a)) := by ring
  rw [hhigh, show (2 ^ 128 : ℤ) = 18446744073709551616 * 18446744073709551616 by norm_num,
    Int.mul_dvd_mul_iff_left (by norm_num)]
  exact dvd_sub_right (Dvd.intro _ rfl)

/-- Words that are not zero have the same product with their signs extended as without only where no
sign is set, or where both are the least number. -/
theorem toNat_signExtend_mul_eq_iff {x y : BitVec 64} (hx : x ≠ 0) (hy : y ≠ 0) :
    (x.signExtend 128 * y.signExtend 128).toNat = x.toNat * y.toNat ↔
      (x.msb = false ∧ y.msb = false) ∨ (x.toNat = 2 ^ 63 ∧ y.toNat = 2 ^ 63) := by
  have hx0 : x.toNat ≠ 0 := fun h ↦ hx (BitVec.eq_of_toNat_eq h)
  have hy0 : y.toNat ≠ 0 := fun h ↦ hy (BitVec.eq_of_toNat_eq h)
  have hxlt := x.isLt
  have hylt := y.isLt
  have hprod : x.toNat * y.toNat < 2 ^ 128 := by
    calc x.toNat * y.toNat < 2 ^ 64 * 2 ^ 64 := Nat.mul_lt_mul'' hxlt hylt
      _ = 2 ^ 128 := by norm_num
  rw [signExtend_mul_eq_ofInt, toNat_ofInt_eq_iff hprod, BitVec.toInt_eq_msb_cond,
    BitVec.toInt_eq_msb_cond, BitVec.msb_eq_decide, BitVec.msb_eq_decide, Nat.cast_mul]
  generalize x.toNat = a at *
  generalize y.toNat = b at *
  -- a word whose sign is set stands for `2 ^ 64` less
  have hsign := dvd_sub_mul_sub_iff a b
  by_cases ha : 2 ^ (64 - 1) ≤ a <;> by_cases hb : 2 ^ (64 - 1) ≤ b <;>
    simp only [ha, hb, decide_true, decide_false, if_true, if_false, Bool.false_eq_true,
      Bool.true_eq_false, false_and, and_false, true_and, false_or]
  · have h11 := hsign 1 1
    push_cast at h11 ⊢
    rw [one_mul] at h11
    rw [h11]
    omega
  · have h10 := hsign 1 0
    rw [one_mul, zero_mul, sub_zero] at h10
    push_cast at h10 ⊢
    rw [h10]
    omega
  · have h01 := hsign 0 1
    rw [one_mul, zero_mul, sub_zero] at h01
    push_cast at h01 ⊢
    rw [h01]
    omega
  · simp

end WideProduct
