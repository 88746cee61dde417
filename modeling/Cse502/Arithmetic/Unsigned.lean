import Cse502.Library.WideProduct
import Cse502.Model.Execute

/-!
# Unsigned multiplication and division

`mul` and `div` work on fields of type `long long`. Widening one to 128 bits extends its sign, so
the product of the wide path is a signed one; and the cast in front of the wide division narrows
the dividend to its low half first. The path of `mul` is chosen by `__builtin_clz`, which looks at
the low half of a word and is undefined where that is zero.
-/

namespace Cse502.Arithmetic

open Execute (builtinClz)

/-! ## Multiplication -/

/-- No step of the multiplication is undefined: `__builtin_clz` is not asked for a zero. -/
def MulDefined (op : Uop) : Prop :=
  op.value1 = 0 ∨ op.value2 = 0 ∨
    (op.value1.setWidth 32 ≠ (0 : BitVec 32) ∧ op.value2.setWidth 32 ≠ (0 : BitVec 32))

/-- The `mul` uop has computed the product of its operands, taken as unsigned numbers. -/
def MultipliesExactly (clzZero : ℕ) (op : Uop) : Prop :=
  MulDefined op ∧
    (Execute.mul clzZero op).value3.toNat * 2 ^ 64 + (Execute.mul clzZero op).value2.toNat =
      op.value2.toNat * op.value1.toNat

/-- The operands that are multiplied right: a zero needs a zero in RDX, and the others a low half
that is not zero and a clear top bit. -/
def MulHandled (op : Uop) : Prop :=
  if op.value1 = 0 ∨ op.value2 = 0 then op.value3 = 0
  else op.value1.setWidth 32 ≠ (0 : BitVec 32) ∧ op.value2.setWidth 32 ≠ (0 : BitVec 32) ∧
    op.value1.msb = false ∧ op.value2.msb = false

/-- Where the low half of a word is not zero, a top bit is counted in it. -/
theorem builtinClz_le (clzZero : ℕ) {v : Word} (h : v.setWidth 32 ≠ (0 : BitVec 32)) :
    builtinClz clzZero v ≤ 31 := by
  rw [builtinClz, if_neg h]
  omega

/-- The wide path is taken for all operands that are not zero. -/
theorem mul_wide (clzZero : ℕ) {op : Uop} (hzero : ¬(op.value1 = 0 ∨ op.value2 = 0))
    (h1 : op.value1.setWidth 32 ≠ (0 : BitVec 32)) (h2 : op.value2.setWidth 32 ≠ (0 : BitVec 32)) :
    (Execute.mul clzZero op).value3.toNat * 2 ^ 64 + (Execute.mul clzZero op).value2.toNat =
      (op.value2.signExtend 128 * op.value1.signExtend 128).toNat := by
  have hclz1 := builtinClz_le clzZero h1
  have hclz2 := builtinClz_le clzZero h2
  have hlong : (64 - (builtinClz clzZero op.value1 : ℤ)) +
      (64 - (builtinClz clzZero op.value2 : ℤ)) >
      65 := by omega
  rw [Execute.mul, if_neg hzero]
  dsimp only
  rw [if_pos hlong]
  exact WideProduct.toNat_halves _

/-- **When unsigned multiplication is exact.** -/
theorem multipliesExactly_iff (clzZero : ℕ) (op : Uop) :
    MultipliesExactly clzZero op ↔ MulHandled op := by
  by_cases hzero : op.value1 = 0 ∨ op.value2 = 0
  · -- the third value stays as it was, so it must be zero already
    have hdefined : MulDefined op := hzero.imp id .inl
    have hproduct : op.value2.toNat * op.value1.toNat = 0 := by
      rcases hzero with h | h <;> simp [h]
    rw [MultipliesExactly, MulHandled, if_pos hzero, Execute.mul, if_pos hzero, hproduct]
    constructor
    · rintro ⟨-, hsum⟩
      refine BitVec.eq_of_toNat_eq ?_
      have hsum' : op.value3.toNat * 2 ^ 64 + 0 = 0 := hsum
      change op.value3.toNat = 0
      omega
    · intro h
      rw [h]
      exact ⟨hdefined, rfl⟩
  · obtain ⟨hne1, hne2⟩ := not_or.mp hzero
    rw [MultipliesExactly, MulHandled, if_neg hzero]
    constructor
    · rintro ⟨hdefined, hsum⟩
      obtain ⟨h1, h2⟩ := (hdefined.resolve_left hne1).resolve_left hne2
      rw [mul_wide clzZero hzero h1 h2, WideProduct.toNat_signExtend_mul_eq_iff hne2 hne1] at hsum
      rcases hsum with ⟨hsign2, hsign1⟩ | ⟨hleast, -⟩
      · exact ⟨h1, h2, hsign1, hsign2⟩
      · -- the least number has no low half
        refine absurd (BitVec.eq_of_toNat_eq ?_) h2
        rw [BitVec.toNat_setWidth, hleast]
        rfl
    · rintro ⟨h1, h2, hsign1, hsign2⟩
      refine ⟨.inr (.inr ⟨h1, h2⟩), ?_⟩
      rw [mul_wide clzZero hzero h1 h2, WideProduct.toNat_signExtend_mul_eq_iff hne2 hne1]
      exact .inl ⟨hsign2, hsign1⟩

/-- The product of `2 ^ 64 - 1` with itself is taken for that of `-1` with itself. -/
theorem not_multipliesExactly_allOnes :
    ¬MultipliesExactly 0 { Uop.zero with
      opcode := .mul, value1 := BitVec.allOnes 64, value2 := BitVec.allOnes 64 } := by
  rintro ⟨-, hsum⟩
  revert hsum
  decide

/-! ## Division -/

/-- The `div` uop has divided the number in its third and second operand by the first one. -/
def DividesExactly (op : Uop) : Prop :=
  (Execute.div op).value2.toNat = (op.value3.toNat * 2 ^ 64 + op.value2.toNat) / op.value1.toNat ∧
    (Execute.div op).value3.toNat = (op.value3.toNat * 2 ^ 64 + op.value2.toNat) % op.value1.toNat

/-- The cast takes the low half of the dividend. -/
theorem div_eq (op : Uop) : (Execute.div op).value2 = op.value2 / op.value1 ∧
    (Execute.div op).value3 = op.value2 % op.value1 := by
  rw [Execute.div]
  split_ifs with h
  · have hlow :
        (((op.value3.signExtend 128 <<< 64) ||| op.value2.signExtend 128).setWidth 64 : Word) =
        op.value2 := by
      apply BitVec.eq_of_getLsbD_eq
      intro i hi
      have hi' : i < 128 := by omega
      simp [hi, hi', BitVec.getElem_signExtend]
    dsimp only
    rw [hlow]
    exact ⟨rfl, rfl⟩
  · exact ⟨rfl, rfl⟩

/-- **When unsigned division is exact**: the high half of the dividend is lost, so it must be
zero. That the quotient fits, which is `op.value3 < op.value1`, does not help. -/
theorem dividesExactly_iff (op : Uop) : DividesExactly op ↔ op.value3 = 0 := by
  obtain ⟨h2, h3⟩ := div_eq op
  rw [DividesExactly, h2, h3, BitVec.toNat_udiv, BitVec.toNat_umod]
  constructor
  · rintro ⟨hquot, hrem⟩
    have hdividend := Nat.div_add_mod (op.value3.toNat * 2 ^ 64 + op.value2.toNat) op.value1.toNat
    rw [← hquot, ← hrem, Nat.div_add_mod] at hdividend
    refine BitVec.eq_of_toNat_eq ?_
    change op.value3.toNat = 0
    omega
  · intro h
    have hzero : op.value3.toNat = 0 := congrArg BitVec.toNat h
    rw [hzero, Nat.zero_mul, Nat.zero_add]
    exact ⟨rfl, rfl⟩

/-- Half of `2 ^ 64` is computed as half of 0: `div` by 2 with 1 in RDX and 0 in RAX. -/
theorem not_dividesExactly_one_zero :
    ¬DividesExactly { Uop.zero with opcode := .div, value1 := 2, value2 := 0, value3 := 1 } := by
  rintro ⟨hquot, -⟩
  revert hquot
  decide

end Cse502.Arithmetic
