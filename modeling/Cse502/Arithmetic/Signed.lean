import Cse502.Flags.Compare
import Cse502.Library.WideProduct

/-!
# Signed division and the flags of a signed product

`idiv` puts its 128-bit dividend together from two fields of type `long long`. The low one is
widened with its sign, so where its top bit is set the high one is covered by it; and where the
high one is zero the low one alone is divided, again with a sign. Both paths divide the same
number, which is the dividend unless the top bit of RAX is set and RDX is not `-1`.

The forms of `imul` look for a product that is too long in three ways, and only the one with three
operands looks for the right thing.
-/

namespace Cse502.Arithmetic

open Execute (afterOp bootWith divTraps switchOp)

/-! ## Division -/

/-- The signed number in the third and the second operand, RDX and RAX. -/
def signedDividend (op : Uop) : ℤ := op.value3.toInt * 2 ^ 64 + op.value2.toNat

/-- The truncated quotient is a signed 64-bit integer. -/
def QuotientFits (op : Uop) : Prop :=
  -2 ^ 63 ≤ (signedDividend op).tdiv op.value1.toInt ∧
    (signedDividend op).tdiv op.value1.toInt < 2 ^ 63

/-- The `idiv` uop gets past the division, and leaves the quotient rounded towards zero and the
remainder with the sign of the dividend. -/
def DividesSigned (inp : CycleInput) (op : Uop) (c : Core) : Prop :=
  ∃ r, switchOp inp { op with opcode := .idiv } c = some r ∧
    r.1.value2.toInt = (signedDividend op).tdiv op.value1.toInt ∧
    r.1.value3.toInt = (signedDividend op).tmod op.value1.toInt

/-- The number both paths divide. -/
def dividedNumber (op : Uop) : ℤ :=
  if op.value2.msb then op.value2.toInt else signedDividend op

theorem dividedNumber_of_zero {op : Uop} (h : op.value3 = 0) :
    dividedNumber op = op.value2.toInt := by
  rw [dividedNumber]
  split_ifs with hsign
  · rfl
  · rw [signedDividend, h, BitVec.toInt_eq_toNat_of_msb (eq_false_of_ne_true hsign)]
    exact zero_add _

/-- The wide word of the path for RDX not zero. -/
theorem toInt_wideDividend (op : Uop) :
    ((op.value3.signExtend 128 <<< 64) ||| op.value2.signExtend 128).toInt = dividedNumber op := by
  rw [dividedNumber]
  split_ifs with hsign
  · rw [WideProduct.or_signExtend_of_msb op.value3 hsign]
    exact BitVec.toInt_signExtend_of_le (by norm_num)
  · rw [WideProduct.or_signExtend_of_not_msb op.value3 (by simpa using hsign), BitVec.toInt_append,
      if_neg (by decide), signedDividend, mul_comm]

/-- **Both paths divide one number.** -/
theorem idiv_toInt (op : Uop) (hd : op.value1 ≠ 0) :
    (Execute.idiv op).value2.toInt = ((dividedNumber op).tdiv op.value1.toInt).bmod (2 ^ 64) ∧
      (Execute.idiv op).value3.toInt = (dividedNumber op).tmod op.value1.toInt := by
  have hwiden : (op.value1.signExtend 128).toInt = op.value1.toInt :=
    BitVec.toInt_signExtend_of_le (by norm_num)
  rw [Execute.idiv]
  split_ifs with hzero
  · have hquot := BitVec.toInt_sdiv
      ((op.value3.signExtend 128 <<< 64) ||| op.value2.signExtend 128) (op.value1.signExtend 128)
    have hrem := BitVec.toInt_srem
      ((op.value3.signExtend 128 <<< 64) ||| op.value2.signExtend 128) (op.value1.signExtend 128)
    rw [toInt_wideDividend, hwiden] at hquot hrem
    dsimp only
    rw [WideProduct.toInt_setWidth_of_le (by norm_num), hquot,
      WideProduct.toInt_setWidth_of_le (by norm_num), hrem]
    exact ⟨Int.bmod_bmod_of_dvd (by norm_num), WideProduct.bmod_tmod_toInt _ hd⟩
  · rw [dividedNumber_of_zero (not_not.mp hzero)]
    exact ⟨BitVec.toInt_sdiv _ _, BitVec.toInt_srem _ _⟩

/-- The claim about the uop is one about the number it divides, and about the host not trapping. -/
theorem dividesSigned_iff_dividedNumber (inp : CycleInput) {op : Uop} (c : Core)
    (hd : op.value1 ≠ 0) :
    DividesSigned inp op c ↔ divTraps { op with opcode := .idiv } = false ∧
      ((dividedNumber op).tdiv op.value1.toInt).bmod (2 ^ 64) =
          (signedDividend op).tdiv op.value1.toInt ∧
        (dividedNumber op).tmod op.value1.toInt = (signedDividend op).tmod op.value1.toInt := by
  obtain ⟨hquot, hrem⟩ := idiv_toInt { op with opcode := .idiv } hd
  have hswitch : switchOp inp { op with opcode := .idiv } c =
      if divTraps { op with opcode := .idiv } then none
      else some (Execute.idiv { op with opcode := .idiv }, c) := rfl
  rw [DividesSigned, hswitch]
  by_cases htrap : divTraps { op with opcode := .idiv } = true
  · rw [if_pos htrap, htrap]
    exact ⟨fun ⟨_, h, _⟩ ↦ absurd h (by simp), fun h ↦ absurd h.1 (by simp)⟩
  · rw [if_neg htrap]
    constructor
    · rintro ⟨r, hr, hvalue2, hvalue3⟩
      obtain rfl := Option.some.inj hr
      exact ⟨eq_false_of_ne_true htrap, hquot.symm.trans hvalue2, hrem.symm.trans hvalue3⟩
    · rintro ⟨-, hvalue2, hvalue3⟩
      exact ⟨_, rfl, hquot.trans hvalue2, hrem.trans hvalue3⟩

/-- Where the top bit of RAX is set, its sign takes the place of RDX. -/
theorem signedDividend_of_msb {op : Uop} (h : op.value2.msb = true) :
    signedDividend op = op.value2.toInt + (op.value3.toInt + 1) * 2 ^ 64 := by
  rw [signedDividend, BitVec.toInt_eq_msb_cond op.value2, if_pos h]
  push_cast
  ring

/-- The dividends that are divided right: those whose low half has a clear top bit, and those that
extend the sign of a set one. -/
def IdivHandled (op : Uop) : Prop := op.value2.msb = false ∨ op.value3 = -1

theorem dividedNumber_eq {op : Uop} (h : IdivHandled op) :
    dividedNumber op = signedDividend op := by
  rw [dividedNumber]
  split_ifs with hsign
  · rw [signedDividend_of_msb hsign, h.resolve_left (by simp [hsign])]
    exact (add_zero _).symm
  · rfl

/-- Besides a division by zero, the host traps on the least integer by `-1`. -/
theorem divTraps_iff {op : Uop} (hd : op.value1 ≠ 0) :
    divTraps { op with opcode := .idiv } = true ↔
      op.value3 = 0 ∧ op.value2 = msb ∧ op.value1 = -1 := by
  have hd' : (op.value1 == 0) = false := beq_eq_false_iff_ne.mpr hd
  rw [divTraps, hd', Bool.false_or, Bool.and_eq_true, Bool.and_eq_true, beq_iff_eq, beq_iff_eq,
    beq_iff_eq, and_assoc]

theorem not_divTraps {op : Uop} (hd : op.value1 ≠ 0) (h : IdivHandled op) :
    divTraps { op with opcode := .idiv } = false := by
  rw [← Bool.not_eq_true, divTraps_iff hd]
  rintro ⟨hzero, hleast, -⟩
  rcases h with hsign | hminus
  · rw [hleast] at hsign
    exact absurd hsign (by decide)
  · rw [hminus] at hzero
    exact absurd hzero (by decide)

/-- A dividend that is covered by the sign of RAX is not the number that is divided, and the
results give the divided one back. -/
theorem idivHandled_of_eq {op : Uop} (hd : op.value1 ≠ 0)
    (htrap : divTraps { op with opcode := .idiv } = false)
    (hquot : ((dividedNumber op).tdiv op.value1.toInt).bmod (2 ^ 64) =
      (signedDividend op).tdiv op.value1.toInt)
    (hrem : (dividedNumber op).tmod op.value1.toInt = (signedDividend op).tmod op.value1.toInt) :
    IdivHandled op := by
  by_cases hsign : op.value2.msb = true
  · have hword : dividedNumber op = op.value2.toInt := by rw [dividedNumber, if_pos hsign]
    have hback := Int.mul_tdiv_add_tmod (signedDividend op) op.value1.toInt
    rw [hword] at hquot hrem
    by_cases hover : op.value2 = BitVec.intMin 64 ∧ op.value1 = -1
    · -- here the quotient wraps, which is right for the dividend on which the host traps
      obtain ⟨hleast, hone⟩ := hover
      have hquot' : (signedDividend op).tdiv (-1) = -2 ^ 63 := by
        rw [hleast, hone] at hquot
        exact hquot.symm
      rw [Int.tdiv_neg, Int.tdiv_one, signedDividend_of_msb hsign, hleast] at hquot'
      have hzero : op.value3 = 0 := by
        refine BitVec.toInt_inj.mp ?_
        change op.value3.toInt = 0
        have hleast' : (BitVec.intMin 64).toInt = -2 ^ 63 := by decide
        omega
      rw [(divTraps_iff hd).mpr ⟨hzero, hleast, hone⟩] at htrap
      exact absurd htrap (by simp)
    · have hfits : (op.value2.toInt.tdiv op.value1.toInt).bmod (2 ^ 64) =
          op.value2.toInt.tdiv op.value1.toInt := by
        rw [← BitVec.toInt_sdiv]
        exact BitVec.toInt_sdiv_of_ne_or_ne _ _ (not_and_or.mp hover)
      rw [← hquot, ← hrem, hfits, Int.mul_tdiv_add_tmod, signedDividend_of_msb hsign] at hback
      refine .inr (BitVec.toInt_inj.mp ?_)
      change op.value3.toInt = -1
      omega
  · exact .inl (eq_false_of_ne_true hsign)

/-- **When signed division is exact.** -/
theorem dividesSigned_iff (inp : CycleInput) (op : Uop) (c : Core) (hd : op.value1 ≠ 0)
    (hfits : QuotientFits op) : DividesSigned inp op c ↔ IdivHandled op := by
  rw [dividesSigned_iff_dividedNumber inp c hd]
  constructor
  · rintro ⟨htrap, hquot, hrem⟩
    exact idivHandled_of_eq hd htrap hquot hrem
  · intro h
    rw [dividedNumber_eq h]
    refine ⟨not_divTraps hd h, ?_, rfl⟩
    obtain ⟨hlow, hhigh⟩ := hfits
    exact Int.bmod_eq_of_le_mul_two (by push_cast; omega) (by push_cast; omega)

/-- Seven is divided by minus two: the quotient is minus three, and one is left. -/
theorem dividesSigned_seven_two :
    DividesSigned CycleInput.zero
        { Uop.zero with value1 := -2, value2 := 7, value3 := 0 } (bootWith ⟨0⟩) ↔
      IdivHandled { Uop.zero with value1 := -2, value2 := 7, value3 := 0 } :=
  dividesSigned_iff _ _ _ (by decide) ⟨by decide, by decide⟩

/-- A quarter of `3 * 2 ^ 63`, with 1 in RDX and the top bit of RAX set, is computed as a quarter of
`-2 ^ 63`. -/
theorem not_dividesSigned_one_msb :
    ¬DividesSigned CycleInput.zero { Uop.zero with value1 := 4, value2 := msb, value3 := 1 }
      (bootWith ⟨0⟩) := by
  rintro ⟨r, hr, hquot, -⟩
  obtain rfl := Option.some.inj hr
  revert hquot
  decide

/-- `cqo` extends the sign of RAX. -/
theorem cqo_value2 (clzZero : ℕ) (u : Uop) (e : Eflags) :
    (Execute.alu clzZero { u with opcode := .cqo } e).1.value2 =
      if u.value1.msb then -1 else 0 := by
  have hsign : u.value1 &&& msb = msb ↔ u.value1.msb = true := by
    rw [← Execute.and_msb_beq, beq_iff_eq]
  have hcqo : (Execute.alu clzZero { u with opcode := .cqo } e).1.value2 =
      if u.value1 &&& msb = msb then u.value2 ||| BitVec.allOnes 64 else 0 := rfl
  rw [hcqo, BitVec.or_allOnes]
  exact if_congr hsign rfl rfl

/-- After `cqo` every word is divided exactly. -/
theorem idivHandled_of_cqo (clzZero : ℕ) (e : Eflags) {u op : Uop} (hrax : u.value1 = op.value2)
    (hrdx : op.value3 = (Execute.alu clzZero { u with opcode := .cqo } e).1.value2) :
    IdivHandled op ∧ signedDividend op = op.value2.toInt := by
  rw [cqo_value2, hrax] at hrdx
  by_cases hsign : op.value2.msb = true
  · rw [if_pos hsign] at hrdx
    refine ⟨.inr hrdx, ?_⟩
    rw [signedDividend_of_msb hsign, hrdx]
    exact add_zero _
  · rw [if_neg hsign] at hrdx
    have hhandled : IdivHandled op := .inl (eq_false_of_ne_true hsign)
    exact ⟨hhandled, (dividedNumber_eq hhandled).symm.trans (dividedNumber_of_zero hrdx)⟩

/-! ## The flags of a signed product -/

/-- The two operands a form multiplies. -/
def factors (op : Uop) : Word × Word :=
  match op.src with
  | .imul3 => (op.value3, op.value1)
  | _ => (op.value2, op.value1)

/-- The exact product. -/
def signedProduct (op : Uop) : ℤ := (factors op).1.toInt * (factors op).2.toInt

/-- The product is a signed 64-bit integer. -/
def ProductFits (op : Uop) : Prop := -2 ^ 63 ≤ signedProduct op ∧ signedProduct op < 2 ^ 63

/-- The `imul` uop sets the carry and the overflow flag exactly if the product does not fit. -/
def FlagsOverflow (inp : CycleInput) (op : Uop) (c : Core) : Prop :=
  ((afterOp inp .imul op c).eflags.test Eflags.maskCF = true ↔ ¬ProductFits op) ∧
    ((afterOp inp .imul op c).eflags.test Eflags.maskOF = true ↔ ¬ProductFits op)

/-- The product is too long in the eyes of the form. -/
def LooksLong (op : Uop) : Prop :=
  match op.src with
  | .imul1 => ¬(0 ≤ signedProduct op ∧ signedProduct op < 2 ^ 64)
  | .imul2r | .imul2i => ¬((2 : ℤ) ^ 64 ∣ signedProduct op ∨ op.value1 = 1)
  | _ => ¬ProductFits op

/-- The high half of the product is tested by the first form. -/
theorem high_ne_zero_iff (x y : Word) :
    (((x.signExtend 128 * y.signExtend 128).sshiftRight 64).setWidth 64 != (0 : Word)) = true ↔
      ¬(0 ≤ x.toInt * y.toInt ∧ x.toInt * y.toInt < 2 ^ 64) := by
  have hhigh := WideProduct.high_eq_zero_iff (w := 64) (by norm_num)
    (x.signExtend 128 * y.signExtend 128)
  rw [WideProduct.toInt_signExtend_mul (by norm_num) (by norm_num)] at hhigh
  rw [bne_iff_ne]
  exact not_congr hhigh

/-- A word is compared with a wide product by its value. -/
theorem product_ne_iff (x y z : Word) :
    (x.signExtend 128 * y.signExtend 128 != z.signExtend 128) = true ↔
      ¬x.toInt * y.toInt = z.toInt := by
  rw [bne_iff_ne, Ne, ← BitVec.toInt_inj,
    WideProduct.toInt_signExtend_mul (by norm_num) (by norm_num),
    BitVec.toInt_signExtend_of_le (by norm_num)]

/-- The second form compares the truncated product with its own multiple. -/
theorem truncated_ne_iff (x y : Word) :
    ((x * y).signExtend 128 * y.signExtend 128 != (x * y).signExtend 128) = true ↔
      ¬((2 : ℤ) ^ 64 ∣ x.toInt * y.toInt ∨ y = 1) := by
  have hzero : (x * y).toInt = 0 ↔ (2 : ℤ) ^ 64 ∣ x.toInt * y.toInt := by
    have hnat := WideProduct.toNat_ofInt_eq_iff (n := 64) (k := 0) (by norm_num)
      (x.toInt * y.toInt)
    rw [← WideProduct.mul_eq_ofInt, Nat.cast_zero, sub_zero] at hnat
    rw [← hnat]
    exact (BitVec.toInt_inj (y := 0#64)).trans (BitVec.toNat_inj (y := 0#64)).symm
  have hone : y.toInt = 1 ↔ y = 1 := ⟨fun h ↦ BitVec.toInt_inj.mp h, fun h ↦ by rw [h]; rfl⟩
  rw [product_ne_iff, mul_right_eq_self₀, hzero, hone, or_comm]

/-- The test of each form, which compares words of 128 bits. -/
theorem imul_eflags (op : Uop) (hsrc : op.src ∈ [SrcType.imul1, .imul2r, .imul2i, .imul3])
    (e : Eflags) : ∃ overflow : Bool, (overflow = true ↔ LooksLong op) ∧
      (Execute.imul op e).2 =
        (e.assign Eflags.maskCF overflow).assign Eflags.maskOF overflow := by
  rw [List.mem_cons, List.mem_cons, List.mem_cons, List.mem_singleton] at hsrc
  rw [LooksLong, ProductFits, signedProduct, factors, Execute.imul]
  rcases hsrc with h | h | h | h <;> rw [h]
  · exact ⟨_, high_ne_zero_iff op.value2 op.value1, rfl⟩
  · exact ⟨_, truncated_ne_iff op.value2 op.value1, rfl⟩
  · exact ⟨_, truncated_ne_iff op.value2 op.value1, rfl⟩
  · refine ⟨_, ?_, rfl⟩
    have hexact := WideProduct.toInt_mul_eq_iff (by norm_num) op.value3 op.value1
    rw [product_ne_iff, eq_comm, hexact]

/-- The operands for which a form sets the flags right. The first form takes a product for too long
if it is not an unsigned word. The second one multiplies the truncated product once more. -/
def ImulHandled (op : Uop) : Prop :=
  match op.src with
  | .imul1 => (signedProduct op < -2 ^ 63 ∨ 0 ≤ signedProduct op) ∧
      (signedProduct op < 2 ^ 63 ∨ 2 ^ 64 ≤ signedProduct op)
  | .imul2r | .imul2i => (ProductFits op → signedProduct op = 0 ∨ op.value1 = 1) ∧
      (¬ProductFits op → ¬(2 : ℤ) ^ 64 ∣ signedProduct op)
  | _ => True

/-- A product that fits is a multiple of the modulus only if it is zero. -/
theorem dvd_iff_of_fits {z : ℤ} (hlow : -2 ^ 63 ≤ z) (hhigh : z < 2 ^ 63) :
    (2 : ℤ) ^ 64 ∣ z ↔ z = 0 := by
  omega

/-- The second form is wrong on a product that fits unless it is zero, or a product with one. -/
theorem twoOperand_iff_iff (op : Uop) (h : factors op = (op.value2, op.value1)) :
    (¬((2 : ℤ) ^ 64 ∣ signedProduct op ∨ op.value1 = 1) ↔ ¬ProductFits op) ↔
      (ProductFits op → signedProduct op = 0 ∨ op.value1 = 1) ∧
        (¬ProductFits op → ¬(2 : ℤ) ^ 64 ∣ signedProduct op) := by
  by_cases hfits : ProductFits op
  · rw [dvd_iff_of_fits hfits.1 hfits.2]
    simp only [hfits, not_true_eq_false, iff_false, not_not, forall_const, IsEmpty.forall_iff,
      and_true]
  · have hone : op.value1 ≠ 1 := by
      intro hone
      have hword : signedProduct op = op.value2.toInt := by
        rw [signedProduct, h, hone]
        exact mul_one _
      apply hfits
      rw [ProductFits, hword]
      exact ⟨BitVec.le_toInt _, BitVec.toInt_lt⟩
    simp only [hfits, hone, or_false, not_false_eq_true, iff_true, IsEmpty.forall_iff, true_and,
      forall_const]

theorem looksLong_iff_iff {op : Uop} (hsrc : op.src ∈ [SrcType.imul1, .imul2r, .imul2i, .imul3]) :
    (LooksLong op ↔ ¬ProductFits op) ↔ ImulHandled op := by
  rw [List.mem_cons, List.mem_cons, List.mem_cons, List.mem_singleton] at hsrc
  rw [LooksLong, ImulHandled]
  rcases hsrc with h | h | h | h <;> rw [h]
  · rw [ProductFits]
    dsimp only
    omega
  · exact twoOperand_iff_iff op (by rw [factors, h])
  · exact twoOperand_iff_iff op (by rw [factors, h])
  · exact iff_of_true Iff.rfl trivial

/-- **When the overflow flags of `imul` are right.** -/
theorem flagsOverflow_iff (inp : CycleInput) (op : Uop) (c : Core)
    (hsrc : op.src ∈ [SrcType.imul1, .imul2r, .imul2i, .imul3]) :
    FlagsOverflow inp op c ↔ ImulHandled op := by
  obtain ⟨overflow, hlong, heflags⟩ :=
    imul_eflags { op with opcode := .imul } hsrc c.eflags
  have hafter : (afterOp inp .imul op c).eflags =
      (Execute.imul { op with opcode := .imul } c.eflags).2 := rfl
  have hlong' : overflow = true ↔ LooksLong op := hlong
  rw [FlagsOverflow, hafter, heflags, ← looksLong_iff_iff hsrc, ← hlong',
    Eflags.test_assign_self _ (by decide), Eflags.test_assign _ (by decide), if_neg (by decide),
    Eflags.test_assign_self _ (by decide), and_self_iff]

/-- The product of `-2 ^ 63` with itself is too long in every form. -/
theorem flagsOverflow_least :
    FlagsOverflow CycleInput.zero
        { Uop.zero with src := .imul3, value1 := msb, value3 := msb } (bootWith ⟨0⟩) ↔
      ImulHandled { Uop.zero with src := .imul3, value1 := msb, value3 := msb } :=
  flagsOverflow_iff _ _ _ (by decide)

/-- The one-operand form takes the product of `-1` and `1` for too long, and the two-operand form
that of 2 and 3. -/
theorem not_flagsOverflow_small :
    ¬FlagsOverflow CycleInput.zero
        { Uop.zero with src := .imul1, value1 := 1, value2 := -1 } (bootWith ⟨0⟩) ∧
      ¬FlagsOverflow CycleInput.zero
        { Uop.zero with src := .imul2r, value1 := 3, value2 := 2 } (bootWith ⟨0⟩) := by
  constructor
  · rintro ⟨hcf, -⟩
    exact hcf.mp (by decide) ⟨by decide, by decide⟩
  · rintro ⟨hcf, -⟩
    exact hcf.mp (by decide) ⟨by decide, by decide⟩

end Cse502.Arithmetic
