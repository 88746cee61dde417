import Cse502.Flags.Compare
import Mathlib.Tactic

/-!
# `test` and `neg`

Beside `cmp`, these are the two instructions whose flags the README promises. `test` compares the
sign bit of its result with `1` and so always clears the sign flag. `neg` sets the carry flag and
leaves the other three as they were.
-/

namespace Cse502.Execute

/-! ## The flags of `test` -/

section TestFlags

variable (value1 value2 : Word) (e : Eflags)

/-- The top bit alone is never `1`. -/
theorem and_msb_ne_one (v : Word) : ¬v &&& msb = 1#64 := by
  intro h
  have hbit := congrArg (fun x : Word ↦ x.getLsbD 0) h
  simp [msb] at hbit

theorem testFlags_zf : (testFlags value1 value2 e).test Eflags.maskZF =
    (value1 &&& value2 == 0) := by
  simp [testFlags, Eflags.test_assign, Eflags.maskZF, Eflags.maskSF, Eflags.maskCF, Eflags.maskOF]

theorem testFlags_sf : (testFlags value1 value2 e).test Eflags.maskSF = false := by
  simp [testFlags, Eflags.test_assign, Eflags.maskZF, Eflags.maskSF, Eflags.maskCF, Eflags.maskOF,
    and_msb_ne_one]

theorem testFlags_cf : (testFlags value1 value2 e).test Eflags.maskCF = false := by
  simp [testFlags, Eflags.test_assign, Eflags.maskCF, Eflags.maskOF]

theorem testFlags_of : (testFlags value1 value2 e).test Eflags.maskOF = false := by
  simp [testFlags, Eflags.maskOF]

end TestFlags

/-- The flags are those of a word, and the jumps and the move that read them decide by its sign and
by whether it is zero. -/
structure ReportsWord (inp : CycleInput) (c : Core) (x : Word) : Prop where
  zf : c.eflags.test Eflags.maskZF = true ↔ x = 0
  sf : c.eflags.test Eflags.maskSF = x.msb
  cf : c.eflags.test Eflags.maskCF = false
  of : c.eflags.test Eflags.maskOF = false
  jz : ∀ op, Taken inp .jz op c ↔ x = 0
  jl : ∀ op, Taken inp .jl op c ↔ x.toInt < 0
  jle : ∀ op, Taken inp .jle op c ↔ x.toInt ≤ 0
  jg : ∀ op, Taken inp .jg op c ↔ 0 < x.toInt
  jge : ∀ op, Taken inp .jge op c ↔ 0 ≤ x.toInt
  cmovns : ∀ op,
    movedValue inp .cmovns op c = some (if 0 ≤ x.toInt then op.value1 else op.value2)

/-- The right flags are all the jumps and the move need. -/
theorem reportsWord_of_flags (inp : CycleInput) {c : Core} {x : Word}
    (hzf : c.eflags.test Eflags.maskZF = true ↔ x = 0)
    (hsf : c.eflags.test Eflags.maskSF = x.msb) (hcf : c.eflags.test Eflags.maskCF = false)
    (hof : c.eflags.test Eflags.maskOF = false) : ReportsWord inp c x := by
  obtain ⟨-, -, cle, cg, cge, -, -⟩ := condition_combine c.eflags
  have hneg : x.msb = true ↔ x.toInt < 0 := by rw [BitVec.msb_eq_toInt, decide_eq_true_iff]
  have hzero : x = 0 ↔ x.toInt = 0 := (BitVec.toInt_inj (y := 0#64)).symm
  have hz : condition .jz c.eflags = true ↔ x.toInt = 0 := by rw [condition, hzf, hzero]
  have hl : condition .jl c.eflags = true ↔ x.toInt < 0 := by
    rw [condition, hsf, hof, Bool.xor_false, hneg]
  have hle : condition .jle c.eflags = true ↔ x.toInt ≤ 0 := by
    rw [cle, Bool.or_eq_true, hl, hz, ← le_iff_lt_or_eq]
  have hg : condition .jg c.eflags = true ↔ 0 < x.toInt := by
    rw [cg, ← cle, Bool.not_eq_true', ← Bool.not_eq_true, hle, not_le]
  have hge : condition .jge c.eflags = true ↔ 0 ≤ x.toInt := by
    rw [cge, Bool.not_eq_true', ← Bool.not_eq_true, hl, not_lt]
  have hns : condition .cmovns c.eflags = true ↔ 0 ≤ x.toInt := by
    rw [condition, hsf, Bool.not_eq_true', ← Bool.not_eq_true, hneg, not_lt]
  constructor
  case cmovns =>
    intro op
    rw [movedValue_eq_condition inp (by decide)]
    exact congrArg some (if_congr hns rfl rfl)
  case zf => exact hzf
  case sf => exact hsf
  case cf => exact hcf
  case of => exact hof
  all_goals
    intro op
    rw [taken_iff_condition inp (by decide)]
  · rw [hz, hzero]
  · exact hl
  · exact hle
  · exact hg
  · exact hge

theorem afterOp_test_eflags (inp : CycleInput) (op : Uop) (c : Core) :
    (afterOp inp .test op c).eflags = testFlags op.value1 op.value2 c.eflags := rfl

/-- The flags after `test` are right exactly if the sign flag should be clear. -/
theorem reportsWord_test_iff (inp : CycleInput) (op : Uop) (c : Core) :
    ReportsWord inp (afterOp inp .test op c) (op.value1 &&& op.value2) ↔
      (op.value1 &&& op.value2).msb = false := by
  constructor
  · intro h
    rw [← h.sf, afterOp_test_eflags, testFlags_sf]
  · intro h
    refine reportsWord_of_flags inp ?_ ?_ ?_ ?_ <;> rw [afterOp_test_eflags]
    · rw [testFlags_zf, beq_iff_eq]
    · rw [testFlags_sf, h]
    · exact testFlags_cf _ _ _
    · exact testFlags_of _ _ _

/-! ## The flags of `neg` -/

/-- The `neg` uop leaves the negated operand and the flags of the negation. -/
structure NegatesFaithfully (inp : CycleInput) (op : Uop) (c : Core) : Prop where
  result : movedValue inp .neg op c = some (BitVec.ofInt 64 (-op.value1.toInt))
  cf : (afterOp inp .neg op c).eflags.test Eflags.maskCF = true ↔ op.value1 ≠ 0
  zf : (afterOp inp .neg op c).eflags.test Eflags.maskZF = true ↔ -op.value1 = 0
  sf : (afterOp inp .neg op c).eflags.test Eflags.maskSF = (-op.value1).msb
  of : (afterOp inp .neg op c).eflags.test Eflags.maskOF = true ↔ op.value1.toInt = -2 ^ 63

/-- The flags before the `neg` that it leaves right. -/
structure NegHandled (op : Uop) (e : Eflags) : Prop where
  zf : e.test Eflags.maskZF = true ↔ op.value1 = 0
  sf : e.test Eflags.maskSF = true ↔ 0 < op.value1.toInt ∨ op.value1 = msb
  of : e.test Eflags.maskOF = true ↔ op.value1 = msb

theorem afterOp_neg_eflags (inp : CycleInput) (op : Uop) (c : Core) :
    (afterOp inp .neg op c).eflags = c.eflags.assign Eflags.maskCF (op.value1 != 0) := rfl

/-- The flags other than the carry are those from before. -/
theorem neg_flag_kept (inp : CycleInput) (op : Uop) (c : Core) {i : ℕ}
    (hi : i ≠ Eflags.maskCF) :
    (afterOp inp .neg op c).eflags.test i = c.eflags.test i := by
  rw [afterOp_neg_eflags, Eflags.test_assign c.eflags (by decide), if_neg hi]

/-- The sign of the negation. -/
theorem msb_neg_iff (a : Word) : (-a).msb = true ↔ 0 < a.toInt ∨ a = msb := by
  have hsign : a.msb = true ↔ a.toInt < 0 := by rw [BitVec.msb_eq_toInt, decide_eq_true_iff]
  have hzero : a = 0#64 ↔ a.toInt = 0 := (BitVec.toInt_inj (y := 0#64)).symm
  have hmsb : (msb : Word) = BitVec.intMin 64 := rfl
  rw [BitVec.msb_neg, Bool.xor_comm, hmsb]
  by_cases hmin : a = BitVec.intMin 64
  · rw [hmin]
    decide
  · by_cases hz : a = 0#64
    · rw [hz]
      decide
    · have hne : a.toInt ≠ 0 := fun h ↦ hz (hzero.mpr h)
      simp only [bne_iff_ne.mpr hz, bne_iff_ne.mpr hmin, Bool.and_self, Bool.xor_true,
        Bool.not_eq_true', ← Bool.not_eq_true, hsign, hmin, or_false]
      omega

theorem eq_msb_iff (a : Word) : a = msb ↔ a.toInt = -2 ^ 63 :=
  (BitVec.toInt_inj (y := msb)).symm

/-- The flags after `neg` are right exactly if all but the carry were right before. -/
theorem negatesFaithfully_iff (inp : CycleInput) (op : Uop) (c : Core) :
    NegatesFaithfully inp op c ↔ NegHandled op c.eflags := by
  have hzero : -op.value1 = 0 ↔ op.value1 = 0 := BitVec.neg_eq_zero_iff
  have hzf := neg_flag_kept inp op c (i := Eflags.maskZF) (by decide)
  have hsf := neg_flag_kept inp op c (i := Eflags.maskSF) (by decide)
  have hof := neg_flag_kept inp op c (i := Eflags.maskOF) (by decide)
  constructor
  · intro h
    refine ⟨?_, ?_, ?_⟩
    · rw [← hzf, h.zf, hzero]
    · rw [← hsf, h.sf, msb_neg_iff]
    · rw [← hof, h.of, eq_msb_iff]
  · intro h
    refine ⟨?_, ?_, ?_, ?_, ?_⟩
    · rw [BitVec.ofInt_neg, BitVec.ofInt_toInt]
      rfl
    · rw [afterOp_neg_eflags, Eflags.test_assign_self c.eflags (by decide), bne_iff_ne]
    · rw [hzf, h.zf, hzero]
    · rw [hsf, Bool.eq_iff_iff, h.sf, msb_neg_iff]
    · rw [hof, h.of, eq_msb_iff]

/-! ## Both promises -/

/-- **When `test` and `neg` keep the promise of the README.** -/
theorem test_neg_faithful_iff (inp : CycleInput) (op : Uop) (c : Core) :
    (ReportsWord inp (afterOp inp .test op c) (op.value1 &&& op.value2) ↔
        (op.value1 &&& op.value2).msb = false) ∧
      (NegatesFaithfully inp op c ↔ NegHandled op c.eflags) :=
  ⟨reportsWord_test_iff inp op c, negatesFaithfully_iff inp op c⟩

/-- Testing `-1` against itself clears the sign flag, and negating 0 leaves the zero flag clear. -/
theorem not_faithful_allOnes_zero :
    ¬ReportsWord CycleInput.zero
        (afterOp CycleInput.zero .test { Uop.zero with value1 := -1, value2 := -1 } (bootWith ⟨0⟩))
        (-1) ∧
      ¬NegatesFaithfully CycleInput.zero Uop.zero (bootWith ⟨0⟩) := by
  constructor
  · intro h
    exact absurd h.sf (by decide)
  · intro h
    exact absurd (h.zf.mpr rfl) (by decide)

end Cse502.Execute
