import Cse502.Library.SignedCompare
import Cse502.Model.Execute
import Mathlib.Tactic

/-!
# Compare and branch

The README promises that the simulator manipulates the flags faithfully for `cmp`. After
`cmp value1, value2` the conditional jumps should therefore agree with the comparison of the two
integers, unsigned for `jb` and `ja` and signed for `jl`, `jle`, `jg` and `jge`.

The unsigned half holds for all operands. The signed half needs the overflow flag, and
`Execute::work` computes it from three 64-bit sign masks stored in `int`, which keeps only their low
halves: the flag is always cleared. The signed conditions then read the sign of the difference
alone, and are right exactly when the difference fits in 64 bits.
-/

namespace Cse502.Execute

/-! ## The flags a comparison leaves -/

/-- Every sign mask loses its bit in the `int`. -/
@[simp] theorem intNonzero_and_msb (v : Word) : intNonzero (v &&& msb) = false := by
  have hmask : (v &&& msb).setWidth 32 = 0#32 := by
    ext i hi
    have hne : ¬63 = i := by omega
    simp [msb, hne]
  rw [intNonzero, hmask]
  rfl

theorem and_msb_beq (v : Word) : (v &&& msb == msb) = v.msb := by
  rw [Bool.eq_iff_iff, beq_iff_eq]
  exact SignedCompare.and_twoPow_eq_iff v (by decide)

section CmpFlags

variable (value1 value2 : Word) (e : Eflags)

theorem cmpFlags_zf :
    (cmpFlags value1 value2 e).test Eflags.maskZF = (value2 - value1 == 0) := by
  simp [cmpFlags, Eflags.test_assign, Eflags.maskZF, Eflags.maskSF, Eflags.maskCF, Eflags.maskOF]

theorem cmpFlags_sf : (cmpFlags value1 value2 e).test Eflags.maskSF = (value2 - value1).msb := by
  simp [cmpFlags, Eflags.test_assign, Eflags.maskSF, Eflags.maskCF, Eflags.maskOF, and_msb_beq]

theorem cmpFlags_cf : (cmpFlags value1 value2 e).test Eflags.maskCF = value2.ult value1 := by
  simp [cmpFlags, Eflags.test_assign, Eflags.maskCF, Eflags.maskOF]

theorem cmpFlags_of : (cmpFlags value1 value2 e).test Eflags.maskOF = false := by
  simp [cmpFlags, Eflags.maskOF]

end CmpFlags

/-! ## Branches and moves after a comparison -/

/-- The state after the `switch` ran a uop with this opcode. -/
def afterOp (inp : CycleInput) (opcode : Mnemonic) (op : Uop) (c : Core) : Core :=
  ((switchOp inp { op with opcode := opcode } c).map Prod.snd).getD c

/-- A core that has just started with these flags. -/
def bootWith (e : Eflags) : Core := Core.boot (fun _ ↦ 0) e (fun _ ↦ 0) (.init 0 Uop.zero)

/-- Running the uop with this opcode redirects the fetch. -/
def Taken (inp : CycleInput) (opcode : Mnemonic) (op : Uop) (c : Core) : Prop :=
  (afterOp inp opcode op { c with nxt.changeRIP := false }).nxt.changeRIP = true

/-- The `value2` the `switch` leaves in a uop with this opcode. -/
def movedValue (inp : CycleInput) (opcode : Mnemonic) (op : Uop) (c : Core) : Option Word :=
  (switchOp inp { op with opcode := opcode } c).map fun r ↦ r.1.value2

/-- Every jump and move of `Execute::work` that the claim names decides as the integers do: `c` is
the state after comparing `a` with `b`. -/
structure ComparesAs (inp : CycleInput) (c : Core) (a b : Word) : Prop where
  jz : ∀ op, Taken inp .jz op c ↔ a = b
  jnz : ∀ op, Taken inp .jnz op c ↔ a ≠ b
  jb : ∀ op, Taken inp .jb op c ↔ a.toNat < b.toNat
  ja : ∀ op, Taken inp .ja op c ↔ b.toNat < a.toNat
  jl : ∀ op, Taken inp .jl op c ↔ a.toInt < b.toInt
  jle : ∀ op, Taken inp .jle op c ↔ a.toInt ≤ b.toInt
  jg : ∀ op, Taken inp .jg op c ↔ b.toInt < a.toInt
  jge : ∀ op, Taken inp .jge op c ↔ b.toInt ≤ a.toInt
  cmovnz : ∀ op, movedValue inp .cmovnz op c = some (if a ≠ b then op.value1 else op.value2)
  cmovg : ∀ op,
    movedValue inp .cmovg op c = some (if b.toInt < a.toInt then op.value1 else op.value2)

/-- A conditional jump is taken exactly under its condition. -/
theorem taken_iff_condition (inp : CycleInput) {opcode : Mnemonic}
    (hop : opcode ∈ [Mnemonic.jmp, .ja, .jz, .jnz, .jb, .jl, .jle, .jg, .jge]) (op : Uop)
    (c : Core) : Taken inp opcode op c ↔ condition opcode c.eflags = true := by
  have hswitch : ∀ c : Core, switchOp inp { op with opcode := opcode } c
      = some ({ op with opcode := opcode },
          if condition opcode c.eflags then doJump { op with opcode := opcode } c else c) := by
    intro c
    fin_cases hop <;> rfl
  have hjump : ∀ (u : Uop) (c : Core), (doJump u c).nxt.changeRIP = true := by
    intro u c
    rw [doJump]
    cases u.src <;> rfl
  rw [Taken, afterOp, hswitch]
  by_cases h : condition opcode c.eflags = true
  · simp [h, hjump]
  · simp [h]

theorem movedValue_eq_condition (inp : CycleInput) {opcode : Mnemonic}
    (hop : opcode ∈ [Mnemonic.cmovnz, .cmovns, .cmovg]) (op : Uop) (c : Core) :
    movedValue inp opcode op c
      = some (if condition opcode c.eflags then op.value1 else op.value2) := by
  fin_cases hop <;> rfl

theorem afterOp_cmp_eflags (inp : CycleInput) (op : Uop) (c : Core) :
    (afterOp inp .cmp op c).eflags = cmpFlags op.value1 op.value2 c.eflags := rfl

/-- The unsigned order and equality are read off the carry and zero flags. -/
theorem ult_iff (a b : Word) : a.ult b = true ↔ a.toNat < b.toNat := by
  rw [BitVec.ult, decide_eq_true_iff]

theorem sub_beq_zero_iff (a b : Word) : (a - b == 0) = true ↔ a = b := by
  rw [beq_iff_eq]
  constructor
  · intro h
    bv_omega
  · rintro rfl
    exact BitVec.sub_self a

/-- The three basic conditions after a comparison. The overflow flag is cleared whatever the
operands, so `jl` reads the sign of the difference. -/
theorem condition_cmpFlags (value1 value2 : Word) (e : Eflags) :
    (condition .jz (cmpFlags value1 value2 e) = true ↔ value2 = value1) ∧
      (condition .jb (cmpFlags value1 value2 e) = true ↔ value2.toNat < value1.toNat) ∧
      condition .jl (cmpFlags value1 value2 e) = (value2 - value1).msb := by
  refine ⟨?_, ?_, ?_⟩
  · rw [condition, cmpFlags_zf]
    exact sub_beq_zero_iff value2 value1
  · rw [condition, cmpFlags_cf]
    exact ult_iff value2 value1
  · rw [condition, cmpFlags_sf, cmpFlags_of, Bool.xor_false]

/-- The remaining conditions are Boolean combinations of these three. -/
theorem condition_combine (e : Eflags) :
    condition .jnz e = !condition .jz e ∧
      condition .ja e = !(condition .jb e || condition .jz e) ∧
      condition .jle e = (condition .jl e || condition .jz e) ∧
      condition .jg e = !(condition .jl e || condition .jz e) ∧
      condition .jge e = !condition .jl e ∧
      condition .cmovnz e = condition .jnz e ∧ condition .cmovg e = condition .jg e :=
  ⟨rfl, rfl, rfl, rfl, rfl, rfl, rfl⟩

/-- The comparison is right as soon as the sign of the difference decides it. -/
theorem comparesAs_of_not_overflow (inp : CycleInput) (op : Uop) (c : Core)
    (h : op.value2.ssubOverflow op.value1 = false) :
    ComparesAs inp (afterOp inp .cmp op c) op.value2 op.value1 := by
  have heflags := afterOp_cmp_eflags inp op c
  obtain ⟨hz, hb, hmsb⟩ := condition_cmpFlags op.value1 op.value2 c.eflags
  obtain ⟨cnz, ca, cle, cg, cge, cmnz, cmg⟩ :=
    condition_combine (cmpFlags op.value1 op.value2 c.eflags)
  have hnz : condition .jnz (cmpFlags op.value1 op.value2 c.eflags) = true
      ↔ op.value2 ≠ op.value1 := by
    rw [cnz, Bool.not_eq_true', ← Bool.not_eq_true, hz]
  have hl : condition .jl (cmpFlags op.value1 op.value2 c.eflags) = true
      ↔ op.value2.toInt < op.value1.toInt := by
    rw [hmsb]
    exact SignedCompare.msb_sub_iff _ _ h
  have hle : condition .jle (cmpFlags op.value1 op.value2 c.eflags) = true
      ↔ op.value2.toInt ≤ op.value1.toInt := by
    rw [cle, Bool.or_eq_true, hl, hz, ← BitVec.toInt_inj, ← le_iff_lt_or_eq]
  have hg : condition .jg (cmpFlags op.value1 op.value2 c.eflags) = true
      ↔ op.value1.toInt < op.value2.toInt := by
    rw [cg, ← cle, Bool.not_eq_true', ← Bool.not_eq_true, hle, not_le]
  have ha : condition .ja (cmpFlags op.value1 op.value2 c.eflags) = true
      ↔ op.value1.toNat < op.value2.toNat := by
    rw [ca, Bool.not_eq_true', ← Bool.not_eq_true, Bool.or_eq_true, hb, hz, ← BitVec.toNat_inj,
      ← le_iff_lt_or_eq, not_le]
  have hge : condition .jge (cmpFlags op.value1 op.value2 c.eflags) = true
      ↔ op.value1.toInt ≤ op.value2.toInt := by
    rw [cge, Bool.not_eq_true', ← Bool.not_eq_true, hl, not_lt]
  constructor
  case cmovnz =>
    intro op'
    rw [movedValue_eq_condition inp (by decide), heflags, cmnz]
    exact congrArg some (if_congr hnz rfl rfl)
  case cmovg =>
    intro op'
    rw [movedValue_eq_condition inp (by decide), heflags, cmg]
    exact congrArg some (if_congr hg rfl rfl)
  all_goals
    intro op'
    rw [taken_iff_condition inp (by decide), heflags]
  · exact hz
  · exact hnz
  · exact hb
  · exact ha
  · exact hl
  · exact hle
  · exact hg
  · exact hge

/-- **Compare and branch agrees with integer comparison exactly when the signed difference fits in
64 bits.** Here `op.value2` is compared with `op.value1`. -/
theorem comparesAs_iff (inp : CycleInput) (op : Uop) (c : Core) :
    ComparesAs inp (afterOp inp .cmp op c) op.value2 op.value1
      ↔ op.value2.ssubOverflow op.value1 = false := by
  refine ⟨fun h ↦ ?_, comparesAs_of_not_overflow inp op c⟩
  rw [← SignedCompare.msb_sub_iff_lt_iff, ← h.jl op, taken_iff_condition inp (by decide),
    afterOp_cmp_eflags, (condition_cmpFlags op.value1 op.value2 c.eflags).2.2]

/-- Comparing the least 64-bit integer with `1`: the difference overflows to a positive number, so
`jl` is not taken although the first operand is the smaller one. -/
theorem not_comparesAs_intMin_one :
    ¬ComparesAs CycleInput.zero
      (afterOp CycleInput.zero .cmp { Uop.zero with value2 := msb, value1 := 1 }
        (Core.boot (fun _ ↦ 0) ⟨0⟩ (fun _ ↦ 0) (Execute.init 0 Uop.zero))) msb 1 := by
  intro h
  have htaken := h.jl Uop.zero
  rw [taken_iff_condition CycleInput.zero (by decide), afterOp_cmp_eflags,
    (condition_cmpFlags _ _ _).2.2] at htaken
  exact absurd (htaken.mpr (by decide)) (by decide)

end Cse502.Execute
