import Cse502.Flags.Compare
import Mathlib.Tactic

/-!
# Shifts

`do_shift` shifts one bit at a time and sets the carry flag on each turn of the loop. The loop
computes what one shift by the whole count does, and its carry is the bit pushed out last.

NOTES says how the overflow flag is set, and the source does it under `Op.value1 & countmask == 1`.
The comparison binds tighter than the mask, so that code is never reached.
-/

namespace Cse502

/-- The last of two writes to a flag is the one that stays. -/
@[simp] theorem Eflags.assign_assign (e : Eflags) (i : ℕ) (a b : Bool) :
    (e.assign i a).assign i b = e.assign i b := by
  have hbit : ∀ x t : BitVec 64, (x ||| t) &&& ~~~t = x &&& ~~~t ∧ x &&& ~~~t ||| t = x ||| t := by
    intro x t
    constructor <;> ext j hj <;> cases h : t[j] <;> simp [h]
  cases a <;> cases b <;>
    simp [assign, BitVec.or_assoc, BitVec.and_assoc, (hbit _ _).1, (hbit _ _).2]

namespace Execute

/-- The opcodes that reach `do_shift`. -/
def shiftOpcodes : List Mnemonic := [.sal, .shl, .sar, .shr]

/-! ## The loop -/

/-- The value after a number of turns. -/
def shiftedBy (opcode : Mnemonic) (n : ℕ) (v : Word) : Word :=
  match opcode with
  | .sal | .shl => v <<< n
  | .sar => v.sshiftRight n
  | .shr => v >>> n
  | _ => v

/-- The bit one turn pushes out. -/
def outgoing (opcode : Mnemonic) (v : Word) : Bool :=
  match opcode with
  | .sal | .shl => v.msb
  | _ => v.getLsbD 0

theorem shiftedBy_left {opcode : Mnemonic} (h : opcode = .shl ∨ opcode = .sal) (n : ℕ) (v : Word) :
    shiftedBy opcode n v = v <<< n := by
  rcases h with rfl | rfl <;> rfl

theorem outgoing_left {opcode : Mnemonic} (h : opcode = .shl ∨ opcode = .sal) (v : Word) :
    outgoing opcode v = v.msb := by
  rcases h with rfl | rfl <;> rfl

theorem outgoing_right {opcode : Mnemonic} (h : opcode = .shr ∨ opcode = .sar) (v : Word) :
    outgoing opcode v = v.getLsbD 0 := by
  rcases h with rfl | rfl <;> rfl

theorem shiftedBy_zero (opcode : Mnemonic) (v : Word) : shiftedBy opcode 0 v = v := by
  unfold shiftedBy
  split <;> simp

/-- Turns add up. -/
theorem shiftedBy_add {opcode : Mnemonic} (hop : opcode ∈ shiftOpcodes) (m n : ℕ) (v : Word) :
    shiftedBy opcode (m + n) v = shiftedBy opcode n (shiftedBy opcode m v) := by
  fin_cases hop
  · exact BitVec.shiftLeft_add v m n
  · exact BitVec.shiftLeft_add v m n
  · exact BitVec.sshiftRight_add
  · exact BitVec.shiftRight_add v m n

theorem and_one_beq (v : Word) : (v &&& 1 == 1) = v.getLsbD 0 := by
  have hone : v &&& 1 = (BitVec.ofBool (v.getLsbD 0)).setWidth 64 :=
    BitVec.and_one_eq_setWidth_ofBool_getLsbD
  rw [hone]
  cases v.getLsbD 0 <;> rfl

theorem mul_two_eq (v : Word) : v * 2 = v <<< 1 := BitVec.mul_twoPow_eq_shiftLeft v 1

/-- A turn of the loop. -/
theorem shiftStep_eq {opcode : Mnemonic} (hop : opcode ∈ shiftOpcodes) (v : Word) (e : Eflags) :
    shiftStep opcode v e = (shiftedBy opcode 1 v, e.assign Eflags.maskCF (outgoing opcode v)) := by
  fin_cases hop
  · exact congrArg₂ Prod.mk (mul_two_eq v) (congrArg (e.assign _) (and_msb_beq v))
  · exact congrArg₂ Prod.mk (mul_two_eq v) (congrArg (e.assign _) (and_msb_beq v))
  · exact congrArg₂ Prod.mk rfl (congrArg (e.assign _) (and_one_beq v))
  · exact congrArg₂ Prod.mk rfl (congrArg (e.assign _) (and_one_beq v))

/-- **The loop shifts by the whole count at once**, and the carry is what its last turn pushes
out. -/
theorem shiftLoop_eq {opcode : Mnemonic} (hop : opcode ∈ shiftOpcodes) (n : ℕ) (v : Word)
    (e : Eflags) :
    shiftLoop opcode n v e = (shiftedBy opcode n v,
      if n = 0 then e
      else e.assign Eflags.maskCF (outgoing opcode (shiftedBy opcode (n - 1) v))) := by
  induction n generalizing v e with
  | zero => rw [shiftedBy_zero, if_pos rfl, shiftLoop]
  | succ n ih =>
    rw [shiftLoop, shiftStep_eq hop, ih, ← shiftedBy_add hop, Nat.add_comm 1 n,
      if_neg n.succ_ne_zero, Nat.add_sub_cancel]
    by_cases hn : n = 0
    · rw [if_pos hn, hn, shiftedBy_zero]
    · rw [if_neg hn, Eflags.assign_assign, ← shiftedBy_add hop, Nat.add_sub_of_le (by omega)]

/-! ## The result and the carry -/

/-- The number of turns. -/
theorem toNat_and_countmask (v : Word) : (v &&& 63).toNat = v.toNat % 64 := by
  rw [BitVec.toNat_and]
  exact Nat.and_two_pow_sub_one_eq_mod v.toNat 6

/-- The mask is not one. -/
theorem shiftGuard_countmask (v : Word) : shiftGuard v 63 = false := by
  have hzero : v &&& 0 = 0 := BitVec.and_zero
  rw [shiftGuard, if_neg (by decide), hzero]
  rfl

/-- The uop and the flags after a shift are those after its loop. -/
theorem doShift_eq {op : Uop} (hop : op.opcode ∈ shiftOpcodes) (e : Eflags) :
    doShift op e =
      ({ op with value2 := shiftedBy op.opcode (op.value1.toNat % 64) op.value2 },
        if op.value1.toNat % 64 = 0 then e
        else e.assign Eflags.maskCF
          (outgoing op.opcode (shiftedBy op.opcode (op.value1.toNat % 64 - 1) op.value2))) := by
  rw [doShift]
  dsimp only
  rw [shiftGuard_countmask, if_neg Bool.false_ne_true, toNat_and_countmask, shiftLoop_eq hop]

/-- The carry after a shift. -/
theorem doShift_cf {op : Uop} (hop : op.opcode ∈ shiftOpcodes) (e : Eflags) :
    (doShift op e).2.test Eflags.maskCF =
      if op.value1.toNat % 64 = 0 then e.test Eflags.maskCF
      else outgoing op.opcode (shiftedBy op.opcode (op.value1.toNat % 64 - 1) op.value2) := by
  rw [doShift_eq hop]
  dsimp only
  split_ifs
  · rfl
  · exact Eflags.test_assign_self e (by decide) _

theorem doShift_cf_left {op : Uop} (h : op.opcode = .shl ∨ op.opcode = .sal)
    (hn : op.value1.toNat % 64 ≠ 0) (e : Eflags) :
    (doShift op e).2.test Eflags.maskCF = op.value2.getLsbD (64 - op.value1.toNat % 64) := by
  have hlt : op.value1.toNat % 64 < 64 := Nat.mod_lt _ (by norm_num)
  have hop : op.opcode ∈ shiftOpcodes := by rcases h with h | h <;> simp [h, shiftOpcodes]
  have hbit : 64 - 1 - (op.value1.toNat % 64 - 1) = 64 - op.value1.toNat % 64 := by omega
  rw [doShift_cf hop, if_neg hn, outgoing_left h, shiftedBy_left h, BitVec.msb_shiftLeft,
    BitVec.getMsbD_eq_getLsbD, hbit, decide_eq_true (by omega), Bool.true_and]

/-- After `do_shift` the operand has been shifted by the count modulo 64, and the carry flag is the
bit shifted out last. -/
structure ShiftsExactly (op : Uop) (e : Eflags) : Prop where
  left : op.opcode = .shl ∨ op.opcode = .sal →
    (doShift op e).1.value2.toNat = op.value2.toNat * 2 ^ (op.value1.toNat % 64) % 2 ^ 64
  unsigned : op.opcode = .shr →
    (doShift op e).1.value2.toNat = op.value2.toNat / 2 ^ (op.value1.toNat % 64)
  signed : op.opcode = .sar →
    (doShift op e).1.value2.toInt = op.value2.toInt / 2 ^ (op.value1.toNat % 64)
  carryLeft : op.opcode = .shl ∨ op.opcode = .sal → op.value1.toNat % 64 ≠ 0 →
    (doShift op e).2.test Eflags.maskCF = op.value2.getLsbD (64 - op.value1.toNat % 64)
  carryRight : op.opcode = .shr ∨ op.opcode = .sar → op.value1.toNat % 64 ≠ 0 →
    (doShift op e).2.test Eflags.maskCF = op.value2.getLsbD (op.value1.toNat % 64 - 1)
  carryKept : op.opcode ∈ shiftOpcodes → op.value1.toNat % 64 = 0 →
    (doShift op e).2.test Eflags.maskCF = e.test Eflags.maskCF

/-- **Shifts are exact**, for every operand and every count. -/
theorem shiftsExactly (op : Uop) (e : Eflags) : ShiftsExactly op e := by
  have hlt : op.value1.toNat % 64 < 64 := Nat.mod_lt _ (by norm_num)
  constructor
  case left =>
    intro h
    have hop : op.opcode ∈ shiftOpcodes := by rcases h with h | h <;> simp [h, shiftOpcodes]
    rw [doShift_eq hop, shiftedBy_left h, BitVec.toNat_shiftLeft, Nat.shiftLeft_eq]
  case unsigned =>
    intro h
    rw [doShift_eq (by simp [h, shiftOpcodes]), h, shiftedBy, BitVec.toNat_ushiftRight,
      Nat.shiftRight_eq_div_pow]
  case signed =>
    intro h
    rw [doShift_eq (by simp [h, shiftOpcodes]), h, shiftedBy, BitVec.toInt_sshiftRight,
      Int.shiftRight_eq_div_pow]
    norm_cast
  case carryLeft =>
    intro h hn
    exact doShift_cf_left h hn e
  case carryRight =>
    intro h hn
    have hop : op.opcode ∈ shiftOpcodes := by rcases h with h | h <;> simp [h, shiftOpcodes]
    rw [doShift_cf hop, if_neg hn, outgoing_right h]
    rcases h with h | h
    · rw [h, shiftedBy, BitVec.getLsbD_ushiftRight, Nat.add_zero]
    · rw [h, shiftedBy, BitVec.getLsbD_sshiftRight, Nat.add_zero, if_pos (by omega)]
      rfl
  case carryKept =>
    intro hop hn
    rw [doShift_cf hop, if_pos hn]

/-! ## The overflow flag -/

/-- `do_shift` sets the overflow flag as NOTES says: after a shift by one it tells that the sign has
changed for a left shift, it is the sign of the operand for an unsigned right shift and clear for a
signed one, and any other count leaves it alone. -/
structure OverflowAsNoted (op : Uop) (e : Eflags) : Prop where
  left : op.opcode = .shl ∨ op.opcode = .sal → op.value1.toNat % 64 = 1 →
    (doShift op e).2.test Eflags.maskOF =
      ((doShift op e).1.value2.msb ^^ (doShift op e).2.test Eflags.maskCF)
  unsigned : op.opcode = .shr → op.value1.toNat % 64 = 1 →
    (doShift op e).2.test Eflags.maskOF = op.value2.msb
  signed : op.opcode = .sar → op.value1.toNat % 64 = 1 →
    (doShift op e).2.test Eflags.maskOF = false
  kept : op.value1.toNat % 64 ≠ 1 →
    (doShift op e).2.test Eflags.maskOF = e.test Eflags.maskOF

/-- The overflow flag NOTES asks for after a shift by one, in terms of the operand. -/
def notedOverflow (op : Uop) : Bool :=
  match op.opcode with
  | .sal | .shl => op.value2.getLsbD 62 ^^ op.value2.getLsbD 63
  | .shr => op.value2.msb
  | _ => false

/-- No shift changes the overflow flag. -/
theorem doShift_of {op : Uop} (hop : op.opcode ∈ shiftOpcodes) (e : Eflags) :
    (doShift op e).2.test Eflags.maskOF = e.test Eflags.maskOF := by
  rw [doShift_eq hop]
  dsimp only
  split_ifs
  · rfl
  · rw [Eflags.test_assign e (by decide), if_neg (by decide)]

/-- A left shift by one brings bit 62 to the top and pushes bit 63 out. -/
theorem notedOverflow_left {op : Uop} (h : op.opcode = .shl ∨ op.opcode = .sal)
    (hn : op.value1.toNat % 64 = 1) (e : Eflags) :
    ((doShift op e).1.value2.msb ^^ (doShift op e).2.test Eflags.maskCF) = notedOverflow op := by
  have hop : op.opcode ∈ shiftOpcodes := by rcases h with h | h <;> simp [h, shiftOpcodes]
  have hnoted : notedOverflow op = (op.value2.getLsbD 62 ^^ op.value2.getLsbD 63) := by
    rcases h with h | h <;> rw [notedOverflow, h]
  rw [doShift_cf_left h (by omega) e, doShift_eq hop, hn, shiftedBy_left h, hnoted,
    BitVec.msb_shiftLeft, BitVec.getMsbD_eq_getLsbD]
  rfl

/-- **When the overflow flag is set as NOTES says**: the code for it is never reached, so it must
have been right before. -/
theorem overflowAsNoted_iff (op : Uop) (e : Eflags) (hop : op.opcode ∈ shiftOpcodes) :
    OverflowAsNoted op e ↔
      op.value1.toNat % 64 ≠ 1 ∨ e.test Eflags.maskOF = notedOverflow op := by
  constructor
  · intro h
    by_cases hn : op.value1.toNat % 64 = 1
    · right
      rw [← doShift_of hop]
      rw [shiftOpcodes, List.mem_cons, List.mem_cons, List.mem_cons, List.mem_singleton] at hop
      rcases hop with hop | hop | hop | hop
      · rw [h.left (.inr hop) hn, notedOverflow_left (.inr hop) hn]
      · rw [h.left (.inl hop) hn, notedOverflow_left (.inl hop) hn]
      · rw [h.signed hop hn, notedOverflow, hop]
      · rw [h.unsigned hop hn, notedOverflow, hop]
    · exact .inl hn
  · intro h
    have hof := doShift_of hop e
    constructor
    case left =>
      intro hleft hn
      rw [notedOverflow_left hleft hn, hof]
      exact h.resolve_left (not_not.mpr hn)
    case unsigned =>
      intro hshr hn
      rw [hof, h.resolve_left (not_not.mpr hn), notedOverflow, hshr]
    case signed =>
      intro hsar hn
      rw [hof, h.resolve_left (not_not.mpr hn), notedOverflow, hsar]
    case kept =>
      intro _
      exact hof

/-- The sign of `2 ^ 63 + 1` is set, and so is the overflow flag before the shift. -/
theorem overflowAsNoted_shr :
    OverflowAsNoted { Uop.zero with opcode := .shr, value1 := 1, value2 := msb + 1 } ⟨0x800⟩ ↔
      (1 : Word).toNat % 64 ≠ 1 ∨ (⟨0x800⟩ : Eflags).test Eflags.maskOF = notedOverflow
        { Uop.zero with opcode := .shr, value1 := 1, value2 := msb + 1 } :=
  overflowAsNoted_iff _ _ (by decide)

/-- `2 ^ 62` shifted left by one becomes negative, and the overflow flag stays clear. -/
theorem not_overflowAsNoted_shl :
    ¬OverflowAsNoted { Uop.zero with opcode := .shl, value1 := 1, value2 := 0x4000000000000000 }
      ⟨0⟩ := by
  intro h
  have hset := h.left (.inl rfl) rfl
  revert hset
  decide

end Execute

end Cse502
