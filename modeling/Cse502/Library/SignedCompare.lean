import Mathlib.Tactic.Common

/-!
# Signed comparison by the sign of a difference

The sign bit of `a - b` decides `a < b` for signed words exactly when the subtraction does not
overflow. A comparison that reads the sign bit alone is therefore right on the pairs whose
difference fits in the word, and wrong on every other pair.
-/

namespace SignedCompare

variable {w : Nat} (a b : BitVec w)

/-- The top bit of a word, masked out, is the word's sign. -/
theorem and_twoPow_eq_iff (hw : 0 < w) :
    a &&& BitVec.twoPow w (w - 1) = BitVec.twoPow w (w - 1) ↔ a.msb = true := by
  rw [BitVec.and_twoPow, BitVec.msb_eq_getLsbD_last]
  split
  · next h => simp [h]
  · next h =>
    have hne : ¬(0#w = BitVec.twoPow w (w - 1)) := by
      intro hzero
      have hbit := congrArg (fun x : BitVec w ↦ x.getLsbD (w - 1)) hzero
      simp only [BitVec.getLsbD_zero, BitVec.getLsbD_twoPow, decide_true, Bool.and_true] at hbit
      simp at hbit
      omega
    simp [h, hne]

/-- Without overflow the difference has the sign of the comparison. -/
theorem msb_sub_iff (h : a.ssubOverflow b = false) : (a - b).msb = true ↔ a.toInt < b.toInt := by
  have hsub : (a - b).toInt = a.toInt - b.toInt :=
    BitVec.toInt_sub_of_not_ssubOverflow (by rw [h]; exact Bool.false_ne_true)
  rw [BitVec.msb_eq_toInt, decide_eq_true_iff, hsub]
  omega

/-- With overflow it has the opposite one: the operands have different signs, and the difference
takes the sign of the subtrahend. -/
theorem msb_sub_iff_of_overflow (h : a.ssubOverflow b = true) :
    (a - b).msb = true ↔ b.toInt ≤ a.toInt := by
  have hsign : ∀ x : BitVec w, x.msb = true ↔ x.toInt < 0 := fun x ↦ by
    rw [BitVec.msb_eq_toInt, decide_eq_true_iff]
  have ha := hsign a
  have hb := hsign b
  rw [BitVec.ssubOverflow_eq] at h
  cases hma : a.msb <;> cases hmb : b.msb <;> cases hms : (a - b).msb <;>
    simp [hma, hmb, hms] at h ha hb ⊢
  · omega
  · omega

/-- **The sign bit decides the comparison exactly when nothing overflows.** -/
theorem msb_sub_iff_lt_iff :
    ((a - b).msb = true ↔ a.toInt < b.toInt) ↔ a.ssubOverflow b = false := by
  refine ⟨fun hiff ↦ ?_, msb_sub_iff a b⟩
  by_contra hover
  have hmsb := msb_sub_iff_of_overflow a b (by simpa using hover)
  have := hmsb.symm.trans hiff
  omega

end SignedCompare
