import Mathlib.Tactic

/-!
# The bits an operation depends on

Two words give the same result under a mask or a shift exactly when they agree on the bits that
survive it: those the mask keeps, and those the shift does not push out.
-/

namespace WordBits

variable {w : ℕ} (x y : BitVec w)

theorem eq_iff : x = y ↔ ∀ i < w, x.getLsbD i = y.getLsbD i :=
  ⟨fun h _ _ ↦ by rw [h], fun h ↦ BitVec.eq_of_getLsbD_eq h⟩

/-- A conjunction keeps the bits that are set in the mask. -/
theorem and_eq_iff (m : BitVec w) :
    x &&& m = y &&& m ↔ ∀ i < w, m.getLsbD i = true → x.getLsbD i = y.getLsbD i := by
  rw [eq_iff]
  refine forall₂_congr fun i _ ↦ ?_
  rw [BitVec.getLsbD_and, BitVec.getLsbD_and]
  cases m.getLsbD i <;> simp

/-- A disjunction keeps the bits that are clear in the mask. -/
theorem or_eq_iff (m : BitVec w) :
    x ||| m = y ||| m ↔ ∀ i < w, m.getLsbD i = false → x.getLsbD i = y.getLsbD i := by
  rw [eq_iff]
  refine forall₂_congr fun i _ ↦ ?_
  rw [BitVec.getLsbD_or, BitVec.getLsbD_or]
  cases m.getLsbD i <;> simp

/-- A shift to the left keeps the low bits. -/
theorem shiftLeft_eq_iff (n : ℕ) :
    x <<< n = y <<< n ↔ ∀ i < w, i + n < w → x.getLsbD i = y.getLsbD i := by
  rw [eq_iff]
  constructor
  · intro h i hi hin
    have hbit := h (i + n) hin
    rw [BitVec.getLsbD_shiftLeft, BitVec.getLsbD_shiftLeft] at hbit
    simpa only [decide_eq_true hin, Nat.not_lt.mpr (Nat.le_add_left n i), decide_false,
      Bool.not_false, Bool.true_and, Nat.add_sub_cancel] using hbit
  · intro h i hi
    rw [BitVec.getLsbD_shiftLeft, BitVec.getLsbD_shiftLeft]
    by_cases hin : i < n
    · simp [hin]
    · rw [h (i - n) (by omega) (by omega)]

/-- A logical shift to the right keeps the high bits. -/
theorem ushiftRight_eq_iff (n : ℕ) :
    x >>> n = y >>> n ↔ ∀ i < w, n ≤ i → x.getLsbD i = y.getLsbD i := by
  rw [eq_iff]
  constructor
  · intro h i hi hin
    have hbit := h (i - n) (by omega)
    rwa [BitVec.getLsbD_ushiftRight, BitVec.getLsbD_ushiftRight, Nat.add_sub_cancel' hin] at hbit
  · intro h i _
    rw [BitVec.getLsbD_ushiftRight, BitVec.getLsbD_ushiftRight]
    by_cases hin : n + i < w
    · exact h (n + i) hin (by omega)
    · rw [BitVec.getLsbD_of_ge x _ (by omega), BitVec.getLsbD_of_ge y _ (by omega)]

/-- An arithmetic shift to the right repeats the top bit, which is one of the high bits. -/
theorem sshiftRight_eq_iff {n : ℕ} (hn : n < w) :
    x.sshiftRight n = y.sshiftRight n ↔ ∀ i < w, n ≤ i → x.getLsbD i = y.getLsbD i := by
  rw [eq_iff]
  constructor
  · intro h i hi hin
    have hbit := h (i - n) (by omega)
    have hge : ¬w ≤ i - n := by omega
    rw [BitVec.getLsbD_sshiftRight, BitVec.getLsbD_sshiftRight] at hbit
    simpa only [decide_eq_false hge, Bool.not_false, Bool.true_and, Nat.add_sub_cancel' hin,
      if_pos hi]
      using hbit
  · intro h i _
    have hmsb : x.msb = y.msb := by
      rw [BitVec.msb_eq_getLsbD_last, BitVec.msb_eq_getLsbD_last]
      exact h (w - 1) (by omega) (by omega)
    rw [BitVec.getLsbD_sshiftRight, BitVec.getLsbD_sshiftRight, hmsb]
    by_cases hin : n + i < w
    · rw [h (n + i) hin (by omega)]
    · rw [if_neg hin, if_neg hin]

end WordBits
