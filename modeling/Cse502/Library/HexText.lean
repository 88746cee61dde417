import Mathlib.Tactic

/-!
# Numbers as hexadecimal text

Text in lower-case hexadecimal digits, written by `Nat.toDigits 16` and read back by `value`. A
text is read digit by digit from the left, so the value of a text that another one follows is
shifted by as many digits as follow it.
-/

namespace HexText

/-- The value of one hexadecimal digit. -/
def digitValue (c : Char) : ℕ := if c.isDigit then c.toNat - 48 else c.toNat - 87

/-- The number a text of hexadecimal digits denotes. -/
def value (cs : List Char) : ℕ := cs.foldl (fun n c ↦ 16 * n + digitValue c) 0

/-- The character of a digit is read back as the digit. -/
@[simp] theorem digitValue_digitChar {d : ℕ} (hd : d < 16) : digitValue d.digitChar = d := by
  interval_cases d <;> rfl

theorem digitChar_ne_space (d : ℕ) (hd : d < 16) : d.digitChar ≠ ' ' := by
  interval_cases d <;> decide

theorem digitChar_eq_zero_iff {d : ℕ} (hd : d < 16) : d.digitChar = '0' ↔ d = 0 := by
  interval_cases d <;> decide

@[simp] theorem value_nil : value [] = 0 := rfl

private theorem foldl_eq (cs : List Char) (n : ℕ) :
    cs.foldl (fun n c ↦ 16 * n + digitValue c) n = n * 16 ^ cs.length + value cs := by
  induction cs generalizing n with
  | nil => simp
  | cons c cs ih =>
    rw [value, List.foldl_cons, List.foldl_cons, ih, ih (16 * 0 + digitValue c), List.length_cons]
    ring

/-- A text in front counts for as many more digits as follow it. -/
theorem value_append (cs cs' : List Char) :
    value (cs ++ cs') = value cs * 16 ^ cs'.length + value cs' := by
  rw [value, List.foldl_append, foldl_eq]
  rfl

theorem value_singleton (c : Char) : value [c] = digitValue c := by
  rw [value, List.foldl_cons, List.foldl_nil, Nat.mul_zero, Nat.zero_add]

theorem value_cons (c : Char) (cs : List Char) :
    value (c :: cs) = digitValue c * 16 ^ cs.length + value cs := by
  rw [← List.singleton_append, value_append, value_singleton]

theorem value_replicate (n : ℕ) (c : Char) :
    15 * value (List.replicate n c) = digitValue c * (16 ^ n - 1) := by
  induction n with
  | zero => simp
  | succ n ih =>
    rw [List.replicate_succ, value_cons, List.length_replicate, Nat.mul_add, ih, Nat.pow_succ]
    have hpos : 1 ≤ 16 ^ n := Nat.one_le_two_pow.trans (Nat.pow_le_pow_left (by omega) n)
    obtain ⟨k, hk⟩ := Nat.exists_eq_add_of_le hpos
    rw [hk, Nat.add_sub_cancel_left, show (1 + k) * 16 - 1 = 15 + 16 * k by omega]
    ring

/-- A number is read back from its text. -/
@[simp] theorem value_toDigits (n : ℕ) : value (Nat.toDigits 16 n) = n := by
  induction n using Nat.strongRecOn with
  | ind n ih =>
    by_cases hn : n < 16
    · rw [Nat.toDigits_of_lt_base hn, value_singleton, digitValue_digitChar hn]
    · rw [Nat.toDigits_of_base_le (by omega) (by omega), value_append, value_singleton,
        ih (n / 16) (by omega), digitValue_digitChar (Nat.mod_lt n (by omega)),
        List.length_singleton]
      omega

/-- How many digits a number takes, from its size. -/
theorem length_toDigits_eq_iff {n k : ℕ} (hk : 0 < k) :
    (Nat.toDigits 16 n).length = k + 1 ↔ 16 ^ k ≤ n ∧ n < 16 ^ (k + 1) := by
  have hle := Nat.length_toDigits_le_iff (n := n) (k := k) (b := 16) (by omega) hk
  have hle' := Nat.length_toDigits_le_iff (n := n) (k := k + 1) (b := 16) (by omega) (by omega)
  omega

/-- Two digits with a leading zero where needed, as `setw(2)` with `setfill('0')` writes a byte. -/
def byteText (n : ℕ) : List Char := List.leftpad 2 '0' (Nat.toDigits 16 n)

theorem byteText_eq {n : ℕ} (hn : n < 256) :
    byteText n = [(n / 16).digitChar, (n % 16).digitChar] := by
  rw [byteText]
  by_cases h16 : n < 16
  · rw [Nat.toDigits_of_lt_base h16, Nat.div_eq_of_lt h16, Nat.mod_eq_of_lt h16]
    rfl
  · rw [Nat.toDigits_of_base_le (by omega) (by omega),
      Nat.toDigits_of_lt_base (show n / 16 < 16 by omega)]
    rfl

end HexText
