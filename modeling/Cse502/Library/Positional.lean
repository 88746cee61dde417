import Mathlib.Tactic.LinearCombination
import Mathlib.Tactic.Ring
import Mathlib.Tactic.Zify

/-!
# Numbers as digits, the most significant first

The operations of schoolbook arithmetic on the digits of numbers in some base. The division by a
small number goes from the left and hands the remainder on, the addition and the subtraction go from
the right and hand on a one. Each is told by the values of the digits.
-/

namespace Positional

variable {b d r : ℕ} {xs ys : List ℕ}

/-- The value of digits. -/
def value (b : ℕ) : List ℕ → ℕ
  | [] => 0
  | x :: xs => x * b ^ xs.length + value b xs

@[simp] theorem value_nil : value b [] = 0 := rfl

@[simp] theorem value_cons (x : ℕ) : value b (x :: xs) = x * b ^ xs.length + value b xs := rfl

theorem value_append : value b (xs ++ ys) = value b xs * b ^ ys.length + value b ys := by
  induction xs with
  | nil => simp
  | cons x xs ih =>
    rw [List.cons_append, value_cons, value_cons, ih, List.length_append, pow_add]
    ring

theorem value_eq_zero (h : ∀ x ∈ xs, x = 0) : value b xs = 0 := by
  induction xs with
  | nil => rfl
  | cons x xs ih =>
    obtain ⟨hx, hxs⟩ := List.forall_mem_cons.mp h
    rw [value_cons, hx, ih hxs, Nat.zero_mul]

theorem eq_zero_of_value (hb : 0 < b) (h : value b xs = 0) : ∀ x ∈ xs, x = 0 := by
  induction xs with
  | nil => exact fun x hx ↦ absurd hx List.not_mem_nil
  | cons x xs ih =>
    rw [value_cons, Nat.add_eq_zero_iff, Nat.mul_eq_zero] at h
    have hpow : b ^ xs.length ≠ 0 := (Nat.pow_pos hb).ne'
    exact List.forall_mem_cons.mpr ⟨h.1.resolve_right hpow, ih h.2⟩

theorem value_lt (h : ∀ x ∈ xs, x < b) : value b xs < b ^ xs.length := by
  induction xs with
  | nil => exact Nat.one_pos
  | cons x xs ih =>
    obtain ⟨hx, hxs⟩ := List.forall_mem_cons.mp h
    rw [value_cons, List.length_cons, pow_succ']
    calc x * b ^ xs.length + value b xs
        < x * b ^ xs.length + b ^ xs.length := Nat.add_lt_add_left (ih hxs) _
      _ = (x + 1) * b ^ xs.length := (Nat.succ_mul _ _).symm
      _ ≤ b * b ^ xs.length := Nat.mul_le_mul_right _ hx

/-! ## Two digits for one -/

theorem length_flatMap_pair (f g : ℕ → ℕ) :
    (xs.flatMap fun x ↦ [f x, g x]).length = 2 * xs.length := by
  induction xs with
  | nil => rfl
  | cons x xs ih =>
    rw [List.flatMap_cons, List.length_append, ih, List.length_cons, List.length_cons,
      List.length_cons, List.length_nil]
    omega

theorem value_flatMap_pair :
    value b (xs.flatMap fun x ↦ [x / b, x % b]) = value (b * b) xs := by
  induction xs with
  | nil => rfl
  | cons x xs ih =>
    have hdiv := Nat.div_add_mod x b
    rw [List.flatMap_cons, value_append, ih, length_flatMap_pair, value_cons, pow_mul, sq]
    congr 2
    rw [List.length_singleton, pow_one, value_cons, value_nil, List.length_nil, pow_zero, mul_one,
      add_zero, mul_comm, hdiv]

/-! ## Division -/

/-- Divide by `d`, with a remainder handed over that counts at the first digit. -/
def divide (b d : ℕ) : ℕ → List ℕ → List ℕ
  | _, [] => []
  | r, x :: xs => (x + r) / d :: divide b d ((x + r - d * ((x + r) / d)) * b) xs

@[simp] theorem length_divide : (divide b d r xs).length = xs.length := by
  induction xs generalizing r with
  | nil => rfl
  | cons x xs ih => rw [divide, List.length_cons, List.length_cons, ih]

theorem value_divide (hd : 0 < d) (hxs : xs ≠ []) :
    value b (divide b d r xs) = (r * b ^ (xs.length - 1) + value b xs) / d := by
  induction xs generalizing r with
  | nil => contradiction
  | cons x xs ih =>
    rw [divide, value_cons, value_cons, length_divide, List.length_cons, Nat.add_sub_cancel]
    rcases xs with _ | ⟨y, ys⟩
    · simp [divide, Nat.add_comm]
    · rw [ih (List.cons_ne_nil y ys), List.length_cons, Nat.add_sub_cancel]
      have hmod : x + r - d * ((x + r) / d) = (x + r) % d := by
        have hdiv := Nat.div_add_mod (x + r) d
        omega
      have hsplit : r * b ^ (ys.length + 1) + (x * b ^ (ys.length + 1) + value b (y :: ys)) =
          (x + r) % d * b * b ^ ys.length + value b (y :: ys) +
            d * ((x + r) / d * b ^ (ys.length + 1)) := by
        have hdiv := Nat.div_add_mod (x + r) d
        calc r * b ^ (ys.length + 1) + (x * b ^ (ys.length + 1) + value b (y :: ys))
            = (x + r) * b ^ (ys.length + 1) + value b (y :: ys) := by ring
          _ = (d * ((x + r) / d) + (x + r) % d) * b ^ (ys.length + 1) + value b (y :: ys) := by
            rw [hdiv]
          _ = _ := by ring
      rw [hmod, hsplit, Nat.add_mul_div_left _ _ hd, Nat.add_comm]

/-- The numbers that come up in a division. -/
def steps (b d : ℕ) : ℕ → List ℕ → List ℕ
  | _, [] => []
  | r, x :: xs =>
    (x + r) :: (x + r - d * ((x + r) / d)) * b ::
      steps b d ((x + r - d * ((x + r) / d)) * b) xs

theorem steps_lt (hd : 0 < d) (hr : r ≤ (d - 1) * b) (h : ∀ x ∈ xs, x < b) :
    ∀ t ∈ steps b d r xs, t < b * d := by
  induction xs generalizing r with
  | nil => exact fun t ht ↦ absurd ht List.not_mem_nil
  | cons x xs ih =>
    obtain ⟨hx, hxs⟩ := List.forall_mem_cons.mp h
    have hmod : x + r - d * ((x + r) / d) ≤ d - 1 := by
      have hlt := Nat.mod_lt (x + r) hd
      have hdiv := Nat.div_add_mod (x + r) d
      omega
    have hrest : (x + r - d * ((x + r) / d)) * b ≤ (d - 1) * b := Nat.mul_le_mul_right b hmod
    have hbound : b * d = b + (d - 1) * b :=
      calc b * d = (1 + (d - 1)) * b := by rw [Nat.add_sub_cancel' hd, Nat.mul_comm]
        _ = b + (d - 1) * b := by ring
    have htail := ih hrest hxs
    rw [hbound] at htail ⊢
    rw [steps]
    refine List.forall_mem_cons.mpr ⟨Nat.add_lt_add_of_lt_of_le hx hr, ?_⟩
    exact List.forall_mem_cons.mpr ⟨by omega, htail⟩

theorem exists_of_mem_divide {q : ℕ} (h : q ∈ divide b d r xs) :
    ∃ t ∈ steps b d r xs, q = t / d := by
  induction xs generalizing r with
  | nil => exact absurd h List.not_mem_nil
  | cons x xs ih =>
    rw [divide] at h
    rw [steps]
    rcases List.mem_cons.mp h with rfl | htail
    · exact ⟨x + r, List.mem_cons_self, rfl⟩
    · obtain ⟨t, ht, hq⟩ := ih htail
      exact ⟨t, List.mem_cons_of_mem _ (List.mem_cons_of_mem _ ht), hq⟩

theorem divide_lt (hd : 0 < d) (hr : r ≤ (d - 1) * b) (h : ∀ x ∈ xs, x < b) :
    ∀ q ∈ divide b d r xs, q < b := by
  intro q hq
  obtain ⟨t, ht, rfl⟩ := exists_of_mem_divide hq
  exact (Nat.div_lt_iff_lt_mul hd).mpr (steps_lt hd hr h t ht)

/-- Leading zeros stay. -/
theorem divide_take {n : ℕ} (h : ∀ x ∈ xs.take n, x = 0) :
    ∀ q ∈ (divide b d 0 xs).take n, q = 0 := by
  induction xs generalizing n with
  | nil => simp [divide]
  | cons x xs ih =>
    rcases n with _ | n
    · simp
    · rw [List.take_succ_cons] at h
      obtain ⟨rfl, hxs⟩ := List.forall_mem_cons.mp h
      rw [divide, List.take_succ_cons, Nat.zero_add, Nat.zero_div, Nat.mul_zero, Nat.sub_zero,
        Nat.zero_mul]
      exact List.forall_mem_cons.mpr ⟨rfl, ih hxs⟩

/-! ## Addition and subtraction -/

/-- Add digit by digit: the carry, and the sum. -/
def add (b : ℕ) : List ℕ → List ℕ → ℕ × List ℕ
  | x :: xs, y :: ys =>
    let r := add b xs ys
    if b ≤ x + y + r.1 then (1, (x + y + r.1 - b) :: r.2) else (0, (x + y + r.1) :: r.2)
  | _, _ => (0, [])

/-- Subtract digit by digit: the borrow, and the difference. -/
def sub (b : ℕ) : List ℕ → List ℕ → ℕ × List ℕ
  | x :: xs, y :: ys =>
    let r := sub b xs ys
    if x < y + r.1 then (1, (x + b - (y + r.1)) :: r.2)
    else (0, (x - (y + r.1)) :: r.2)
  | _, _ => (0, [])

/-- What is known of the digits of a result, and of the one handed on. -/
structure Digits (b n : ℕ) (r : ℕ × List ℕ) : Prop where
  le_one : r.1 ≤ 1
  length : r.2.length = n
  lt : ∀ q ∈ r.2, q < b

theorem digits_add (hlength : xs.length = ys.length) (hx : ∀ x ∈ xs, x < b)
    (hy : ∀ y ∈ ys, y < b) : Digits b xs.length (add b xs ys) ∧
      value b (add b xs ys).2 + (add b xs ys).1 * b ^ xs.length = value b xs + value b ys := by
  induction xs generalizing ys with
  | nil =>
    rw [List.eq_nil_of_length_eq_zero hlength.symm]
    exact ⟨⟨Nat.zero_le _, rfl, fun q hq ↦ absurd hq List.not_mem_nil⟩, rfl⟩
  | cons x xs ih =>
    obtain ⟨y, ys, rfl⟩ := List.exists_cons_of_length_eq_add_one hlength.symm
    obtain ⟨hx, hxs⟩ := List.forall_mem_cons.mp hx
    obtain ⟨hy, hys⟩ := List.forall_mem_cons.mp hy
    have hlen : xs.length = ys.length := Nat.succ.inj hlength
    obtain ⟨⟨hone, hcount, hlt⟩, hvalue⟩ := ih hlen hxs hys
    have hpow : b ^ (xs.length + 1) = b * b ^ xs.length := pow_succ' b xs.length
    rw [add]
    split
    · rename_i hle
      refine ⟨⟨le_rfl, ?_, List.forall_mem_cons.mpr ⟨by omega, hlt⟩⟩, ?_⟩
      · rw [List.length_cons, hcount, List.length_cons]
      · obtain ⟨q, hq⟩ := Nat.exists_eq_add_of_le hle
        rw [hq, Nat.add_sub_cancel_left, value_cons, value_cons, value_cons, hcount,
          List.length_cons, hpow, ← hlen]
        zify at hvalue hq ⊢
        linear_combination hvalue - (b : ℤ) ^ xs.length * hq
    · refine ⟨⟨Nat.zero_le _, ?_, List.forall_mem_cons.mpr ⟨by omega, hlt⟩⟩, ?_⟩
      · rw [List.length_cons, hcount, List.length_cons]
      · rw [value_cons, value_cons, value_cons, hcount, List.length_cons, ← hlen]
        zify at hvalue ⊢
        linear_combination hvalue

theorem digits_sub (hlength : xs.length = ys.length) (hx : ∀ x ∈ xs, x < b)
    (hy : ∀ y ∈ ys, y < b) : Digits b xs.length (sub b xs ys) ∧
      value b (sub b xs ys).2 + value b ys = value b xs + (sub b xs ys).1 * b ^ xs.length := by
  induction xs generalizing ys with
  | nil =>
    rw [List.eq_nil_of_length_eq_zero hlength.symm]
    exact ⟨⟨Nat.zero_le _, rfl, fun q hq ↦ absurd hq List.not_mem_nil⟩, rfl⟩
  | cons x xs ih =>
    obtain ⟨y, ys, rfl⟩ := List.exists_cons_of_length_eq_add_one hlength.symm
    obtain ⟨hx, hxs⟩ := List.forall_mem_cons.mp hx
    obtain ⟨hy, hys⟩ := List.forall_mem_cons.mp hy
    have hlen : xs.length = ys.length := Nat.succ.inj hlength
    obtain ⟨⟨hone, hcount, hlt⟩, hvalue⟩ := ih hlen hxs hys
    have hpow : b ^ (xs.length + 1) = b * b ^ xs.length := pow_succ' b xs.length
    rw [sub]
    split
    · refine ⟨⟨le_rfl, ?_, List.forall_mem_cons.mpr ⟨by omega, hlt⟩⟩, ?_⟩
      · rw [List.length_cons, hcount, List.length_cons]
      · obtain ⟨q, hq⟩ := Nat.exists_eq_add_of_le (by omega : y + (sub b xs ys).1 ≤ x + b)
        rw [hq, Nat.add_sub_cancel_left, value_cons, value_cons, value_cons, hcount,
          List.length_cons, hpow, ← hlen]
        zify at hvalue hq ⊢
        linear_combination hvalue - (b : ℤ) ^ xs.length * hq
    · rename_i hnot
      refine ⟨⟨Nat.zero_le _, ?_, List.forall_mem_cons.mpr ⟨by omega, hlt⟩⟩, ?_⟩
      · rw [List.length_cons, hcount, List.length_cons]
      · obtain ⟨q, hq⟩ := Nat.exists_eq_add_of_le (Nat.le_of_not_lt hnot)
        rw [hq, Nat.add_sub_cancel_left, value_cons, value_cons, value_cons, hcount,
          List.length_cons, ← hlen]
        zify at hvalue hq ⊢
        linear_combination hvalue

end Positional
