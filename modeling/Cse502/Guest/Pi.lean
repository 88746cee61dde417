import Mathlib.Algebra.BigOperators.Intervals
import Mathlib.Analysis.Real.Pi.Bounds
import Mathlib.Data.Int.ModEq
import Mathlib.Tactic.Positivity
import Cse502.Guest.Numbers
import Cse502.Library.ArctanSeries
import Cse502.Model.Pi

/-!
# The digits of pi

Behind `k` turns `powers` holds the multiplier over a power of the denominator, cut off, and `pi`
has taken up `k` terms of the series, each cut off. What is before `adv` is zero in both arrays, so
that the terms of earlier turns that are still in `term` do no harm.

A term loses less than one unit of the last digit, and there are as many terms as it takes for
`powers` to vanish, so that the digits are off by a few units for each digit that is computed. The
divisor grows with the number of terms only, so that no division overflows.
-/

namespace Cse502.Pi

open Positional (value divide add sub)
open Finset (range)

/-- The numerator of the series, as it is divided again and again. -/
def power (M d S k : ℕ) : ℕ := M * d * S / (d * d) ^ k

/-- The `j`-th term, cut off. -/
def cut (M d S j : ℕ) : ℕ := power M d S (j + 1) / (2 * j + 1)

/-- The sum of the first terms. -/
def sum (M d S k : ℕ) : ℤ := ∑ j ∈ range k, (-1) ^ j * (cut M d S j : ℤ)

/-- The state behind `k` turns, for an array `pi` of the value `N` before the first one. -/
structure Inv (M d size : ℕ) (N σ : ℤ) (k : ℕ) (s : State) : Prop where
  pi_length : s.pi.length = size
  powers_length : s.powers.length = size
  term_length : s.term.length = size
  pi_lt : ∀ x ∈ s.pi, x < base
  powers_lt : ∀ x ∈ s.powers, x < base
  adv_lt : s.adv < size
  powers_zero : ∀ x ∈ s.powers.take s.adv, x = 0
  term_zero : ∀ x ∈ s.term.take s.adv, x = 0
  remain_le : s.remain ≤ (d * d - 1) * base
  remain_zero : s.adv ≠ 0 → s.remain = 0
  power_eq : s.remain * base ^ (size - 1) + value base s.powers = power M d (base ^ (size - 1)) k
  divisor_eq : s.divisor = 2 * k + 1
  sign_eq : s.sign = (-1) ^ k * σ
  sum_modEq : (value base s.pi : ℤ) ≡ N + σ * sum M d (base ^ (size - 1)) k [ZMOD base ^ size]

variable {M d size k : ℕ} {N σ : ℤ} {s : State}

/-! ## One turn -/

section Turn

theorem value_of_take {xs ys : List ℕ} (h : ∀ x ∈ xs, x = 0) :
    value base (xs ++ ys) = value base ys := by
  rw [Positional.value_append, Positional.value_eq_zero h, Nat.zero_mul, Nat.zero_add]

theorem length_take_append {xs ys : List ℕ} {n : ℕ} (hys : ys.length = xs.length - n)
    (hn : n ≤ xs.length) : (xs.take n ++ ys).length = xs.length := by
  rw [List.length_append, List.length_take_of_le hn, hys]
  omega

/-- A turn divides the power. -/
theorem Inv.value_powers (h : Inv M d size N σ k s) (hd : 0 < d) :
    value base (turn (d * d) s).powers = Pi.power M d (base ^ (size - 1)) (k + 1) := by
  have hdrop : s.powers.drop s.adv ≠ [] := by
    rw [Ne, List.drop_eq_nil_iff, h.powers_length]
    exact Nat.not_le.mpr h.adv_lt
  have hvalue : value base (s.powers.drop s.adv) = value base s.powers := by
    rw [← value_of_take h.powers_zero, List.take_append_drop]
  have hremain : s.remain * base ^ ((s.powers.drop s.adv).length - 1) =
      s.remain * base ^ (size - 1) := by
    by_cases hadv : s.adv = 0
    · rw [hadv, List.drop_zero, h.powers_length]
    · rw [h.remain_zero hadv, Nat.zero_mul, Nat.zero_mul]
  have hpowers : (turn (d * d) s).powers =
      s.powers.take s.adv ++ divide base (d * d) s.remain (s.powers.drop s.adv) := rfl
  rw [hpowers, value_of_take h.powers_zero, Positional.value_divide (Nat.mul_pos hd hd) hdrop,
    hvalue, hremain, h.power_eq, Pi.power, Pi.power, Nat.div_div_eq_div_mul, pow_succ]

theorem Inv.drop_powers (h : Inv M d size N σ k s) : (turn (d * d) s).powers.drop s.adv =
    divide base (d * d) s.remain (s.powers.drop s.adv) :=
  List.drop_left' (List.length_take_of_le (h.powers_length ▸ h.adv_lt.le))

theorem Inv.take_powers (h : Inv M d size N σ k s) :
    (turn (d * d) s).powers.take s.adv = s.powers.take s.adv :=
  List.take_left' (List.length_take_of_le (h.powers_length ▸ h.adv_lt.le))

/-- The term of a turn. -/
theorem Inv.value_term (h : Inv M d size N σ k s) (hd : 0 < d) :
    value base (turn (d * d) s).term = cut M d (base ^ (size - 1)) k := by
  have hdrop : (turn (d * d) s).powers.drop s.adv ≠ [] := by
    rw [h.drop_powers, Ne, ← List.length_eq_zero_iff, Positional.length_divide, List.length_drop,
      h.powers_length]
    have hlt := h.adv_lt
    omega
  have hzero : ∀ x ∈ (turn (d * d) s).powers.take s.adv, x = 0 := by
    rw [h.take_powers]
    exact h.powers_zero
  have hvalue : value base ((turn (d * d) s).powers.drop s.adv) =
      value base (turn (d * d) s).powers := by
    rw [← value_of_take hzero, List.take_append_drop]
  have hterm : (turn (d * d) s).term = s.term.take s.adv ++
      divide base s.divisor 0 ((turn (d * d) s).powers.drop s.adv) := rfl
  rw [hterm, value_of_take h.term_zero, Positional.value_divide (by rw [h.divisor_eq]; omega) hdrop,
    hvalue, h.value_powers hd, Nat.zero_mul, Nat.zero_add, h.divisor_eq, cut]

theorem Inv.length_turn (h : Inv M d size N σ k s) :
    (turn (d * d) s).powers.length = size ∧ (turn (d * d) s).term.length = size := by
  have hpowers : (turn (d * d) s).powers.length = size := by
    refine (length_take_append ?_ (h.powers_length ▸ h.adv_lt.le)).trans h.powers_length
    rw [Positional.length_divide, List.length_drop]
  refine ⟨hpowers, ?_⟩
  refine (length_take_append ?_ (h.term_length ▸ h.adv_lt.le)).trans h.term_length
  rw [Positional.length_divide, List.length_drop, h.term_length]
  exact congrArg (· - s.adv) hpowers

theorem Inv.turn_lt (h : Inv M d size N σ k s) (hd : 0 < d) :
    (∀ x ∈ (turn (d * d) s).powers, x < base) ∧ ∀ x ∈ (turn (d * d) s).term, x < base := by
  have hdivisor : 0 < s.divisor := by
    rw [h.divisor_eq]
    exact Nat.succ_pos _
  have hpowers : ∀ x ∈ (turn (d * d) s).powers, x < base :=
    List.forall_mem_append.mpr ⟨fun x hx ↦ h.powers_lt x (List.mem_of_mem_take hx),
      Positional.divide_lt (Nat.mul_pos hd hd) h.remain_le fun x hx ↦
        h.powers_lt x (List.mem_of_mem_drop hx)⟩
  exact ⟨hpowers, List.forall_mem_append.mpr ⟨fun x hx ↦ (h.term_zero x hx).trans_lt (by decide),
    Positional.divide_lt hdivisor (Nat.zero_le _) fun x hx ↦ hpowers x (List.mem_of_mem_drop hx)⟩⟩

theorem Inv.sign_eq_or (h : Inv M d size N σ k s) (hσ : σ = 1 ∨ σ = -1) :
    s.sign = 1 ∨ s.sign = -1 := by
  rw [h.sign_eq]
  rcases neg_one_pow_eq_or ℤ k with hk | hk <;> rcases hσ with hσ | hσ <;> simp [hk, hσ]

/-- The digits of `pi` behind a turn, and what has been added to them. -/
theorem Inv.pi_turn (h : Inv M d size N σ k s) (hd : 0 < d) (hσ : σ = 1 ∨ σ = -1) :
    (turn (d * d) s).pi.length = size ∧ (∀ x ∈ (turn (d * d) s).pi, x < base) ∧
      (value base (turn (d * d) s).pi : ℤ) ≡
        value base s.pi + s.sign * cut M d (base ^ (size - 1)) k [ZMOD base ^ size] := by
  have hlength : s.pi.length = (turn (d * d) s).term.length :=
    h.pi_length.trans h.length_turn.2.symm
  have hpi : (turn (d * d) s).pi = if 0 < s.sign
    then (add base s.pi (turn (d * d) s).term).2
    else (sub base s.pi (turn (d * d) s).term).2 := rfl
  rw [hpi, Int.modEq_iff_dvd]
  rcases h.sign_eq_or hσ with hsign | hsign
  · obtain ⟨hdigits, hvalue⟩ := Positional.digits_add hlength h.pi_lt (h.turn_lt hd).2
    rw [hsign, if_pos (by decide)]
    refine ⟨hdigits.length.trans h.pi_length, hdigits.lt, ?_⟩
    rw [h.value_term hd, h.pi_length] at hvalue
    refine Dvd.intro_left ((add base s.pi (turn (d * d) s).term).1 : ℤ) ?_
    zify at hvalue
    linear_combination hvalue
  · obtain ⟨hdigits, hvalue⟩ := Positional.digits_sub hlength h.pi_lt (h.turn_lt hd).2
    rw [hsign, if_neg (by decide)]
    refine ⟨hdigits.length.trans h.pi_length, hdigits.lt, ?_⟩
    rw [h.value_term hd, h.pi_length] at hvalue
    refine Dvd.intro_left (-(sub base s.pi (turn (d * d) s).term).1 : ℤ) ?_
    zify at hvalue
    linear_combination hvalue

theorem fits_of_lt {D r : ℕ} {xs : List ℕ} (hD : 0 < D) (hr : r ≤ (D - 1) * base)
    (hxs : ∀ x ∈ xs, x < base) (hbound : base * D ≤ 2 ^ 63) :
    fits (Positional.steps base D r xs) = true :=
  List.all_eq_true.mpr fun t ht ↦
    decide_eq_true ((Positional.steps_lt hD hr hxs t ht).trans_le hbound)

theorem Inv.turn_fits (h : Inv M d size N σ k s) (hd : 0 < d) (hdenom : base * (d * d) ≤ 2 ^ 63)
    (hdivisor : base * (2 * k + 1) ≤ 2 ^ 63) : turnFits (d * d) s = true := by
  have hpowersLt : ∀ x ∈ s.powers.drop s.adv, x < base :=
    fun x hx ↦ h.powers_lt x (List.mem_of_mem_drop hx)
  have htermLt : ∀ x ∈ (Pi.turn (d * d) s).powers.drop s.adv, x < base :=
    fun x hx ↦ (h.turn_lt hd).1 x (List.mem_of_mem_drop hx)
  have hpowers := fits_of_lt (Nat.mul_pos hd hd) h.remain_le hpowersLt hdenom
  have hterm := fits_of_lt (Nat.succ_pos (2 * k)) (Nat.zero_le _) htermLt hdivisor
  rw [turnFits, hpowers, h.divisor_eq, hterm, Bool.and_self]

/-- A turn is one more term. -/
theorem Inv.turn (h : Inv M d size N σ k s) (hd : 0 < d) (hσ : σ = 1 ∨ σ = -1) :
    Inv M d size N σ (k + 1) (turn (d * d) s) := by
  obtain ⟨hpowersLength, htermLength⟩ := h.length_turn
  obtain ⟨hpiLength, hpiLt, hpiValue⟩ := h.pi_turn hd hσ
  have hsum : N + σ * sum M d (base ^ (size - 1)) (k + 1) =
      N + σ * sum M d (base ^ (size - 1)) k + s.sign * cut M d (base ^ (size - 1)) k := by
    rw [sum, Finset.sum_range_succ, ← sum, h.sign_eq]
    ring
  exact
    { pi_length := hpiLength
      powers_length := hpowersLength
      term_length := htermLength
      pi_lt := hpiLt
      powers_lt := (h.turn_lt hd).1
      adv_lt := h.adv_lt
      powers_zero := fun x hx ↦ h.powers_zero x (h.take_powers ▸ hx)
      term_zero := fun x hx ↦ h.term_zero x (by
        rwa [Pi.turn, List.take_left' (List.length_take_of_le (h.term_length ▸ h.adv_lt.le))] at hx)
      remain_le := Nat.zero_le _
      remain_zero := fun _ ↦ rfl
      power_eq := by
        rw [h.value_powers hd]
        exact (Nat.zero_mul _).symm ▸ Nat.zero_add _
      divisor_eq := by
        have hnext : (Pi.turn (d * d) s).divisor = s.divisor + 2 := rfl
        rw [hnext, h.divisor_eq]
        ring
      sign_eq := by
        have hnext : (Pi.turn (d * d) s).sign = -s.sign := rfl
        rw [hnext, h.sign_eq, pow_succ]
        ring
      sum_modEq := by
        rw [hsum]
        exact hpiValue.trans (h.sum_modEq.add_right _) }

end Turn

/-! ## The loop -/

theorem Inv.skip {D : ℕ} (h : Inv M d size N σ k s) (hnot : notZero s = true)
    (hremain : s.remain = 0)
    (hterm : s.term.drop s.adv = divide base D 0 (s.powers.drop s.adv)) :
    Inv M d size N σ k (skip s) := by
  have htaken := List.takeWhile_prefix (p := (· = 0)) (l := s.powers.drop s.adv)
  have htake := List.prefix_iff_eq_take.mp htaken
  have hzero : ∀ x ∈ (s.powers.drop s.adv).takeWhile (· = 0), x = 0 := fun x hx ↦
    of_decide_eq_true (List.all_eq_true.mp List.all_takeWhile x hx)
  have hlt : ((s.powers.drop s.adv).takeWhile (· = 0)).length < (s.powers.drop s.adv).length := by
    refine lt_of_le_of_ne htaken.length_le fun heq ↦ ?_
    rw [htaken.eq_of_length heq] at hzero
    obtain ⟨x, hx, hne⟩ := List.any_eq_true.mp hnot
    exact of_decide_eq_true hne (hzero x hx)
  rw [htake] at hzero
  rw [List.length_drop, h.powers_length] at hlt
  exact
    { pi_length := h.pi_length
      powers_length := h.powers_length
      term_length := h.term_length
      pi_lt := h.pi_lt
      powers_lt := h.powers_lt
      adv_lt := Nat.add_lt_of_lt_sub' hlt
      powers_zero := by
        rw [Pi.skip, List.take_add]
        exact List.forall_mem_append.mpr ⟨h.powers_zero, hzero⟩
      term_zero := by
        rw [Pi.skip, List.take_add, hterm]
        exact List.forall_mem_append.mpr ⟨h.term_zero, Positional.divide_take hzero⟩
      remain_le := h.remain_le
      remain_zero := fun _ ↦ hremain
      power_eq := h.power_eq
      divisor_eq := h.divisor_eq
      sign_eq := h.sign_eq
      sum_modEq := h.sum_modEq }

/-- The loop goes on exactly as long as there is something to divide. -/
theorem Inv.notZero_iff (h : Inv M d size N σ k s) (hremain : s.remain = 0) :
    notZero s = false ↔ power M d (base ^ (size - 1)) k = 0 := by
  have hpower := h.power_eq
  rw [hremain, Nat.zero_mul, Nat.zero_add] at hpower
  rw [← hpower, notZero, List.any_eq_false]
  constructor
  · intro hdrop
    rw [← List.take_append_drop s.adv s.powers, value_of_take h.powers_zero]
    exact Positional.value_eq_zero fun x hx ↦ by simpa using hdrop x hx
  · intro hvalue x hx
    simpa using Positional.eq_zero_of_value (by decide) hvalue x (List.mem_of_mem_drop hx)

theorem loop_eq_ok {F fuel : ℕ} (hd : 0 < d) (hσ : σ = 1 ∨ σ = -1)
    (hF : M * d * base ^ (size - 1) < (d * d) ^ F) (hdenom : base * (d * d) ≤ 2 ^ 63)
    (hdivisor : base * (2 * F) ≤ 2 ^ 63) (h : Inv M d size N σ k s) (hk : k < F)
    (hfuel : F ≤ k + fuel) : ∃ K s', K ≤ F ∧ loop (d * d) fuel s = .ok s' ∧
      Inv M d size N σ K s' ∧ M * d * base ^ (size - 1) < (d * d) ^ K := by
  induction fuel generalizing k s with
  | zero => omega
  | succ fuel ih =>
    have hturn := h.turn hd hσ
    have hpow : 0 < (d * d) ^ (k + 1) := Nat.pow_pos (Nat.mul_pos hd hd)
    have hzero := hturn.notZero_iff rfl
    have hfits := h.turn_fits hd hdenom
      ((Nat.mul_le_mul_left base (by omega : 2 * k + 1 ≤ 2 * F)).trans hdivisor)
    rw [power, Nat.div_eq_zero_iff_lt hpow] at hzero
    rw [loop, if_pos hfits]
    rcases hnot : notZero (turn (d * d) s) with - | -
    · exact ⟨k + 1, _, hk, by simp [hnot], hturn, hzero.mp hnot⟩
    · have hlt : k + 1 < F := by
        refine lt_of_le_of_ne hk fun heq ↦ ?_
        rw [← heq] at hF
        rw [hzero.mpr hF] at hnot
        contradiction
      have hterm : (turn (d * d) s).term.drop s.adv =
          divide base s.divisor 0 ((turn (d * d) s).powers.drop s.adv) :=
        List.drop_left' (List.length_take_of_le (h.term_length ▸ h.adv_lt.le))
      simp only [hnot, if_true]
      exact ih (hturn.skip hnot rfl hterm) hlt (by omega)

/-! ## `arctan` -/

theorem arctan_eq_ok {F fuel : ℕ} {pi term : List ℕ} (hd : 1 < d) (hσ : σ = 1 ∨ σ = -1)
    (hM : M * d ≤ (d * d - 1) * base) (hlength : pi.length = size) (hsize : 0 < size)
    (hterm : term.length = size) (hpi : ∀ x ∈ pi, x < base)
    (hF : M * d * base ^ (size - 1) < (d * d) ^ F) (hdenom : base * (d * d) ≤ 2 ^ 63)
    (hdivisor : base * (2 * F) ≤ 2 ^ 63) (hpos : 0 < F) (hfuel : F ≤ fuel) :
    ∃ K r, K ≤ F ∧ arctan fuel M d σ pi term = .ok r ∧ r.1.length = size ∧
      (∀ x ∈ r.1, x < base) ∧ r.2.length = size ∧
      (value base r.1 : ℤ) ≡ value base pi + σ * sum M d (base ^ (size - 1)) K [ZMOD base ^ size] ∧
      M * d * base ^ (size - 1) < (d * d) ^ K := by
  have hzeros : ∀ x ∈ List.replicate pi.length 0, x = 0 := fun x hx ↦ List.eq_of_mem_replicate hx
  have hinv : Inv M d size (value base pi) σ 0
      ⟨pi, List.replicate pi.length 0, term, 0, M * d, 1, σ⟩ :=
    { pi_length := hlength
      powers_length := by rw [List.length_replicate, hlength]
      term_length := hterm
      pi_lt := hpi
      powers_lt := fun x hx ↦ (hzeros x hx).trans_lt (by decide)
      adv_lt := hsize
      powers_zero := fun x hx ↦ by simp at hx
      term_zero := fun x hx ↦ by simp at hx
      remain_le := hM
      remain_zero := fun h ↦ absurd rfl h
      power_eq := by
        rw [Positional.value_eq_zero hzeros, power, pow_zero, Nat.div_one, Nat.add_zero]
      divisor_eq := rfl
      sign_eq := by rw [pow_zero, one_mul]
      sum_modEq := by
        rw [sum, Finset.range_zero, Finset.sum_empty, mul_zero, add_zero] }
  have hfuel : F ≤ 0 + fuel := by omega
  obtain ⟨K, s', hK, hloop, h, hlt⟩ := loop_eq_ok (by omega) hσ hF hdenom hdivisor hinv hpos hfuel
  refine ⟨K, (s'.pi, s'.term), hK, ?_, h.pi_length, h.pi_lt, h.term_length, h.sum_modEq, hlt⟩
  rw [arctan, hloop, Libc.ok_map]

/-! ## The series -/

section Series

variable {S K : ℕ}

/-- A term that is cut off loses less than one. -/
theorem abs_cut_sub_le (hd : 0 < d) (j : ℕ) :
    |(cut M d S j : ℝ) - S * M * ArctanSeries.term (1 / d) j| ≤ 1 := by
  have hden : 0 < (d * d) ^ (j + 1) * (2 * j + 1) := by positivity
  have hd0 : (d : ℝ) ≠ 0 := Nat.cast_ne_zero.mpr hd.ne'
  have hreal : (S : ℝ) * M * ArctanSeries.term (1 / d) j =
      (M * d * S : ℕ) / ((d * d) ^ (j + 1) * (2 * j + 1) : ℕ) := by
    rw [ArctanSeries.term, div_pow, one_pow]
    push_cast
    field_simp
    ring
  have hcut : cut M d S j = M * d * S / ((d * d) ^ (j + 1) * (2 * j + 1)) := by
    rw [cut, power, Nat.div_div_eq_div_mul]
  rw [hcut, hreal]
  generalize M * d * S = n
  generalize (d * d) ^ (j + 1) * (2 * j + 1) = m at hden
  have hm : (0 : ℝ) < m := Nat.cast_pos.mpr hden
  have hle : ((n / m : ℕ) : ℝ) ≤ n / m := Nat.cast_div_le
  have hlt : (n : ℝ) / m < (n / m : ℕ) + 1 := by
    rw [div_lt_iff₀ hm]
    exact_mod_cast Nat.lt_mul_of_div_lt (Nat.lt_succ_self _) hden
  rw [abs_le]
  constructor <;> linarith

/-- When nothing is left to divide, the sum is right but for one unit for each term. -/
theorem abs_sum_sub_le (hd : 1 < d) (hK : M * d * S < (d * d) ^ K) :
    |(sum M d S K : ℝ) - S * M * Real.arctan (1 / d)| ≤ K + 1 := by
  have hd0 : (0 : ℝ) < d := Nat.cast_pos.mpr (by omega)
  have hdone : (1 : ℝ) ≤ d := Nat.one_le_cast.mpr (by omega)
  have hx : (0 : ℝ) ≤ 1 / d := by positivity
  have hx1 : (1 : ℝ) / d < 1 := by
    rw [div_lt_one hd0]
    exact Nat.one_lt_cast.mpr hd
  have hcast : (sum M d S K : ℝ) = ∑ j ∈ range K, (-1) ^ j * (cut M d S j : ℝ) := by
    rw [sum]
    push_cast
    rfl
  have hcut : |∑ j ∈ range K, (-1) ^ j * (cut M d S j : ℝ) -
      S * M * ∑ j ∈ range K, (-1) ^ j * ArctanSeries.term (1 / d) j| ≤ K := by
    rw [Finset.mul_sum, ← Finset.sum_sub_distrib]
    calc |∑ j ∈ range K, ((-1) ^ j * (cut M d S j : ℝ) -
          S * M * ((-1) ^ j * ArctanSeries.term (1 / d) j))|
        ≤ ∑ j ∈ range K, |(-1) ^ j * (cut M d S j : ℝ) -
          S * M * ((-1) ^ j * ArctanSeries.term (1 / d) j)| := Finset.abs_sum_le_sum_abs _ _
      _ ≤ ∑ _j ∈ range K, (1 : ℝ) := by
          refine Finset.sum_le_sum fun j _ ↦ ?_
          have hfactor : (-1) ^ j * (cut M d S j : ℝ) -
              S * M * ((-1) ^ j * ArctanSeries.term (1 / d) j) =
              (-1) ^ j * ((cut M d S j : ℝ) - S * M * ArctanSeries.term (1 / d) j) := by ring
          rw [hfactor, abs_mul, abs_pow, abs_neg, abs_one, one_pow, one_mul]
          exact abs_cut_sub_le (by omega) j
      _ = K := by rw [Finset.sum_const, Finset.card_range, nsmul_eq_mul, mul_one]
  have htail : |S * M * ∑ j ∈ range K, (-1) ^ j * ArctanSeries.term (1 / d) j -
      S * M * Real.arctan (1 / d)| ≤ 1 := by
    have hpow : (0 : ℝ) < (d * d) ^ K := by positivity
    have hlt : (M * d * S : ℝ) < (d * d) ^ K := by exact_mod_cast hK
    have hterm : S * M * ArctanSeries.term (1 / d) K ≤ 1 := by
      have hone : (1 : ℝ) ≤ (2 * K + 1 : ℕ) := Nat.one_le_cast.mpr (by omega)
      have hlast : (1 : ℝ) / d ^ (2 * K + 1) ≤ d / (d * d) ^ K := by
        have hd1 : (1 : ℝ) ≤ d * d := one_le_mul_of_one_le_of_one_le hdone hdone
        rw [div_le_div_iff₀ (by positivity) hpow]
        calc (1 : ℝ) * (d * d) ^ K ≤ d * d * (d * d) ^ K := mul_le_mul_of_nonneg_right hd1 hpow.le
          _ = d * d ^ (2 * K + 1) := by ring
      calc S * M * ArctanSeries.term (1 / d) K
          ≤ S * M * (1 / d ^ (2 * K + 1)) := by
            refine mul_le_mul_of_nonneg_left ?_ (by positivity)
            rw [ArctanSeries.term, div_pow, one_pow]
            exact div_le_self (by positivity) hone
        _ ≤ S * M * (d / (d * d) ^ K) := mul_le_mul_of_nonneg_left hlast (by positivity)
        _ = M * d * S / (d * d) ^ K := by ring
        _ ≤ 1 := ((div_lt_one hpow).mpr hlt).le
    rw [← mul_sub, abs_mul, abs_of_nonneg (by positivity)]
    exact (mul_le_mul_of_nonneg_left (ArctanSeries.abs_sum_sub_arctan_le hx hx1 K)
      (by positivity)).trans hterm
  rw [hcast]
  rw [abs_le] at hcut htail ⊢
  constructor <;> linarith

end Series

/-! ## Machin's formula -/

/-- There is room for the error of each term, up to the second digit. -/
theorem room {n : ℕ} (hn : 1 ≤ n) : 100 * (3 * (n + 1) + 2) ≤ 14 * base ^ n := by
  induction n, hn using Nat.le_induction with
  | base => decide
  | succ n hn ih =>
    rw [pow_succ, base] at *
    omega

/-- What Machin's formula says of the two sums. -/
theorem abs_sums_sub_pi_le {S K₁ K₂ : ℕ} (h₁ : 16 * 5 * S < (5 * 5) ^ K₁)
    (h₂ : 4 * 239 * S < (239 * 239) ^ K₂) :
    |((sum 16 5 S K₁ - sum 4 239 S K₂ : ℤ) : ℝ) - S * Real.pi| ≤ K₁ + K₂ + 2 := by
  have hmachin := Real.four_mul_arctan_inv_5_sub_arctan_inv_239
  have hfive := abs_sum_sub_le (by decide) h₁
  have hrest := abs_sum_sub_le (by decide) h₂
  have hpi : S * Real.pi = S * (16 : ℕ) * Real.arctan (1 / (5 : ℕ)) -
      S * (4 : ℕ) * Real.arctan (1 / (239 : ℕ)) := by
    rw [one_div, one_div]
    push_cast
    linear_combination -4 * (S : ℝ) * hmachin
  rw [hpi, Int.cast_sub]
  rw [abs_le] at hfive hrest ⊢
  constructor <;> linarith

/-- The error does not reach the first digit. -/
theorem between_of_abs_le {n : ℕ} {z : ℤ} (hn : 1 ≤ n)
    (h : |(z : ℝ) - base ^ n * Real.pi| ≤ 3 * (n + 1) + 2) :
    3 * (base : ℤ) ^ n ≤ z ∧ z < 4 * (base : ℤ) ^ n := by
  have hroom : (100 : ℝ) * (3 * (n + 1) + 2) ≤ 14 * base ^ n := by exact_mod_cast room hn
  have hbase : (0 : ℝ) < base ^ n := pow_pos (by norm_num [base]) n
  have hlow : 3.14 * (base : ℝ) ^ n < base ^ n * Real.pi := by
    rw [mul_comm]
    exact mul_lt_mul_of_pos_left Real.pi_gt_d2 hbase
  have hhigh : (base : ℝ) ^ n * Real.pi < 3.15 * base ^ n := by
    rw [mul_comm 3.15]
    exact mul_lt_mul_of_pos_left Real.pi_lt_d2 hbase
  obtain ⟨hleft, hright⟩ := abs_le.mp h
  have hthree : (3 : ℝ) * base ^ n ≤ z := by linarith
  have hfour : (z : ℝ) < 4 * base ^ n := by linarith
  exact ⟨by exact_mod_cast hthree, by exact_mod_cast hfour⟩

/-- Digits that agree with such a number are its digits, and the first one is three. -/
theorem exists_eq_three_cons {n : ℕ} {z : ℤ} {xs : List ℕ} (hlength : xs.length = n + 1)
    (hlt : ∀ x ∈ xs, x < base) (hmod : (value base xs : ℤ) ≡ z [ZMOD base ^ (n + 1)])
    (hlow : 3 * (base : ℤ) ^ n ≤ z) (hhigh : z < 4 * (base : ℤ) ^ n) :
    ∃ ds, xs = 3 :: ds ∧ ds.length = n ∧ (∀ x ∈ ds, x < base) ∧ (value base xs : ℤ) = z := by
  have hvalue : (value base xs : ℤ) = z := by
    have hbound : (value base xs : ℤ) < base ^ (n + 1) := by
      exact_mod_cast hlength ▸ Positional.value_lt hlt
    have hpow : (base : ℤ) ^ (n + 1) = 100 * base ^ n := by rw [pow_succ', base, Nat.cast_ofNat]
    have hpos : (0 : ℤ) < base ^ n := pow_pos (by decide) n
    rwa [Int.ModEq, Int.emod_eq_of_lt (Int.natCast_nonneg _) hbound,
      Int.emod_eq_of_lt (by omega) (by omega)] at hmod
  obtain ⟨x, ds, rfl⟩ := List.exists_cons_of_length_eq_add_one hlength
  obtain ⟨-, hds⟩ := List.forall_mem_cons.mp hlt
  have hdsLength : ds.length = n := Nat.succ.inj hlength
  have hrest := Positional.value_lt hds
  have hsplit := hvalue
  rw [Positional.value_cons, hdsLength] at hsplit
  rw [hdsLength] at hrest
  zify at hrest
  push_cast at hsplit
  have hlower : 3 * base ^ n < (x + 1) * base ^ n := by
    zify
    linarith
  have hupper : x * base ^ n < 4 * base ^ n := by
    zify
    linarith
  have hx : x = 3 := by
    have hlt₁ := Nat.lt_of_mul_lt_mul_right hlower
    have hlt₂ := Nat.lt_of_mul_lt_mul_right hupper
    omega
  exact ⟨ds, hx ▸ rfl, hdsLength, hds, hvalue⟩

/-- The digits of the array. -/
theorem machin_eq_ok {fuel n : ℕ} {term : List ℕ} (hn : 1 ≤ n) (hterm : term.length = n + 1)
    (hmem : 3 * (8 * (n + 1)) ≤ Memory.size.toNat) (hfuel : 2 * (n + 1) ≤ fuel) :
    ∃ ds, machin fuel (n + 1) term = .ok (3 :: ds) ∧ ds.length = n ∧ (∀ x ∈ ds, x < base) ∧
      |(value base (3 :: ds) : ℝ) - base ^ n * Real.pi| ≤ 3 * (n + 1) + 2 := by
  have hsize : Memory.size.toNat = 0x4000000 := rfl
  have hdivisor : base * (2 * (2 * (n + 1))) ≤ 2 ^ 63 := by
    rw [base]
    omega
  have hdivisor₂ : base * (2 * (n + 1)) ≤ 2 ^ 63 := by
    rw [base]
    omega
  have hpos : 0 < base ^ n := Nat.pow_pos (by decide)
  have hfive : 16 * 5 * base ^ n < (5 * 5) ^ (2 * (n + 1)) := by
    have hle : base ^ n ≤ (5 * 5) ^ (2 * n) := by
      rw [pow_mul]
      exact Nat.pow_le_pow_left (by decide) n
    rw [Nat.mul_add, pow_add]
    omega
  have hrest : 4 * 239 * base ^ n < (239 * 239) ^ (n + 1) := by
    have hle : base ^ n ≤ (239 * 239) ^ n := Nat.pow_le_pow_left (by decide) n
    rw [pow_succ]
    omega
  have hzeros : ∀ x ∈ List.replicate (n + 1) 0, x = 0 := fun x hx ↦ List.eq_of_mem_replicate hx
  have hlength : (List.replicate (n + 1) 0).length = n + 1 := List.length_replicate
  have hfuel₂ : n + 1 ≤ fuel := by omega
  obtain ⟨K₁, r₁, hK₁, hrun₁, hlength₁, hlt₁, hterm₁, hmod₁, hend₁⟩ :=
    arctan_eq_ok (F := 2 * (n + 1)) (by decide) (Or.inl rfl) (by decide) hlength
      n.succ_pos hterm (fun x hx ↦ (hzeros x hx).trans_lt (by decide)) hfive (by decide) hdivisor
      (by omega) hfuel
  obtain ⟨K₂, r₂, hK₂, hrun₂, hlength₂, hlt₂, -, hmod₂, hend₂⟩ :=
    arctan_eq_ok (F := n + 1) (by decide) (Or.inr rfl) (by decide) hlength₁ n.succ_pos hterm₁ hlt₁
      hrest (by decide) hdivisor₂ n.succ_pos hfuel₂
  rw [Nat.add_sub_cancel] at hmod₁ hmod₂ hend₁ hend₂
  -- what the array holds, up to a carry out of the first digit
  have hmod : (value base r₂.1 : ℤ) ≡ sum 16 5 (base ^ n) K₁ - sum 4 239 (base ^ n) K₂
      [ZMOD base ^ (n + 1)] := by
    refine hmod₂.trans ((hmod₁.add_right _).trans ?_)
    rw [Positional.value_eq_zero hzeros, Nat.cast_zero, zero_add, one_mul, neg_one_mul,
      sub_eq_add_neg]
  have herror : |((sum 16 5 (base ^ n) K₁ - sum 4 239 (base ^ n) K₂ : ℤ) : ℝ) -
      base ^ n * Real.pi| ≤ 3 * (n + 1) + 2 := by
    have hpi := abs_sums_sub_pi_le hend₁ hend₂
    have hK : (K₁ + K₂ : ℝ) ≤ 3 * (n + 1) := by exact_mod_cast (by omega : K₁ + K₂ ≤ 3 * (n + 1))
    rw [Nat.cast_pow] at hpi
    linarith
  obtain ⟨hlow, hhigh⟩ := between_of_abs_le hn herror
  obtain ⟨ds, hcons, hds, hdsLt, hvalue⟩ := exists_eq_three_cons hlength₂ hlt₂ hmod hlow hhigh
  refine ⟨ds, ?_, hds, hdsLt, ?_⟩
  · rw [machin, hrun₁, Libc.ok_bind, hrun₂, Libc.ok_map, hcons]
  · rw [← hvalue, Int.cast_natCast, hcons] at herror
    exact herror

example : machin 6 3 [77, 13, 5] = .ok [3, 14, 17] := by decide

/-! ## What is printed -/

/-- The digits of elements, two for each. -/
def decimals (xs : List ℕ) : List ℕ := xs.flatMap fun x ↦ [x / 10, x % 10]

theorem print_eq {xs : List ℕ} (h : ∀ x ∈ xs, x < base) (y : ℕ) : print (y :: xs) =
    0x33 :: 0x2e :: ((decimals xs).map (fun d ↦ Libc.outDig (d : ℕ)) ++ [0x0a]) := by
  rw [print, List.drop_one, List.tail_cons, decimals, List.map_flatMap]
  congr 3
  refine List.flatMap_congr fun x hx ↦ ?_
  have hdiv : x / 10 % 10 = x / 10 := Nat.mod_eq_of_lt (Nat.div_lt_of_lt_mul (h x hx))
  rw [printShort, hdiv, List.map_cons, List.map_cons, List.map_nil]

theorem decimals_lt {xs : List ℕ} (h : ∀ x ∈ xs, x < base) : ∀ d ∈ decimals xs, d < 10 := by
  intro d hd
  obtain ⟨x, hx, hmem⟩ := List.mem_flatMap.mp hd
  have hlt := h x hx
  rw [base] at hlt
  rw [List.mem_pair] at hmem
  omega

/-- What is printed of the digits, and how far it is off. -/
theorem print_near_pi {fuel size : ℕ} {term : List ℕ} (hsize : 0 < size)
    (hterm : term.length = elements size) (hmem : 3 * (8 * elements size) ≤ Memory.size.toNat)
    (hfuel : 2 * elements size ≤ fuel) :
    ∃ xs ds, machin fuel (elements size) term = .ok xs ∧
      print xs = 0x33 :: 0x2e :: (ds.map (fun d ↦ Libc.outDig (d : ℕ)) ++ [0x0a]) ∧
      (ds.length = size ∨ ds.length = size + 1) ∧ (∀ d ∈ ds, d < 10) ∧
      |(value 10 (3 :: ds) : ℝ) / 10 ^ ds.length - Real.pi| ≤
        (3 * elements size + 2 : ℕ) / 10 ^ ds.length := by
  obtain ⟨n, hn⟩ : ∃ n, elements size = n + 1 := ⟨_, rfl⟩
  rw [hn] at hterm hmem hfuel ⊢
  rw [elements, baseDigits] at hn
  obtain ⟨xs, hrun, hlength, hlt, herror⟩ := machin_eq_ok (by omega) hterm hmem hfuel
  have hcount : (decimals xs).length = 2 * n := by
    rw [decimals, Positional.length_flatMap_pair, hlength]
  have hvalue : value 10 (3 :: decimals xs) = value base (3 :: xs) := by
    rw [Positional.value_cons, Positional.value_cons, hcount, hlength, decimals,
      Positional.value_flatMap_pair, pow_mul]
    rfl
  refine ⟨3 :: xs, decimals xs, hrun, print_eq hlt 3, by omega, decimals_lt hlt, ?_⟩
  have hpow : (0 : ℝ) < 10 ^ (2 * n) := by positivity
  have hbase : ((base : ℕ) : ℝ) ^ n = 10 ^ (2 * n) := by
    rw [pow_mul, base]
    norm_num
  rw [hbase] at herror
  rw [hcount, hvalue, div_sub' hpow.ne', abs_div, abs_of_pos hpow]
  refine div_le_div_of_nonneg_right ?_ hpow.le
  push_cast
  linarith

/-- **The program prints the digits of pi.** Started on the stack that the constructor of `Memory`
lays out, with a number whose arrays fit the memory, it ends without an overflow and without a
failed assert, it prints as many digits as it was asked for or one more, and what it prints is off
by a few units of the last digit for each two digits. The bound on the arrays is all of the guest
memory, which is more than `malloc` has: the break starts in the middle of it, and the stack is at
its end. -/
theorem start_near_pi {args : Arguments} (hfits : args.Fits) (m : Mem) {name arg : CString}
    (hargv : args.argv = [name, arg]) {n : Libc.Numeral} (harg : arg.chars = n.text)
    {size fuel : ℕ} (hvalue : n.value = size) (hsize : 0 < size)
    (hmem : 3 * (8 * elements size) ≤ Memory.size.toNat) {term : List ℕ}
    (hterm : term.length = elements size) (hchars : arg.chars.length < fuel)
    (hfuel : 2 * elements size ≤ fuel) (t1 t2 : ℤ) :
    ∃ ds, start (initStack args m).mem fuel stackBase term t1 t2 =
        .ok (0, 0x33 :: 0x2e :: (ds.map (fun d ↦ Libc.outDig (d : ℕ)) ++ [0x0a]) ++
          ascii "Calculation time " ++ Libc.printVal (t2 - t1) ++ ascii " cycles\n") ∧
      (ds.length = size ∨ ds.length = size + 1) ∧ (∀ d ∈ ds, d < 10) ∧
      |(value 10 (3 :: ds) : ℝ) / 10 ^ ds.length - Real.pi| ≤
        (3 * elements size + 2 : ℕ) / 10 ^ ds.length := by
  have ha : args.argv[1]? = some arg := by rw [hargv]; rfl
  have hload : ByteMemory.load (initStack args m).mem (newargv (1 + 1)) = args.string 1 :=
    Arguments.load_newargv hfits ha
  have hplace : stackBase + 8 + 8 = newargv (1 + 1) := by decide
  have hargc : Libc.read (initStack args m).mem stackBase = .ok 2 := by
    rw [Libc.read_of_aligned (by decide) (by decide) (by decide), Arguments.load_stackBase, hargv]
    rfl
  have hread : Libc.read (initStack args m).mem (stackBase + 8 + 8) = .ok (args.string 1) := by
    rw [hplace, Libc.read_of_aligned (by decide) (by decide) (by decide), hload]
  have hatol : Libc.atol (initStack args m).mem fuel (args.string 1) = .ok (size : ℤ) := by
    have hstring := (Libc.stringAt_argv (m := m) hfits ha).charsAt
    have haddress : address (initStack args m) 1 = args.string 1 := hload
    have hcount : Memory.size.toNat = 0x4000000 := rfl
    rw [CString.bytes, harg, haddress] at hstring
    rw [elements, baseDigits] at hmem
    rw [Libc.atol_of_charsAt hstring (harg ▸ hchars), hvalue, Libc.long_eq_ok (by omega)]
  obtain ⟨xs, ds, hrun, hprint, hlength, hlt, herror⟩ := print_near_pi hsize hterm hmem hfuel
  refine ⟨ds, ?_, hlength, hlt, herror⟩
  rw [start, hargc, Libc.ok_bind, main, if_neg (by decide), hread, Libc.ok_bind, hatol,
    Libc.ok_bind, if_neg (by omega), Int.toNat_natCast, hrun, Libc.ok_map, hprint]

theorem zeroFree_three : (0 : BitVec 8) ∉ [(0x33 : BitVec 8)] := by decide

theorem zeroFree_name : (0 : BitVec 8) ∉ ascii "./prog2" := by decide

/-- `./prog2 3`. -/
def threeArguments : Arguments where
  argv := [⟨ascii "./prog2", zeroFree_name⟩, ⟨[0x33], zeroFree_three⟩]
  argc_lt := by decide

theorem start_three_digits :
    ∃ ds, start (initStack threeArguments fun _ ↦ 0).mem 6 stackBase [77, 13, 5] 100 250 =
        .ok (0, 0x33 :: 0x2e :: (ds.map (fun d ↦ Libc.outDig (d : ℕ)) ++ [0x0a]) ++
          ascii "Calculation time " ++ Libc.printVal (250 - 100) ++ ascii " cycles\n") ∧
      (ds.length = 3 ∨ ds.length = 3 + 1) ∧ (∀ d ∈ ds, d < 10) ∧
      |(value 10 (3 :: ds) : ℝ) / 10 ^ ds.length - Real.pi| ≤
        (3 * elements 3 + 2 : ℕ) / 10 ^ ds.length := by
  have hfits : threeArguments.Fits := by decide +kernel
  have hthree : Libc.printVal (3 : ℕ) = [0x33] := by
    rw [Libc.printVal_natCast]
    rfl
  have harg : Libc.printVal (3 : ℕ) = (Libc.printed 3).text := by
    rw [Libc.Numeral.text, Libc.printed, Libc.Sign.text, List.nil_append, List.nil_append,
      List.append_nil]
  exact start_near_pi hfits (fun _ ↦ 0) rfl (hthree.symm.trans harg) (Libc.value_printed 3)
    (by decide) (by decide) rfl (by decide) (by decide) 100 250

end Cse502.Pi
