import Mathlib.Tactic

/-!
# Rings that delay

A ring of `d` slots with one pointer. In every cycle a value is put into the slot of the pointer, or
none is; the pointer moves on; and the slot it reaches is driven. The slot reached is the next one
to be overwritten, so it holds what was put in `d - 1` cycles ago, and a value that was not put in
leaves in its slot one that is older by a full turn.
-/

namespace RingDelay

variable {α : Type*}

/-- The slots, of which those below the delay are used, and the pointer. -/
structure Ring (α : Type*) where
  slots : ℕ → α
  ptr : ℕ

/-- Put a value into the slot of the pointer, or none. -/
def put (v : Option α) (r : Ring α) : ℕ → α := v.elim r.slots (Function.update r.slots r.ptr)

/-- One cycle of a ring of `d` slots: the ring after it, and what is driven. -/
def cycle (d : ℕ) (v : Option α) (r : Ring α) : Ring α × α :=
  (⟨put v r, (r.ptr + 1) % d⟩, put v r ((r.ptr + 1) % d))

/-- The ring at the start of a cycle, for a history of values. -/
def ringAt (d : ℕ) (hist : ℕ → Option α) (r : Ring α) : ℕ → Ring α
  | 0 => r
  | n + 1 => (cycle d (hist n) (ringAt d hist r n)).1

/-- What is driven in a cycle. -/
def out (d : ℕ) (hist : ℕ → Option α) (r : Ring α) (n : ℕ) : α :=
  (cycle d (hist n) (ringAt d hist r n)).2

variable {d : ℕ} {hist : ℕ → Option α} {r : Ring α}

theorem put_of_ne {v : Option α} {i : ℕ} (h : i ≠ r.ptr) : put v r i = r.slots i := by
  cases v with
  | none => rfl
  | some v => exact Function.update_of_ne h v r.slots

/-- The pointer counts the cycles. -/
theorem ptr_at (hist : ℕ → Option α) (hptr : r.ptr < d) (n : ℕ) :
    (ringAt d hist r n).ptr = (r.ptr + n) % d := by
  induction n with
  | zero => exact (Nat.mod_eq_of_lt hptr).symm
  | succ n ih =>
    change ((ringAt d hist r n).ptr + 1) % d = _
    rw [ih, Nat.mod_add_mod, Nat.add_assoc]

/-- For less than a turn the pointer is elsewhere. -/
private theorem mod_ne {a j : ℕ} (hpos : 0 < j) (hlt : j < d) : a % d ≠ (a + j) % d := by
  intro h
  have hmod : j % d = 0 := by
    have hsub := Nat.sub_mod_eq_zero_of_mod_eq h.symm
    rwa [Nat.add_sub_cancel_left] at hsub
  rw [Nat.mod_eq_of_lt hlt] at hmod
  omega

/-- A value stays in its slot until the pointer comes round. -/
theorem slots_at (hptr : r.ptr < d) {n : ℕ} {v : α} (hv : hist n = some v) {j : ℕ} (hj : j < d) :
    (ringAt d hist r (n + 1 + j)).slots ((r.ptr + n) % d) = v := by
  induction j with
  | zero =>
    change put (hist n) (ringAt d hist r n) ((r.ptr + n) % d) = v
    rw [hv, ← ptr_at hist hptr n]
    exact Function.update_self ..
  | succ j ih =>
    have hne : (r.ptr + n) % d ≠ (ringAt d hist r (n + 1 + j)).ptr := by
      rw [ptr_at hist hptr, show r.ptr + (n + 1 + j) = r.ptr + n + (j + 1) by omega]
      exact mod_ne (Nat.succ_pos j) hj
    change put (hist (n + 1 + j)) (ringAt d hist r (n + 1 + j)) ((r.ptr + n) % d) = v
    rw [put_of_ne hne, ih (by omega)]

/-- **What is driven was put in `d - 1` cycles ago.** -/
theorem out_eq (hptr : r.ptr < d) {n : ℕ} (hn : d - 1 ≤ n) {v : α}
    (hv : hist (n - (d - 1)) = some v) : out d hist r n = v := by
  obtain ⟨k, rfl⟩ : ∃ k, n = k + (d - 1) := ⟨n - (d - 1), by omega⟩
  rw [Nat.add_sub_cancel] at hv
  have hslot := slots_at hptr hv (show d - 1 < d by omega)
  -- the pointer has come round
  have hidx : ((ringAt d hist r (k + (d - 1))).ptr + 1) % d = (r.ptr + k) % d := by
    rw [ptr_at hist hptr, Nat.mod_add_mod,
      show r.ptr + (k + (d - 1)) + 1 = r.ptr + k + d by omega, Nat.add_mod_right]
  rw [← hslot, ← hidx, show k + 1 + (d - 1) = k + (d - 1) + 1 by omega]
  rfl

end RingDelay
