import Mathlib.Tactic

/-!
# Copies into a memory

A memory is a function from `w`-bit addresses, and a copy puts a list of bytes there, from an
address on; addresses wrap. The last copy that covers an address decides what it holds:
`getElem?_runAll` reads a byte back under copies that leave it alone. `Logged` is a memory together
with the copies made to it so far, for programs of which one asks where they have written.
-/

/-- A list of bytes and where it goes. -/
structure Copy (w : ℕ) (β : Type*) where
  dst : BitVec w
  data : List β

namespace Copy

variable {w : ℕ} {β : Type*} {c : Copy w β} {m : BitVec w → β} {x : BitVec w}

/-- The address is one that is written. -/
def Covers (c : Copy w β) (x : BitVec w) : Prop := (x - c.dst).toNat < c.data.length

instance (c : Copy w β) : DecidablePred c.Covers := fun x ↦
  inferInstanceAs (Decidable ((x - c.dst).toNat < c.data.length))

@[simp] theorem covers_mk {a : BitVec w} {data : List β} :
    Covers ⟨a, data⟩ x ↔ (x - a).toNat < data.length := Iff.rfl

/-- The memory after the copy. -/
def run (c : Copy w β) (m : BitVec w → β) : BitVec w → β := fun x ↦
  c.data[(x - c.dst).toNat]?.getD (m x)

theorem run_of_not_covers (hx : ¬c.Covers x) : c.run m x = m x := by
  rw [run, List.getElem?_eq_none (Nat.le_of_not_lt hx), Option.getD_none]

theorem not_covers_of_lt (hx : x.toNat < c.dst.toNat)
    (htop : c.dst.toNat + c.data.length ≤ 2 ^ w) : ¬c.Covers x := by
  have hdst := c.dst.isLt
  rw [Covers, BitVec.toNat_sub, Nat.mod_eq_of_lt (by omega)]
  omega

theorem not_covers_of_le (hx : c.dst.toNat + c.data.length ≤ x.toNat) : ¬c.Covers x := by
  have hxw := x.isLt
  have hsub : 2 ^ w - c.dst.toNat + x.toNat = x.toNat - c.dst.toNat + 2 ^ w := by omega
  rw [Covers, BitVec.toNat_sub, hsub, Nat.add_mod_right, Nat.mod_eq_of_lt (by omega)]
  omega

theorem toNat_add {a : BitVec w} {k : ℕ} (hk : a.toNat + k < 2 ^ w) :
    (a + BitVec.ofNat w k).toNat = a.toNat + k := by
  rw [BitVec.toNat_add, BitVec.toNat_ofNat, Nat.add_mod_mod, Nat.mod_eq_of_lt hk]

/-- Byte `k` of a copy is `k` addresses from its start. -/
theorem toNat_add_sub (a : BitVec w) {k : ℕ} (hk : k < 2 ^ w) :
    (a + BitVec.ofNat w k - a).toNat = k := by
  rw [BitVec.add_comm, BitVec.add_sub_cancel, BitVec.toNat_ofNat, Nat.mod_eq_of_lt hk]

theorem getElem?_run {k : ℕ} (hk : k < c.data.length) (hw : k < 2 ^ w) :
    c.data[k]? = some (c.run m (c.dst + BitVec.ofNat w k)) := by
  rw [run, toNat_add_sub c.dst hw, List.getElem?_eq_getElem hk, Option.getD_some]

/-! ## Where a copy writes -/

/-- Every byte goes below `size`. -/
def Inside (c : Copy w β) (size : BitVec w) : Prop :=
  ∀ k < c.data.length, c.dst + BitVec.ofNat w k < size

/-- An address that has come up to `n` below `size` one at a time has not wrapped. -/
theorem forall_add_lt_iff {a size : BitVec w} {n : ℕ} :
    (∀ k < n, a + BitVec.ofNat w k < size) ↔ n = 0 ∨ a.toNat + n ≤ size.toNat := by
  have hsize := size.isLt
  constructor
  · intro h
    induction n with
    | zero => exact Or.inl rfl
    | succ n ih =>
      have hle : a.toNat + n ≤ size.toNat := by
        rcases ih fun k hk ↦ h k (by omega) with rfl | hle
        · have h0 := BitVec.lt_def.mp (h 0 Nat.one_pos)
          rw [BitVec.add_zero] at h0
          omega
        · exact hle
      have hn := BitVec.lt_def.mp (h n n.lt_succ_self)
      rw [toNat_add (by omega)] at hn
      exact Or.inr (by omega)
  · rintro (rfl | hle) k hk
    · exact absurd hk k.not_lt_zero
    · rw [BitVec.lt_def, toNat_add (by omega)]
      omega

theorem inside_iff {size : BitVec w} :
    c.Inside size ↔ c.data.length = 0 ∨ c.dst.toNat + c.data.length ≤ size.toNat :=
  forall_add_lt_iff

/-! ## Several copies -/

/-- The memory after copies, in order. -/
def runAll (cs : List (Copy w β)) (m : BitVec w → β) : BitVec w → β :=
  cs.foldl (fun m c ↦ c.run m) m

@[simp] theorem runAll_nil : runAll [] m = m := rfl

@[simp] theorem runAll_cons (cs : List (Copy w β)) : runAll (c :: cs) m = runAll cs (c.run m) := rfl

theorem runAll_append (cs cs' : List (Copy w β)) :
    runAll (cs ++ cs') m = runAll cs' (runAll cs m) := List.foldl_append

theorem runAll_of_not_covers {cs : List (Copy w β)} (h : ∀ c ∈ cs, ¬c.Covers x) :
    runAll cs m x = m x := by
  induction cs generalizing m with
  | nil => rfl
  | cons c cs ih =>
    rw [List.forall_mem_cons] at h
    rw [runAll_cons, ih h.2, run_of_not_covers h.1]

/-- **The last copy over an address decides.** -/
theorem getElem?_runAll (m : BitVec w → β) (cs : List (Copy w β)) {cs' : List (Copy w β)} {k : ℕ}
    (hk : k < c.data.length) (hw : k < 2 ^ w)
    (h : ∀ c' ∈ cs', ¬c'.Covers (c.dst + BitVec.ofNat w k)) :
    c.data[k]? = some (runAll (cs ++ c :: cs') m (c.dst + BitVec.ofNat w k)) := by
  rw [runAll_append, runAll_cons, runAll_of_not_covers h]
  exact getElem?_run hk hw

end Copy

/-- A memory that was `m` at first, with what was copied to it since then. -/
structure Logged {w : ℕ} {β : Type*} (m : BitVec w → β) where
  mem : BitVec w → β
  written : List (Copy w β)
  mem_eq : mem = Copy.runAll written m

namespace Logged

variable {w : ℕ} {β : Type*} {m : BitVec w → β}

/-- Nothing copied yet. -/
def start (m : BitVec w → β) : Logged m := ⟨m, [], rfl⟩

/-- One more copy. -/
def copy (dst : BitVec w) (data : List β) (s : Logged m) : Logged m where
  mem := Copy.run ⟨dst, data⟩ s.mem
  written := s.written ++ [⟨dst, data⟩]
  mem_eq := by rw [Copy.runAll_append, ← s.mem_eq, Copy.runAll_cons, Copy.runAll_nil]

@[simp] theorem written_start : (start m).written = [] := rfl

@[simp] theorem written_copy (dst : BitVec w) (data : List β) (s : Logged m) :
    (s.copy dst data).written = s.written ++ [⟨dst, data⟩] := rfl

end Logged
