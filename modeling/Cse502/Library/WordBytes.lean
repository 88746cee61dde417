import Mathlib.Tactic

/-!
# The bytes of a word

Byte `k` of a word is the one of weight `256 ^ k`. A loop that sets one byte at each turn, at
indices that are all different, leaves the bytes it has set: in whatever order it goes through them,
and whatever the word was before.
-/

namespace WordBytes

variable {w : ℕ}

/-- Byte `k`. -/
def byte (v : BitVec w) (k : ℕ) : BitVec 8 := v.extractLsb' (8 * k) 8

/-- The word with `b` for byte `k`. -/
def setByte (v : BitVec w) (k : ℕ) (b : BitVec 8) : BitVec w :=
  (v &&& ~~~((BitVec.allOnes 8).setWidth w <<< (8 * k))) ||| (b.setWidth w <<< (8 * k))

/-- The first `n` bytes, least significant first. -/
def bytesUp (n : ℕ) (v : BitVec w) : List (BitVec 8) := (List.range n).map (byte v)

/-- The first `n` bytes, most significant first. -/
def bytesDown (n : ℕ) (v : BitVec w) : List (BitVec 8) :=
  (List.range n).map fun k ↦ byte v (n - k - 1)

@[simp] theorem length_bytesUp (n : ℕ) (v : BitVec w) : (bytesUp n v).length = n := by
  rw [bytesUp, List.length_map, List.length_range]

theorem getElem?_bytesUp {n k : ℕ} (hk : k < n) (v : BitVec w) :
    (bytesUp n v)[k]? = some (byte v k) := by
  rw [bytesUp, List.getElem?_map, List.getElem?_range hk, Option.map_some]

theorem getLsbD_byte (v : BitVec w) (k i : ℕ) :
    (byte v k).getLsbD i = (decide (i < 8) && v.getLsbD (8 * k + i)) := by
  rw [byte, BitVec.getLsbD_extractLsb']

theorem getLsbD_setByte (v : BitVec w) (k : ℕ) (b : BitVec 8) (i : ℕ) :
    (setByte v k b).getLsbD i =
      if 8 * k ≤ i ∧ i < 8 * k + 8 then decide (i < w) && b.getLsbD (i - 8 * k)
      else v.getLsbD i := by
  rw [setByte, BitVec.getLsbD_or, BitVec.getLsbD_and, BitVec.getLsbD_not, BitVec.getLsbD_shiftLeft,
    BitVec.getLsbD_shiftLeft, BitVec.getLsbD_setWidth, BitVec.getLsbD_setWidth,
    BitVec.getLsbD_allOnes]
  by_cases hw : i < w
  · by_cases hk : i < 8 * k
    · simp [hw, hk]
    · by_cases hb : i < 8 * k + 8
      · have hi : i - 8 * k < 8 := by omega
        have hiw : i - 8 * k < w := by omega
        simp [hw, hk, hb, hi, hiw, Nat.le_of_not_lt hk]
      · have hi : ¬i - 8 * k < 8 := by omega
        rw [BitVec.getLsbD_of_ge b (i - 8 * k) (by omega)]
        simp [hw, hb, hi]
  · rw [BitVec.getLsbD_of_ge v i (by omega)]
    simp [hw]

/-- **Read over write** for the bytes of a word. -/
theorem byte_setByte (v : BitVec w) {j k : ℕ} (hk : 8 * k + 8 ≤ w) (b : BitVec 8) :
    byte (setByte v j b) k = if j = k then b else byte v k := by
  apply BitVec.eq_of_getLsbD_eq
  intro i hi
  rw [getLsbD_byte, getLsbD_setByte]
  by_cases hjk : j = k
  · subst hjk
    have hw : 8 * j + i < w := by omega
    simp [hi, hw]
  · have hne : ¬(8 * j ≤ 8 * k + i ∧ 8 * k + i < 8 * j + 8) := by omega
    rw [if_neg hne, if_neg hjk, getLsbD_byte]

@[simp] theorem byte_self (b : BitVec 8) : byte b 0 = b := by
  rw [byte, Nat.mul_zero, BitVec.extractLsb'_eq_self]

@[simp] theorem byte_append_zero {n : ℕ} (hi : BitVec n) (lo : BitVec 8) :
    byte (hi ++ lo) 0 = lo := by
  rw [byte, Nat.mul_zero, BitVec.extractLsb'_append_eq_right]

@[simp] theorem byte_append_succ {n : ℕ} (hi : BitVec n) (lo : BitVec 8) (k : ℕ) :
    byte (hi ++ lo) (k + 1) = byte hi k := by
  rw [byte, BitVec.extractLsb'_append_eq_of_le (by omega), byte, Nat.mul_succ, Nat.add_sub_cancel]

/-- A word is its bytes. -/
theorem eq_of_byte_eq {n : ℕ} {u v : BitVec w} (hw : w = 8 * n)
    (h : ∀ k < n, byte u k = byte v k) : u = v := by
  apply BitVec.eq_of_getLsbD_eq
  intro i hi
  have hbyte := congrArg (fun b ↦ b.getLsbD (i % 8)) (h (i / 8) (by omega))
  have hi8 : i % 8 < 8 := Nat.mod_lt i (by decide)
  rwa [getLsbD_byte, getLsbD_byte, Nat.div_add_mod, decide_eq_true hi8, Bool.true_and,
    Bool.true_and] at hbyte

/-- **The bytes a loop has set**, at indices that are all different. -/
theorem byte_foldl_setByte {n : ℕ} {g : ℕ → ℕ} (hg : ∀ i < n, ∀ j < n, g i = g j → i = j)
    (hw : ∀ i < n, 8 * g i + 8 ≤ w) (f : ℕ → BitVec 8) (v : BitVec w) {k : ℕ} (hk : k < n) :
    byte ((List.range n).foldl (fun v i ↦ setByte v (g i) (f i)) v) (g k) = f k := by
  induction n with
  | zero => exact absurd hk (Nat.not_lt_zero k)
  | succ n ih =>
    rw [List.range_succ, List.foldl_append, List.foldl_cons, List.foldl_nil,
      byte_setByte _ (hw k hk)]
    by_cases hn : g n = g k
    · rw [if_pos hn, hg n n.lt_succ_self k hk hn]
    · have hkn : k < n := by
        rcases Nat.lt_succ_iff_lt_or_eq.mp hk with hlt | rfl
        · exact hlt
        · exact absurd rfl hn
      rw [if_neg hn]
      exact ih (fun i hi j hj ↦ hg i (by omega) j (by omega)) (fun i hi ↦ hw i (by omega)) hkn

/-- A loop that goes from the highest byte to the lowest. -/
theorem byte_foldl_setByte_rev {n : ℕ} (hw : w = 8 * n) (f : ℕ → BitVec 8) (v : BitVec w) {k : ℕ}
    (hk : k < n) :
    byte ((List.range n).foldl (fun v i ↦ setByte v (n - i - 1) (f i)) v) (n - k - 1) = f k :=
  byte_foldl_setByte (fun i hi j hj hij ↦ by omega) (fun i hi ↦ by omega) f v hk

/-- A loop that writes the first `n` bytes of a word to a memory, from an address on. -/
theorem foldl_update_byte (m : BitVec 64 → BitVec 8) (a : BitVec 64) (v : BitVec w) {n : ℕ}
    (hn : n ≤ 2 ^ 64) (x : BitVec 64) :
    (List.range n).foldl (fun m k ↦ Function.update m (a + BitVec.ofNat 64 k) (byte v k)) m x =
      if (x - a).toNat < n then byte v (x - a).toNat else m x := by
  induction n with
  | zero => rfl
  | succ n ih =>
    rw [List.range_succ, List.foldl_append, List.foldl_cons, List.foldl_nil]
    have hsub : x = a + BitVec.ofNat 64 n ↔ (x - a).toNat = n := by bv_omega
    by_cases hx : x = a + BitVec.ofNat 64 n
    · have hxn := hsub.mp hx
      rw [if_pos (by omega), hxn, hx, Function.update_self]
    · have hxn : (x - a).toNat ≠ n := fun h ↦ hx (hsub.mpr h)
      rw [Function.update_of_ne hx, ih (by omega)]
      by_cases hlt : (x - a).toNat < n
      · rw [if_pos hlt, if_pos (by omega)]
      · rw [if_neg hlt, if_neg (by omega)]

end WordBytes
