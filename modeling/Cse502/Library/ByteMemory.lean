import Mathlib.Tactic.Common

/-!
# Little-endian words in a byte memory

A memory is a function from 64-bit addresses to bytes, and a word occupies the eight bytes from its
address on, least significant first. Address arithmetic wraps. Two words at different addresses
that are both multiples of eight occupy disjoint bytes, which is all a read-over-write law needs.
-/

namespace ByteMemory

variable (m : BitVec 64 → BitVec 8)

/-- The word stored at `a`. -/
def load (a : BitVec 64) : BitVec 64 :=
  m (a + 7) ++ m (a + 6) ++ m (a + 5) ++ m (a + 4) ++ m (a + 3) ++ m (a + 2) ++ m (a + 1) ++ m a

/-- The memory after storing the word `v` at `a`. -/
def store (a v : BitVec 64) : BitVec 64 → BitVec 8 := fun x ↦
  if (x - a).toNat < 8 then v.extractLsb' (8 * (x - a).toNat) 8 else m x

/-- An address that is a multiple of eight. -/
def Aligned (a : BitVec 64) : Prop := a.toNat % 8 = 0

instance : DecidablePred Aligned := fun a ↦ inferInstanceAs (Decidable (a.toNat % 8 = 0))

variable {m}

theorem load_congr {m' : BitVec 64 → BitVec 8} {a : BitVec 64}
    (h : ∀ i : BitVec 64, i.toNat < 8 → m (a + i) = m' (a + i)) : load m a = load m' a := by
  have h0 := h 0#64 (by decide)
  rw [BitVec.add_zero] at h0
  rw [load, load, h 7 (by decide), h 6 (by decide), h 5 (by decide), h 4 (by decide),
    h 3 (by decide), h 2 (by decide), h 1 (by decide), h0]

/-- A byte inside the stored word. -/
theorem store_add (a v : BitVec 64) {i : BitVec 64} (hi : i.toNat < 8) :
    store m a v (a + i) = v.extractLsb' (8 * i.toNat) 8 := by
  have hsub : a + i - a = i := by rw [BitVec.add_comm, BitVec.add_sub_cancel]
  rw [store, hsub, if_pos hi]

/-- A byte outside the stored word. -/
theorem store_of_le (a v : BitVec 64) {x : BitVec 64} (hx : 8 ≤ (x - a).toNat) :
    store m a v x = m x := by rw [store, if_neg (by omega)]

theorem load_store_self (a v : BitVec 64) : load (store m a v) a = v := by
  have hbyte : ∀ i : BitVec 64, i.toNat < 8 →
      store m a v (a + i) = v.extractLsb' (8 * i.toNat) 8 := fun i hi ↦ store_add a v hi
  have h0 := hbyte 0#64 (by decide)
  rw [BitVec.add_zero] at h0
  rw [load, hbyte 7 (by decide), hbyte 6 (by decide), hbyte 5 (by decide), hbyte 4 (by decide),
    hbyte 3 (by decide), hbyte 2 (by decide), hbyte 1 (by decide), h0]
  ext i hi
  simp only [BitVec.getElem_append, BitVec.getElem_extractLsb']
  repeat' split
  all_goals
    rw [← BitVec.getLsbD_eq_getElem hi]
    congr 1
    bv_omega

/-- A word is read where its bytes are. -/
theorem load_eq_of_bytes {a v : BitVec 64}
    (h : ∀ i : BitVec 64, i.toNat < 8 → m (a + i) = v.extractLsb' (8 * i.toNat) 8) :
    load m a = v := by
  calc load m a = load (store m a v) a := load_congr fun i hi ↦ by rw [h i hi, store_add a v hi]
    _ = v := load_store_self a v

/-- Aligned words at different addresses share no byte. -/
theorem sub_toNat_of_aligned {a b : BitVec 64} (ha : Aligned a) (hb : Aligned b) (hab : a ≠ b)
    {i : BitVec 64} (hi : i.toNat < 8) : 8 ≤ (b + i - a).toNat := by
  have hne : a.toNat ≠ b.toNat := fun h ↦ hab (BitVec.eq_of_toNat_eq h)
  rw [Aligned] at ha hb
  have hbi : (b + i).toNat = b.toNat + i.toNat := by
    rw [BitVec.toNat_add, Nat.mod_eq_of_lt (by omega)]
  rw [BitVec.toNat_sub, hbi]
  omega

theorem load_store_of_ne {a b : BitVec 64} (ha : Aligned a) (hb : Aligned b) (hab : a ≠ b)
    (v : BitVec 64) : load (store m a v) b = load m b :=
  load_congr fun _ hi ↦ store_of_le a v (sub_toNat_of_aligned ha hb hab hi)

/-- **Read over write** for aligned words. -/
theorem load_store {a b : BitVec 64} (ha : Aligned a) (hb : Aligned b) (v : BitVec 64) :
    load (store m a v) b = if a = b then v else load m b := by
  by_cases hab : a = b
  · subst hab
    rw [if_pos rfl, load_store_self]
  · rw [if_neg hab, load_store_of_ne ha hb hab]

/-- Writing the word that is already there changes nothing. -/
theorem store_idem (a v : BitVec 64) : store (store m a v) a v = store m a v := by
  funext x
  by_cases hx : (x - a).toNat < 8
  · rw [store, if_pos hx, store, if_pos hx]
  · rw [store, if_neg hx]

end ByteMemory
