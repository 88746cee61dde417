import Cse502.Memory.Views
import Cse502.Model.Boot
import Cse502.Model.Libc

/-!
# The guest reads its strings a word at a time

The memory can be read in aligned words only. `llstrlen` enters its loop in the middle of the first
word, with a length that is negative by as much, and the byte it stops at is the one behind the
string, whatever the bytes before the string and behind it are.
-/

namespace Cse502.Libc

open WordBytes (byte)
open ByteMemory (load)

variable {mem : Mem} {s p w : Word} {a : CString}

/-! ## Words and bytes -/

theorem read_of_aligned (h8 : p.toNat % 8 = 0) (hlow : 0x10000 ≤ p.toNat)
    (hhigh : p.toNat < Memory.size.toNat) : read mem p = .ok (load mem p) := by
  have hrange : Memory.inRange p = true := by
    rw [Memory.inRange, Bool.and_eq_true, BitVec.ult_iff_lt, BitVec.ult_iff_lt, BitVec.lt_def,
      BitVec.lt_def]
    exact ⟨hlow, hhigh⟩
  have haligned : ByteMemory.Aligned p := h8
  rw [read, if_pos hrange, Memory.memDRead, if_pos haligned]

theorem getLsbD_ff (j : ℕ) : (0xff : Word).getLsbD j = decide (j < 8) := by
  rcases Nat.lt_or_ge j 64 with hj | hj
  · interval_cases j <;> rfl
  · rw [BitVec.getLsbD_of_ge _ _ hj, eq_comm, decide_eq_false_iff_not]
    omega

/-- A test of `llstrlen` looks at one byte. -/
theorem and_mask_eq_zero_iff {i : ℕ} :
    w &&& (0xff : Word) <<< (8 * i) = 0 ↔ byte w i = 0 := by
  have hmask : ∀ j, (w &&& (0xff : Word) <<< (8 * i)).getLsbD j =
      (w.getLsbD j && decide (8 * i ≤ j ∧ j < 8 * i + 8)) := by
    intro j
    rw [BitVec.getLsbD_and, BitVec.getLsbD_shiftLeft, getLsbD_ff]
    grind
  constructor
  · intro h
    refine BitVec.eq_of_getLsbD_eq fun j hj ↦ ?_
    have hbit := hmask (8 * i + j)
    rw [h] at hbit
    rw [WordBytes.getLsbD_byte]
    simpa [hj] using hbit
  · intro h
    refine BitVec.eq_of_getLsbD_eq fun j _ ↦ ?_
    rw [hmask]
    by_cases hin : 8 * i ≤ j ∧ j < 8 * i + 8
    · have hbit := WordBytes.getLsbD_byte w i (j - 8 * i)
      rw [h, Nat.add_sub_cancel' hin.1] at hbit
      have hlt : j - 8 * i < 8 := by omega
      have hclear : w.getLsbD j = false := by simpa [hlt] using hbit
      rw [hclear, Bool.false_and]
      exact BitVec.getLsbD_zero.symm
    · simp [hin]

theorem byte_shift_and {k : ℕ} : w >>> (8 * k) &&& 0xff = (byte w k).setWidth 64 := by
  refine BitVec.eq_of_getLsbD_eq fun j hj ↦ ?_
  rw [BitVec.getLsbD_and, BitVec.getLsbD_ushiftRight, getLsbD_ff, BitVec.getLsbD_setWidth,
    WordBytes.getLsbD_byte, Bool.and_comm]
  simp [hj]

theorem firstZero_eq_some {start j : ℕ} (hj : start ≤ j) (hj8 : j < 8) (hzero : byte w j = 0)
    (hbefore : ∀ i, start ≤ i → i < j → byte w i ≠ 0) : firstZero w start = some j := by
  rw [firstZero, List.find?_range'_eq_some]
  refine ⟨decide_eq_true (and_mask_eq_zero_iff.mpr hzero), ?_, fun i hi hlt ↦ ?_⟩
  · rw [List.mem_range'_1]
    omega
  · rw [Bool.not_eq_true', decide_eq_false_iff_not, and_mask_eq_zero_iff]
    exact hbefore i hi hlt

theorem firstZero_eq_none {start : ℕ} (h : ∀ i, start ≤ i → i < 8 → byte w i ≠ 0) :
    firstZero w start = none := by
  rw [firstZero, List.find?_range'_eq_none]
  intro i hi hlt
  rw [Bool.not_eq_true', decide_eq_false_iff_not, and_mask_eq_zero_iff]
  exact h i hi (by omega)

/-! ## Strings in guest memory -/

/-- The string is at an address, inside the range that may be read. -/
structure StringAt (mem : Mem) (s : Word) (a : CString) : Prop where
  low : 0x10000 ≤ s.toNat
  high : s.toNat + a.bytes.length ≤ Memory.size.toNat
  bytes : ∀ i < a.bytes.length, a.bytes[i]? = some (mem (s + BitVec.ofNat 64 i))

namespace StringAt

theorem length_bytes (a : CString) : a.bytes.length = a.chars.length + 1 := by
  rw [CString.bytes, List.length_append, List.length_singleton]

/-- An address inside the string. -/
theorem add_eq (h : StringAt mem s a) {i k : ℕ} (hk : k ≤ a.chars.length)
    (hadd : p.toNat + i = s.toNat + k) : p + BitVec.ofNat 64 i = s + BitVec.ofNat 64 k := by
  have hhigh := h.high
  have hsize : Memory.size.toNat = 0x4000000 := rfl
  rw [length_bytes] at hhigh
  apply BitVec.eq_of_toNat_eq
  rw [Copy.toNat_add (by omega), Copy.toNat_add (by omega), hadd]

theorem mem_char (h : StringAt mem s a) {k : ℕ} (hk : k < a.chars.length) :
    mem (s + BitVec.ofNat 64 k) ≠ 0 := by
  have hbyte := h.bytes k (by rw [length_bytes]; omega)
  rw [CString.bytes, List.getElem?_append_left hk] at hbyte
  intro hzero
  rw [hzero] at hbyte
  exact a.zeroFree (List.mem_of_getElem? hbyte)

theorem mem_end (h : StringAt mem s a) : mem (s + BitVec.ofNat 64 a.chars.length) = 0 := by
  have hbyte := h.bytes a.chars.length (by rw [length_bytes]; omega)
  rw [CString.bytes, List.getElem?_concat_length] at hbyte
  exact (Option.some.inj hbyte).symm

/-- The loop, from any byte of the string on. -/
theorem strlenLoop_eq (h : StringAt mem s a) {fuel start : ℕ} (h8 : p.toNat % 8 = 0)
    (hstart : start < 8) (hlow : s.toNat ≤ p.toNat + start)
    (hhigh : p.toNat + start ≤ s.toNat + a.chars.length)
    (hfuel : s.toNat + a.chars.length < p.toNat + 8 * fuel) :
    strlenLoop mem fuel p (p - s) start = .ok (BitVec.ofNat 64 a.chars.length) := by
  have hs := h.low
  have htop := h.high
  have hsize : Memory.size.toNat = 0x4000000 := rfl
  rw [length_bytes] at htop
  induction fuel generalizing p start with
  | zero => omega
  | succ fuel ih =>
    rw [strlenLoop, read_of_aligned h8 (by omega) (by omega), ok_bind]
    have hchar : ∀ i, start ≤ i → i < 8 → p.toNat + i < s.toNat + a.chars.length →
        byte (load mem p) i ≠ 0 := by
      intro i hi hi8 hlt
      rw [Memory.byte_load mem p hi8, h.add_eq (k := p.toNat + i - s.toNat) (by omega) (by omega)]
      exact h.mem_char (by omega)
    rcases Nat.lt_or_ge (s.toNat + a.chars.length) (p.toNat + 8) with hend | hmore
    · -- the string ends in this word
      obtain ⟨j, hj⟩ : ∃ j, p.toNat + j = s.toNat + a.chars.length :=
        ⟨s.toNat + a.chars.length - p.toNat, by omega⟩
      have hadd := h.add_eq (p := p) le_rfl hj
      have hzero : byte (load mem p) j = 0 := by
        rw [Memory.byte_load mem p (by omega), hadd]
        exact h.mem_end
      rw [firstZero_eq_some (by omega) (by omega) hzero fun i hi hlt ↦
        hchar i hi (by omega) (by omega)]
      have hcancel : p - s + BitVec.ofNat 64 j = p + BitVec.ofNat 64 j - s := by bv_omega
      dsimp only
      rw [hcancel, hadd, BitVec.add_comm s, BitVec.add_sub_cancel]
    · rw [firstZero_eq_none fun i hi hi8 ↦ hchar i hi hi8 (by omega)]
      have hnext : p - s + 8 = p + 8 - s := by bv_omega
      have hp8 : (p + 8).toNat = p.toNat + 8 := by
        have hadd : p + 8 = p + BitVec.ofNat 64 8 := rfl
        rw [hadd, Copy.toNat_add (by omega)]
      dsimp only
      rw [hnext]
      exact ih (by omega) (by omega) (by omega) (by omega) (by omega)

end StringAt

theorem toNat_and_seven (s : Word) : (s &&& 7).toNat = s.toNat % 8 := by
  rw [BitVec.toNat_and]
  exact Nat.and_two_pow_sub_one_eq_mod s.toNat 3

/-- The word that holds a byte. -/
theorem toNat_and_not_seven (s : Word) : (s &&& ~~~7).toNat = s.toNat - s.toNat % 8 := by
  have hand := toNat_and_seven s
  have hdisjoint : (s &&& ~~~7) &&& (s &&& 7) = 0#64 := by
    rw [BitVec.and_comm s (~~~7), BitVec.and_assoc, ← BitVec.and_assoc s s, BitVec.and_self,
      BitVec.and_comm s 7, ← BitVec.and_assoc]
    simp
  have hadd : (s &&& ~~~7) + (s &&& 7) = s := by
    rw [BitVec.add_eq_or_of_and_eq_zero _ _ hdisjoint]
    ext i hi
    simp only [BitVec.getElem_or, BitVec.getElem_and, BitVec.getElem_not]
    cases s[i] <;> simp
  bv_omega

/-- Where the loop begins, and with what it begins to count. -/
theorem llstrlen_start (mem : Mem) (fuel : ℕ) (s : Word) : llstrlen mem fuel s =
    strlenLoop mem fuel (s &&& ~~~7) ((s &&& ~~~7) - s) (s.toNat % 8) := by
  have hp := toNat_and_not_seven s
  have hmod : (s % 8).toNat = s.toNat % 8 := BitVec.toNat_umod
  have hle : s.toNat % 8 ≤ s.toNat := Nat.mod_le _ _
  have hsplit : (s &&& ~~~7) + s % 8 = s := by
    apply BitVec.eq_of_toNat_eq
    rw [BitVec.toNat_add, hp, hmod, Nat.sub_add_cancel hle, Nat.mod_eq_of_lt s.isLt]
  have hneg : -(s % 8) = (s &&& ~~~7) - s := by
    generalize s % 8 = m at hsplit ⊢
    generalize s &&& ~~~7 = p at hsplit ⊢
    rw [← hsplit]
    bv_omega
  rw [llstrlen, hmod, hneg]

theorem StringAt.strlenLoop_start (h : StringAt mem s a) {fuel : ℕ}
    (hfuel : a.chars.length + 8 ≤ 8 * fuel) :
    strlenLoop mem fuel (s &&& ~~~7) ((s &&& ~~~7) - s) (s.toNat % 8) =
      .ok (BitVec.ofNat 64 a.chars.length) := by
  have hp := toNat_and_not_seven s
  have hle : s.toNat % 8 ≤ s.toNat := Nat.mod_le _ _
  exact h.strlenLoop_eq (by omega) (by omega) (by omega) (by omega) (by omega)

/-- **`llstrlen` is right.** It ends, no assert fails, and it gives the length. -/
theorem llstrlen_eq (h : StringAt mem s a) {fuel : ℕ} (hfuel : a.chars.length + 8 ≤ 8 * fuel) :
    llstrlen mem fuel s = .ok (BitVec.ofNat 64 a.chars.length) := by
  rw [llstrlen_start]
  exact h.strlenLoop_start hfuel

/-- What `strcpy` has copied is a string. -/
theorem stringAt_run (hlow : 0x10000 ≤ s.toNat)
    (hhigh : s.toNat + a.bytes.length ≤ Memory.size.toNat) :
    StringAt (Copy.run ⟨s, a.bytes⟩ mem) s a := by
  have hsize : Memory.size.toNat = 0x4000000 := rfl
  exact ⟨hlow, hhigh, fun i hi ↦ Copy.getElem?_run (c := ⟨s, a.bytes⟩) hi (by omega)⟩

/-- A string of one character. -/
def oneChar : CString := ⟨[0x62], by decide⟩

theorem llstrlen_oneChar :
    llstrlen (Copy.run ⟨0x10003, oneChar.bytes⟩ fun _ ↦ 1) 2 0x10003 = .ok 1 :=
  llstrlen_eq (stringAt_run (a := oneChar) (by decide) (by decide)) (by decide)

end Cse502.Libc
