import Cse502.Model.Decoder
import Mathlib.Tactic

/-!
# Immediates on any host

`Decoder::sign_extend` shifts the `int` one by as many bits as the size says, less one. From 32
bits on the host may answer anything. Its shift is a parameter here, so that what the function
returns for a size of 64 can be said whatever that shift yields.
-/

namespace Cse502.Decoder

/-- `1 << n` on the `int` one, as the compiler and the host make it: the power of two for the
counts below the width, and anything from there on. -/
structure IntShift where
  shift : ℕ → BitVec 32
  shift_of_lt : ∀ n < 32, shift n = BitVec.twoPow 32 n

/-- The host that uses the low five bits of the count. -/
def IntShift.masked : IntShift where
  shift n := BitVec.twoPow 32 (n % 32)
  shift_of_lt n hn := by rw [Nat.mod_eq_of_lt hn]

/-- The host that shifts every bit out. -/
def IntShift.shiftedOut : IntShift where
  shift n := if n < 32 then BitVec.twoPow 32 n else 0
  shift_of_lt _ hn := if_pos hn

/-- `Decoder::sign_extend` on a given host. -/
def signExtendOn (host : IntShift) (immedVal : Word) (size : ℕ) : Word :=
  let o := Nat.toDigits 16 immedVal.toNat
  let numBits := o.length * 4
  if numBits = size then
    let msb : BitVec 32 := ((host.shift (size - 1)).signExtend 64 &&& immedVal).setWidth 32
    let ch1 := if msb ≠ 0 then 'f' else '0'
    BitVec.ofNat 64 (HexText.value (List.replicate (16 - o.length) ch1 ++ o))
  else immedVal

/-- The decoder runs on the host that masks the count. -/
theorem signExtendOn_masked (v : Word) (size : ℕ) :
    signExtendOn .masked v size = signExtend v size := rfl

variable (host : IntShift)

/-- Up to a size of 32 all hosts agree. -/
theorem signExtendOn_eq_signExtend (v : Word) {size : ℕ} (hsize : size ≤ 32) (hpos : 0 < size) :
    signExtendOn host v size = signExtend v size := by
  have hlt : size - 1 < 32 := by omega
  rw [signExtendOn, signExtend, host.shift_of_lt _ hlt, Nat.mod_eq_of_lt hlt]

/-- A text of 16 digits is not extended, whatever digit the host would fill it with. -/
theorem signExtendOn_64 (v : Word) : signExtendOn host v 64 = v := by
  by_cases hlen : (Nat.toDigits 16 v.toNat).length * 4 = 64
  · exact (if_pos hlen).trans (ofNat_value_fill hlen _)
  · exact if_neg hlen

/-- No text is empty, so nothing is extended to no bits at all. -/
theorem signExtendOn_zero (v : Word) : signExtendOn host v 0 = v := by
  have hlen : 0 < (Nat.toDigits 16 v.toNat).length := Nat.length_toDigits_pos
  rw [signExtendOn]
  exact if_neg (by omega)

/-- Sign extension as an addition: the ones above the number are there if its top bit is. -/
theorem toNat_signExtend_setWidth {v : Word} {size : ℕ} (hpos : 0 < size) (hv : v.toNat < 2 ^ size)
    (hle : size ≤ 64) :
    ((v.setWidth size).signExtend 64).toNat =
      if v.getLsbD (size - 1) then v.toNat + 2 ^ 64 - 2 ^ size else v.toNat := by
  have hpow : 2 ^ size ≤ 2 ^ 64 := Nat.pow_le_pow_right (by omega) hle
  have hmsb : (v.setWidth size).msb = v.getLsbD (size - 1) := by
    rw [BitVec.msb_eq_getLsbD_last, BitVec.getLsbD_setWidth, decide_eq_true (by omega),
      Bool.true_and]
  have hwidth : ((v.setWidth size).setWidth 64).toNat = v.toNat := by
    rw [BitVec.toNat_setWidth, BitVec.toNat_setWidth, Nat.mod_eq_of_lt hv,
      Nat.mod_eq_of_lt v.isLt]
  rw [BitVec.toNat_signExtend, hwidth, hmsb]
  split_ifs
  · exact (Nat.add_sub_assoc hpow _).symm
  · exact Nat.add_zero _

/-- **`sign_extend` is two's complement sign extension** for the sizes of immediates and
displacements, on every host. -/
theorem signExtendOn_twosComplement (v : Word) :
    (∀ size : ℕ, size = 8 ∨ size = 16 ∨ size = 32 → v.toNat < 2 ^ size →
      (signExtendOn host v size).toNat =
        if v.getLsbD (size - 1) then v.toNat + 2 ^ 64 - 2 ^ size else v.toNat) ∧
    signExtendOn host v 64 = v ∧ signExtendOn host 0 0 = 0 := by
  refine ⟨fun size hsize hv ↦ ?_, signExtendOn_64 host v, signExtendOn_zero host 0⟩
  have hbounds : 0 < size ∧ size ≤ 32 := by omega
  rw [signExtendOn_eq_signExtend host v hbounds.2 hbounds.1, signExtend_eq hsize hv]
  exact toNat_signExtend_setWidth hbounds.1 hv (by omega)

/-- The byte `0x80`, and a word with every bit set on a host of either kind. -/
theorem signExtendOn_twosComplement_byte :
    (signExtendOn .masked 0x80 8).toNat = 2 ^ 64 - 128 ∧
      signExtendOn .shiftedOut (-1) 64 = -1 := by
  constructor
  · rw [(signExtendOn_twosComplement .masked 0x80).1 8 (.inl rfl) (by decide)]
    decide
  · exact (signExtendOn_twosComplement .shiftedOut (-1)).2.1

end Cse502.Decoder
