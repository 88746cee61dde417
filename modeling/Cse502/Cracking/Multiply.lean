import Cse502.Cracking.Stores
import Cse502.Library.WideProduct

/-!
# Signed multiplication in its three forms

`imul` is cracked into a single uop before the operands are looked at, so no form loads a word. A
memory operand counts for its base register in the form of three operands and for the missing third
operand in the form of two. In the form of one operand the source tag is one that dispatch reads no
first operand for: the field keeps what it held, which is whatever was in memory when the uop was
pushed or a result that was forwarded to it since.
-/

namespace Cse502.Cracking

open Decoder (Operand Ud Push Uninit push2q pushAll)

/-! ## The instructions -/

/-- The operand of a multiplication that may be in memory. -/
inductive Factor
  | reg (g : Gpr) | mem (o : MemOperand)
  deriving DecidableEq, Repr

namespace Factor

/-- What udis86 reports for a factor. -/
def toOperand : Factor → Operand
  | reg g => { Operand.none with type := .reg, size := 64, base := .gpr g }
  | mem o => o.toOperand

/-- The value of a factor: that of its register, or the word stored at its effective address. -/
def value (s : Arch) (next : Word) : Factor → Word
  | reg g => s.regs g
  | mem o => ByteMemory.load s.mem (o.address s.regs next)

/-- The value of a factor read as a register, which for an operand in memory is its base. -/
def readAsReg (s : Arch) (next junk : Word) : Factor → Word
  | reg g => s.regs g
  | mem o => s.read next o.base.reg junk

end Factor

/-- `imul src`, `imul dst, src` and `imul dst, src, imm`. -/
inductive Imul
  | one (src : Factor)
  | two (dst : Gpr) (src : Factor)
  | three (dst : Gpr) (src : Factor) (imm : Imm)
  deriving DecidableEq, Repr

namespace Imul

/-- What udis86 reports for a multiplication. -/
def toUd : Imul → Ud
  | one src => ⟨.imul, src.toOperand, Operand.none, Operand.none⟩
  | two dst src => ⟨.imul, (Factor.reg dst).toOperand, src.toOperand, Operand.none⟩
  | three dst src imm =>
    ⟨.imul, (Factor.reg dst).toOperand, src.toOperand, (Source.imm imm).toOperand⟩

/-- The destination holds the signed product, both halves of it in the form of one operand. -/
def Computes (s s' : Arch) (next : Word) : Imul → Prop
  | one src => (s'.regs .rdx ++ s'.regs .rax : BitVec (64 + 64)).toInt =
      (s.regs .rax).toInt * (src.value s next).toInt
  | two dst src => s'.regs dst = BitVec.ofInt 64 ((s.regs dst).toInt * (src.value s next).toInt)
  | three dst src imm => s'.regs dst = BitVec.ofInt 64 ((src.value s next).toInt * imm.value.toInt)

/-- The uops of a multiplication multiply the operands it names. -/
def MultipliesNamed (clzZero : ℕ) (s : Arch) (uninit : ℕ → Uninit) (address : Word) (size : ℕ)
    (i : Imul) : Prop :=
  i.Computes s (s.run clzZero (Decoder.crackAt uninit address size i.toUd)) (Arch.next address size)

/-- The multiplications that give the right product, where the first operand of the uop held
`junk`. -/
def Handled (s : Arch) (next junk : Word) : Imul → Prop
  | one src => s.regs .rax = 0 ∨ junk = src.value s next
  | two _ (.reg _) => True
  | two dst (.mem o) => s.regs dst * (Factor.mem o).value s next = 0
  | three _ (.reg _) _ => True
  | three _ (.mem o) imm =>
    (Factor.mem o).readAsReg s next junk * imm.value = (Factor.mem o).value s next * imm.value

/-! ## The uops -/

/-- The one uop of a multiplication. -/
def push : Imul → Push
  | one src => ⟨.imul, src.toOperand.base, .none, .none, 0, .imul1⟩
  | two dst (.reg g) => ⟨.imul, .gpr g, .gpr dst, .none, 0, .imul2r⟩
  | two dst (.mem _) => ⟨.imul, .none, .gpr dst, .none, 0, .imul2i⟩
  | three dst src imm => ⟨.imul, src.toOperand.base, .gpr dst, .none, imm.value, .imul3⟩

theorem crack_toUd (i : Imul) : Decoder.crack i.toUd = some [i.push] := by
  cases i with
  | one src => cases src <;> rfl
  | two dst src =>
    cases src with
    | reg g => rfl
    | mem o =>
      -- the immediate is taken from the third operand, which is not there
      have hzero : Decoder.signExtend Operand.none.lval Operand.none.size = 0 := rfl
      have hcrack : Decoder.crack (two dst (.mem o)).toUd =
          some [⟨.imul, .none, .gpr dst, .none,
            Decoder.signExtend Operand.none.lval Operand.none.size, .imul2i⟩] := rfl
      rw [hcrack, hzero, push]
  | three dst src imm =>
    have hcrack : Decoder.crack (three dst src imm).toUd =
        some [⟨.imul, src.toOperand.base, .gpr dst, .none,
          Decoder.signExtend imm.lval imm.size, .imul3⟩] := by
      cases src <;> rfl
    rw [hcrack, imm.signExtend_lval, push]

section Run

variable (clzZero : ℕ) (s : Arch) (u : Uninit) (address : Word) (size : ℕ)

/-- The form of one operand multiplies RAX with what the field held. -/
theorem step_one (src : Factor) :
    (s.step clzZero (push2q u address size (one src).push)).regs =
      Function.update
        (Function.update s.regs .rax
          (((s.regs .rax).signExtend 128 * u.value1.signExtend 128).setWidth 64))
        .rdx
          ((((s.regs .rax).signExtend 128 * u.value1.signExtend 128).sshiftRight
            64).setWidth 64) := by
  cases src with
  | reg g => rfl
  | mem o =>
    rw [push, show (Factor.mem o).toOperand.base = o.base.reg from rfl]
    cases o.base <;> rfl

/-- The form of two operands takes a register as it is, and zero for an operand in memory. -/
theorem step_two (dst : Gpr) (src : Factor) :
    (s.step clzZero (push2q u address size (two dst src).push)).regs =
      Function.update s.regs dst
        (s.regs dst * match src with | .reg g => s.regs g | .mem _ => 0) := by
  cases src <;> rfl

/-- The form of three operands takes its source for a register. -/
theorem step_three (dst : Gpr) (src : Factor) (imm : Imm) :
    (s.step clzZero (push2q u address size (three dst src imm).push)).regs =
      Function.update s.regs dst
        (imm.value * src.readAsReg s (Arch.next address size) u.value1) := by
  have hstep : ∀ r,
      (s.step clzZero (push2q u address size
        ⟨.imul, r, .gpr dst, .none, imm.value, .imul3⟩)).regs =
      Function.update s.regs dst (imm.value * s.read (Arch.next address size) r u.value1) := by
    intro r
    cases r <;> rfl
  cases src with
  | reg g => exact hstep (.gpr g)
  | mem o => exact hstep o.base.reg

end Run

/-- **When `imul` multiplies the operands it names.** -/
theorem multipliesNamed_iff (clzZero : ℕ) (s : Arch) (uninit : ℕ → Uninit) (address : Word)
    (size : ℕ) (i : Imul) :
    i.MultipliesNamed clzZero s uninit address size ↔
      i.Handled s (Arch.next address size) (uninit 0).value1 := by
  have hrun : s.run clzZero (Decoder.crackAt uninit address size i.toUd) =
      s.step clzZero (push2q (uninit 0) address size i.push) := by
    rw [Decoder.crackAt_eq uninit address size i.crack_toUd]
    rfl
  rw [MultipliesNamed, hrun]
  cases i with
  | one src =>
    rw [Computes, Handled, step_one, Function.update_self,
      Function.update_of_ne (by decide), Function.update_self, WideProduct.append_halves,
      WideProduct.toInt_signExtend_mul (by omega) (by omega), mul_eq_mul_left_iff, BitVec.toInt_inj,
      or_comm]
    refine or_congr_left ⟨fun h ↦ BitVec.eq_of_toInt_eq h, fun h ↦ ?_⟩
    rw [h]
    rfl
  | two dst src =>
    rw [Computes, step_two, Function.update_self, ← WideProduct.mul_eq_ofInt]
    cases src with
    | reg g => exact iff_of_true rfl trivial
    | mem o =>
      rw [Handled, show s.regs dst * (0 : Word) = 0 from BitVec.mul_zero]
      exact eq_comm
  | three dst src imm =>
    rw [Computes, step_three, Function.update_self, ← WideProduct.mul_eq_ofInt]
    cases src with
    | reg g => exact iff_of_true (BitVec.mul_comm _ _) trivial
    | mem o => rw [Handled, BitVec.mul_comm imm.value]

/-- `imul rbx, [rax]` with 2 in RBX and 3 in memory gives 0. -/
theorem not_multipliesNamed_rbxRax :
    ¬(two .rbx (.mem ⟨.gpr .rax, none, .x1, .none, 64⟩)).MultipliesNamed 0
      ⟨fun _ ↦ 2, 0, 0, ⟨0⟩, fun a ↦ if a = 2 then 3 else 0⟩ (fun _ ↦ ⟨0, 0, 0⟩) 0x1000 4 := by
  rw [MultipliesNamed, Computes]
  decide

end Imul

end Cse502.Cracking
