import Cse502.Model.Decoder
import Cse502.Model.Sequential
import Mathlib.Tactic

/-!
# Register instructions

The instructions that are cracked into a single uop with one destination register and that touch
no memory. Each is a uop the decoder pushes (`exists_crack_eq`), and running that uop, in the
pipeline or on the sequential machine, comes to one thing: if its operands are what `Reads` says,
then `alu` leaves the destination and the value that `effect` names.
-/

namespace Cse502.Pipeline

open Decoder (Push Uninit Ud Operand push2q)

/-- The two-operand opcodes with a register source. -/
def regOpcodes : List Mnemonic :=
  [.mov, .add, .sub, .and, .or, .xor, .cmp, .test, .cmovnz, .cmovns, .cmovg]

/-- The two-operand opcodes with an immediate source, the shifts among them. -/
def immOpcodes : List Mnemonic :=
  [.mov, .add, .sub, .and, .or, .xor, .cmp, .test, .shl, .sal, .sar, .shr]

/-- The one-operand opcodes. -/
def unaryOpcodes : List Mnemonic := [.inc, .dec, .neg]

/-- A single-uop instruction over the general registers. -/
inductive RegInsn
  | regReg (opcode : { o : Mnemonic // o ∈ regOpcodes }) (src dst : Gpr)
  | regImm (opcode : { o : Mnemonic // o ∈ immOpcodes }) (imm : Word) (dst : Gpr)
  | unary (opcode : { o : Mnemonic // o ∈ unaryOpcodes }) (r : Gpr)
  | cqo
  | imul2 (src dst : Gpr)
  | imul2i (imm : Word) (dst : Gpr)
  | imul3 (src1 src2 dst : Gpr)
  | imul3i (src1 : Gpr) (imm : Word) (dst : Gpr)

namespace RegInsn

/-- The call of `push2q` an instruction is cracked into. -/
def push : RegInsn → Push
  | regReg opcode src dst => ⟨opcode, .gpr src, .gpr dst, .none, 0, .reg⟩
  | regImm opcode imm dst => ⟨opcode, .none, .gpr dst, .none, imm, .immed⟩
  | unary opcode r => ⟨opcode, .gpr r, .none, .none, 0, .reg⟩
  | cqo => ⟨.cqo, .none, .none, .none, 0, .noSrc⟩
  | imul2 src dst => ⟨.imul, .gpr src, .gpr dst, .none, 0, .imul2r⟩
  | imul2i imm dst => ⟨.imul, .none, .gpr dst, .none, imm, .imul2i⟩
  | imul3 src1 src2 dst => ⟨.imul, .gpr src1, .gpr dst, .gpr src2, 0, .imul3⟩
  | imul3i src1 imm dst => ⟨.imul, .gpr src1, .gpr dst, .none, imm, .imul3⟩

/-- The destination register. -/
def dest : RegInsn → Gpr
  | regReg _ _ dst => dst
  | regImm _ _ dst => dst
  | unary _ r => r
  | cqo => .rdx
  | imul2 _ dst => dst
  | imul2i _ dst => dst
  | imul3 _ _ dst => dst
  | imul3i _ _ dst => dst

/-- An operand that is a general register. -/
private def regOperand (g : Gpr) : Operand := { Operand.none with type := .reg, base := .gpr g }

/-- An operand that is a 64-bit immediate. -/
private def immOperand (imm : Word) : Operand :=
  { Operand.none with type := .imm, size := 64, lval := imm }

/-- The decoder cracks some instruction into this uop alone. -/
theorem exists_crack_eq (insn : RegInsn) : ∃ ud : Ud, Decoder.crack ud = some [insn.push] := by
  cases insn with
  | regReg opcode src dst =>
    refine ⟨⟨opcode, regOperand dst, regOperand src, Operand.none⟩, ?_⟩
    have hopcode : (opcode : Mnemonic) ≠ .imul :=
      (by decide : ∀ o ∈ regOpcodes, o ≠ .imul) _ opcode.2
    simp [Decoder.crack, regOperand, hopcode, push]
  | regImm opcode imm dst =>
    refine ⟨⟨opcode, regOperand dst, immOperand imm, Operand.none⟩, ?_⟩
    have hopcode : (opcode : Mnemonic) ≠ .imul :=
      (by decide : ∀ o ∈ immOpcodes, o ≠ .imul) _ opcode.2
    simp [Decoder.crack, regOperand, immOperand, hopcode, push, Decoder.signExtend_64]
  | unary opcode r =>
    refine ⟨⟨opcode, regOperand r, Operand.none, Operand.none⟩, ?_⟩
    have hopcode : ∀ o ∈ unaryOpcodes, o ≠ .imul ∧ o ≠ .pop := by decide
    obtain ⟨himul, hpop⟩ := hopcode _ opcode.2
    simp [Decoder.crack, regOperand, Operand.none, himul, hpop, push]
  | cqo => exact ⟨⟨.cqo, Operand.none, Operand.none, Operand.none⟩, rfl⟩
  | imul2 src dst =>
    exact ⟨⟨.imul, regOperand dst, regOperand src, Operand.none⟩, rfl⟩
  | imul2i imm dst =>
    -- this branch takes its immediate from the third operand
    refine ⟨⟨.imul, regOperand dst, immOperand 0, { immOperand imm with type := .none }⟩, ?_⟩
    simp [Decoder.crack, Decoder.crackImul, regOperand, immOperand, push, Decoder.signExtend_64]
  | imul3 src1 src2 dst =>
    exact ⟨⟨.imul, regOperand dst, regOperand src1, regOperand src2⟩, rfl⟩
  | imul3i src1 imm dst =>
    refine ⟨⟨.imul, regOperand dst, regOperand src1, immOperand imm⟩, ?_⟩
    simp [Decoder.crack, Decoder.crackImul, regOperand, immOperand, push, Decoder.signExtend_64]

/-- The uop carries this instruction, and every operand it uses has the value that `regs` gives the
operand's register, or the immediate. The old value of the destination is an operand, but not of
`cqo`, which overwrites RDX. -/
def Reads (regs : Gpr → Word) (op : Uop) : RegInsn → Prop
  | regReg opcode src dst =>
    op.opcode = opcode ∧ op.src = .reg ∧ (op.reg1 = .gpr src ∧ op.value1 = regs src) ∧
      op.reg2 = .gpr dst ∧ op.value2 = regs dst
  | regImm opcode imm dst =>
    op.opcode = opcode ∧ op.src = .immed ∧ (op.reg1 = .scratchreg ∧ op.value1 = imm) ∧
      op.reg2 = .gpr dst ∧ op.value2 = regs dst
  | unary opcode r =>
    op.opcode = opcode ∧ op.src = .reg ∧ op.reg1 = .gpr r ∧ op.value1 = regs r
  | cqo =>
    op.opcode = .cqo ∧ op.src = .noSrc ∧ (op.reg1 = .gpr .rax ∧ op.value1 = regs .rax) ∧
      op.reg2 = .gpr .rdx
  | imul2 src dst =>
    op.opcode = .imul ∧ op.src = .imul2r ∧ (op.reg1 = .gpr src ∧ op.value1 = regs src) ∧
      op.reg2 = .gpr dst ∧ op.value2 = regs dst
  | imul2i imm dst =>
    op.opcode = .imul ∧ op.src = .imul2i ∧ (op.reg1 = .scratchreg ∧ op.value1 = imm) ∧
      op.reg2 = .gpr dst ∧ op.value2 = regs dst
  | imul3 src1 src2 dst =>
    op.opcode = .imul ∧ op.src = .imul3 ∧ (op.reg1 = .gpr src1 ∧ op.value1 = regs src1) ∧
      (op.reg2 = .gpr dst ∧ op.value2 = regs dst) ∧ op.reg3 = .gpr src2 ∧ op.value3 = regs src2
  | imul3i src1 imm dst =>
    op.opcode = .imul ∧ op.src = .imul3 ∧ (op.reg1 = .gpr src1 ∧ op.value1 = regs src1) ∧
      (op.reg2 = .gpr dst ∧ op.value2 = regs dst) ∧ op.reg3 = .scratchreg ∧ op.value3 = imm

/-- The word written to the destination, and the flags. -/
def effect (regs : Gpr → Word) (e : Eflags) (insn : RegInsn) : Word × Eflags :=
  let r := Execute.alu 0 (Dispatch.readOperands ⟨regs, 0⟩ (push2q ⟨0, 0, 0⟩ 0 0 insn.push)) e
  (r.1.value2, r.2)

/-! ## Operands -/

/-- Operands read from the register file, and then replaced by rules that bring every general
register up to date and leave immediates alone. The third operand has a rule of its own. -/
theorem reads_of_forward (rf : Arf) (fwd fwd3 : Reg → Word → Word) {regs : Gpr → Word}
    (hgpr : ∀ g, fwd (.gpr g) (rf.gpr g) = regs g) (himm : ∀ v, fwd .scratchreg v = v)
    (hgpr3 : ∀ g, fwd3 (.gpr g) (rf.gpr g) = regs g) (himm3 : ∀ v, fwd3 .scratchreg v = v)
    (u : Uninit) (address : Word) (size : ℕ) (insn : RegInsn) {op op' : Uop}
    (hop : op = Dispatch.readOperands rf (push2q u address size insn.push))
    (hop' : op' = { op with
      value1 := fwd op.reg1 op.value1
      value2 := fwd op.reg2 op.value2
      value3 := fwd3 op.reg3 op.value3 }) :
    insn.Reads regs op' := by
  subst hop hop'
  cases insn with
  | regReg opcode src dst =>
    obtain ⟨opcode, hopcode⟩ := opcode
    simp only [regOpcodes, List.mem_cons, List.not_mem_nil, or_false] at hopcode
    rcases hopcode with rfl | rfl | rfl | rfl | rfl | rfl | rfl | rfl | rfl | rfl | rfl <;>
      exact ⟨rfl, rfl, ⟨rfl, hgpr src⟩, rfl, hgpr dst⟩
  | regImm opcode imm dst =>
    obtain ⟨opcode, hopcode⟩ := opcode
    simp only [immOpcodes, List.mem_cons, List.not_mem_nil, or_false] at hopcode
    rcases hopcode with rfl | rfl | rfl | rfl | rfl | rfl | rfl | rfl | rfl | rfl | rfl | rfl <;>
      exact ⟨rfl, rfl, ⟨rfl, himm imm⟩, rfl, hgpr dst⟩
  | unary opcode r =>
    obtain ⟨opcode, hopcode⟩ := opcode
    simp only [unaryOpcodes, List.mem_cons, List.not_mem_nil, or_false] at hopcode
    rcases hopcode with rfl | rfl | rfl <;> exact ⟨rfl, rfl, rfl, hgpr r⟩
  | cqo => exact ⟨rfl, rfl, ⟨rfl, hgpr .rax⟩, rfl⟩
  | imul2 src dst => exact ⟨rfl, rfl, ⟨rfl, hgpr src⟩, rfl, hgpr dst⟩
  | imul2i imm dst => exact ⟨rfl, rfl, ⟨rfl, himm imm⟩, rfl, hgpr dst⟩
  | imul3 src1 src2 dst =>
    exact ⟨rfl, rfl, ⟨rfl, hgpr src1⟩, ⟨rfl, hgpr dst⟩, rfl, hgpr3 src2⟩
  | imul3i src1 imm dst =>
    exact ⟨rfl, rfl, ⟨rfl, hgpr src1⟩, ⟨rfl, hgpr dst⟩, rfl, himm3 imm⟩

/-- The sequential machine reads the latest values. -/
theorem reads_fetch (s : Arch) (u : Uninit) (address : Word) (size : ℕ) (insn : RegInsn) :
    insn.Reads s.regs (s.fetch (push2q u address size insn.push)) :=
  reads_of_forward ⟨s.regs, 0⟩ s.pseudo s.pseudo (fun _ ↦ rfl) (fun _ ↦ rfl) (fun _ ↦ rfl)
    (fun _ ↦ rfl) u address size insn rfl rfl

/-! ## The effect -/

/-- The opcodes of register instructions. -/
def plainOpcodes : List Mnemonic := regOpcodes ++ immOpcodes ++ unaryOpcodes ++ [.cqo, .imul]

/-- The uops of register instructions take none of the special paths through the pipeline. -/
structure Plain (op : Uop) : Prop where
  opcode : op.opcode ∈ plainOpcodes
  src : op.src ≠ .imul1

/-- Any fact about the finitely many opcodes holds of a plain uop. -/
theorem Plain.forall {op : Uop} (h : Plain op) {P : Mnemonic → Prop}
    (hP : ∀ o ∈ plainOpcodes, P o) :
    P op.opcode := hP _ h.opcode

theorem plain_of_reads {regs : Gpr → Word} {op : Uop} {insn : RegInsn} (h : insn.Reads regs op) :
    Plain op := by
  cases insn with
  | regReg opcode src dst =>
    refine ⟨?_, by rw [h.2.1]; decide⟩
    rw [h.1, plainOpcodes, List.append_assoc, List.append_assoc]
    exact List.mem_append_left _ opcode.2
  | regImm opcode imm dst =>
    refine ⟨?_, by rw [h.2.1]; decide⟩
    rw [h.1, plainOpcodes, List.append_assoc, List.append_assoc]
    exact List.mem_append_right _ (List.mem_append_left _ opcode.2)
  | unary opcode r =>
    refine ⟨?_, by rw [h.2.1]; decide⟩
    rw [h.1, plainOpcodes]
    exact List.mem_append_left _ (List.mem_append_right _ opcode.2)
  | cqo => exact ⟨by rw [h.1]; decide, by rw [h.2.1]; decide⟩
  | imul2 src dst => exact ⟨by rw [h.1]; decide, by rw [h.2.1]; decide⟩
  | imul2i imm dst => exact ⟨by rw [h.1]; decide, by rw [h.2.1]; decide⟩
  | imul3 src1 src2 dst => exact ⟨by rw [h.1]; decide, by rw [h.2.1]; decide⟩
  | imul3i src1 imm dst => exact ⟨by rw [h.1]; decide, by rw [h.2.1]; decide⟩

/-- What a uop of the instruction computes depends on the operands it reads only. -/
private theorem alu_congr (clzZero clzZero' : ℕ) {regs : Gpr → Word} {op op' : Uop} {insn : RegInsn}
    (h : insn.Reads regs op) (h' : insn.Reads regs op') (e : Eflags) :
    (Execute.alu clzZero op e).1.reg2 = .gpr insn.dest ∧
      (Execute.alu clzZero op e).1.value2 = (Execute.alu clzZero' op' e).1.value2 ∧
      (Execute.alu clzZero op e).2 = (Execute.alu clzZero' op' e).2 := by
  cases insn with
  | regReg opcode src dst =>
    obtain ⟨opcode, hopcode⟩ := opcode
    obtain ⟨ho, -, ⟨-, hv1⟩, hr2, hv2⟩ := h
    obtain ⟨ho', -, ⟨-, hv1'⟩, -, hv2'⟩ := h'
    simp only [regOpcodes, List.mem_cons, List.not_mem_nil, or_false] at hopcode
    rcases hopcode with rfl | rfl | rfl | rfl | rfl | rfl | rfl | rfl | rfl | rfl | rfl <;>
      simp [Execute.alu, dest, ho, ho', hv1, hv1', hr2, hv2, hv2']
  | regImm opcode imm dst =>
    obtain ⟨opcode, hopcode⟩ := opcode
    obtain ⟨ho, -, ⟨-, hv1⟩, hr2, hv2⟩ := h
    obtain ⟨ho', -, ⟨-, hv1'⟩, -, hv2'⟩ := h'
    simp only [immOpcodes, List.mem_cons, List.not_mem_nil, or_false] at hopcode
    rcases hopcode with rfl | rfl | rfl | rfl | rfl | rfl | rfl | rfl | rfl | rfl | rfl | rfl <;>
      simp [Execute.alu, Execute.doShift, dest, ho, ho', hv1, hv1', hr2, hv2, hv2']
  | unary opcode r =>
    obtain ⟨opcode, hopcode⟩ := opcode
    obtain ⟨ho, -, hr1, hv1⟩ := h
    obtain ⟨ho', -, -, hv1'⟩ := h'
    simp only [unaryOpcodes, List.mem_cons, List.not_mem_nil, or_false] at hopcode
    rcases hopcode with rfl | rfl | rfl <;>
      simp [Execute.alu, dest, ho, ho', hv1, hv1', hr1]
  | cqo =>
    obtain ⟨ho, -, ⟨-, hv1⟩, hr2⟩ := h
    obtain ⟨ho', -, ⟨-, hv1'⟩, -⟩ := h'
    -- the old value of RDX is either overwritten or masked by ones
    simp only [Execute.alu, dest, ho, ho', hv1, hv1', hr2, BitVec.or_allOnes, and_self]
  | imul2 src dst =>
    obtain ⟨ho, hs, ⟨-, hv1⟩, hr2, hv2⟩ := h
    obtain ⟨ho', hs', ⟨-, hv1'⟩, -, hv2'⟩ := h'
    simp [Execute.alu, Execute.imul, dest, ho, ho', hs, hs', hv1, hv1', hr2, hv2, hv2']
  | imul2i imm dst =>
    obtain ⟨ho, hs, ⟨-, hv1⟩, hr2, hv2⟩ := h
    obtain ⟨ho', hs', ⟨-, hv1'⟩, -, hv2'⟩ := h'
    simp [Execute.alu, Execute.imul, dest, ho, ho', hs, hs', hv1, hv1', hr2, hv2, hv2']
  | imul3 src1 src2 dst =>
    obtain ⟨ho, hs, ⟨-, hv1⟩, ⟨hr2, -⟩, -, hv3⟩ := h
    obtain ⟨ho', hs', ⟨-, hv1'⟩, -, -, hv3'⟩ := h'
    simp [Execute.alu, Execute.imul, dest, ho, ho', hs, hs', hv1, hv1', hr2, hv3, hv3']
  | imul3i src1 imm dst =>
    obtain ⟨ho, hs, ⟨-, hv1⟩, ⟨hr2, -⟩, -, hv3⟩ := h
    obtain ⟨ho', hs', ⟨-, hv1'⟩, -, -, hv3'⟩ := h'
    simp [Execute.alu, Execute.imul, dest, ho, ho', hs, hs', hv1, hv1', hr2, hv3, hv3']

/-- **A uop whose operands are right has the effect of its instruction.** -/
theorem alu_of_reads (clzZero : ℕ) {regs : Gpr → Word} {op : Uop} {insn : RegInsn}
    (h : insn.Reads regs op) (e : Eflags) :
    (Execute.alu clzZero op e).1.reg2 = .gpr insn.dest ∧
      (Execute.alu clzZero op e).1.value2 = (insn.effect regs e).1 ∧
      (Execute.alu clzZero op e).2 = (insn.effect regs e).2 := by
  refine alu_congr clzZero 0 h ?_ e
  exact reads_of_forward ⟨regs, 0⟩ (fun _ v ↦ v) (fun _ v ↦ v) (fun _ ↦ rfl) (fun _ ↦ rfl)
    (fun _ ↦ rfl) (fun _ ↦ rfl) ⟨0, 0, 0⟩ 0 0 insn rfl rfl

/-- The sequential machine runs an instruction by writing its effect to its destination. -/
theorem step_push (clzZero : ℕ) (s : Arch) (u : Uninit) (address : Word) (size : ℕ)
    (insn : RegInsn) :
    s.step clzZero (push2q u address size insn.push) =
      { s with
        regs := Function.update s.regs insn.dest (insn.effect s.regs s.eflags).1
        eflags := (insn.effect s.regs s.eflags).2 } := by
  have hreads := insn.reads_fetch s u address size
  have hplain := plain_of_reads hreads
  obtain ⟨hreg2, hvalue2, hflags⟩ := alu_of_reads clzZero hreads s.eflags
  generalize hop : s.fetch (push2q u address size insn.push) = op at *
  have hnot := hplain.forall (P := fun o ↦ o ∉ [.load, .store, .push, .pushfq, .call, .ret, .pop,
    .mul, .div, .idiv]) (by decide)
  have hwide : ¬Arch.IsWide op := by
    rintro (h | h | h | h)
    · simp [h] at hnot
    · simp [h] at hnot
    · simp [h] at hnot
    · exact hplain.src h.2
  rw [Arch.step, hop, Arch.execute]
  split
  all_goals try (next h => simp [h] at hnot)
  simp only [if_neg hwide, hreg2, hvalue2, hflags, Arch.write_gpr]

end RegInsn

end Cse502.Pipeline
