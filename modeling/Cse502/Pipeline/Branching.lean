import Cse502.Model.ExecuteRuns
import Cse502.Pipeline.RegPrograms

/-!
# Programs of register instructions and jumps

Loops and conditionals over the general registers: every instruction is a register instruction, a
jump to an offset, or a jump to an address held in a register. The machine that runs them one after
another has an instruction pointer, the registers and the flags.

A program is partial. The decoder goes on along the fall-through path behind a jump, where there may
be anything, data or instructions of other kinds, so there the uops delivered are arbitrary.
-/

namespace Cse502.Pipeline

open Decoder (Push Uninit Ud Operand push2q)
open Execute (condition)
open Writes (replay)

/-- The jumps. -/
def jumpOpcodes : List Mnemonic := [.jmp, .ja, .jz, .jnz, .jb, .jl, .jle, .jg, .jge]

/-- A single-uop instruction that touches no memory. -/
inductive BranchInsn
  | plain (insn : RegInsn)
  | jump (opcode : { o : Mnemonic // o ∈ jumpOpcodes }) (offset : Word)
  | jumpReg (r : Gpr)

namespace BranchInsn

/-- The call of `push2q` an instruction is cracked into. -/
def push : BranchInsn → Push
  | plain insn => insn.push
  | jump opcode offset => ⟨opcode, .none, .none, .none, offset, .immed⟩
  | jumpReg r => ⟨.jmp, .gpr r, .none, .none, 0, .reg⟩

/-- The decoder cracks some instruction into this uop alone. -/
theorem exists_crack_eq (insn : BranchInsn) : ∃ ud : Ud, Decoder.crack ud = some [insn.push] := by
  cases insn with
  | plain insn => exact insn.exists_crack_eq
  | jump opcode offset =>
    have himul : (opcode : Mnemonic) ≠ .imul :=
      (by decide : ∀ o ∈ jumpOpcodes, o ≠ .imul) _ opcode.2
    refine ⟨⟨opcode, { Operand.none with type := .jimm, size := 64, lval := offset }, Operand.none,
      Operand.none⟩, ?_⟩
    simp [Decoder.crack, Operand.none, himul, push, Decoder.signExtend_64]
  | jumpReg r =>
    exact ⟨⟨.jmp, { Operand.none with type := .reg, base := .gpr r }, Operand.none, Operand.none⟩,
      rfl⟩

/-- The uop carries this instruction, and every operand it uses has the value that `regs` gives the
operand's register, or the immediate. -/
def Reads (regs : Gpr → Word) (op : Uop) : BranchInsn → Prop
  | plain insn => insn.Reads regs op
  | jump opcode offset =>
    op.opcode = opcode ∧ op.src = .immed ∧ op.reg2 = .none ∧ op.value1 = offset
  | jumpReg r => op.opcode = .jmp ∧ op.src = .reg ∧ op.reg2 = .none ∧ op.value1 = regs r

/-- The write of a register, if there is one. -/
def write (regs : Gpr → Word) (e : Eflags) : BranchInsn → Option (Gpr × Word)
  | plain insn => some (insn.dest, (insn.effect regs e).1)
  | _ => none

/-- The flags behind the instruction. -/
def flags (regs : Gpr → Word) (e : Eflags) : BranchInsn → Eflags
  | plain insn => (insn.effect regs e).2
  | _ => e

/-- The target of a jump that is taken. -/
def target (regs : Gpr → Word) (e : Eflags) (next : Word) : BranchInsn → Option Word
  | plain _ => none
  | jump opcode offset => if condition opcode e then some (next + offset) else none
  | jumpReg r => some (regs r)

end BranchInsn

/-! ## The sequential machine -/

/-- A point of a sequential run. -/
structure Point where
  pc : Word
  regs : Gpr → Word
  eflags : Eflags

/-- The instructions of a program, with their sizes. -/
structure BranchProgram where
  insn : Word → Option BranchInsn
  size : Word → ℕ
  sized : ∀ a, insn a ≠ none → 1 ≤ size a ∧ size a ≤ 15

namespace BranchProgram

variable (prog : BranchProgram)

/-- The address behind an instruction. -/
def behind (a : Word) : Word := a + BitVec.ofNat 64 (prog.size a)

/-- The uop the decoder pushes for an instruction. -/
def uop (u : Uninit) (a : Word) (insn : BranchInsn) : Uop := push2q u a (prog.size a) insn.push

/-- Run one instruction. Outside the program the machine stands still. -/
def step (s : Point) : Point :=
  match prog.insn s.pc with
  | none => s
  | some insn =>
    { pc := (insn.target s.regs s.eflags (prog.behind s.pc)).getD (prog.behind s.pc)
      regs := replay s.regs (insn.write s.regs s.eflags).toList
      eflags := insn.flags s.regs s.eflags }

/-- The point after so many instructions. -/
def after (s : Point) : ℕ → Point
  | 0 => s
  | n + 1 => prog.step (after s n)

/-- What the next instruction writes. -/
def writeAt (s : Point) : Option (Gpr × Word) :=
  (prog.insn s.pc).bind (BranchInsn.write s.regs s.eflags)

/-- Where the next instruction jumps to, if it does. -/
def targetAt (s : Point) : Option Word :=
  (prog.insn s.pc).bind (BranchInsn.target s.regs s.eflags (prog.behind s.pc))

/-- The results of so many instructions, in order. -/
def results (s : Point) : ℕ → List (Gpr × Word)
  | 0 => []
  | n + 1 => results s n ++ (prog.writeAt (prog.after s n)).toList

/-- The machine has been inside the program up to here. -/
def Inside (s : Point) (n : ℕ) : Prop := ∀ k ≤ n, prog.insn (prog.after s k).pc ≠ none

instance (s : Point) (n : ℕ) : Decidable (prog.Inside s n) :=
  inferInstanceAs (Decidable (∀ k ≤ n, prog.insn (prog.after s k).pc ≠ none))

/-- The latest instruction was a jump that is taken. -/
def Landed (s : Point) (n : ℕ) : Prop :=
  ∃ k, n = k + 1 ∧ prog.targetAt (prog.after s k) ≠ none

variable {prog}

theorem Inside.mono {s : Point} {m n : ℕ} (h : prog.Inside s n) (hmn : m ≤ n) : prog.Inside s m :=
  fun k hk ↦ h k (hk.trans hmn)

theorem after_add (s : Point) (m n : ℕ) :
    prog.after s (m + n) = prog.after (prog.after s m) n := by
  induction n with
  | zero => rfl
  | succ n ih => exact congrArg prog.step ih

/-- The registers are the results, replayed. -/
theorem regs_after (s : Point) (n : ℕ) :
    (prog.after s n).regs = replay s.regs (prog.results s n) := by
  induction n with
  | zero => rfl
  | succ n ih =>
    rw [after, results, Writes.replay_append, ← ih, step, writeAt]
    split
    · next hnone => rw [hnone]; rfl
    · next insn hsome => rw [hsome]; rfl

/-- What is written by further instructions comes behind, one result for each or none. -/
theorem results_add (s : Point) (r k : ℕ) :
    ∃ ws, prog.results s (r + k) = prog.results s r ++ ws ∧ ws.length ≤ k := by
  induction k with
  | zero => exact ⟨[], (List.append_nil _).symm, le_rfl⟩
  | succ k ih =>
    obtain ⟨ws, hresults, hlength⟩ := ih
    refine ⟨ws ++ (prog.writeAt (prog.after s (r + k))).toList, ?_, ?_⟩
    · rw [← Nat.add_assoc, results, hresults, List.append_assoc]
    · rw [List.length_append]
      exact Nat.add_le_add hlength Option.length_toList_le

/-- The registers of an earlier point are the results but for the latest ones, replayed. -/
theorem exists_regs_after_eq (s : Point) {r n : ℕ} (hrn : r ≤ n) :
    ∃ q, (prog.after s r).regs = replay s.regs ((prog.results s n).take q) ∧
      (prog.results s n).length ≤ q + (n - r) := by
  obtain ⟨ws, hresults, hlength⟩ : ∃ ws, prog.results s (r + (n - r)) = prog.results s r ++ ws ∧
      ws.length ≤ n - r := results_add s r (n - r)
  rw [Nat.add_sub_cancel' hrn] at hresults
  refine ⟨(prog.results s r).length, ?_, ?_⟩
  · rw [hresults, List.take_left, regs_after]
  · rw [hresults, List.length_append]
    exact Nat.add_le_add_left hlength _

section Known

variable {s : Point} {insn : BranchInsn} (h : prog.insn s.pc = some insn)

include h

theorem writeAt_of_insn : prog.writeAt s = insn.write s.regs s.eflags := by
  rw [writeAt, h]
  rfl

theorem targetAt_of_insn :
    prog.targetAt s = insn.target s.regs s.eflags (prog.behind s.pc) := by
  rw [targetAt, h]
  rfl

theorem step_of_insn : prog.step s =
    { pc := (insn.target s.regs s.eflags (prog.behind s.pc)).getD (prog.behind s.pc)
      regs := replay s.regs (insn.write s.regs s.eflags).toList
      eflags := insn.flags s.regs s.eflags } := by
  rw [step, h]

end Known

/-- An instruction has another address than the one behind it. -/
theorem behind_ne {a : Word} (h : prog.insn a ≠ none) : prog.behind a ≠ a := by
  obtain ⟨hpos, hle⟩ := prog.sized a h
  intro heq
  have htoNat := congrArg BitVec.toNat heq
  rw [behind, BitVec.toNat_add, BitVec.toNat_ofNat] at htoNat
  have hlt := a.isLt
  omega

end BranchProgram

/-! ## What the decoder delivers -/

/-- What comes with one instruction: the memory of its uop, and what is delivered if the decoder has
left the program. -/
structure Delivery where
  uninit : Uninit
  other : List Uop
  next : Word

namespace BranchProgram

variable (prog : BranchProgram)

/-- The uops of the instructions from this address on, and the address behind them. -/
def fallThrough : List Delivery → Word → List Uop × Word
  | [], a => ([], a)
  | d :: ds, a =>
    match prog.insn a with
    | some insn =>
      let r := fallThrough ds (prog.behind a)
      (prog.uop d.uninit a insn :: r.1, r.2)
    | none =>
      let r := fallThrough ds d.next
      (d.other ++ r.1, r.2)

/-- The decoder delivers any number of instructions in a cycle. Where `clear` is seen, the fetching
goes to the new address. -/
def deliver (ds : List Delivery) (cur : Signals) (a : Word) : List Uop × Word :=
  if cur.clear then ([], cur.newRIP) else prog.fallThrough ds a

/-- These uops are the ones from this address on, and the decoder stands behind them. -/
def Delivered (a : Word) (us : List Uop) (feed : Word) : Prop :=
  ∃ ds, prog.fallThrough ds a = (us, feed)

variable {prog}

theorem fallThrough_append (ds ds' : List Delivery) (a : Word) :
    prog.fallThrough (ds ++ ds') a =
      ((prog.fallThrough ds a).1 ++ (prog.fallThrough ds' (prog.fallThrough ds a).2).1,
        (prog.fallThrough ds' (prog.fallThrough ds a).2).2) := by
  induction ds generalizing a with
  | nil => rfl
  | cons d ds ih =>
    rw [List.cons_append, fallThrough, fallThrough]
    split
    · rw [ih]
      rfl
    · rw [ih]
      simp only [List.append_assoc]

theorem Delivered.nil (a : Word) : prog.Delivered a [] a := ⟨[], rfl⟩

/-- The decoder puts the next uops behind those delivered. -/
theorem Delivered.append {a feed : Word} {us : List Uop} (h : prog.Delivered a us feed)
    (ds : List Delivery) :
    prog.Delivered a (us ++ (prog.fallThrough ds feed).1) (prog.fallThrough ds feed).2 := by
  obtain ⟨ds', h⟩ := h
  exact ⟨ds' ++ ds, by rw [fallThrough_append, h]⟩

/-- Inside the program the first of the uops is that of the instruction at this address. -/
theorem Delivered.cons {a feed : Word} {x : Uop} {us : List Uop} {insn : BranchInsn}
    (hinsn : prog.insn a = some insn) (h : prog.Delivered a (x :: us) feed) :
    (∃ u, x = prog.uop u a insn) ∧ prog.Delivered (prog.behind a) us feed := by
  obtain ⟨ds, h⟩ := h
  cases ds with
  | nil => cases h
  | cons d ds =>
    simp only [fallThrough, hinsn, Prod.mk.injEq, List.cons.injEq] at h
    exact ⟨⟨d.uninit, h.1.1.symm⟩, ds, Prod.ext h.1.2 h.2⟩

end BranchProgram

end Cse502.Pipeline
