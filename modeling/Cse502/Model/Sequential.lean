import Cse502.Model.Dispatch
import Cse502.Model.Execute

/-!
# The sequential machine

What a program of uops means when they are run one after another, each with its operands at their
latest value: the machine the pipeline has to look like. The arithmetic is that of the `switch` in
`Execute::work`; there are no queues, no forwarding and no late writes.

Jumps change nothing here. A run of this machine is a run along a given path of the program.
-/

namespace Cse502

/-- The state a program works on. `load_store_reg` and `scratchregls` hold the address and the word
of a memory access between the uops of one instruction. -/
structure Arch where
  regs : Gpr → Word
  loadStore : Word
  scratchls : Word
  eflags : Eflags
  mem : Mem

namespace Arch

/-- The latest value of a pseudo register; any other operand is taken as it is. -/
def pseudo (s : Arch) (r : Reg) (v : Word) : Word :=
  match r with
  | .loadStoreReg => s.loadStore
  | .scratchregls => s.scratchls
  | _ => v

/-- A uop with its operands at their latest values. -/
def fetch (s : Arch) (op : Uop) : Uop :=
  let op := Dispatch.readOperands ⟨s.regs, 0⟩ op
  { op with
    value1 := s.pseudo op.reg1 op.value1
    value2 := s.pseudo op.reg2 op.value2
    value3 := s.pseudo op.reg3 op.value3 }

/-- Assign a register. -/
def write (s : Arch) (r : Reg) (v : Word) : Arch :=
  match r with
  | .gpr g => { s with regs := Function.update s.regs g v }
  | .loadStoreReg => { s with loadStore := v }
  | .scratchregls => { s with scratchls := v }
  | _ => s

/-- Store a word at the new top of the stack. -/
def pushWord (s : Arch) (rsp v : Word) : Arch :=
  { s with mem := ByteMemory.store s.mem (rsp - 8) v }.write (.gpr .rsp) (rsp - 8)

/-- A uop whose second destination is RDX. -/
def IsWide (op : Uop) : Prop :=
  op.opcode = .mul ∨ op.opcode = .div ∨ op.opcode = .idiv ∨ (op.opcode = .imul ∧ op.src = .imul1)

instance : DecidablePred IsWide := fun op ↦
  inferInstanceAs (Decidable (op.opcode = .mul ∨ op.opcode = .div ∨ op.opcode = .idiv ∨ _))

/-- The effect of a uop whose operands have been read. The second register takes the second
operand whatever the opcode is. Where it is RSP as well, `push`, `pushfq` and `call` assign the
stack pointer before it and `ret` and `pop` after it. -/
def execute (clzZero : ℕ) (s : Arch) (op : Uop) : Arch :=
  match op.opcode with
  | .load => s.write op.reg2 (ByteMemory.load s.mem op.value1)
  | .store =>
    { s with mem := ByteMemory.store s.mem op.value2 op.value1 }.write op.reg2 op.value2
  | .push => (s.pushWord op.value3 op.value1).write op.reg2 op.value2
  | .pushfq => (s.pushWord op.value3 s.eflags.bits).write op.reg2 op.value2
  | .call => (s.pushWord op.value3 op.nextAddr).write op.reg2 op.value2
  | .ret => (s.write op.reg2 op.value2).write (.gpr .rsp) (op.value3 + 8)
  | .pop => (s.write op.reg2 (ByteMemory.load s.mem op.value3)).write (.gpr .rsp) (op.value3 + 8)
  | _ =>
    let r := Execute.alu clzZero op s.eflags
    let s := { s with eflags := r.2 }
    if IsWide op then (s.write (.gpr .rax) r.1.value2).write (.gpr .rdx) r.1.value3
    else s.write r.1.reg2 r.1.value2

/-- Run one uop. -/
def step (clzZero : ℕ) (s : Arch) (op : Uop) : Arch := s.execute clzZero (s.fetch op)

/-- Run uops one after another. -/
def run (clzZero : ℕ) (s : Arch) (ops : List Uop) : Arch := ops.foldl (step clzZero) s

@[simp] theorem run_nil (clzZero : ℕ) (s : Arch) : s.run clzZero [] = s := rfl

@[simp] theorem run_cons (clzZero : ℕ) (s : Arch) (op : Uop) (ops : List Uop) :
    s.run clzZero (op :: ops) = (s.step clzZero op).run clzZero ops := rfl

theorem run_append (clzZero : ℕ) (s : Arch) (ops ops' : List Uop) :
    s.run clzZero (ops ++ ops') = (s.run clzZero ops).run clzZero ops' := List.foldl_append

section Write

variable (s : Arch) (v : Word)

@[simp] theorem write_gpr (g : Gpr) :
    s.write (.gpr g) v = { s with regs := Function.update s.regs g v } := rfl
@[simp] theorem write_loadStoreReg : s.write .loadStoreReg v = { s with loadStore := v } := rfl
@[simp] theorem write_scratchregls : s.write .scratchregls v = { s with scratchls := v } := rfl

end Write

end Arch

end Cse502
