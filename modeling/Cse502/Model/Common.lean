import Mathlib.Logic.Function.Basic
import Mathlib.Tactic.Common

/-!
# The data shared by the pipeline stages

`common.h`, `common.cc` and `const.h`: micro-operations, the architectural register file, the three
uop queues every stage reaches directly, and the SystemC signals that connect the stages.

## Signals and queues

A signal written in one clock cycle is read in the next one, while a queue or the register file
changes at once. Both are part of `Core`: the fields are the globals and the data members of
`Execute`, and `nxt` holds the signal values written so far in this cycle. A stage reads the
signals of the previous cycle from a separate argument, and `nxt` becomes that argument when the
cycle ends, so the last write of a cycle wins as it does for `sc_signal`.

## Machine integers

`long long`, `unsigned long long` and `sc_uint<64>` are all `BitVec 64`; signed overflow wraps, as
it does in the build of the repository, and the signedness of an operation is written where it
matters. `int` tags are `BitVec 32`.
-/

namespace Cse502

/-- A 64-bit machine word. -/
abbrev Word := BitVec 64

/-- Guest memory, addressed by byte. -/
abbrev Mem := Word → BitVec 8

/-- The top bit `1ULL << 63`. -/
def msb : Word := BitVec.twoPow 64 63

/-! ## Registers and mnemonics -/

/-- The sixteen 64-bit general registers, `UD_R_RAX` to `UD_R_R15`. -/
inductive Gpr
  | rax | rbx | rcx | rdx | rsp | rbp | rsi | rdi
  | r8 | r9 | r10 | r11 | r12 | r13 | r14 | r15
  deriving DecidableEq, Repr

/-- The register numbers a uop can carry. The three pseudo registers are the constants of
`common.cc`; `other` is any further udis86 register, which no stage of the pipeline knows. -/
inductive Reg
  /-- `UD_NONE`, the number `0`. -/
  | none
  | gpr (g : Gpr)
  | rip
  | scratchreg
  | scratchregls
  | loadStoreReg
  | other (code : ℕ)
  deriving DecidableEq, Repr

theorem Reg.gpr_ne {g g' : Gpr} (h : g ≠ g') : Reg.gpr g ≠ .gpr g' := fun heq ↦
  h (Reg.gpr.inj heq)

/-- The udis86 mnemonics the simulator names; `other` is any further one. -/
inductive Mnemonic
  | mov | cqo | add | sub | dec | inc | mul | div | idiv | imul | and | or | xor | neg | nop
  | syscall | call | ret | pop | push | load | store | pushfq | test | cmp
  | jmp | ja | jz | jnz | jb | jl | jle | jg | jge
  | cmovnz | cmovns | cmovg | shr | sar | shl | sal | lea | invalid
  | other (code : ℕ)
  deriving DecidableEq, Repr

/-- `enum src_type`. -/
inductive SrcType
  | noSrc | reg | immed | imul1 | imul2r | imul2i | imul3 | loadmul
  deriving DecidableEq, Repr

/-! ## Micro-operations -/

/-- `struct uop`. -/
structure Uop where
  src : SrcType
  address : Word
  opcode : Mnemonic
  reg1 : Reg
  value1 : Word
  reg2 : Reg
  value2 : Word
  reg3 : Reg
  value3 : Word
  immed : Word
  opsize : ℕ
  deriving DecidableEq, Repr

/-- `Op.address + Op.opsize`, the address of the next instruction. -/
def Uop.nextAddr (op : Uop) : Word := op.address + BitVec.ofNat 64 op.opsize

/-! ## The register file -/

/-- `struct ARF`, with the sixteen general registers indexed by their name. -/
structure Arf where
  gpr : Gpr → Word
  rip : Word

/-- Assign one general register. -/
def Arf.set (rf : Arf) (g : Gpr) (v : Word) : Arf := { rf with gpr := Function.update rf.gpr g v }

@[simp] theorem Arf.set_gpr (rf : Arf) (g : Gpr) (v : Word) :
    (rf.set g v).gpr = Function.update rf.gpr g v := rfl

/-! ## The flags -/

/-- `bitset<64> eflags`. -/
structure Eflags where
  bits : BitVec 64
  deriving DecidableEq, Repr

namespace Eflags

/-- `eflags.set(i)` and `eflags.reset(i)`. -/
def assign (e : Eflags) (i : ℕ) (b : Bool) : Eflags :=
  ⟨if b then e.bits ||| BitVec.twoPow 64 i else e.bits &&& ~~~BitVec.twoPow 64 i⟩

/-- `eflags.test(i)`. -/
def test (e : Eflags) (i : ℕ) : Bool := e.bits.getLsbD i

/-- `MASK_CF`, `MASK_ZF`, `MASK_SF` and `MASK_OF`. -/
def maskCF : ℕ := 0
@[inherit_doc maskCF] def maskZF : ℕ := 6
@[inherit_doc maskCF] def maskSF : ℕ := 7
@[inherit_doc maskCF] def maskOF : ℕ := 11

theorem test_assign (e : Eflags) {i : ℕ} (hi : i < 64) (b : Bool) (j : ℕ) :
    (e.assign i b).test j = if j = i then b else e.test j := by
  by_cases hj : j = i
  · subst hj
    cases b <;> simp [assign, test, hi]
  · rw [if_neg hj]
    cases b
    · by_cases h64 : j < 64
      · simpa [assign, test, h64] using fun _ ↦ hj
      · simp [assign, test, BitVec.getLsbD_of_ge e.bits j (Nat.le_of_not_lt h64)]
    · simp [assign, test, Ne.symm hj]

/-- A write to a flag is read back. -/
@[simp] theorem test_assign_self (e : Eflags) {i : ℕ} (hi : i < 64) (b : Bool) :
    (e.assign i b).test i = b := by rw [test_assign e hi, if_pos rfl]

end Eflags

/-! ## Signals -/

/-- `enum mem_op`. -/
inductive MemOp
  | none | read | write
  deriving DecidableEq, Repr

/-- The signals between the stages and between the core and `Memory`, for one instruction port and
one data port as `const.h` has it. -/
structure Signals where
  reset : Bool
  -- fetch to decode
  fdOutData : BitVec 128
  fdOutAddr : Word
  fdOutAlign : Word
  fdOutReady : Bool
  -- the ready signals between decode, dispatch, execute and writeback
  ddOutReady : Bool
  deOutReady : Bool
  ewOutReady : Bool
  -- redirection, driven by execute
  changeRIP : Bool
  newRIP : Word
  clear : Bool
  -- the instruction port
  iOp : MemOp
  iTagin : BitVec 32
  iAddr : Word
  iReady : Bool
  iTagout : BitVec 32
  iData : BitVec 128
  -- the data port
  dOp : MemOp
  dTagin : BitVec 32
  dAddr : Word
  dDout : Word
  dReady : Bool
  dTagout : BitVec 32
  dData : Word
  deriving DecidableEq, Repr

/-- Every signal at its initial value. -/
def Signals.zero : Signals where
  reset := false
  fdOutData := 0
  fdOutAddr := 0
  fdOutAlign := 0
  fdOutReady := false
  ddOutReady := false
  deOutReady := false
  ewOutReady := false
  changeRIP := false
  newRIP := 0
  clear := false
  iOp := .none
  iTagin := 0
  iAddr := 0
  iReady := false
  iTagout := 0
  iData := 0
  dOp := .none
  dTagin := 0
  dAddr := 0
  dDout := 0
  dReady := false
  dTagout := 0
  dData := 0

/-! ## The state of the core -/

/-- `Execute::State`; the two further members of the enumeration are never assigned. -/
inductive ExecState
  | normal | read
  deriving DecidableEq, Repr

/-- The data members of `Execute`. -/
structure Execute where
  prevReg1 : Reg
  prevValue1 : Word
  prevReg2 : Reg
  prevValue2 : Word
  expectedAddr : Word
  prevAddr : Word
  ripChanged : Bool
  firstrun : Bool
  op : Uop
  state : ExecState
  stackpointer : Word

/-- What the constructor of `Execute` sets. It leaves `expected_addr` and `Op` alone, which are
arguments here; `rip_changed` and `stackpointer` are not set either and start at zero. -/
def Execute.init (expectedAddr : Word) (op : Uop) : Execute where
  prevReg1 := .none
  prevValue1 := 0
  prevReg2 := .none
  prevValue2 := 0
  expectedAddr := expectedAddr
  prevAddr := 0
  ripChanged := false
  firstrun := true
  op := op
  state := .normal
  stackpointer := 0

/-- A uop with every field zero. -/
def Uop.zero : Uop where
  src := .noSrc
  address := 0
  opcode := .invalid
  reg1 := .none
  value1 := 0
  reg2 := .none
  value2 := 0
  reg3 := .none
  value3 := 0
  immed := 0
  opsize := 0

/-- The globals of `common.cc` and `execute.cc`, the guest memory with its break, the members of
`Execute`, and the signal values written in the current cycle. `aborted` records that the host
process died in an `assert` or a trapping division. -/
structure Core where
  regfile : Arf
  ddUopQueue : List Uop
  deUopQueue : List Uop
  ewUopQueue : List Uop
  ripJump : Bool
  offsetregValue : Word
  eflags : Eflags
  brkVal : Word
  mem : Mem
  aborted : Bool
  ex : Execute
  nxt : Signals

/-- The state after reset, for given contents of the register file, the flags and the guest memory.
`brk_val` starts in the middle of the guest memory. -/
def Core.boot (regs : Gpr → Word) (eflags : Eflags) (m : Mem) (ex : Execute) : Core where
  regfile := ⟨regs, 0⟩
  ddUopQueue := []
  deUopQueue := []
  ewUopQueue := []
  ripJump := false
  offsetregValue := 0
  eflags := eflags
  brkVal := 0x2000000
  mem := m
  aborted := false
  ex := ex
  nxt := Signals.zero

/-- What a cycle takes from outside the simulated machine: the simulation time in picoseconds, the
result of a host `write` call, and the value an undefined `__builtin_clz(0)` yields. -/
structure CycleInput where
  now : ℕ
  hostRet : Word
  clzZero : ℕ
  deriving DecidableEq, Repr

def CycleInput.zero : CycleInput := ⟨0, 0, 0⟩

end Cse502
