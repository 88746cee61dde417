import Cse502.Library.ByteMemory
import Cse502.Model.Common
import Mathlib.Data.Int.Notation

/-!
# Execute

`execute.cc`: operand forwarding, the `switch` over the opcode, and the bookkeeping around it.

`Execute.work` follows the source from top to bottom. The `switch` is split by what a case touches:
`alu` holds the cases that only change `Op` and the flags, `switchOp` the remaining ones that fall
through to the code after the `switch`, and `runOp` the three that return early because they wait
for the memory.
-/

namespace Cse502.Execute

/-! ## Arithmetic -/

/-- The truncation of an operand to `int` that `int x = v & (1ULL << 63)` performs, tested against
zero. Only the low half of the word is left. -/
def intNonzero (v : Word) : Bool := v.setWidth 32 != 0

/-- `__builtin_clz` on a 64-bit argument, which is first truncated to `unsigned int`. The builtin
is undefined at zero, where the model answers `clzZero`. -/
def builtinClz (clzZero : ℕ) (v : Word) : ℕ :=
  if v.setWidth 32 = (0 : BitVec 32) then clzZero else 31 - (v.setWidth 32).toNat.log2

/-- One turn of the loop in `do_shift`. -/
def shiftStep (opcode : Mnemonic) (tempval : Word) (e : Eflags) : Word × Eflags :=
  match opcode with
  | .sal | .shl => (tempval * 2, e.assign Eflags.maskCF (tempval &&& msb == msb))
  | .sar => (tempval.sshiftRight 1, e.assign Eflags.maskCF (tempval &&& 1 == 1))
  | .shr => (tempval >>> 1, e.assign Eflags.maskCF (tempval &&& 1 == 1))
  | _ => (tempval, e)

/-- The loop in `do_shift`. -/
def shiftLoop (opcode : Mnemonic) : ℕ → Word → Eflags → Word × Eflags
  | 0, tempval, e => (tempval, e)
  | count + 1, tempval, e =>
    let r := shiftStep opcode tempval e
    shiftLoop opcode count r.1 r.2

/-- `Op.value1 & countmask == 1`, which C++ reads as `Op.value1 & (countmask == 1)`. -/
def shiftGuard (value1 countmask : Word) : Bool := value1 &&& (if countmask = 1 then 1 else 0) != 0

/-- `Execute::do_shift`. -/
def doShift (op : Uop) (e : Eflags) : Uop × Eflags :=
  let countmask : Word := 63
  let r := shiftLoop op.opcode (op.value1 &&& countmask).toNat op.value2 e
  let tempval := r.1
  let e := r.2
  let e :=
    if shiftGuard op.value1 countmask then
      match op.opcode with
      | .sal | .shl =>
        let cf : Word := if e.test Eflags.maskCF then 1 else 0
        e.assign Eflags.maskOF (intNonzero ((tempval &&& msb) ^^^ cf))
      | .sar => e.assign Eflags.maskOF false
      | .shr => e.assign Eflags.maskOF (intNonzero (op.value2 &&& msb))
      | _ => e
    else e
  ({ op with value2 := tempval }, e)

/-- `UD_Imul`. -/
def mul (clzZero : ℕ) (op : Uop) : Uop :=
  if op.value1 = 0 ∨ op.value2 = 0 then { op with value2 := 0 }
  else
    let msb1 : ℤ := 64 - builtinClz clzZero op.value1
    let msb2 : ℤ := 64 - builtinClz clzZero op.value2
    if msb1 + msb2 > 65 then
      let tempval : BitVec 128 := op.value2.signExtend 128 * op.value1.signExtend 128
      { op with value2 := tempval.setWidth 64, value3 := (tempval >>> 64).setWidth 64 }
    -- the significant bits say that the product fits in 64
    else { op with value2 := op.value2 * op.value1, value3 := 0 }

/-- `UD_Idiv`. The cast in front of each division binds tighter than the division. -/
def div (op : Uop) : Uop :=
  if op.value3 ≠ 0 then
    let tempval : BitVec 128 := (op.value3.signExtend 128 <<< 64) ||| op.value2.signExtend 128
    { op with
      value2 := tempval.setWidth 64 / op.value1
      value3 := tempval.setWidth 64 % op.value1 }
  else { op with value3 := op.value2 % op.value1, value2 := op.value2 / op.value1 }

/-- `UD_Iidiv`. -/
def idiv (op : Uop) : Uop :=
  if op.value3 ≠ 0 then
    let tempval : BitVec 128 := (op.value3.signExtend 128 <<< 64) ||| op.value2.signExtend 128
    { op with
      value2 := (tempval.sdiv (op.value1.signExtend 128)).setWidth 64
      value3 := (tempval.srem (op.value1.signExtend 128)).setWidth 64 }
  else { op with value3 := op.value2.srem op.value1, value2 := op.value2.sdiv op.value1 }

/-- The divisions on which the host traps: by zero, and the least 64-bit integer by `-1`. -/
def divTraps (op : Uop) : Bool :=
  match op.opcode with
  | .div => op.value1 == 0
  | .idiv => op.value1 == 0 || (op.value3 == 0 && op.value2 == msb && op.value1 == -1)
  | _ => false

/-- `UD_Iimul`, told apart by the source tag. -/
def imul (op : Uop) (e : Eflags) : Uop × Eflags :=
  match op.src with
  | .imul1 =>
    let tempval : BitVec 128 := op.value2.signExtend 128 * op.value1.signExtend 128
    let op := { op with
      value2 := tempval.setWidth 64, value3 := (tempval.sshiftRight 64).setWidth 64 }
    let overflow := op.value3 != 0
    (op, (e.assign Eflags.maskCF overflow).assign Eflags.maskOF overflow)
  | .imul2i | .imul2r =>
    -- the wide product is formed after the destination was updated
    let op := { op with value2 := op.value2 * op.value1 }
    let overflow := op.value2.signExtend 128 * op.value1.signExtend 128 != op.value2.signExtend 128
    (op, (e.assign Eflags.maskCF overflow).assign Eflags.maskOF overflow)
  | .imul3 =>
    let op := { op with value2 := op.value3 * op.value1 }
    let overflow := op.value3.signExtend 128 * op.value1.signExtend 128 != op.value2.signExtend 128
    (op, (e.assign Eflags.maskCF overflow).assign Eflags.maskOF overflow)
  | .loadmul => ({ op with value2 := op.value2 * op.value1 }, e)
  | _ => (op, e)

/-- `UD_Itest`. The sign test compares a mask with `1`, so it never holds. -/
def testFlags (value1 value2 : Word) (e : Eflags) : Eflags :=
  let tempval := value1 &&& value2
  let e := e.assign Eflags.maskSF (tempval &&& msb == 1)
  let e := e.assign Eflags.maskZF (tempval == 0)
  (e.assign Eflags.maskCF false).assign Eflags.maskOF false

/-- `UD_Icmp`. The three sign masks are stored in `int`. -/
def cmpFlags (value1 value2 : Word) (e : Eflags) : Eflags :=
  let tempval := value2 - value1
  let e := e.assign Eflags.maskZF (tempval == 0)
  let e := e.assign Eflags.maskSF (tempval &&& msb == msb)
  let e := e.assign Eflags.maskCF (value2.ult value1)
  let signOp1 := intNonzero (value1 &&& msb)
  let signOp2 := intNonzero (value2 &&& msb)
  let sumSign := intNonzero (tempval &&& msb)
  e.assign Eflags.maskOF ((!signOp1 && !signOp2 && sumSign) || (signOp1 && signOp2 && !sumSign))

/-- The conditions of the conditional jumps and moves, on the flags. -/
def condition (opcode : Mnemonic) (e : Eflags) : Bool :=
  let cf := e.test Eflags.maskCF
  let zf := e.test Eflags.maskZF
  let sf := e.test Eflags.maskSF
  let of := e.test Eflags.maskOF
  match opcode with
  | .jmp => true
  | .ja => !(cf || zf)
  | .jz => zf
  | .jnz | .cmovnz => !zf
  | .jb => cf
  | .jl => sf ^^ of
  | .jle => (sf ^^ of) || zf
  | .jg | .cmovg => !((sf ^^ of) || zf)
  | .jge => !(sf ^^ of)
  | .cmovns => !sf
  | _ => false

/-- The cases of the `switch` that change only `Op` and the flags. An unknown opcode prints a
message and changes nothing. -/
def alu (clzZero : ℕ) (op : Uop) (e : Eflags) : Uop × Eflags :=
  match op.opcode with
  | .mov => ({ op with value2 := op.value1 }, e)
  | .cqo =>
    ({ op with value2 :=
        if op.value1 &&& msb = msb then op.value2 ||| BitVec.allOnes 64 else 0 }, e)
  | .add => ({ op with value2 := op.value2 + op.value1 }, e)
  | .sub => ({ op with value2 := op.value2 - op.value1 }, e)
  | .dec => ({ op with reg2 := op.reg1, value2 := op.value1 - 1 }, e)
  | .inc => ({ op with reg2 := op.reg1, value2 := op.value1 + 1 }, e)
  | .mul => (mul clzZero op, e)
  | .div => (div op, e)
  | .idiv => (idiv op, e)
  | .imul => imul op e
  | .and => ({ op with value2 := op.value2 &&& op.value1 }, e)
  | .or => ({ op with value2 := op.value2 ||| op.value1 }, e)
  | .xor => ({ op with value2 := op.value2 ^^^ op.value1 }, e)
  | .neg =>
    ({ op with reg2 := op.reg1, value2 := -op.value1 }, e.assign Eflags.maskCF (op.value1 != 0))
  | .test => (op, testFlags op.value1 op.value2 e)
  | .cmp => (op, cmpFlags op.value1 op.value2 e)
  | .cmovnz | .cmovns | .cmovg =>
    ({ op with value2 := if condition op.opcode e then op.value1 else op.value2 }, e)
  | .shr | .sar | .shl | .sal => doShift op e
  | _ => (op, e)

/-! ## Jumps, system calls and memory requests -/

/-- `Execute::do_jump`. Its `assert` compares `0` with `REG`, which is `1`. -/
def doJump (op : Uop) (c : Core) : Core :=
  -- `finish` will keep the expected address assigned here
  let c := { c with ex.ripChanged := true, nxt.changeRIP := true }
  let c := match op.src with
    | .reg => { c with nxt.newRIP := op.value1, ex.expectedAddr := op.value1 }
    | .immed =>
      { c with nxt.newRIP := op.nextAddr + op.value1, ex.expectedAddr := op.nextAddr + op.value1 }
    | _ => c
  { c with nxt.clear := true }

/-- `Core::syscall`: the value returned, with the break and the guest memory it leaves. The result
type is `int`. `none` stands for the two calls that end in `assert(0)`. -/
def coreSyscall (inp : CycleInput) (brkVal : Word) (m : Mem) (n a0 a1 : Word) :
    Option (BitVec 32 × Word × Mem) :=
  if n = 1 then some (inp.hostRet.setWidth 32, brkVal, m)
  else if n = 12 then
    let brkVal := if brkVal.ult a0 then a0 else brkVal
    some (brkVal.setWidth 32, brkVal, m)
  else if n = 16 then some (0, brkVal, m)
  else if n = 60 then some (0, brkVal, m)
  else if n = 228 then
    some (0, brkVal, ByteMemory.store (ByteMemory.store m a1 (BitVec.ofNat 64 inp.now)) (a1 + 8) 0)
  else none

/-- An argument of the system call: `prev_value1` when `prev_reg1` names its register, else the
register file. -/
def syscallArg (c : Core) (g : Gpr) : Word :=
  if c.ex.prevReg1 = .gpr g ∧ g ∈ [.rax, .rdx, .rsp, .rsi, .rdi, .r8, .r9, .r10] then
    c.ex.prevValue1
  else c.regfile.gpr g

/-- `Execute::do_syscall`. -/
def doSyscall (inp : CycleInput) (c : Core) : Option Core :=
  (coreSyscall inp c.brkVal c.mem (syscallArg c .rax) (syscallArg c .rdi) (syscallArg c .rsi)).map
    fun r ↦
      let rax : Word := r.1.signExtend 64
      { c with
        regfile := c.regfile.set .rax rax
        brkVal := r.2.1
        mem := r.2.2
        ex.prevReg2 := c.ex.prevReg1
        ex.prevReg1 := .gpr .rax
        ex.prevValue2 := c.ex.prevValue1
        ex.prevValue1 := rax }

/-- Drive the data port. The tag is the address, narrowed to `int`. -/
def request (kind : MemOp) (addr : Word) (c : Core) : Core :=
  { c with nxt.dOp := kind, nxt.dTagin := addr.setWidth 32, nxt.dAddr := addr }

/-- A request that carries a word to be written. -/
def requestWrite (addr data : Word) (c : Core) : Core :=
  { request .write addr c with nxt.dDout := data }

/-- The cases of the `switch` that reach the code after it, as the final `Op` and the state. -/
def switchOp (inp : CycleInput) (op : Uop) (c : Core) : Option (Uop × Core) :=
  match op.opcode with
  | .syscall => (doSyscall inp c).map fun c ↦ (op, c)
  | .call =>
    let op := { op with value3 := op.value3 - 8 }
    let c := requestWrite op.value3 op.nextAddr c
    let c := { doJump op c with ex.stackpointer := op.value3 }
    some (op, c)
  | .push =>
    let op := { op with value3 := op.value3 - 8 }
    some (op, { requestWrite op.value3 op.value1 c with ex.stackpointer := op.value3 })
  | .store => some (op, requestWrite op.value2 op.value1 c)
  | .pushfq =>
    let op := { op with value3 := op.value3 - 8 }
    some (op, { requestWrite op.value3 c.eflags.bits c with ex.stackpointer := op.value3 })
  | .jmp | .ja | .jz | .jnz | .jb | .jl | .jle | .jg | .jge =>
    some (op, if condition op.opcode c.eflags then doJump op c else c)
  | _ =>
    if divTraps op then none
    else
      let r := alu inp.clzZero op c.eflags
      some (r.1, { c with eflags := r.2 })

/-! ## Around the switch -/

/-- The code after the `switch`: the next expected address, the forwarding registers, and the
queues. -/
def finish (op : Uop) (c : Core) : Core :=
  let c :=
    if c.ex.ripChanged then { c with ex.ripChanged := false }
    else { c with ex.expectedAddr := op.nextAddr, ex.prevAddr := op.address }
  let c :=
    if op.opcode ≠ .nop ∧ op.opcode ≠ .syscall ∧ op.reg2 ≠ .none then
      { c with
        ex.prevValue2 := c.ex.prevValue1
        ex.prevValue1 := op.value2
        ex.prevReg2 := c.ex.prevReg1
        ex.prevReg1 := op.reg2
        ex.stackpointer := if op.reg2 = .gpr .rsp then op.value2 else c.ex.stackpointer }
    else c
  -- the address under construction has a forwarding register of its own
  let c := if op.reg2 = .loadStoreReg then { c with offsetregValue := op.value2 } else c
  { c with
    ex.op := op
    ewUopQueue := c.ewUopQueue ++ [op]
    deUopQueue := c.deUopQueue.tail
    nxt.ewOutReady := true }

/-- Ask the memory for a word and wait for it. -/
def startRead (op : Uop) (addr : Word) (c : Core) : Core :=
  { request .read addr c with ex.op := op, ex.state := .read }

/-- The `switch` and what follows it. -/
def runOp (inp : CycleInput) (op : Uop) (c : Core) : Core :=
  match op.opcode with
  | .ret | .pop => startRead op op.value3 c
  | .load => startRead op op.value1 c
  | _ =>
    match switchOp inp op c with
    | none => { c with aborted := true }
    | some (op, c) => finish op c

/-- One turn of the loop over the current instruction's uops. The first assignment changes
`value2` on a match of `reg1`. -/
def patchUop (ex : Execute) (u : Uop) : Uop :=
  -- the older result first, so that the newer one can override it
  let u :=
    if u.reg1 = ex.prevReg2 then { u with value2 := ex.prevValue2 }
    else if u.reg2 = ex.prevReg2 then { u with value2 := ex.prevValue2 }
    else u
  if u.reg1 = ex.prevReg1 then { u with value1 := ex.prevValue1 }
  else if u.reg2 = ex.prevReg1 then { u with value2 := ex.prevValue1 }
  else u

/-- The loop over the current instruction's uops. -/
def patchLoop (ex : Execute) (frontAddr : Word) : List Uop → List Uop
  | [] => []
  | u :: us => if u.address = frontAddr then patchUop ex u :: patchLoop ex frontAddr us else u :: us

/-- One operand after the forwarding code: `offsetreg_value`, the two latest results, and the stack
pointer, each overriding the ones before. -/
def forwardValue (ex : Execute) (r : Reg) (v : Word) : Word :=
  let v := if r = ex.prevReg2 then ex.prevValue2 else v
  let v := if r = ex.prevReg1 then ex.prevValue1 else v
  if r = .gpr .rsp ∧ ex.stackpointer ≠ 0 then ex.stackpointer else v

/-- The forwarding code. `offsetreg_value` reaches the first two operands only. -/
def forward (ex : Execute) (offsetregValue : Word) (op : Uop) : Uop :=
  { op with
    value1 :=
      forwardValue ex op.reg1 (if op.reg1 = .loadStoreReg then offsetregValue else op.value1)
    value2 :=
      forwardValue ex op.reg2 (if op.reg2 = .loadStoreReg then offsetregValue else op.value2)
    value3 := forwardValue ex op.reg3 op.value3 }

/-- `expected_addr` once the front uop is known: a further uop of the instruction executed last is
always expected. -/
def expected (ex : Execute) (front : Uop) : Word :=
  if front.address = ex.prevAddr then front.address else ex.expectedAddr

/-- The test that drops a uop from the wrong path. -/
def unexpected (ex : Execute) (front : Uop) : Bool :=
  front.address != expected ex front && !ex.firstrun

/-- The state once the front uop has been read and the queue patched. -/
def select (front : Uop) (c : Core) : Core :=
  { c with
    deUopQueue := patchLoop c.ex front.address c.deUopQueue
    ex.op := front
    ex.expectedAddr := expected c.ex front }

/-- The part of `Execute::work` that takes a uop from the queue. -/
def issue (inp : CycleInput) (cur : Signals) (c : Core) : Core :=
  if !cur.deOutReady then c
  else if 1 < c.ewUopQueue.length then { c with nxt.ewOutReady := true }
  else match c.deUopQueue with
    | [] => c
    | front :: _ =>
      if unexpected c.ex front then
        -- dropped, after the queue was patched
        let c := select front c
        { c with deUopQueue := c.deUopQueue.tail }
      else
        runOp inp (forward c.ex c.offsetregValue front)
          { select front c with ex.firstrun := false }

/-- The code shared by the three cases of the `switch` in `STATE_READ`. -/
def completeRead (op : Uop) (c : Core) : Core :=
  { c with
    ex.op := op
    ewUopQueue := c.ewUopQueue ++ [op]
    deUopQueue := c.deUopQueue.tail
    nxt.ewOutReady := true
    ex.state := .normal }

/-- The forwarding registers take the word a load or pop received. -/
def pushResult (op : Uop) (c : Core) : Core :=
  { c with
    ex.prevReg2 := c.ex.prevReg1
    ex.prevReg1 := op.reg2
    ex.prevValue2 := c.ex.prevValue1
    ex.prevValue1 := op.value2 }

/-- `UD_Iret` in `STATE_READ`, once the tag is the right one. -/
def completeRet (cur : Signals) (c : Core) : Core :=
  let op := { c.ex.op with value3 := c.ex.op.value3 + 8 }
  completeRead op
    { c with
      nxt.newRIP := cur.dData
      nxt.changeRIP := true
      nxt.clear := true
      ex.expectedAddr := cur.dData
      ex.stackpointer := op.value3 }

/-- `UD_Ipop` in `STATE_READ`, once the tag is the right one. -/
def completePop (cur : Signals) (c : Core) : Core :=
  let op := { c.ex.op with value2 := cur.dData, value3 := c.ex.op.value3 + 8 }
  pushResult op
    (completeRead op { c with ex.expectedAddr := op.nextAddr, ex.stackpointer := op.value3 })

/-- `UD_Iload` in `STATE_READ`, once the tag is the right one. -/
def completeLoad (cur : Signals) (c : Core) : Core :=
  let op := { c.ex.op with value2 := cur.dData }
  pushResult op (completeRead op c)

/-- `Execute::work`. The tag of an answer is widened back to `long long` before the comparison. -/
def work (inp : CycleInput) (cur : Signals) (c : Core) : Core :=
  let c := { c with nxt.ewOutReady := false, nxt.changeRIP := false }
  if cur.reset then c
  else if cur.clear then issue inp cur { c with nxt.clear := false, deUopQueue := [] }
  -- `STATE_READ`: an answer under another tag is left for a later cycle
  else if c.ex.state = .read then
    if !cur.dReady then c
    else match c.ex.op.opcode with
      | .ret => if cur.dTagout.signExtend 64 ≠ c.ex.op.value3 then c else completeRet cur c
      | .pop => if cur.dTagout.signExtend 64 ≠ c.ex.op.value3 then c else completePop cur c
      | .load => if cur.dTagout.signExtend 64 ≠ c.ex.op.value1 then c else completeLoad cur c
      | _ => issue inp cur c
  else issue inp cur c

end Cse502.Execute
