import Cse502.Library.Schedule
import Cse502.Memory.System
import Cse502.Model.Blocks
import Cse502.Model.Boot
import Cse502.Model.Dispatch
import Cse502.Model.Fetch
import Cse502.Model.Writeback

/-!
# The machine

`top.cc` and `core_cse502.h`: `Memory`, `Fetch`, `Decoder`, `Dispatch`, `Execute` and `Writeback` as
processes at the same clock edge, in an order that is picked anew in every cycle. The signals
written in a cycle are read in the next one; the queues, the register file, the guest memory and
`RIP_jump` are shared and change at once. `Core::work` does nothing and is left out.

Once an `assert` has failed the host process is gone, and nothing changes any more.
-/

namespace Cse502

/-- The processes of `Top`. -/
inductive Process
  | memory | fetch | decode | dispatch | execute | writeback
  deriving DecidableEq, Repr

/-- Every process once. -/
def processes : List Process := [.memory, .fetch, .decode, .dispatch, .execute, .writeback]

/-- What a cycle takes from outside: the result of a host `write`, what `__builtin_clz(0)` yields,
the uninitialised memory under the uops pushed, and which of the responses due at one time come
first. -/
structure MachineInput where
  hostRet : Word
  clzZero : ℕ
  uninit : ℕ → Decoder.Uninit
  iPick : ℕ
  dPick : ℕ

/-- The whole program, with the uops executed so far. -/
structure Machine where
  core : Core
  cur : Signals
  memory : Memory
  fetch : Fetch
  decoder : Decoder.DecodeState
  now : ℕ
  trace : List Uop

/-- The members that no constructor sets. -/
structure Unset where
  prevTag : Word
  expectedAddr : Word
  op : Uop
  lastGoodAddr : Word

namespace Machine

/-- The inputs of `Memory`. -/
def memoryInput (i : MachineInput) (m : Machine) : MemoryInput 1 1 where
  reset := m.cur.reset
  now := m.now
  iPick _ := i.iPick
  dPick _ := i.dPick
  iReq _ := ⟨m.cur.iOp, m.cur.iTagin, m.cur.iAddr⟩
  dReq _ := Memory.dataRequest m.cur

/-- `Memory::work`. -/
def memoryWork (i : MachineInput) (m : Machine) : Machine :=
  match Memory.work (memoryInput i m) m.core.mem m.memory with
  | none => { m with core.aborted := true }
  | some r =>
    { m with
      memory := r.memory
      core := { m.core with
        mem := r.mem
        nxt := if m.cur.reset then m.core.nxt
          else Memory.drive (r.iOut.headD none) (r.dOut.headD none) m.core.nxt } }

/-- The inputs of `Execute`. -/
def cycleInput (i : MachineInput) (m : Machine) : CycleInput := ⟨m.now, i.hostRet, i.clzZero⟩

/-- One process of one cycle. -/
def act (u : Decoder.Udis) (i : MachineInput) (st : Process) (m : Machine) : Machine :=
  if m.core.aborted then m
  else match st with
    | .memory => memoryWork i m
    | .fetch =>
      let r := Fetch.work m.cur m.fetch m.core
      { m with fetch := r.1, core := r.2 }
    | .decode =>
      let r := Decoder.work u i.uninit m.cur m.decoder m.core
      { m with decoder := r.1, core := r.2 }
    | .dispatch => { m with core := Dispatch.work m.cur m.core }
    | .execute =>
      { m with
        core := Execute.work (cycleInput i m) m.cur m.core
        trace := m.trace ++ (Execute.issued m.cur m.core).toList }
    | .writeback => { m with core := Writeback.work m.cur m.core }

/-- The end of a cycle: the signals take the values written, and `clockcycle` goes by. -/
def commit (_ : MachineInput) (m : Machine) : Machine :=
  { m with cur := m.core.nxt, now := m.now + 500 }

/-- A schedule of cycles. -/
abbrev Cycles := List (Schedule.Cycle MachineInput processes)

/-- A run of the machine. -/
def run (u : Decoder.Udis) (cs : Cycles) (m : Machine) : Machine :=
  Schedule.run (act u) commit cs m

/-- The machine when `reset` has been lowered at this time, with a guest memory, an entry point and
a stack pointer; the other registers and the flags have any values. -/
def boot (mem : Mem) (entry rsp : Word) (regs : Gpr → Word) (eflags : Eflags) (now : ℕ)
    (x : Unset) : Machine where
  core := Core.boot (Function.update regs .rsp rsp) eflags mem
    (Execute.init x.expectedAddr x.op)
  cur := Signals.zero
  memory := Memory.init
  fetch := Fetch.init x.prevTag entry rsp
  decoder := ⟨true, false, [], x.lastGoodAddr, []⟩
  now := now
  trace := []

end Machine

end Cse502
