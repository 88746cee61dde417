import Cse502.Memory.Requests
import Cse502.Model.ExecuteRuns

/-!
# Execute and Memory together

`Execute` drives the data port and waits for its answers; `Memory` performs what the port asks for
in every cycle, and the port keeps its request until `Execute` drives it anew. A system call
writes the guest memory directly.

The two processes run in either order. What the other stages do is a parameter of every cycle: they
may leave anything in the queues and the register file, and so may `Fetch` on the instruction port.
-/

namespace Cse502.Memory

open Execute (issued)

/-! ## The system -/

/-- What one cycle takes from outside: the inputs of `Execute` and its `in_ready`, what the other
stages have left in the register file and the queues, the request of `Fetch`, which of the responses
due at one time come first, and the order of the two processes. -/
structure Input where
  cycle : CycleInput
  deOutReady : Bool
  regfile : Arf
  ddUopQueue : List Uop
  deUopQueue : List Uop
  ewUopQueue : List Uop
  iReq : InstRequest
  iPick : ℕ
  dPick : ℕ
  memoryFirst : Bool

/-- The core, which holds the guest memory, and `Memory`. Between two cycles the signals of the core
are those that are read next. -/
structure System where
  core : Core
  memory : Memory

/-- The request on the data port. -/
def dataRequest (sig : Signals) : DataRequest := ⟨sig.dOp, sig.dTagin, sig.dAddr, sig.dDout⟩

/-- The answers as signals. A port that is not ready keeps its tag and its data. -/
def drive (i : Answer 128) (d : Answer 64) (sig : Signals) : Signals :=
  { sig with
    iReady := i.isSome
    iTagout := i.elim sig.iTagout Prod.fst
    iData := i.elim sig.iData Prod.snd
    dReady := d.isSome
    dTagout := d.elim sig.dTagout Prod.fst
    dData := d.elim sig.dData Prod.snd }

namespace System

/-- The signals read in a cycle. -/
def signals (inp : Input) (s : System) : Signals :=
  { s.core.nxt with reset := false, deOutReady := inp.deOutReady }

/-- What the other stages have done. -/
def others (inp : Input) (s : System) : System :=
  { s with
    core := { s.core with
      regfile := inp.regfile
      ddUopQueue := inp.ddUopQueue
      deUopQueue := inp.deUopQueue
      ewUopQueue := inp.ewUopQueue } }

/-- The inputs of `Memory`. -/
def memoryInput (inp : Input) (cur : Signals) : MemoryInput 1 1 where
  reset := cur.reset
  now := inp.cycle.now
  iPick _ := inp.iPick
  dPick _ := inp.dPick
  iReq _ := inp.iReq
  dReq _ := dataRequest cur

/-- `Memory::work`. -/
def memoryWork (inp : Input) (cur : Signals) (s : System) : Option System :=
  (Memory.work (memoryInput inp cur) s.core.mem s.memory).map fun r ↦
    { core := { s.core with
        mem := r.mem
        nxt := drive (r.iOut.headD none) (r.dOut.headD none) s.core.nxt }
      memory := r.memory }

/-- `Execute::work`. -/
def executeWork (inp : Input) (cur : Signals) (s : System) : Option System :=
  let core := Execute.work inp.cycle cur s.core
  if core.aborted then none else some { s with core := core }

/-- One cycle; `none` if the host process dies in it. -/
def cycle (inp : Input) (s : System) : Option System :=
  let cur := s.signals inp
  let s := s.others inp
  if inp.memoryFirst then (memoryWork inp cur s).bind (executeWork inp cur)
  else (executeWork inp cur s).bind (memoryWork inp cur)

/-- After reset, for given contents of the guest memory. -/
def start (mem : Mem) (regs : Gpr → Word) (eflags : Eflags) (expectedAddr : Word) : System :=
  ⟨Core.boot regs eflags mem (Cse502.Execute.init expectedAddr Uop.zero), Memory.init⟩

/-- The system after `n` cycles. -/
def run (s : System) (inputs : ℕ → Input) : ℕ → Option System
  | 0 => some s
  | n + 1 => (run s inputs n).bind (cycle (inputs n))

/-- The uop that is run in a cycle. -/
def issues (inp : Input) (s : System) : Option Uop := issued (s.signals inp) (s.others inp).core

end System

/-! ## The data port -/

/-- What a uop asks the memory for. -/
inductive Access
  | read (addr : Word)
  | write (addr data : Word)
  deriving DecidableEq

/-- The requests of the `switch`. -/
def access (op : Uop) (e : Eflags) : Option Access :=
  match op.opcode with
  | .ret | .pop => some (.read op.value3)
  | .load => some (.read op.value1)
  | .call => some (.write (op.value3 - 8) op.nextAddr)
  | .push => some (.write (op.value3 - 8) op.value1)
  | .store => some (.write op.value2 op.value1)
  | .pushfq => some (.write (op.value3 - 8) e.bits)
  | _ => none

/-- The data port once a request has been driven. A read leaves the word on the port as it is. -/
def Access.port (req : DataRequest) : Access → DataRequest
  | read addr => ⟨.read, addr.setWidth 32, addr, req.din⟩
  | write addr data => ⟨.write, addr.setWidth 32, addr, data⟩

/-- The data port after a cycle in which this uop was run, or none. -/
def portAfter (ran : Option Uop) (e : Eflags) (req : DataRequest) : DataRequest :=
  (ran.bind (access · e)).elim req (Access.port req)

/-- The two words `clock_gettime` writes. -/
def clockWords (now : ℕ) (addr : Word) (m : Mem) : Mem :=
  ByteMemory.store (ByteMemory.store m addr (BitVec.ofNat 64 now)) (addr + 8) 0

/-- The address of a `clock_gettime` system call, if this uop makes one. -/
def clockGettime (ran : Option Uop) (c : Core) : Option Word :=
  ran.bind fun op ↦
    if op.opcode = .syscall ∧ Execute.syscallArg c .rax = 228 then some (Execute.syscallArg c .rsi)
    else none

/-- What `Execute` leaves in the guest memory. -/
def memAfter (now : ℕ) (ran : Option Uop) (c : Core) (m : Mem) : Mem :=
  (clockGettime ran c).elim m (clockWords now · m)

/-- What an activation of `Execute` that runs this uop, or none, does to the data port and to the
guest memory. -/
structure PortStep (inp : CycleInput) (ran : Option Uop) (c c' : Core) : Prop where
  port : dataRequest c'.nxt = portAfter ran c.eflags (dataRequest c.nxt)
  mem : c'.mem = memAfter inp.now ran c c.mem
  answer : c'.nxt.dReady = c.nxt.dReady ∧ c'.nxt.dTagout = c.nxt.dTagout ∧
    c'.nxt.dData = c.nxt.dData

/-- The system calls other than `clock_gettime` leave the guest memory alone. -/
theorem coreSyscall_mem {inp : CycleInput} {brkVal n a0 a1 : Word} {m : Mem}
    {r : BitVec 32 × Word × Mem} (h : Execute.coreSyscall inp brkVal m n a0 a1 = some r) :
    r.2.2 = if n = 228 then clockWords inp.now a1 m else m := by
  rw [Execute.coreSyscall] at h
  split_ifs at h with h1 h12 hbrk h16 h60 h228 <;> obtain rfl := Option.some.inj h
  · rw [if_neg (by rw [h1]; decide)]
  · rw [if_neg (by rw [h12]; decide)]
  · rw [if_neg (by rw [h12]; decide)]
  · rw [if_neg (by rw [h16]; decide)]
  · rw [if_neg (by rw [h60]; decide)]
  · rw [if_pos h228]
    rfl

/-- A uop that makes no system call writes no memory. -/
theorem memAfter_of_ne {now : ℕ} {op : Uop} {c : Core} (h : op.opcode ≠ .syscall) (m : Mem) :
    memAfter now (some op) c m = m := by
  rw [memAfter, clockGettime, Option.bind_some, if_neg fun hand ↦ h hand.1]
  rfl

theorem portAfter_of_none {op : Uop} {e : Eflags} (h : access op e = none) (req : DataRequest) :
    portAfter (some op) e req = req := by
  rw [portAfter, Option.bind_some, h]
  rfl

theorem portAfter_of_some {op : Uop} {e : Eflags} {a : Access} (h : access op e = some a)
    (req : DataRequest) : portAfter (some op) e req = a.port req := by
  rw [portAfter, Option.bind_some, h]
  rfl

theorem doJump_port (op : Uop) (c : Core) :
    dataRequest (Execute.doJump op c).nxt = dataRequest c.nxt ∧
      (Execute.doJump op c).mem = c.mem ∧
      (Execute.doJump op c).nxt.dReady = c.nxt.dReady ∧
      (Execute.doJump op c).nxt.dTagout = c.nxt.dTagout ∧
      (Execute.doJump op c).nxt.dData = c.nxt.dData := by
  rw [Execute.doJump]
  split <;> exact ⟨rfl, rfl, rfl, rfl, rfl⟩

/-- A case that touches neither the port nor the memory. -/
theorem PortStep.of_eq {inp : CycleInput} {op : Uop} {c c' : Core}
    (haccess : access op c.eflags = none)
    (hsyscall : op.opcode ≠ .syscall) (hport : dataRequest c'.nxt = dataRequest c.nxt)
    (hmem : c'.mem = c.mem) (hanswer : c'.nxt.dReady = c.nxt.dReady ∧
      c'.nxt.dTagout = c.nxt.dTagout ∧ c'.nxt.dData = c.nxt.dData) :
    PortStep inp (some op) c c' where
  port := by rw [portAfter_of_none haccess, hport]
  mem := by rw [memAfter_of_ne hsyscall, hmem]
  answer := hanswer

/-- A case that drives the port. -/
theorem PortStep.of_access {inp : CycleInput} {op : Uop} {c c' : Core} {a : Access}
    (haccess : access op c.eflags = some a) (hsyscall : op.opcode ≠ .syscall)
    (hport : dataRequest c'.nxt = a.port (dataRequest c.nxt)) (hmem : c'.mem = c.mem)
    (hanswer : c'.nxt.dReady = c.nxt.dReady ∧ c'.nxt.dTagout = c.nxt.dTagout ∧
      c'.nxt.dData = c.nxt.dData) : PortStep inp (some op) c c' where
  port := by rw [portAfter_of_some haccess, hport]
  mem := by rw [memAfter_of_ne hsyscall, hmem]
  answer := hanswer

theorem switchOp_port {inp : CycleInput} {op op' : Uop} {c c' : Core}
    (hreads : Execute.reads op.opcode = false) (h : Execute.switchOp inp op c = some (op', c')) :
    PortStep inp (some op) c c' := by
  have hne : ∀ {m : Mnemonic}, op.opcode = m → m ≠ .syscall → op.opcode ≠ .syscall :=
    fun hop hm ↦ hop ▸ hm
  rw [Execute.switchOp] at h
  split at h
  · next hop =>
    obtain ⟨c₁, hcall, heq⟩ := Option.map_eq_some_iff.mp h
    obtain ⟨-, rfl⟩ := Prod.mk.inj heq
    rw [Execute.doSyscall, Option.map_eq_some_iff] at hcall
    obtain ⟨r, hr, rfl⟩ := hcall
    refine ⟨?_, ?_, rfl, rfl, rfl⟩
    · rw [portAfter_of_none (by rw [access, hop])]
    · rw [memAfter, clockGettime, Option.bind_some, hop]
      refine (coreSyscall_mem hr).trans ?_
      split_ifs with h228 h h
      · rfl
      · exact absurd ⟨rfl, h228⟩ h
      · exact absurd h.2 h228
      · rfl
  · next hop =>
    obtain ⟨-, rfl⟩ := Prod.mk.inj (Option.some.inj h)
    obtain ⟨hport, hmem, hanswer⟩ := doJump_port { op with value3 := op.value3 - 8 }
      (Execute.requestWrite (op.value3 - 8) op.nextAddr c)
    have haccess : access op c.eflags = some (.write (op.value3 - 8) op.nextAddr) := by
      rw [access, hop]
    exact .of_access haccess (hne hop Mnemonic.noConfusion) hport hmem hanswer
  iterate 3
    · next hop =>
      obtain ⟨-, rfl⟩ := Prod.mk.inj (Option.some.inj h)
      exact .of_access (by rw [access, hop]) (hne hop Mnemonic.noConfusion) rfl rfl ⟨rfl, rfl, rfl⟩
  iterate 9
    · next hop =>
      obtain ⟨-, rfl⟩ := Prod.mk.inj (Option.some.inj h)
      have haccess : access op c.eflags = none := by rw [access, hop]
      split_ifs
      · obtain ⟨hport, hmem, hanswer⟩ := doJump_port op c
        exact .of_eq haccess (hne hop Mnemonic.noConfusion) hport hmem hanswer
      · exact .of_eq haccess (hne hop Mnemonic.noConfusion) rfl rfl ⟨rfl, rfl, rfl⟩
  · next hsyscall hcall hpush hstore hpushfq _ _ _ _ _ _ _ _ _ =>
    have haccess : access op c.eflags = none := by
      rw [access]
      split
      all_goals first | rfl | contradiction | skip
      all_goals next hop => rw [hop] at hreads; cases hreads
    split_ifs at h
    obtain ⟨-, rfl⟩ := Prod.mk.inj (Option.some.inj h)
    exact .of_eq haccess hsyscall rfl rfl ⟨rfl, rfl, rfl⟩

/-- **What running a uop does to the data port and to the guest memory.** -/
theorem runOp_port (inp : CycleInput) (op : Uop) (c : Core)
    (h : (Execute.runOp inp op c).aborted = false) :
    PortStep inp (some op) c (Execute.runOp inp op c) := by
  have hne : ∀ {m : Mnemonic}, op.opcode = m → m ≠ .syscall → op.opcode ≠ .syscall :=
    fun hop hm ↦ hop ▸ hm
  rw [Execute.runOp] at h ⊢
  split
  iterate 3
    · next hop =>
      exact .of_access (by rw [access, hop]) (hne hop Mnemonic.noConfusion) rfl rfl ⟨rfl, rfl, rfl⟩
  · next hret hpop hload =>
    have hreads : Execute.reads op.opcode = false := by
      rw [Execute.reads, beq_eq_false_iff_ne.mpr hret, beq_eq_false_iff_ne.mpr hpop,
        beq_eq_false_iff_ne.mpr hload]
      rfl
    split
    · next hswitch =>
      exfalso
      simp only [hswitch] at h
      cases h
    · next op' c' hswitch =>
      have hstep := switchOp_port hreads hswitch
      refine ⟨?_, ?_, ?_⟩
      · rw [← hstep.port, dataRequest, dataRequest, Execute.finish_nxt]
      · rw [← hstep.mem, Execute.finish_mem]
      · rw [Execute.finish_nxt]
        exact hstep.answer

/-- **What `Execute::work` does to the data port and to the guest memory.** -/
theorem work_port (inp : CycleInput) (cur : Signals) (c : Core)
    (h : (Execute.work inp cur c).aborted = false) :
    PortStep inp (issued cur c) c (Execute.work inp cur c) := by
  have hwork := Execute.work_outcome inp cur c
  generalize Execute.work inp cur c = c' at h hwork
  generalize issued cur c = ran at hwork
  cases hwork with
  | idle | cleared | ret | pop | load | dropped => exact ⟨rfl, rfl, rfl, rfl, rfl⟩
  | ran front rest =>
    have hstep := runOp_port inp _ _ h
    exact ⟨hstep.port, hstep.mem, hstep.answer⟩

/-! ## One cycle -/

/-- What a request of the data port does to the guest memory. -/
def perform (req : DataRequest) (m : Mem) : Mem :=
  if req.op = .write then ByteMemory.store m req.addr req.din else m

/-- What `Memory::work` does with one data port: the request, which passes the asserts, and the
answer, which is a response that was waited for, with a word read before the request is performed.
-/
structure PortWork (now pick : ℕ) (req : DataRequest) (mem mem' : Mem) (d d' : Side)
    (out : Answer 64) : Prop where
  written : mem' = perform req mem
  aligned : req.op = .write → ByteMemory.Aligned req.addr
  inRange : req.op ≠ .none → inRange req.addr = true
  answer : ∀ tag data, out = some (tag, data) → ∃ addr d₁,
    d.respond now pick = some ((tag, addr), d₁) ∧ (tag, addr) ∈ d.outstanding ∧
      ByteMemory.Aligned addr ∧ data = ByteMemory.load mem addr
  outstanding : ∀ r ∈ d'.outstanding, r ∈ d.outstanding ∨
    (req.op ≠ .none ∧ r = (req.tagin, req.addr))

/-- The asserts on a request, and what it does to the guest memory. -/
theorem dRequest_mem {now : ℕ} {req : DataRequest} {mem mem' : Mem} {m m' : Memory}
    (h : dRequest now req mem m = some (mem', m')) :
    mem' = perform req mem ∧ (req.op = .write → ByteMemory.Aligned req.addr) ∧
      (req.op ≠ .none → inRange req.addr = true) := by
  rw [dRequest] at h
  by_cases hnone : req.op = .none
  · rw [if_pos hnone] at h
    obtain ⟨rfl, -⟩ := Prod.mk.inj (Option.some.inj h)
    have hwrite : req.op ≠ .write := by rw [hnone]; exact MemOp.noConfusion
    exact ⟨(if_neg hwrite).symm, fun hop ↦ absurd hop hwrite, fun hop ↦ absurd hnone hop⟩
  · rw [if_neg hnone] at h
    obtain ⟨hrange, h⟩ := Option.ite_none_left_eq_some.mp h
    rw [Bool.not_eq_true', Bool.not_eq_false] at hrange
    obtain ⟨mem₁, hmem₁, h⟩ := Option.map_eq_some_iff.mp h
    have hfst : mem₁ = mem' := by
      split at h <;> exact congrArg Prod.fst h
    subst hfst
    by_cases hwrite : req.op = .write
    · rw [if_pos hwrite, memDWrite] at hmem₁
      obtain ⟨haligned, hmem₁⟩ := Option.ite_none_right_eq_some.mp hmem₁
      exact ⟨(Option.some.inj hmem₁).symm.trans (if_pos hwrite).symm, fun _ ↦ haligned,
        fun _ ↦ hrange⟩
    · rw [if_neg hwrite] at hmem₁
      exact ⟨(Option.some.inj hmem₁).symm.trans (if_neg hwrite).symm, fun hop ↦ absurd hop hwrite,
        fun _ ↦ hrange⟩

/-- **`Memory::work` with one port on either side.** -/
theorem work_one {inp : MemoryInput 1 1} {mem : Mem} {m : Memory} {r : MemoryResult}
    (hreset : inp.reset = false) (h : work inp mem m = some r) :
    ∃ out, r.dOut = [out] ∧
      PortWork inp.now (inp.dPick 0) (inp.dReq 0) mem r.mem m.d r.memory.d out := by
  rw [work, hreset] at h
  simp only [Bool.false_eq_true, if_false, Option.bind_eq_bind, Option.bind_eq_some_iff] at h
  obtain ⟨i, hi, ⟨dOut, d⟩, hd, m₁, hm₁, ⟨mem', m'⟩, hm', h⟩ := h
  obtain rfl := Option.some.inj h
  obtain ⟨⟨out, d₁⟩, hanswer, hd⟩ := Option.bind_eq_some_iff.mp hd
  obtain ⟨⟨outs, d₂⟩, hnil, hd⟩ := Option.map_eq_some_iff.mp hd
  obtain ⟨rfl, rfl⟩ := Prod.mk.inj (Option.some.inj hnil)
  obtain ⟨rfl, rfl⟩ := Prod.mk.inj hd
  obtain ⟨⟨mem₂, m₂⟩, hrequest, hm'⟩ := Option.bind_eq_some_iff.mp hm'
  obtain ⟨rfl, rfl⟩ := Prod.mk.inj (Option.some.inj hm')
  obtain ⟨hmem, haligned, hrange⟩ := dRequest_mem hrequest
  obtain ⟨-, hasked⟩ := dRequest_spec hrequest
  obtain ⟨hd₁, -⟩ := iRequests_spec hm₁
  have hrest : ∀ r ∈ d₁.outstanding, r ∈ m.d.outstanding := by
    intro r hr
    rcases answer_spec hanswer with ⟨-, rfl⟩ | ⟨r', data, -, -, -, hanswered⟩
    · exact hr
    · exact hanswered.outstanding ▸ Multiset.mem_add.mpr (.inr hr)
  refine ⟨out, rfl, hmem, haligned, hrange, ?_, fun r hr ↦ ?_⟩
  · rintro tag data rfl
    rcases answer_spec hanswer with ⟨hout, -⟩ | ⟨⟨tag', addr⟩, data', hout, hread, hrespond, -⟩
    · cases hout
    · obtain ⟨rfl, rfl⟩ := Prod.mk.inj (Option.some.inj hout)
      obtain ⟨hal, hread⟩ := Option.ite_none_right_eq_some.mp hread
      exact ⟨addr, d₁, hrespond, Multiset.mem_add.mpr (.inl (Side.toState_respond hrespond).1), hal,
        (Option.some.inj hread).symm⟩
  · rw [hasked.outstanding, hd₁] at hr
    rcases Multiset.mem_add.mp hr with hr | hr
    · obtain ⟨req, hreq, hr⟩ := List.mem_filterMap.mp (Multiset.mem_coe.mp hr)
      obtain rfl := List.mem_singleton.mp hreq
      split_ifs at hr with hnone
      exact .inr ⟨hnone, (Option.some.inj hr).symm⟩
    · exact .inl (hrest r hr)

namespace System

/-- The address of the `clock_gettime` system call made in a cycle, if there is one. -/
def clockCall (inp : Input) (s : System) : Option Word :=
  clockGettime (s.issues inp) (s.others inp).core

/-- What the `Execute` of a cycle leaves in the guest memory. -/
def executed (inp : Input) (s : System) (m : Mem) : Mem :=
  (s.clockCall inp).elim m (clockWords inp.cycle.now · m)

/-- The guest memory the answer of a cycle is read from. -/
def seen (inp : Input) (s : System) : Mem :=
  if inp.memoryFirst then s.core.mem else s.executed inp s.core.mem

/-- What a cycle does: the two processes, on the signals of the cycle before. -/
structure Step (inp : Input) (s s' : System) : Prop where
  port : dataRequest s'.core.nxt = portAfter (s.issues inp) s.core.eflags (dataRequest s.core.nxt)
  mem : s'.core.mem =
    if inp.memoryFirst then s.executed inp (perform (dataRequest s.core.nxt) s.core.mem)
    else perform (dataRequest s.core.nxt) (s.executed inp s.core.mem)
  memory : ∃ mem' out, PortWork inp.cycle.now inp.dPick (dataRequest s.core.nxt) (s.seen inp) mem'
    s.memory.d s'.memory.d out ∧ s'.core.nxt.dReady = out.isSome ∧
      ∀ tag data, out = some (tag, data) → s'.core.nxt.dTagout = tag ∧ s'.core.nxt.dData = data
  execute : ∃ c, c.ex = s.core.ex ∧ issued (s.signals inp) c = s.issues inp ∧
    s'.core.ex = (Execute.work inp.cycle (s.signals inp) c).ex

/-- **What a cycle does.** -/
theorem cycle_step {inp : Input} {s s' : System} (h : s.cycle inp = some s') : Step inp s s' := by
  rw [cycle] at h
  split_ifs at h with hfirst
  -- `Memory` before `Execute`
  · obtain ⟨s₁, hmemory, hexecute⟩ := Option.bind_eq_some_iff.mp h
    obtain ⟨r, hr, rfl⟩ := Option.map_eq_some_iff.mp hmemory
    obtain ⟨habort, hexecute⟩ := Option.ite_none_left_eq_some.mp hexecute
    obtain rfl := Option.some.inj hexecute
    rw [Bool.not_eq_true] at habort
    obtain ⟨out, hout, hwork⟩ := work_one rfl hr
    obtain ⟨hport, hmem, hready, htag, hdata⟩ := work_port inp.cycle (s.signals inp) _ habort
    refine ⟨hport, ?_, ⟨r.mem, out, ?_, ?_, ?_⟩, ⟨_, ?_, ?_, rfl⟩⟩
    · rw [if_pos hfirst]
      exact hmem.trans (congrArg (s.executed inp) hwork.written)
    · rw [seen, if_pos hfirst]
      exact hwork
    · refine hready.trans ?_
      rw [hout]
      rfl
    · rintro tag data rfl
      refine ⟨htag.trans ?_, hdata.trans ?_⟩
      · rw [hout]
        rfl
      · rw [hout]
        rfl
    · rfl
    · rfl
  -- `Execute` before `Memory`, which works on the memory a system call has left
  · obtain ⟨s₁, hexecute, hmemory⟩ := Option.bind_eq_some_iff.mp h
    obtain ⟨habort, hexecute⟩ := Option.ite_none_left_eq_some.mp hexecute
    obtain rfl := Option.some.inj hexecute
    obtain ⟨r, hr, rfl⟩ := Option.map_eq_some_iff.mp hmemory
    rw [Bool.not_eq_true] at habort
    obtain ⟨out, hout, hwork⟩ := work_one rfl hr
    obtain ⟨hport, hmem, -⟩ := work_port inp.cycle (s.signals inp) _ habort
    have hseen : (Execute.work inp.cycle (s.signals inp) (s.others inp).core).mem = s.seen inp := by
      rw [seen, if_neg hfirst]
      exact hmem
    refine ⟨hport, ?_, ⟨r.mem, out, ?_, ?_, ?_⟩, ⟨(s.others inp).core, rfl, rfl, rfl⟩⟩
    · rw [if_neg hfirst]
      exact hwork.written.trans (congrArg (perform _) hmem)
    · rw [← hseen]
      exact hwork
    · rw [hout]
      rfl
    · rintro tag data rfl
      rw [hout]
      exact ⟨rfl, rfl⟩

end System

end Cse502.Memory
