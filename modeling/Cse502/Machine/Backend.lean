import Cse502.Machine.System
import Cse502.Model.ExecuteRuns
import Cse502.Pipeline.Stages

/-!
# The later stages see nothing of the front end

`Fetch`, `Decoder` and `Memory` share `RIP_jump`, the guest memory and the signals between them.
-/

namespace Cse502

/-- The signals between `Memory`, `Fetch` and `Decoder` as in another record. -/
def Signals.withFront (s x : Signals) : Signals :=
  { s with
    fdOutData := x.fdOutData
    fdOutAddr := x.fdOutAddr
    fdOutAlign := x.fdOutAlign
    fdOutReady := x.fdOutReady
    iOp := x.iOp
    iTagin := x.iTagin
    iAddr := x.iAddr
    iReady := x.iReady
    iTagout := x.iTagout
    iData := x.iData }

/-- The answer on the data port as in another record. -/
def Signals.withReply (s x : Signals) : Signals :=
  { s with dReady := x.dReady, dTagout := x.dTagout, dData := x.dData }

/-- What only `Memory`, `Fetch` and `Decoder` write, and the guest memory, as in another core. -/
def Core.withFront (c x : Core) : Core :=
  { c with
    ripJump := x.ripJump
    mem := x.mem
    nxt := (c.nxt.withFront x.nxt).withReply x.nxt }

namespace Machine

variable (cur y : Signals) (c x : Core)

theorem dispatch_withFront : Dispatch.work (cur.withFront y) (c.withFront x) =
    (Dispatch.work cur c).withFront x := by
  change Dispatch.work cur (c.withFront x) = _
  obtain ⟨rf, dd, de, ew, rj, off, e, b, mem, ab, ex, nxt⟩ := c
  cases hreset : cur.reset <;> cases hclear : cur.clear <;> cases hready : cur.ddOutReady <;>
    cases dd <;> cases de <;>
      simp only [Dispatch.work, hreset, hclear, hready, Core.withFront] <;> rfl

theorem writeback_withFront : Writeback.work (cur.withFront y) (c.withFront x) =
    (Writeback.work cur c).withFront x := by
  change Writeback.work cur (c.withFront x) = _
  obtain ⟨rf, dd, de, ew, rj, off, e, b, mem, ab, ex, nxt⟩ := c
  cases hreset : cur.reset <;> cases hready : cur.ewOutReady <;> cases ew <;>
    simp only [Writeback.work, hreset, hready, Core.withFront] <;> rfl

theorem issued_withFront : Execute.issued (cur.withFront y) (c.withFront x) =
    Execute.issued cur c := rfl

/-! ## `Execute` -/

theorem doJump_withFront (op : Uop) : Execute.doJump op (c.withFront x) =
    (Execute.doJump op c).withFront x := by
  rw [Execute.doJump, Execute.doJump]
  cases op.src <;> rfl

theorem finish_withFront (op : Uop) : Execute.finish op (c.withFront x) =
    (Execute.finish op c).withFront x := by
  obtain ⟨rf, dd, de, ew, rj, off, e, b, mem, ab, ⟨r1, v1, r2, v2, ea, pa, rc, fr, o, st, sp⟩,
    nxt⟩ := c
  by_cases hreg : op.opcode ≠ .nop ∧ op.opcode ≠ .syscall ∧ op.reg2 ≠ .none <;>
    by_cases hls : op.reg2 = .loadStoreReg
  · simp only [Execute.finish, Core.withFront, if_pos hreg, if_pos hls]
    cases rc <;> rfl
  · simp only [Execute.finish, Core.withFront, if_pos hreg, if_neg hls]
    cases rc <;> rfl
  · simp only [Execute.finish, Core.withFront, if_neg hreg, if_pos hls]
    cases rc <;> rfl
  · simp only [Execute.finish, Core.withFront, if_neg hreg, if_neg hls]
    cases rc <;> rfl

private theorem coreSyscall_mem (inp : CycleInput) (b : Word) (m m' : Mem) (n a0 a1 : Word) :
    ∃ m'', Execute.coreSyscall inp b m' n a0 a1 =
      (Execute.coreSyscall inp b m n a0 a1).map fun r ↦ (r.1, r.2.1, m'') := by
  rw [Execute.coreSyscall, Execute.coreSyscall]
  split_ifs
  iterate 5 · exact ⟨m', rfl⟩
  · exact ⟨ByteMemory.store (ByteMemory.store m' a1 (BitVec.ofNat 64 inp.now)) (a1 + 8) 0, rfl⟩
  · exact ⟨m', rfl⟩

/-- A system call may write the guest memory, and takes nothing from it. -/
theorem doSyscall_withFront (inp : CycleInput) : ∃ m, Execute.doSyscall inp (c.withFront x) =
    (Execute.doSyscall inp c).map fun c' ↦ c'.withFront { x with mem := m } := by
  obtain ⟨m, hm⟩ := coreSyscall_mem inp c.brkVal c.mem x.mem (Execute.syscallArg c .rax)
    (Execute.syscallArg c .rdi) (Execute.syscallArg c .rsi)
  refine ⟨m, ?_⟩
  change (Execute.coreSyscall inp c.brkVal x.mem (Execute.syscallArg c .rax)
    (Execute.syscallArg c .rdi) (Execute.syscallArg c .rsi)).map _ = _
  rw [hm, Execute.doSyscall, Option.map_map, Option.map_map]
  rfl

theorem switchOp_withFront (inp : CycleInput) (op : Uop) :
    ∃ m, Execute.switchOp inp op (c.withFront x) =
      (Execute.switchOp inp op c).map fun r ↦ (r.1, r.2.withFront { x with mem := m }) := by
  rw [Execute.switchOp, Execute.switchOp]
  split
  · obtain ⟨m, hm⟩ := doSyscall_withFront c x inp
    refine ⟨m, ?_⟩
    rw [hm, Option.map_map, Option.map_map]
    rfl
  · have hjump := doJump_withFront (Execute.requestWrite (op.value3 - 8) op.nextAddr c) x
      { op with value3 := op.value3 - 8 }
    refine ⟨x.mem, ?_⟩
    change some (_, { Execute.doJump { op with value3 := op.value3 - 8 }
      ((Execute.requestWrite (op.value3 - 8) op.nextAddr c).withFront x) with
        ex.stackpointer := op.value3 - 8 }) = _
    rw [hjump]
    rfl
  iterate 3 · exact ⟨x.mem, rfl⟩
  iterate 9
    · refine ⟨x.mem, ?_⟩
      change some (op, if Execute.condition op.opcode c.eflags then _ else _) = _
      split_ifs
      · rw [doJump_withFront]
        rfl
      · rfl
  · refine ⟨x.mem, ?_⟩
    split_ifs <;> rfl

theorem runOp_withFront (inp : CycleInput) (op : Uop) :
    ∃ m, Execute.runOp inp op (c.withFront x) =
      (Execute.runOp inp op c).withFront { x with mem := m } := by
  rw [Execute.runOp, Execute.runOp]
  split
  iterate 3 · exact ⟨x.mem, rfl⟩
  · obtain ⟨m, hm⟩ := switchOp_withFront c x inp op
    rw [hm]
    cases Execute.switchOp inp op c with
    | none => exact ⟨x.mem, rfl⟩
    | some r => exact ⟨m, finish_withFront r.2 { x with mem := m } r.1⟩

theorem issue_withFront (inp : CycleInput) :
    ∃ m, Execute.issue inp cur (c.withFront x) =
      (Execute.issue inp cur c).withFront { x with mem := m } := by
  obtain ⟨rf, dd, de, ew, rj, off, e, b, mem, ab, ex, nxt⟩ := c
  cases hready : cur.deOutReady
  · refine ⟨x.mem, ?_⟩
    simp only [Execute.issue, hready, Bool.not_false, if_true]
  · by_cases hew : 1 < ew.length
    · refine ⟨x.mem, ?_⟩
      simp only [Execute.issue, hready, Core.withFront, Bool.not_true, Bool.false_eq_true, if_false,
        hew, if_true]
      rfl
    · cases de with
      | nil =>
        refine ⟨x.mem, ?_⟩
        simp only [Execute.issue, hready, Core.withFront, Bool.not_true, Bool.false_eq_true,
          if_false, hew]
      | cons front rest =>
        cases hunexp : Execute.unexpected ex front
        · obtain ⟨m, hm⟩ := runOp_withFront
            { Execute.select front ⟨rf, dd, front :: rest, ew, rj, off, e, b, mem, ab, ex, nxt⟩ with
              ex.firstrun := false } x inp (Execute.forward ex off front)
          refine ⟨m, ?_⟩
          simp only [Execute.issue, hready, Core.withFront, Bool.not_true, Bool.false_eq_true,
            if_false, hew, hunexp]
          exact hm
        · refine ⟨x.mem, ?_⟩
          simp only [Execute.issue, hready, Core.withFront, Bool.not_true, Bool.false_eq_true,
            if_false, hew, hunexp, if_true]
          rfl

theorem execute_withFront (inp : CycleInput) :
    ∃ m, Execute.work inp (cur.withFront y) (c.withFront x) =
      (Execute.work inp cur c).withFront { x with mem := m } := by
  change ∃ m, Execute.work inp cur (c.withFront x) = _
  cases hreset : cur.reset
  · cases hclear : cur.clear
    · by_cases hstate : c.ex.state = .read
      · cases hready : cur.dReady
        · refine ⟨x.mem, ?_⟩
          simp only [Execute.work, hreset, hclear, Core.withFront, Bool.false_eq_true, if_false,
            hstate, hready, Bool.not_false, if_true]
          rfl
        · obtain ⟨m, hm⟩ := issue_withFront cur (Execute.start c) x inp
          simp only [Execute.work, hreset, hclear, Core.withFront, hstate, hready, Bool.not_true,
            Bool.false_eq_true, if_false, if_true]
          split
          iterate 2
            · refine ⟨x.mem, ?_⟩
              by_cases htag : cur.dTagout.signExtend 64 = c.ex.op.value3 <;>
                simp only [htag, ne_eq, not_true_eq_false, not_false_eq_true, if_false, if_true] <;>
                  rfl
          · refine ⟨x.mem, ?_⟩
            by_cases htag : cur.dTagout.signExtend 64 = c.ex.op.value1 <;>
              simp only [htag, ne_eq, not_true_eq_false, not_false_eq_true, if_false, if_true] <;>
                rfl
          · exact ⟨m, hm⟩
      · obtain ⟨m, hm⟩ := issue_withFront cur (Execute.start c) x inp
        refine ⟨m, ?_⟩
        simp only [Execute.work, hreset, hclear, Core.withFront, Bool.false_eq_true, if_false,
          hstate]
        exact hm
    · obtain ⟨m, hm⟩ := issue_withFront cur
        { Execute.start c with nxt.clear := false, deUopQueue := [] } x inp
      refine ⟨m, ?_⟩
      simp only [Execute.work, hreset, hclear, Core.withFront, Bool.false_eq_true, if_false,
        if_true]
      exact hm
  · refine ⟨x.mem, ?_⟩
    simp only [Execute.work, hreset, Core.withFront, if_true]
    rfl

/-! ## The front end -/

theorem withFront_self : c.withFront c = c := rfl

/-- The first activation sets the stack pointer once more. -/
theorem port_withFront {f : Fetch} (a : Word)
    (hfirst : f.firstRunFlag = true → c.regfile.gpr .rsp = f.rsp) :
    (Fetch.port cur a f c).2 = c.withFront (Fetch.port cur a f c).2 := by
  have hset : f.firstRunFlag = true → c.regfile.set .rsp f.rsp = c.regfile := fun h ↦ by
    rw [← hfirst h, Arf.set, Function.update_eq_self]
  by_cases hreply : cur.iReady = true ∧ Fetch.replyAddr cur = Fetch.block f.prevTag
  · cases hflag : f.firstRunFlag
    · simp only [Fetch.port, if_pos hreply, Fetch.accept, hflag]
      rfl
    · simp only [Fetch.port, if_pos hreply, Fetch.accept, hflag, Fetch.request, hset hflag]
      rfl
  · cases hflag : f.firstRunFlag
    · simp only [Fetch.port, if_neg hreply, hflag]
      rfl
    · simp only [Fetch.port, if_neg hreply, hflag, Fetch.request, hset hflag]
      rfl

theorem fetch_withFront {f : Fetch} (hfirst : f.firstRunFlag = true → c.regfile.gpr .rsp = f.rsp) :
    (Fetch.work cur f c).2 = c.withFront (Fetch.work cur f c).2 := by
  cases hreset : cur.reset
  · cases hchange : cur.changeRIP
    · cases hclear : cur.clear
      · simp only [Fetch.work, hreset, hclear, hchange, Bool.false_eq_true, if_false]
        exact port_withFront cur c (Fetch.block f.rip) hfirst
      · simp only [Fetch.work, hreset, hclear, hchange, Bool.false_eq_true, if_false, if_true]
        exact port_withFront cur (Fetch.clearSignals c) (Fetch.block f.rip)
          (f := { f with prevTag := 0 }) hfirst
    · cases hclear : cur.clear <;> simp only [Fetch.work, hreset, hclear, hchange] <;> rfl
  · simp only [Fetch.work, hreset]
    rfl

/-- The decoder adds to `dd_uop_queue` and raises its signal. -/
theorem decode_withFront (u : Decoder.Udis) (uninit : ℕ → Decoder.Uninit)
    (d : Decoder.DecodeState) :
    (Decoder.work u uninit cur d c).2 =
      { c with
        ddUopQueue := (Decoder.work u uninit cur d c).2.ddUopQueue
        nxt.ddOutReady := (Decoder.work u uninit cur d c).2.nxt.ddOutReady }.withFront
        (Decoder.work u uninit cur d c).2 := by
  cases hreset : cur.reset <;> cases hready : cur.fdOutReady <;> cases hclear : cur.clear <;>
    simp only [Decoder.work, hreset, hready, hclear] <;> rfl

end Machine

end Cse502
