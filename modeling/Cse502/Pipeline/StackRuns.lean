import Cse502.Pipeline.StackPointer

/-!
# The stack pointer of the register file

`Writeback` writes RSP for `call`, `ret`, `pop` and for a uop whose second register it is, but not
for `push` and `pushfq`: a run that ends behind one of them leaves the register file with the RSP
from before. When another uop that writes RSP retires behind it, nothing is lost.
-/

namespace Cse502.Pipeline

open Execute (issued)

/-! ## Retirement -/

/-- Once `ew_uop_queue` has retired, RSP has this value: it has it now and nothing takes it away,
or a uop in the queue brings it. That uop may be one that `Writeback` has no case for. -/
def RspRetires (v : Word) (rf : Arf) (ew : List Uop) : Prop :=
  (rf.gpr .rsp = v ∧ ∀ op ∈ ew, LeavesRsp v op) ∨
    ∃ pre op post, ew = pre ++ op :: post ∧ (rspWrite op = some v ∨ stale op = true) ∧
      ∀ op' ∈ post, LeavesRsp v op'

/-- `Writeback` retires a `push` or `pushfq` only while a uop behind it will write RSP. -/
def RetireMeets (cur : Signals) (c : Core) : Prop :=
  cur.reset = false → cur.ewOutReady = true → ∀ op ∈ c.ewUopQueue.head?, stale op = true →
    ∃ op' ∈ c.ewUopQueue.tail, (rspWrite op').isSome

instance (cur : Signals) (c : Core) : Decidable (RetireMeets cur c) :=
  inferInstanceAs (Decidable (_ → _ → ∀ op ∈ _, _ → ∃ op' ∈ _, _))

/-- What has retired is what `Execute` has. -/
def StackAgrees (s : Rsp) (c : Core) : Prop :=
  c.ewUopQueue = [] → c.regfile.gpr .rsp = s.value ∧
    (c.ex.stackpointer ≠ 0 → c.regfile.gpr .rsp = c.ex.stackpointer)

instance (s : Rsp) (c : Core) : Decidable (StackAgrees s c) :=
  inferInstanceAs (Decidable (_ → _ ∧ (_ → _)))

namespace RspRetires

variable {v : Word} {rf : Arf} {ew : List Uop} {op : Uop}

/-- The queue grows by a uop that leaves the value. -/
theorem append (h : RspRetires v rf ew) (hop : LeavesRsp v op) : RspRetires v rf (ew ++ [op]) := by
  have hlast :
      ∀ {us : List Uop}, (∀ op' ∈ us, LeavesRsp v op') → ∀ op' ∈ us ++ [op], LeavesRsp v op' :=
    fun hus ↦ List.forall_mem_append.mpr ⟨hus, List.forall_mem_singleton.mpr hop⟩
  rcases h with ⟨hrf, hew⟩ | ⟨pre, w, post, rfl, hw, hpost⟩
  · exact .inl ⟨hrf, hlast hew⟩
  · exact .inr ⟨pre, w, post ++ [op], by rw [List.append_assoc, List.cons_append], hw, hlast hpost⟩

/-- The queue grows by a uop that brings the value. -/
theorem of_last (rf : Arf) (ew : List Uop) (hop : rspWrite op = some v ∨ stale op = true) :
    RspRetires v rf (ew ++ [op]) :=
  .inr ⟨ew, op, [], rfl, hop, List.forall_mem_nil _⟩

/-- Something in a queue that leaves the value writes RSP. -/
theorem of_leaves (hew : ∀ op ∈ ew, LeavesRsp v op) (hwrites : ∃ op ∈ ew, (rspWrite op).isSome) :
    RspRetires v rf ew := by
  obtain ⟨op, hop, hwrite⟩ := hwrites
  obtain ⟨w, hw⟩ := Option.isSome_iff_exists.mp hwrite
  obtain rfl := hew op hop w hw
  obtain ⟨pre, post, rfl⟩ := List.append_of_mem hop
  refine .inr ⟨pre, op, post, rfl, .inl hw, fun op' hop' ↦ hew op' ?_⟩
  exact List.mem_append_right _ (List.mem_cons_of_mem _ hop')

/-- The front uop retires. -/
theorem retire (h : RspRetires v rf (op :: ew))
    (hmeets : stale op = true → ∃ op' ∈ ew, (rspWrite op').isSome) :
    RspRetires v (Writeback.retire rf op) ew := by
  rcases h with ⟨hrf, hew⟩ | ⟨pre, w, post, heq, hw, hpost⟩
  · exact .inl ⟨(hew op List.mem_cons_self).retire hrf,
      fun op' hop' ↦ hew op' (List.mem_cons_of_mem _ hop')⟩
  · cases pre with
    | nil =>
      obtain ⟨rfl, rfl⟩ := List.cons.inj heq
      rcases hw with hw | hw
      · refine .inl ⟨?_, hpost⟩
        rw [retire_rsp, hw, Option.getD_some]
      · exact of_leaves hpost (hmeets hw)
    | cons op' pre =>
      obtain ⟨rfl, rfl⟩ := List.cons.inj heq
      exact .inr ⟨pre, w, post, rfl, hw, hpost⟩

/-- With nothing left to retire the value is in the register file. -/
theorem regfile (h : RspRetires v rf []) : rf.gpr .rsp = v := by
  rcases h with ⟨hrf, -⟩ | ⟨pre, w, post, heq, -⟩
  · exact hrf
  · exact absurd heq.symm (List.append_ne_nil_of_right_ne_nil _ (List.cons_ne_nil _ _))

end RspRetires

/-- An activation of `Execute`. -/
theorem StackStep.retires {c c' : Core} {s : Rsp} (h : StackStep c c' s)
    (hretires : RspRetires s.value c.regfile c.ewUopQueue) :
    RspRetires ((completed c c').foldl Rsp.after s).value c'.regfile c'.ewUopQueue := by
  cases h with
  | same hew hregfile hinv =>
    rw [foldl_completed_same Rsp.after s hew, hew, hregfile]
    exact hretires
  | appended op hew hregfile hfollows hinv =>
    rw [foldl_completed_append Rsp.after s hew, hew]
    rcases hfollows with ⟨hvalue, hleaves⟩ | hbrings
    · rw [hvalue]
      have happend := hretires.append hleaves
      rcases happend with ⟨hrf, hleaves⟩ | hbrings
      · exact .inl ⟨hregfile.trans hrf, hleaves⟩
      · exact .inr hbrings
    · exact .of_last _ _ hbrings

/-! ## Runs -/

/-- The monitor of the stack pointer. -/
def stackMonitor : Monitor Rsp where
  follow _ _ c c' s := (completed c c').foldl Rsp.after s
  meets
    | .execute, cur, c, s => decide (StackMeets cur s c)
    | .writeback, cur, c, _ => decide (RetireMeets cur c)
    | _, _, _, _ => true
  right
    | .execute, cur, c, s => decide (StackAgrees s c) && decide (StackRight cur s c)
    | _, _, c, s => decide (StackAgrees s c)

/-- The invariant, with what is still to retire. -/
def RetiringInv (c : Core) (s : Rsp) : Prop :=
  StackInv c s ∧ RspRetires s.value c.regfile c.ewUopQueue

theorem RetiringInv.agrees {c : Core} {s : Rsp} (h : RetiringInv c s) : StackAgrees s c := by
  obtain ⟨hinv, hretires⟩ := h
  intro hew
  rw [hew] at hretires
  exact ⟨hretires.regfile, fun hsp ↦ hretires.regfile.trans (hinv.stackpointer hsp).symm⟩

theorem stackMonitor_keeps : stackMonitor.Keeps RetiringInv where
  deliver := by
    rintro c s - ⟨h, hretires⟩ us ready
    exact ⟨h.deliver us ready, hretires⟩
  dispatch := by
    rintro cur c s - ⟨h, hretires⟩ -
    refine ⟨h.dispatch cur, ?_⟩
    have hwork := Dispatch.work_outcome cur c
    generalize Dispatch.work cur c = c' at hwork ⊢
    cases hwork <;> exact hretires
  execute := by
    rintro cur c s inp hshaped ⟨h, hretires⟩ hmeets
    exact (h.execute inp hshaped (of_decide_eq_true hmeets)).imp id
      fun hstep ↦ ⟨hstep.inv, hstep.retires hretires⟩
  writeback := by
    rintro cur c s - ⟨h, hretires⟩ hmeets
    refine ⟨h.writeback cur, ?_⟩
    replace hmeets : RetireMeets cur c := of_decide_eq_true hmeets
    unfold RetireMeets at hmeets
    rw [Writeback.work]
    split_ifs with hreset hready
    · exact hretires
    · exact hretires
    · rw [Bool.not_eq_true] at hreset
      rw [Bool.not_eq_true, Bool.not_eq_false'] at hready
      have hmeets := hmeets hreset hready
      split
      · exact hretires
      · next op rest hew =>
        rw [hew] at hretires hmeets
        exact hretires.retire (hmeets op rfl)
  right := by
    rintro (_ | _ | _ | _) cur c s hshaped h hmeets
    · exact decide_eq_true h.agrees
    · exact decide_eq_true h.agrees
    · refine Bool.and_eq_true_iff.mpr ⟨decide_eq_true h.agrees, decide_eq_true ?_⟩
      exact h.1.right hshaped (of_decide_eq_true hmeets)
    · exact decide_eq_true h.agrees

/-- **The register file's stack pointer.** In every run in which each step meets the condition,
under any order of the stages, every uop gets the RSP that the uops before it have left, and
whenever `ew_uop_queue` is empty the register file has it too, and `stackpointer` unless it is
zero. -/
theorem stackpointer_agrees (regs : Gpr → Word) (eflags : Eflags) (m : Mem) (expectedAddr : Word)
    (op : Uop) (cs : Cycles (List Insn))
    (hmet : (stackMonitor.run cs (Monitor.start
      (Core.boot regs eflags m (.init expectedAddr op)) (.start (regs .rsp)))).met = true) :
    let w := stackMonitor.run cs (Monitor.start
      (Core.boot regs eflags m (.init expectedAddr op)) (.start (regs .rsp)))
    w.right = true ∧ (w.pipe.core.aborted = true ∨ StackAgrees w.seen w.pipe.core) := by
  have hinv : RetiringInv (Core.boot regs eflags m (.init expectedAddr op)) (.start (regs .rsp)) :=
    ⟨stackInv_boot regs eflags m expectedAddr op, .inl ⟨rfl, List.forall_mem_nil _⟩⟩
  obtain ⟨hright, hend⟩ := Monitor.run_right stackMonitor_keeps
    (shaped_boot regs eflags m expectedAddr op) hinv cs hmet
  exact ⟨hright, hend.imp id RetiringInv.agrees⟩

/-! ## Two runs -/

private def stackGpr (g : Gpr) : Decoder.Operand :=
  { Decoder.Operand.none with type := .reg, size := 64, base := .gpr g }

private def pushRax (address : Word) : Insn :=
  ⟨⟨.push, stackGpr .rax, .none, .none⟩, address, 1, fun _ ↦ ⟨0, 0, 0⟩, by decide⟩

private def callRbx (address : Word) : Insn :=
  ⟨⟨.call, stackGpr .rbx, .none, .none⟩, address, 2, fun _ ↦ ⟨0, 0, 0⟩, by decide⟩

/-- One cycle in which the decoder delivers these instructions. `Execute` runs before `Writeback`.
-/
private def executeFirst (is : List Insn) : Schedule.Cycle (Input (List Insn)) stages :=
  ⟨⟨is, true, false, 0, 0, CycleInput.zero⟩, [.execute, .writeback, .dispatch, .decode],
    executeFirst_perm⟩

/-- RSP is 0x1000. -/
private def stackCore : Core :=
  Core.boot (fun | .rsp => 0x1000 | .rbx => 0x2000 | _ => 0) ⟨0⟩ (fun _ ↦ 0) (.init 0 Uop.zero)

private def pushCycles : Cycles (List Insn) :=
  ([[pushRax 0x100]] ++ List.replicate 6 []).map executeFirst

/-- `push rax` alone. Everything has retired, `stackpointer` is 0xff8 and the register file has
0x1000. -/
theorem not_stackpointer_agrees_push :
    (stackMonitor.run pushCycles
        (Monitor.start stackCore (.start 0x1000))).pipe.core.ewUopQueue = [] ∧
      (stackMonitor.run pushCycles
        (Monitor.start stackCore (.start 0x1000))).pipe.core.ex.stackpointer = 0xff8 ∧
      (stackMonitor.run pushCycles (Monitor.start stackCore (.start 0x1000))).pipe.core.regfile.gpr
        .rsp = 0x1000 ∧
      ¬StackAgrees (stackMonitor.run pushCycles (Monitor.start stackCore (.start 0x1000))).seen
        (stackMonitor.run pushCycles (Monitor.start stackCore (.start 0x1000))).pipe.core := by
  decide +kernel

/-- `push rax; call rbx`, one behind the other. -/
private def callCycles : Cycles (List Insn) :=
  ([[pushRax 0x100], [callRbx 0x101]] ++ List.replicate 6 []).map executeFirst

theorem stackpointer_agrees_call :
    (stackMonitor.run callCycles (Monitor.start stackCore (.start 0x1000))).met = true ∧
      (stackMonitor.run callCycles (Monitor.start stackCore (.start 0x1000))).seen.value = 0xff0 ∧
      (stackMonitor.run callCycles (Monitor.start stackCore (.start 0x1000))).right = true ∧
      ((stackMonitor.run callCycles
          (Monitor.start stackCore (.start 0x1000))).pipe.core.aborted = true ∨
        StackAgrees (stackMonitor.run callCycles (Monitor.start stackCore (.start 0x1000))).seen
          (stackMonitor.run callCycles (Monitor.start stackCore (.start 0x1000))).pipe.core) := by
  have hmet :
      (stackMonitor.run callCycles (Monitor.start stackCore (.start 0x1000))).met = true := by
    decide +kernel
  exact ⟨hmet, by decide +kernel, stackpointer_agrees _ _ _ _ _ callCycles hmet⟩

end Cse502.Pipeline
