import Cse502.Pipeline.StackPointer

/-!
# What a system call sees and leaves

Every other uop takes its operands along from `Dispatch` and hands its result to `ew_uop_queue`.
`do_syscall` does neither: it reads the register file, with the latest result for one register,
and writes RAX there at once. A uop in the queue that has not retired is passed over, and one that
writes RAX retires over the value the system call returned.

A monitor keeps the registers as the completed uops have left them. As long as `Execute` runs a
system call only with no such uop in the queue, it gets these registers, and its result stays.
-/

namespace Cse502.Pipeline

open Arch (IsWide)
open Execute (issued reads syscallArg)

/-! ## The monitor's registers -/

/-- The registers that `do_syscall` passes on. -/
def callRegs : List Gpr := [.rax, .rdi, .rsi, .rdx, .r10, .r8, .r9]

/-- What a completed uop writes: a system call the value `rax` that it returned, a multiplication
or division the register pair, and the others their result. The implicit changes of RSP are left
out. -/
def wroteBy (rax : Word) (regs : Gpr → Word) (op : Uop) : Gpr → Word :=
  if op.opcode = .syscall then Function.update regs .rax rax
  else if IsWide op then Function.update (Function.update regs .rax op.value2) .rdx op.value3
  else fun g ↦ if setsReg2 op.opcode = true ∧ op.reg2 = .gpr g then op.value2 else regs g

/-- Only a multiplication or division has a second destination, and its first one is RAX. -/
structure Paired (op : Uop) : Prop where
  imul1 : op.src = .imul1 → op.opcode = .imul
  wide : IsWide op → op.reg2 = .gpr .rax

/-- A uop without a result has the value of its second register. -/
def Restores (regs : Gpr → Word) (op : Uop) : Prop :=
  setsReg2 op.opcode = false → ∀ g ∈ callRegs, op.reg2 = .gpr g → op.value2 = regs g

instance (regs : Gpr → Word) (op : Uop) : Decidable (Restores regs op) :=
  inferInstanceAs (Decidable (_ → ∀ g ∈ _, _ → _))

section Wrote

variable {rax : Word} {regs : Gpr → Word} {op : Uop} {g : Gpr}

theorem setsReg2_of_isWide (h : IsWide op) : setsReg2 op.opcode = true := by
  rcases h with hop | hop | hop | ⟨hop, -⟩ <;> rw [hop] <;> rfl

theorem ne_rsp_of_mem (hg : g ∈ callRegs) : g ≠ .rsp := by
  rintro rfl
  revert hg
  decide

/-- A result for one of the registers is the value that was written. -/
theorem wroteBy_reg2 (hsyscall : op.opcode ≠ .syscall) (hpaired : Paired op)
    (hrestores : Restores regs op) (hg : g ∈ callRegs) (hreg2 : op.reg2 = .gpr g) :
    wroteBy rax regs op g = op.value2 := by
  rw [wroteBy, if_neg hsyscall]
  split_ifs with hwide
  · obtain rfl := Reg.gpr.inj (hreg2.symm.trans (hpaired.wide hwide))
    rw [Function.update_of_ne (by decide), Function.update_self]
  · dsimp only
    split_ifs with hsets
    · rfl
    · refine (hrestores ?_ g hg hreg2).symm
      rw [← Bool.not_eq_true]
      exact fun hset ↦ hsets ⟨hset, hreg2⟩

/-- A uop that has no result writes nothing. -/
theorem wroteBy_none (hsyscall : op.opcode ≠ .syscall) (hpaired : Paired op)
    (hnone : setsReg2 op.opcode = false ∨ op.reg2 = .none) : wroteBy rax regs op = regs := by
  have hnarrow : ¬IsWide op := by
    intro hwide
    rcases hnone with hsets | hreg2
    · exact Bool.noConfusion (hsets.symm.trans (setsReg2_of_isWide hwide))
    · exact Reg.noConfusion (hreg2.symm.trans (hpaired.wide hwide))
  rw [wroteBy, if_neg hsyscall, if_neg hnarrow]
  funext g
  refine if_neg fun hsets ↦ ?_
  rcases hnone with hnot | hreg2
  · exact Bool.noConfusion (hnot.symm.trans hsets.1)
  · exact Reg.noConfusion (hreg2.symm.trans hsets.2)

/-- What retires is what was written. -/
theorem getD_gprWrite (hsyscall : op.opcode ≠ .syscall) (hpaired : Paired op)
    (hrestores : Restores regs op) (hg : g ∈ callRegs) :
    (gprWrite op g).getD (regs g) = wroteBy rax regs op g := by
  rw [gprWrite]
  by_cases hwide : IsWide op
  · rw [implicitWrite_of_isWide hwide, pairWrite, wroteBy, if_neg hsyscall, if_pos hwide]
    by_cases hrdx : g = .rdx
    · rw [if_pos hrdx, hrdx, Function.update_self]
      rfl
    rw [if_neg hrdx, Function.update_of_ne hrdx]
    by_cases hrax : g = .rax
    · rw [if_pos hrax, hrax, Function.update_self]
      rfl
    · rw [if_neg hrax, Function.update_of_ne hrax, hpaired.wide hwide,
        if_neg fun h ↦ hrax (Reg.gpr.inj h).symm]
      rfl
  · rw [implicitWrite_of_not_isWide hpaired.imul1 hwide (ne_rsp_of_mem hg), Option.none_or]
    split_ifs with hreg2
    · exact (wroteBy_reg2 hsyscall hpaired hrestores hg hreg2).symm
    · rw [wroteBy, if_neg hsyscall, if_neg hwide]
      exact (if_neg fun hsets ↦ hreg2 hsets.2).symm

end Wrote

/-! ## The invariant -/

/-- `Execute` runs a system call only while no uop in `ew_uop_queue` writes a register it passes
on other than the latest result's, none writes RAX, and the call itself retires without RAX; and
it runs no uop that hands back an outdated value for one of the registers. -/
def CallMeets (cur : Signals) (regs : Gpr → Word) (c : Core) : Prop :=
  ∀ op ∈ issued cur c, Restores regs op ∧ (op.opcode = .syscall →
    (∀ g ∈ callRegs, c.ex.prevReg1 = .gpr g ∨ ∀ o ∈ c.ewUopQueue, gprWrite o g = none) ∧
    (∀ o ∈ c.ewUopQueue, gprWrite o .rax = none) ∧ gprWrite op .rax = none)

instance (cur : Signals) (regs : Gpr → Word) (c : Core) : Decidable (CallMeets cur regs c) :=
  inferInstanceAs (Decidable (∀ op ∈ _, _ ∧ (_ → (∀ g ∈ _, _ ∨ ∀ o ∈ _, _) ∧ (∀ o ∈ _, _) ∧ _)))

/-- The system call gets the registers that the uops before it have left. -/
def CallRight (cur : Signals) (regs : Gpr → Word) (c : Core) : Prop :=
  ∀ op ∈ issued cur c, op.opcode = .syscall → ∀ g ∈ callRegs, syscallArg c g = regs g

instance (cur : Signals) (regs : Gpr → Word) (c : Core) : Decidable (CallRight cur regs c) :=
  inferInstanceAs (Decidable (∀ op ∈ _, _ → ∀ g ∈ _, _))

/-- With nothing to write it left, the register file has RAX. -/
def RaxKept (regs : Gpr → Word) (c : Core) : Prop :=
  (∀ o ∈ c.ewUopQueue, gprWrite o .rax = none) → c.regfile.gpr .rax = regs .rax

instance (regs : Gpr → Word) (c : Core) : Decidable (RaxKept regs c) :=
  inferInstanceAs (Decidable ((∀ o ∈ _, _) → _))

/-- What holds between two activations. -/
structure CallInv (c : Core) (regs : Gpr → Word) : Prop where
  latest : ∀ g ∈ callRegs, c.ex.prevReg1 = .gpr g → c.ex.prevValue1 = regs g
  retires : ∀ g ∈ callRegs, retired g c.ewUopQueue (c.regfile.gpr g) = regs g
  reading : c.ex.state = .read → Restores regs c.ex.op

theorem CallInv.raxKept {c : Core} {regs : Gpr → Word} (h : CallInv c regs) : RaxKept regs c := by
  intro hew
  rw [← h.retires .rax (by decide), retired_of_none hew]

section CallActs

variable {cur : Signals} {c c' : Core} {regs : Gpr → Word} {rax : Word}

theorem CallInv.dispatch (h : CallInv c regs) (cur : Signals) :
    CallInv (Dispatch.work cur c) regs := by
  have hwork := Dispatch.work_outcome cur c
  generalize Dispatch.work cur c = c' at hwork ⊢
  cases hwork <;> exact ⟨h.latest, h.retires, h.reading⟩

theorem CallInv.writeback (h : CallInv c regs) (cur : Signals) :
    CallInv (Writeback.work cur c) regs := by
  rcases Writeback.work_eq cur c with hwork | ⟨op, rest, hew, hwork⟩
  · rw [hwork]
    exact h
  · rw [hwork]
    refine ⟨h.latest, fun g hg ↦ ?_, h.reading⟩
    have hretires := h.retires g hg
    rw [hew] at hretires
    exact (retired_retire g op rest c.regfile).trans hretires

/-- A uop other than a system call is completed. -/
theorem CallInv.complete {op : Uop} (h : CallInv c regs) (hsyscall : op.opcode ≠ .syscall)
    (hpaired : Paired op) (hrestores : Restores regs op)
    (hew : c'.ewUopQueue = c.ewUopQueue ++ [op]) (hregfile : c'.regfile = c.regfile)
    (hstate : c'.ex.state ≠ .read)
    (hresults : (Execute.SameResults c.ex c'.ex ∧ (setsReg2 op.opcode = false ∨ op.reg2 = .none)) ∨
      Execute.NewResult op.reg2 op.value2 c.ex c'.ex) : CallInv c' (wroteBy rax regs op) := by
  refine ⟨fun g hg hprev ↦ ?_, fun g hg ↦ ?_, fun hread ↦ absurd hread hstate⟩
  · rcases hresults with ⟨hsame, hnone⟩ | hnew
    · rw [wroteBy_none hsyscall hpaired hnone, hsame.value1]
      exact h.latest g hg (hsame.reg1.symm.trans hprev)
    · rw [hnew.value1]
      exact (wroteBy_reg2 hsyscall hpaired hrestores hg (hnew.reg1.symm.trans hprev)).symm
  · rw [hew, hregfile, retired_append, h.retires g hg]
    exact getD_gprWrite hsyscall hpaired hrestores hg

/-- The memory answers a uop that waited for it. -/
theorem CallInv.answered {op : Uop} (h : CallInv c regs) (hshaped : Shaped c)
    (hstate : c.ex.state = .read) (hopcode : op.opcode = c.ex.op.opcode)
    (hsrc : op.src = c.ex.op.src)
    (hreg2 : op.reg2 = c.ex.op.reg2)
    (hvalue2 : setsReg2 op.opcode = false → op.value2 = c.ex.op.value2)
    (hstate' : c'.ex.state = .normal) (hregfile : c'.regfile = c.regfile)
    (hew : c'.ewUopQueue = c.ewUopQueue ++ [op])
    (hresults : (Execute.SameResults c.ex c'.ex ∧ (setsReg2 op.opcode = false ∨ op.reg2 = .none)) ∨
      Execute.NewResult op.reg2 op.value2 c.ex c'.ex) : CallInv c' (wroteBy rax regs op) := by
  obtain ⟨hreads, hfilled⟩ := hshaped.reading hstate
  have hrestores := h.reading hstate
  refine h.complete (fun hsyscall ↦ ?_) ⟨fun himul1 ↦ ?_, fun hwide ↦ ?_⟩
    (fun hsets g hg hrsp ↦ ?_) hew
    hregfile (by rw [hstate']; exact ExecState.noConfusion) hresults
  · rw [← hopcode, hsyscall] at hreads
    cases hreads
  · rw [hopcode]
    exact hfilled.imul1 (hsrc.symm.trans himul1)
  · rw [IsWide, hopcode, hsrc] at hwide
    exact hreg2.trans (hfilled.wide hwide)
  · rw [hvalue2 hsets]
    exact hrestores (hopcode ▸ hsets) g hg (hreg2.symm.trans hrsp)

/-- A system call is completed. -/
theorem CallInv.syscall {op : Uop} (h : CallInv c regs) (hop : op.opcode = .syscall)
    (hrestores : Restores regs op) (hnone : ∀ o ∈ c.ewUopQueue, gprWrite o .rax = none)
    (hrax : gprWrite op .rax = none) (hpaired : Paired op)
    (hew : c'.ewUopQueue = c.ewUopQueue ++ [op]) (hregfile : c'.regfile = c.regfile.set .rax rax)
    (hstate : c'.ex.state ≠ .read) (hnew : Execute.NewResult (.gpr .rax) rax c.ex c'.ex) :
    CallInv c' (wroteBy rax regs op) := by
  have hwrote : wroteBy rax regs op = Function.update regs .rax rax := if_pos hop
  rw [hwrote]
  refine ⟨fun g hg hprev ↦ ?_, fun g hg ↦ ?_, fun hread ↦ absurd hread hstate⟩
  · obtain rfl := Reg.gpr.inj (hnew.reg1.symm.trans hprev)
    rw [hnew.value1, Function.update_self]
  · rw [hew, hregfile, retired_append, Arf.set_gpr]
    by_cases hgrax : g = .rax
    · subst hgrax
      rw [hrax, Option.getD_none, Function.update_self, Function.update_self]
      exact retired_of_none hnone
    · rw [Function.update_of_ne hgrax, Function.update_of_ne hgrax, h.retires g hg, gprWrite,
        implicitWrite_of_not_isWide hpaired.imul1 ?_ (ne_rsp_of_mem hg), Option.none_or]
      · split_ifs with hreg2
        · exact hrestores (by rw [hop]; rfl) g hg hreg2
        · rfl
      · rintro (hop' | hop' | hop' | ⟨hop', -⟩) <;>
        · rw [hop] at hop'
          cases hop'

/-- What running the front uop starts from. -/
structure CallReady (c c₁ : Core) (regs : Gpr → Word) (op : Uop) : Prop where
  inv : CallInv c regs
  ex : Execute.SameResults c.ex c₁.ex
  regfile : c₁.regfile = c.regfile
  ewUopQueue : c₁.ewUopQueue = c.ewUopQueue
  state : c₁.ex.state ≠ .read
  filled : Filled op
  restores : Restores regs op
  syscall : op.opcode = .syscall → (∀ o ∈ c.ewUopQueue, gprWrite o .rax = none) ∧
    gprWrite op .rax = none

/-- The uop waits for the memory. -/
theorem CallReady.startRead {c₁ : Core} {op : Uop} (h : CallReady c c₁ regs op) (addr : Word) :
    CallInv (Execute.startRead op addr c₁) regs := by
  refine ⟨fun g hg hprev ↦ ?_, fun g hg ↦ ?_, fun _ ↦ h.restores⟩
  · exact h.ex.value1.trans (h.inv.latest g hg (h.ex.reg1.symm.trans hprev))
  · change retired g c₁.ewUopQueue (c₁.regfile.gpr g) = regs g
    rw [h.regfile, h.ewUopQueue]
    exact h.inv.retires g hg

/-- What the `switch` leaves of the uop. -/
theorem switchOp_paired {inp : CycleInput} {op op' : Uop} {c c' : Core}
    (h : Execute.switchOp inp op c = some (op', c')) (hop : Filled op) : Paired op' := by
  have hsame := (Execute.switchOp_kept h).1
  refine ⟨fun hsrc ↦ ?_, fun hwide ↦ ?_⟩
  · rw [hsame.opcode]
    exact hop.imul1 (hsame.src.symm.trans hsrc)
  · have hwide := (isWide_of_sameUop hsame).mp hwide
    exact (switchOp_isWide h hwide).trans (hop.wide hwide)

theorem switchOp_restores {inp : CycleInput} {op op' : Uop} {c c' : Core}
    (h : Execute.switchOp inp op c = some (op', c')) (hreads : reads op.opcode = false)
    (hop : Restores regs op) : Restores regs op' := by
  have hopcode := (Execute.switchOp_kept h).1.opcode
  intro hsets
  rw [hopcode] at hsets
  rcases switchOp_stack h hreads with ⟨-, rfl, -⟩ | ⟨-, -, hkeeps⟩
  · exact hop hsets
  · obtain rfl := hkeeps hsets
    exact hop hsets

/-- The code after the `switch` is reached. -/
theorem CallReady.finish {inp : CycleInput} {c₁ c₂ : Core} {op op' : Uop}
    (h : CallReady c c₁ regs op)
    (hop : reads op.opcode = false) (hswitch : Execute.switchOp inp op c₁ = some (op', c₂)) :
    CallInv (Execute.finish op' c₂)
      (wroteBy ((Execute.finish op' c₂).regfile.gpr .rax) regs op') := by
  obtain ⟨hsame, hkept⟩ := Execute.switchOp_kept hswitch
  have hstate : (Execute.finish op' c₂).ex.state ≠ .read := by
    rw [Execute.finish_state, hkept.state]
    exact h.state
  have hew : (Execute.finish op' c₂).ewUopQueue = c.ewUopQueue ++ [op'] := by
    rw [Execute.finish_ewUopQueue, hkept.ewUopQueue, h.ewUopQueue]
  have hpaired := switchOp_paired hswitch h.filled
  have hrestores := switchOp_restores hswitch hop h.restores
  cases finishes_of_switchOp hswitch with
  | result hforms hnew hregfile =>
    refine h.inv.complete hforms.2.1 hpaired hrestores hew (hregfile.trans h.regfile)
      hstate (.inr ?_)
    exact h.ex.newResult hnew
  | none hforms hsyscall hresults hregfile =>
    refine h.inv.complete hsyscall hpaired hrestores hew (hregfile.trans h.regfile) hstate
      (.inl ⟨h.ex.trans hresults, hforms.imp (fun hnop ↦ by rw [hnop]; rfl) id⟩)
  | syscall hopcode v hnew hregfile =>
    -- the result goes to the register file at once, past what waits to retire
    have hopcode₀ : op.opcode = .syscall := hsame.opcode ▸ hopcode
    obtain ⟨hnone, hrax⟩ := h.syscall hopcode₀
    have hkeeps : op' = op := by
      rcases switchOp_stack hswitch hop with ⟨hstack, -⟩ | ⟨-, -, hkeeps⟩
      · rw [hopcode₀] at hstack
        cases hstack
      · exact hkeeps (by rw [hopcode₀]; rfl)
    have hvalue : (Execute.finish op' c₂).regfile.gpr .rax = v := by
      rw [hregfile, Arf.set_gpr, Function.update_self]
    rw [hvalue]
    refine h.inv.syscall hopcode hrestores hnone (hkeeps ▸ hrax) hpaired hew ?_ hstate
      (h.ex.newResult hnew)
    rw [hregfile, h.regfile]

/-- How the monitor follows an activation of `Execute`. -/
def followRegs (c c' : Core) (regs : Gpr → Word) : Gpr → Word :=
  (completed c c').foldl (wroteBy (c'.regfile.gpr .rax)) regs

theorem CallInv.of_same (hew : c'.ewUopQueue = c.ewUopQueue) (h : CallInv c' regs) :
    CallInv c' (followRegs c c' regs) := by
  rw [followRegs, foldl_completed_same _ _ hew]
  exact h

theorem CallInv.of_append {op : Uop} (hew : c'.ewUopQueue = c.ewUopQueue ++ [op])
    (h : CallInv c' (wroteBy (c'.regfile.gpr .rax) regs op)) :
    CallInv c' (followRegs c c' regs) := by
  rw [followRegs, foldl_completed_append _ _ hew]
  exact h

/-- `Execute` runs the front uop. -/
theorem CallReady.run {c₁ : Core} {op : Uop} (h : CallReady c c₁ regs op) (inp : CycleInput) :
    (Execute.runOp inp op c₁).aborted = true ∨ CallInv (Execute.runOp inp op c₁)
      (followRegs c (Execute.runOp inp op c₁) regs) := by
  have hran := Execute.runOp_ran inp op c₁
  generalize Execute.runOp inp op c₁ = c' at hran ⊢
  cases hran with
  | read addr hreads => exact .inr (.of_same h.ewUopQueue (h.startRead addr))
  | died => exact .inl rfl
  | finished op' c₂ hreads hswitch =>
    refine .inr (.of_append ?_ (h.finish hreads hswitch))
    rw [Execute.finish_ewUopQueue, (Execute.switchOp_kept hswitch).2.ewUopQueue, h.ewUopQueue]

/-- **`Execute` keeps the invariant**, as long as the condition is met. -/
theorem CallInv.execute (inp : CycleInput) (h : CallInv c regs) (hshaped : Shaped c)
    (hmeets : CallMeets cur regs c) :
    (Execute.work inp cur c).aborted = true ∨ CallInv (Execute.work inp cur c)
      (followRegs c (Execute.work inp cur c) regs) := by
  have hwork := Execute.work_outcome inp cur c
  unfold CallMeets at hmeets
  generalize Execute.work inp cur c = c' at hwork ⊢
  generalize issued cur c = ran at hwork hmeets
  cases hwork with
  | idle => exact .inr (.of_same rfl ⟨h.latest, h.retires, h.reading⟩)
  | cleared => exact .inr (.of_same rfl ⟨h.latest, h.retires, h.reading⟩)
  | ret hclear hstate hready hop htag =>
    have hew : (Execute.completeRet cur (Execute.start c)).ewUopQueue =
        c.ewUopQueue ++ [{ c.ex.op with value3 := c.ex.op.value3 + 8 }] := rfl
    refine .inr (.of_append hew ?_)
    -- a `ret` forms no result
    refine h.answered hshaped hstate rfl rfl rfl (fun _ ↦ rfl) rfl rfl hew (.inl ⟨?_, .inl ?_⟩)
    · exact ⟨rfl, rfl, rfl, rfl⟩
    · rw [hop]
      rfl
  | pop hclear hstate hready hop htag =>
    have hew : (Execute.completePop cur (Execute.start c)).ewUopQueue =
        c.ewUopQueue ++
          [{ c.ex.op with value2 := cur.dData, value3 := c.ex.op.value3 + 8 }] := rfl
    refine .inr (.of_append hew ?_)
    refine h.answered hshaped hstate rfl rfl rfl (fun hsets ↦ ?_) rfl rfl hew (.inr ?_)
    · rw [hop] at hsets
      cases hsets
    · exact ⟨rfl, rfl, rfl, rfl⟩
  | load hclear hstate hready hop htag =>
    have hew : (Execute.completeLoad cur (Execute.start c)).ewUopQueue =
        c.ewUopQueue ++ [{ c.ex.op with value2 := cur.dData }] := rfl
    refine .inr (.of_append hew ?_)
    refine h.answered hshaped hstate rfl rfl rfl (fun hsets ↦ ?_) rfl rfl hew (.inr ?_)
    · rw [hop] at hsets
      cases hsets
    · exact ⟨rfl, rfl, rfl, rfl⟩
  | dropped front rest hclear hwait hde hunexp htakes =>
    have hstate := hshaped.not_read hwait
    exact .inr (.of_same rfl ⟨h.latest, h.retires, fun hread ↦ absurd hread hstate⟩)
  | ran front rest hclear hwait hew hde hexp htakes =>
    obtain ⟨hrestores, hcall⟩ := hmeets _ rfl
    have hready :
        CallReady c { Execute.select front (Execute.start c) with ex.firstrun := false } regs
        (Execute.forward c.ex c.offsetregValue front) :=
      ⟨h, ⟨rfl, rfl, rfl, rfl⟩, rfl, rfl, hshaped.not_read hwait,
        (hshaped.de front (hde ▸ List.mem_cons_self)).forward _ _, hrestores,
        fun hsyscall ↦ (hcall hsyscall).2⟩
    exact hready.run inp

/-- **The system call gets the right registers.** -/
theorem CallInv.right (h : CallInv c regs) (hmeets : CallMeets cur regs c) :
    CallRight cur regs c := by
  intro op hop hsyscall g hg
  obtain ⟨-, hcall⟩ := hmeets op hop
  obtain ⟨hregs, -⟩ := hcall hsyscall
  have hmem : g ∈ [Gpr.rax, .rdx, .rsp, .rsi, .rdi, .r8, .r9, .r10] := by
    revert g
    decide
  rw [syscallArg]
  -- an argument is the latest result, or comes from the register file
  by_cases hprev : c.ex.prevReg1 = .gpr g
  · rw [if_pos ⟨hprev, hmem⟩]
    exact h.latest g hg hprev
  · rw [if_neg fun hcond ↦ hprev hcond.1, ← h.retires g hg]
    exact (retired_of_none ((hregs g hg).resolve_left hprev)).symm

end CallActs

/-! ## Runs -/

/-- The monitor of the registers. -/
def callMonitor : Monitor (Gpr → Word) where
  follow _ _ c c' regs := followRegs c c' regs
  meets
    | .execute, cur, c, regs => decide (CallMeets cur regs c)
    | _, _, _, _ => true
  right
    | .execute, cur, c, regs => decide (RaxKept regs c) && decide (CallRight cur regs c)
    | _, _, c, regs => decide (RaxKept regs c)

theorem callMonitor_keeps : callMonitor.Keeps CallInv where
  deliver := fun _ h _ _ ↦ ⟨h.latest, h.retires, h.reading⟩
  dispatch := fun _ h _ ↦ h.dispatch _
  execute := fun inp hshaped h hmeets ↦ h.execute inp hshaped (of_decide_eq_true hmeets)
  writeback := fun _ h _ ↦ h.writeback _
  right := by
    rintro (_ | _ | _ | _) cur c regs - h hmeets
    · exact decide_eq_true h.raxKept
    · exact decide_eq_true h.raxKept
    · refine Bool.and_eq_true_iff.mpr ⟨decide_eq_true h.raxKept, decide_eq_true ?_⟩
      exact h.right (of_decide_eq_true hmeets)
    · exact decide_eq_true h.raxKept

/-- **What a system call sees and leaves.** In every run in which each step meets the condition,
under any order of the stages, every system call gets the registers that the uops before it have
left, and whenever nothing in `ew_uop_queue` writes RAX the register file has the value that a
system call has returned, until a later uop writes it. -/
theorem syscall_sequential (regs : Gpr → Word) (eflags : Eflags) (m : Mem) (expectedAddr : Word)
    (op : Uop) (cs : Cycles (List Insn))
    (hmet : (callMonitor.run cs (Monitor.start
      (Core.boot regs eflags m (.init expectedAddr op)) regs)).met = true) :
    let w := callMonitor.run cs (Monitor.start
      (Core.boot regs eflags m (.init expectedAddr op)) regs)
    w.right = true ∧ (w.pipe.core.aborted = true ∨ RaxKept w.seen w.pipe.core) := by
  have hinv : CallInv (Core.boot regs eflags m (.init expectedAddr op)) regs :=
    ⟨fun g _ hprev ↦ Reg.noConfusion hprev, fun _ _ ↦ rfl, fun hread ↦ ExecState.noConfusion hread⟩
  obtain ⟨hright, hend⟩ := Monitor.run_right callMonitor_keeps
    (shaped_boot regs eflags m expectedAddr op) hinv cs hmet
  exact ⟨hright, hend.imp id CallInv.raxKept⟩

/-! ## Two runs -/

/-- `mov rax, 12`: the number of `brk`. -/
private def movRaxBrk : Insn :=
  ⟨⟨.mov, { Decoder.Operand.none with type := .reg, size := 64, base := .gpr .rax },
    { Decoder.Operand.none with type := .imm, size := 32, lval := 12 }, .none⟩, 0x100, 7,
    fun _ ↦ ⟨0, 0, 0⟩, by decide⟩

private def syscallInsn : Insn :=
  ⟨⟨.syscall, .none, .none, .none⟩, 0x107, 2, fun _ ↦ ⟨0, 0, 0⟩, by decide⟩

/-- `mov rax, 12; syscall`, one behind the other, with the stages in this order in every cycle. -/
private def brkCycles (order : List Stage) (h : order.Perm stages) : Cycles (List Insn) :=
  ([[movRaxBrk], [syscallInsn]] ++ List.replicate 6 []).map fun is ↦
    ⟨⟨is, true, false, 0, 0, CycleInput.zero⟩, order, h⟩

/-- RDI is 0x3000000, behind the break. -/
private def brkCore : Core :=
  Core.boot (fun | .rdi => 0x3000000 | _ => 0) ⟨0⟩ (fun _ ↦ 0) (.init 0 Uop.zero)

/-- `Execute` runs before `Writeback`. -/
private def callFirst : Cycles (List Insn) :=
  brkCycles [.execute, .writeback, .dispatch, .decode] executeFirst_perm

/-- `Writeback` runs before `Execute`. -/
private def callLast : Cycles (List Insn) :=
  brkCycles [.writeback, .execute, .dispatch, .decode] writebackFirst_perm

/-- The system call returns 0x3000000. With `Execute` before `Writeback` the `mov` retires over
it, and RAX is 12 in the end. -/
theorem not_syscall_sequential_brk :
    (callMonitor.run callFirst (Monitor.start brkCore brkCore.regfile.gpr)).right = false ∧
      (callMonitor.run callFirst (Monitor.start brkCore brkCore.regfile.gpr)).pipe.core.ewUopQueue
        = [] ∧
      (callMonitor.run callFirst (Monitor.start brkCore brkCore.regfile.gpr)).seen .rax =
        0x3000000 ∧
      (callMonitor.run callFirst (Monitor.start brkCore brkCore.regfile.gpr)).pipe.core.regfile.gpr
        .rax = 12 := by
  decide +kernel

theorem syscall_sequential_brk :
    (callMonitor.run callLast (Monitor.start brkCore brkCore.regfile.gpr)).met = true ∧
      (callMonitor.run callLast (Monitor.start brkCore brkCore.regfile.gpr)).pipe.core.regfile.gpr
        .rax = 0x3000000 ∧
      (callMonitor.run callLast (Monitor.start brkCore brkCore.regfile.gpr)).right = true ∧
      ((callMonitor.run callLast
          (Monitor.start brkCore brkCore.regfile.gpr)).pipe.core.aborted = true ∨
        RaxKept (callMonitor.run callLast (Monitor.start brkCore brkCore.regfile.gpr)).seen
          (callMonitor.run callLast (Monitor.start brkCore brkCore.regfile.gpr)).pipe.core) := by
  have hmet :
      (callMonitor.run callLast (Monitor.start brkCore brkCore.regfile.gpr)).met = true := by
    decide +kernel
  exact ⟨hmet, by decide +kernel, syscall_sequential _ _ _ _ _ callLast hmet⟩

end Cse502.Pipeline
