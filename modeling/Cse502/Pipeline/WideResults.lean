import Cse502.Model.ExecuteRuns
import Cse502.Pipeline.Retirement
import Cse502.Pipeline.Stages

/-!
# The second destination of multiply and divide

`mul`, `div`, `idiv` and the one-operand `imul` leave their high half or remainder in `value3`, and
only `Writeback` takes it from there to RDX. The forwarding registers carry `value2`, so until the
uop has retired a reader of RDX can see an older value in two places: in the register file, when
`Dispatch` reads it too early, and in `prev_reg2`, when the result before the multiplication was one
for RDX. The loop of `Execute` that patches the later uops of an instruction adds a third, since its
first assignment changes `value2` on a match of `reg1`.

A monitor beside the pipeline keeps what RDX has to be, and whether the multiplication or division
formed the latest result. Then: what retires to RDX, and what becomes of an operand that is RDX on
its way through `Dispatch` and `Execute`.
-/

namespace Cse502.Pipeline

open Arch (IsWide)
open Execute (issued syscallArg takesFront)

/-! ## Reads and writes of RDX -/

/-- The opcodes that do not use the second operand's old value. -/
def overwrites : Mnemonic → Bool
  | .mov | .cqo | .inc | .dec | .neg | .pop | .load => true
  | _ => false

/-- The opcodes that leave the second operand as it is. -/
def keepsReg2 : Mnemonic → Bool
  | .cmp | .test | .store => true
  | _ => false

/-- The second operand is a source of the uop. The multiplication with three operands only writes
it. -/
def readsReg2 (u : Uop) : Bool :=
  u.reg2 == .gpr .rdx && !overwrites u.opcode && !(u.opcode == .imul && u.src == .imul3)

/-- The third operand is one. A multiplication names RDX as its third operand but the product does
not depend on it. -/
def readsReg3 (u : Uop) : Bool :=
  u.reg3 == .gpr .rdx && u.opcode != .mul && !(u.opcode == .imul && u.src == .imul1)

/-- RDX is a source of the uop. -/
def readsRdx (u : Uop) : Bool := u.reg1 == .gpr .rdx || readsReg2 u || readsReg3 u

/-- Every source of the uop that is RDX has this value. -/
def RightRdx (v : Word) (u : Uop) : Prop :=
  (u.reg1 = .gpr .rdx → u.value1 = v) ∧ (readsReg2 u = true → u.value2 = v) ∧
    (readsReg3 u = true → u.value3 = v)

instance (v : Word) (u : Uop) : Decidable (RightRdx v u) :=
  inferInstanceAs (Decidable ((_ → _) ∧ (_ → _) ∧ (_ → _)))

/-! ## The monitor -/

/-- What RDX has to be, if its last writer was a second destination, and whether that writer formed
the latest result. -/
structure Rdx where
  value : Option Word
  latest : Bool
  deriving DecidableEq, Repr

/-- A completed uop takes the place of the latest result. -/
def formsResult (op : Uop) : Bool :=
  match op.opcode with
  | .syscall | .pop | .load => true
  | .nop | .ret => false
  | _ => op.reg2 != .none

/-- After a uop is completed. -/
def Rdx.after (s : Rdx) (op : Uop) : Rdx :=
  if IsWide op then ⟨some op.value3, true⟩
  else
    { value := if op.src == .imul1 || (op.reg2 == .gpr .rdx && !keepsReg2 op.opcode) then none
        else s.value
      latest := s.latest && !formsResult op }

/-- The pipeline with the monitor. `met` is whether every step so far met the condition, `right`
whether every uop that was run got the right values. -/
structure Watched where
  pipe : Pipe Unit
  rdx : Rdx
  met : Bool
  right : Bool

/-- The decoder delivers any uops. -/
def anyUops (us : List Uop) (_ : Signals) (_ : Unit) : List Uop × Unit := (us, ())

/-- `Dispatch` moves no reader of RDX before the second destination has retired, and none whose
`value1` it does not read. -/
def DispatchMeets (cur : Signals) (c : Core) : Prop :=
  c.deUopQueue = [] → ∀ u ∈ (Dispatch.work cur c).deUopQueue, readsRdx u = true →
    (∀ op ∈ c.ewUopQueue, ¬IsWide op) ∧
      (u.reg1 = .gpr .rdx → u.src = .reg ∨ u.src = .imul2r ∨ u.src = .imul3)

/-- `prev_reg2` does not hold an older RDX. -/
def Recalls (rdx : Rdx) (ex : Execute) : Prop := ex.prevReg2 = .gpr .rdx → rdx.latest = false

/-- `Execute` runs no reader of RDX while `prev_reg2` holds an older RDX, and no system call
before the second destination has retired. It lets the loop over the instruction's uops overwrite
no operand that is RDX, and runs no uop with a second destination ahead of a reader of RDX that
was dispatched with it. -/
def ExecuteMeets (cur : Signals) (rdx : Rdx) (c : Core) : Prop :=
  takesFront cur c = true →
    (∀ op ∈ issued cur c, rdx.value.isSome → readsRdx op = true → Recalls rdx c.ex) ∧
    (∀ op ∈ issued cur c, rdx.value.isSome → op.opcode = .syscall →
      c.ex.prevReg1 = .gpr .rdx ∨ ∀ op' ∈ c.ewUopQueue, ¬IsWide op') ∧
    (∀ u ∈ c.deUopQueue.tail, rdx.value.isSome → readsReg2 u = true →
      u.reg1 = c.ex.prevReg2 ∨ u.reg2 = c.ex.prevReg2 →
        c.ex.prevReg2 = .gpr .rdx ∧ rdx.latest = false) ∧
    (∀ op ∈ issued cur c, IsWide op → ∀ u ∈ c.deUopQueue.tail, readsRdx u = false)

/-- The condition on one step. -/
def Meets (st : Stage) (w : Watched) : Prop :=
  match st with
  | .dispatch => w.rdx.value.isSome → DispatchMeets w.pipe.cur w.pipe.core
  | .execute => ExecuteMeets w.pipe.cur w.rdx w.pipe.core
  | _ => True

/-- A uop that is run has the value of the second destination wherever it reads RDX. A system call
takes its third argument from there. -/
def GetsRdx (v : Word) (c : Core) (op : Uop) : Prop :=
  RightRdx v op ∧ (op.opcode = .syscall → syscallArg c .rdx = v)

instance (v : Word) (c : Core) (op : Uop) : Decidable (GetsRdx v c op) :=
  inferInstanceAs (Decidable (_ ∧ (_ → _)))

/-- The uop this activation runs, if it runs one, gets the value of the second destination. -/
def RightNow (st : Stage) (w : Watched) : Prop :=
  st = .execute → w.pipe.core.aborted = false →
    ∀ op ∈ issued w.pipe.cur w.pipe.core, w.rdx.value.all fun v ↦ GetsRdx v w.pipe.core op

instance (cur : Signals) (c : Core) : Decidable (DispatchMeets cur c) :=
  inferInstanceAs (Decidable (_ → ∀ u ∈ _, _ → (∀ op ∈ _, _) ∧ (_ → _)))

instance (rdx : Rdx) (ex : Execute) : Decidable (Recalls rdx ex) :=
  inferInstanceAs (Decidable (_ → _))

instance (cur : Signals) (rdx : Rdx) (c : Core) : Decidable (ExecuteMeets cur rdx c) :=
  inferInstanceAs (Decidable (_ → (∀ op ∈ _, _ → _ → _) ∧ (∀ op ∈ _, _ → _ → _) ∧
    (∀ u ∈ _, _ → _ → _ → _) ∧ ∀ op ∈ _, _ → ∀ u ∈ _, _))

instance (st : Stage) (w : Watched) : Decidable (Meets st w) :=
  match st with
  | .dispatch => inferInstanceAs (Decidable (_ → DispatchMeets w.pipe.cur w.pipe.core))
  | .execute => inferInstanceAs (Decidable (ExecuteMeets w.pipe.cur w.rdx w.pipe.core))
  | .decode | .writeback => inferInstanceAs (Decidable True)

instance (st : Stage) (w : Watched) : Decidable (RightNow st w) :=
  inferInstanceAs (Decidable (_ → _ → ∀ op ∈ _, _))

/-- The uops an activation of `Execute` completed. -/
def completed (before after : Core) : List Uop := after.ewUopQueue.drop before.ewUopQueue.length

/-- One process of one cycle, with the monitor. -/
def watchAct (i : Input (List Uop)) (st : Stage) (w : Watched) : Watched :=
  let pipe := act anyUops i st w.pipe
  { pipe := pipe
    rdx := match st with
      | .execute => (completed w.pipe.core pipe.core).foldl Rdx.after w.rdx
      | _ => w.rdx
    met := w.met && Meets st w
    right := w.right && RightNow st w }

/-- The end of a cycle. -/
def watchCommit (i : Input (List Uop)) (w : Watched) : Watched := { w with pipe := commit i w.pipe }

/-- A run of the pipeline with the monitor. -/
def watchRun (cs : Cycles (List Uop)) (w : Watched) : Watched :=
  Schedule.run watchAct watchCommit cs w

/-- The pipeline after reset. -/
def Watched.start (c : Core) : Watched := ⟨Pipe.start c (), ⟨none, false⟩, true, true⟩

/-! ## What retires to RDX -/

/-- Retiring the uop leaves RDX at this value. -/
def Leaves (v : Word) (op : Uop) : Prop :=
  ∀ rf : Arf, rf.gpr .rdx = v → (Writeback.retire rf op).gpr .rdx = v

/-- Once `ew_uop_queue` has retired, RDX has this value: it has it now and nothing takes it away,
or a second destination in the queue brings it. -/
def RdxRetires (v : Word) (rf : Arf) (ew : List Uop) : Prop :=
  (rf.gpr .rdx = v ∧ ∀ op ∈ ew, Leaves v op) ∨
    ∃ pre op post, ew = pre ++ op :: post ∧ IsWide op ∧ op.value3 = v ∧ ∀ op' ∈ post, Leaves v op'

/-- A uop without a second destination writes its second operand, if any. -/
theorem leaves_of_reg2 {v : Word} {op : Uop} (hreg2 : op.reg2 = .gpr .rdx → op.value2 = v)
    (hwide : ¬IsWide op) (hsrc : op.src ≠ .imul1) : Leaves v op := by
  intro rf hrf
  rw [retire_gpr, gprWrite, implicitWrite_of_not_isWide (fun himul1 ↦ absurd himul1 hsrc) hwide
    Gpr.noConfusion, Option.none_or]
  split_ifs with hrdx
  · exact hreg2 hrdx
  · exact hrf

/-- A second destination is written last. -/
theorem retire_of_isWide {op : Uop} (h : IsWide op) (rf : Arf) :
    (Writeback.retire rf op).gpr .rdx = op.value3 := by
  rw [retire_gpr, gprWrite, implicitWrite_of_isWide h]
  rfl

namespace RdxRetires

variable {v : Word} {rf : Arf} {ew : List Uop}

theorem append (h : RdxRetires v rf ew) {op : Uop} (hop : Leaves v op) :
    RdxRetires v rf (ew ++ [op]) := by
  rcases h with ⟨hrf, hew⟩ | ⟨pre, w, post, rfl, hw, hv, hpost⟩
  · refine .inl ⟨hrf, fun op' hop' ↦ ?_⟩
    rcases List.mem_append.mp hop' with hop' | hop'
    · exact hew op' hop'
    · obtain rfl := List.mem_singleton.mp hop'
      exact hop
  · refine .inr ⟨pre, w, post ++ [op], by simp, hw, hv, fun op' hop' ↦ ?_⟩
    rcases List.mem_append.mp hop' with hop' | hop'
    · exact hpost op' hop'
    · obtain rfl := List.mem_singleton.mp hop'
      exact hop

theorem of_isWide (rf : Arf) (ew : List Uop) {op : Uop} (h : IsWide op) :
    RdxRetires op.value3 rf (ew ++ [op]) :=
  .inr ⟨ew, op, [], rfl, h, rfl, fun _ h ↦ absurd h List.not_mem_nil⟩

/-- The front uop retires. -/
theorem retire {op : Uop} (h : RdxRetires v rf (op :: ew)) :
    RdxRetires v (Writeback.retire rf op) ew := by
  rcases h with ⟨hrf, hew⟩ | ⟨pre, w, post, heq, hw, hv, hpost⟩
  · exact .inl ⟨hew op List.mem_cons_self rf hrf, fun op' h ↦ hew op' (List.mem_cons_of_mem _ h)⟩
  · cases pre with
    | nil =>
      obtain ⟨rfl, rfl⟩ := List.cons.inj heq
      exact .inl ⟨(retire_of_isWide hw rf).trans hv, hpost⟩
    | cons op' pre =>
      obtain ⟨rfl, rfl⟩ := List.cons.inj heq
      exact .inr ⟨pre, w, post, rfl, hw, hv, hpost⟩

/-- Without a second destination in the queue the value is in the register file. -/
theorem regfile (h : RdxRetires v rf ew) (hew : ∀ op ∈ ew, ¬IsWide op) : rf.gpr .rdx = v := by
  rcases h with ⟨hrf, -⟩ | ⟨pre, w, post, rfl, hw, -⟩
  · exact hrf
  · exact absurd hw (hew w (by simp))

/-- A system call writes RAX. -/
theorem set_rax (h : RdxRetires v rf ew) (v' : Word) : RdxRetires v (rf.set .rax v') ew := by
  rcases h with ⟨hrf, hew⟩ | h
  · refine .inl ⟨?_, hew⟩
    rw [Arf.set_gpr, Function.update_of_ne Gpr.noConfusion, hrf]
  · exact .inr h

end RdxRetires

/-! ## Operands -/

section Operands

variable {v : Word} {ex : Execute} {u : Uop}

/-- The loop over the instruction's uops changes two values only. -/
theorem patchUop_fields (ex : Execute) (u : Uop) :
    (Execute.patchUop ex u).opcode = u.opcode ∧ (Execute.patchUop ex u).src = u.src ∧
      (Execute.patchUop ex u).reg1 = u.reg1 ∧ (Execute.patchUop ex u).reg2 = u.reg2 ∧
      (Execute.patchUop ex u).reg3 = u.reg3 ∧ (Execute.patchUop ex u).value3 = u.value3 := by
  rw [Execute.patchUop]
  split_ifs <;> exact ⟨rfl, rfl, rfl, rfl, rfl, rfl⟩

theorem readsReg2_patchUop (ex : Execute) (u : Uop) :
    readsReg2 (Execute.patchUop ex u) = readsReg2 u := by
  obtain ⟨hopcode, hsrc, -, hreg2, -, -⟩ := patchUop_fields ex u
  rw [readsReg2, readsReg2, hopcode, hsrc, hreg2]

theorem readsRdx_patchUop (ex : Execute) (u : Uop) :
    readsRdx (Execute.patchUop ex u) = readsRdx u := by
  obtain ⟨hopcode, hsrc, hreg1, -, hreg3, -⟩ := patchUop_fields ex u
  rw [readsRdx, readsRdx, readsReg2_patchUop, readsReg3, readsReg3, hopcode, hsrc, hreg1, hreg3]

theorem isWide_patchUop (ex : Execute) (u : Uop) : IsWide (Execute.patchUop ex u) ↔ IsWide u := by
  obtain ⟨hopcode, hsrc, -, -, -, -⟩ := patchUop_fields ex u
  rw [IsWide, IsWide, hopcode, hsrc]

theorem reg2_of_readsReg2 (h : readsReg2 u = true) : u.reg2 = .gpr .rdx := by
  rw [readsReg2, Bool.and_eq_true, Bool.and_eq_true, beq_iff_eq] at h
  exact h.1.1

theorem reg3_of_readsReg3 (h : readsReg3 u = true) : u.reg3 = .gpr .rdx := by
  rw [readsReg3, Bool.and_eq_true, Bool.and_eq_true, beq_iff_eq] at h
  exact h.1.1

theorem readsReg2_of_keepsReg2 (hreg2 : u.reg2 = .gpr .rdx) (h : keepsReg2 u.opcode = true) :
    readsReg2 u = true := by
  unfold keepsReg2 at h
  split at h
  iterate 3
    · next hop =>
      rw [readsReg2, hreg2, hop]
      rfl
  · cases h

/-- A uop that does not read RDX has nothing to get wrong. -/
theorem right_of_readsRdx (h : readsRdx u = false) : RightRdx v u := by
  rw [readsRdx, Bool.or_eq_false_iff, Bool.or_eq_false_iff] at h
  refine ⟨fun hreg1 ↦ ?_, fun hreg2 ↦ ?_, fun hreg3 ↦ ?_⟩
  · rw [hreg1, beq_self_eq_true] at h
    exact Bool.noConfusion h.1.1
  · exact Bool.noConfusion (h.1.2.symm.trans hreg2)
  · exact Bool.noConfusion (h.2.symm.trans hreg3)

theorem patchUop_value1 (ex : Execute) (u : Uop) : (Execute.patchUop ex u).value1 =
    if u.reg1 = ex.prevReg1 then ex.prevValue1 else u.value1 := by
  rw [Execute.patchUop]
  split_ifs <;> rfl

theorem patchUop_value2 (ex : Execute) (u : Uop) : (Execute.patchUop ex u).value2 =
    if u.reg1 ≠ ex.prevReg1 ∧ u.reg2 = ex.prevReg1 then ex.prevValue1
    else if u.reg1 = ex.prevReg2 ∨ u.reg2 = ex.prevReg2 then ex.prevValue2 else u.value2 := by
  rw [Execute.patchUop]
  split_ifs <;> first | rfl | simp_all

/-- The loop leaves a right uop right, if `prev_reg1` has the right RDX and `prev_reg2` overwrites
no second operand that is RDX with something else. -/
theorem right_patchUop (h : RightRdx v u) (hprev1 : ex.prevReg1 = .gpr .rdx → ex.prevValue1 = v)
    (hprev2 : readsReg2 u = true → u.reg1 = ex.prevReg2 ∨ u.reg2 = ex.prevReg2 →
      ex.prevValue2 = v) : RightRdx v (Execute.patchUop ex u) := by
  obtain ⟨hopcode, hsrc, hreg1, -, hreg3, hvalue3⟩ := patchUop_fields ex u
  refine ⟨fun hrdx ↦ ?_, fun hreads ↦ ?_, fun hreads ↦ ?_⟩
  · rw [hreg1] at hrdx
    rw [patchUop_value1]
    split_ifs with hprev
    · exact hprev1 (hprev.symm.trans hrdx)
    · exact h.1 hrdx
  · rw [readsReg2_patchUop] at hreads
    rw [patchUop_value2]
    split_ifs with hprev hprev'
    · exact hprev1 (hprev.2.symm.trans (reg2_of_readsReg2 hreads))
    · exact hprev2 hreads hprev'
    · exact h.2.1 hreads
  · rw [readsReg3, hopcode, hsrc, hreg3] at hreads
    rw [hvalue3]
    exact h.2.2 hreads

/-- The loop changes uops one by one. -/
theorem mem_patchLoop {frontAddr : Word} {us : List Uop}
    (h : u ∈ Execute.patchLoop ex frontAddr us) :
    ∃ u₀ ∈ us, u = u₀ ∨ u = Execute.patchUop ex u₀ := by
  induction us with
  | nil => exact absurd h List.not_mem_nil
  | cons u₁ us ih =>
    rw [Execute.patchLoop] at h
    split_ifs at h
    · rcases List.mem_cons.mp h with rfl | h
      · exact ⟨u₁, List.mem_cons_self, .inr rfl⟩
      · obtain ⟨u₀, hmem, hu⟩ := ih h
        exact ⟨u₀, List.mem_cons_of_mem _ hmem, hu⟩
    · exact ⟨u, h, .inl rfl⟩

/-- An operand that is RDX after the forwarding code. -/
theorem forwardValue_rdx {v₀ : Word} (h : v₀ = v)
    (hprev1 : ex.prevReg1 = .gpr .rdx → ex.prevValue1 = v)
    (hprev2 : ex.prevReg2 = .gpr .rdx → ex.prevValue2 = v) :
    Execute.forwardValue ex (.gpr .rdx) v₀ = v := by
  rw [Execute.forwardValue, if_neg fun hrsp ↦ Gpr.noConfusion (Reg.gpr.inj hrsp.1)]
  split_ifs with h1 h2
  · exact hprev1 h1.symm
  · exact hprev2 h2.symm
  · exact h

/-- **The forwarding code hands on the right RDX**, unless `prev_reg2` holds an older one. -/
theorem right_forward (h : RightRdx v u) (off : Word)
    (hprev1 : ex.prevReg1 = .gpr .rdx → ex.prevValue1 = v)
    (hprev2 : readsRdx u = true → ex.prevReg2 = .gpr .rdx → ex.prevValue2 = v) :
    RightRdx v (Execute.forward ex off u) := by
  have hls : Reg.gpr .rdx ≠ .loadStoreReg := Reg.noConfusion
  refine ⟨fun hreg1 ↦ ?_, fun hreads ↦ ?_, fun hreads ↦ ?_⟩
  · change u.reg1 = .gpr .rdx at hreg1
    have hrdx : readsRdx u = true := by rw [readsRdx, hreg1]; rfl
    rw [Execute.forward, hreg1]
    exact forwardValue_rdx ((if_neg hls).trans (h.1 hreg1)) hprev1 (hprev2 hrdx)
  · change readsReg2 u = true at hreads
    have hrdx : readsRdx u = true := by rw [readsRdx, hreads, Bool.or_true, Bool.true_or]
    rw [Execute.forward, reg2_of_readsReg2 hreads]
    exact forwardValue_rdx ((if_neg hls).trans (h.2.1 hreads)) hprev1 (hprev2 hrdx)
  · change readsReg3 u = true at hreads
    have hrdx : readsRdx u = true := by rw [readsRdx, hreads, Bool.or_true]
    rw [Execute.forward, reg3_of_readsReg3 hreads]
    exact forwardValue_rdx (h.2.2 hreads) hprev1 (hprev2 hrdx)

/-- The operands that are not named: RDX is read where it is one of them. -/
theorem right_implicitOperands {rf : Arf} (hrf : rf.gpr .rdx = v)
    (h1 : (Dispatch.implicitOperands rf u).reg1 = .gpr .rdx → u.value1 = v)
    (h2 : u.reg2 = .gpr .rdx → u.value2 = v) (h3 : u.reg3 = .gpr .rdx → u.value3 = v) :
    RightRdx v (Dispatch.implicitOperands rf u) := by
  have h2' : ∀ u' : Uop, u'.reg2 = u.reg2 → u'.value2 = u.value2 →
      readsReg2 u' = true → u'.value2 = v :=
    fun u' hreg hvalue hreads ↦ hvalue.trans (h2 (hreg ▸ reg2_of_readsReg2 hreads))
  have hnone : Reg.none ≠ .gpr .rdx := Reg.noConfusion
  have hrax : Reg.gpr .rax ≠ .gpr .rdx := Reg.gpr_ne (by decide)
  have hrsp : Reg.gpr .rsp ≠ .gpr .rdx := Reg.gpr_ne (by decide)
  have himm : Reg.scratchreg ≠ .gpr .rdx := Reg.noConfusion
  rw [Dispatch.implicitOperands] at h1 ⊢
  split at h1
  -- the stack pointer
  iterate 5
    · exact ⟨h1, h2' _ rfl rfl, fun hreads ↦ absurd (reg3_of_readsReg3 hreads) hrsp⟩
  -- the register pair
  iterate 3
    · exact ⟨h1, fun hreads ↦ absurd (reg2_of_readsReg2 hreads) hrax, fun _ ↦ hrf⟩
  · exact ⟨fun hreg ↦ absurd hreg hnone, fun hreads ↦ absurd (reg2_of_readsReg2 hreads) hnone,
      fun hreads ↦ absurd (reg3_of_readsReg3 hreads) hnone⟩
  · next hop =>
    refine ⟨fun hreg ↦ absurd hreg hrax, fun hreads ↦ ?_,
      fun hreads ↦ h3 (reg3_of_readsReg3 hreads)⟩
    rw [readsReg2, hop] at hreads
    exact Bool.noConfusion hreads
  · split_ifs at h1 ⊢
    · exact ⟨h1, fun hreads ↦ absurd (reg2_of_readsReg2 hreads) hrax, fun _ ↦ hrf⟩
    · exact ⟨h1, h2' _ rfl rfl, fun hreads ↦ absurd (reg3_of_readsReg3 hreads) himm⟩
    · exact ⟨h1, h2' _ rfl rfl, fun hreads ↦ h3 (reg3_of_readsReg3 hreads)⟩
    · exact ⟨h1, h2' _ rfl rfl, fun hreads ↦ h3 (reg3_of_readsReg3 hreads)⟩
  · exact ⟨h1, h2' _ rfl rfl, fun hreads ↦ h3 (reg3_of_readsReg3 hreads)⟩

/-- **`Dispatch` reads RDX from the register file.** -/
theorem right_readOperands {rf : Arf} (hrf : rf.gpr .rdx = v)
    (hsrc : (Dispatch.readOperands rf u).reg1 = .gpr .rdx →
      u.src = .reg ∨ u.src = .imul2r ∨ u.src = .imul3) :
    RightRdx v (Dispatch.readOperands rf u) := by
  have hread : ∀ (op : Uop) (r : Reg) (old : Word),
      r = .gpr .rdx → Dispatch.regValue rf op r old = v := by
    rintro op r old rfl
    exact hrf
  refine right_implicitOperands hrf (fun hreg1 ↦ ?_) (hread _ _ _) (hread _ _ _)
  have hnamed : (Dispatch.readValue1 rf u).reg1 = .gpr .rdx := by
    rw [Dispatch.implicitOperands] at hreg1
    split at hreg1
    iterate 8 · exact hreg1
    · cases hreg1
    · cases hreg1
    · split_ifs at hreg1 <;> exact hreg1
    · exact hreg1
  -- neither operand read after the first one changes it
  change (Dispatch.readValue1 rf u).value1 = v
  rw [Dispatch.readValue1, if_pos (hsrc hreg1)] at hnamed ⊢
  exact hread _ _ _ hnamed

/-- The second operand of a uop with two destinations is RAX. -/
theorem reg2_readOperands {rf : Arf} (h : IsWide (Dispatch.readOperands rf u)) :
    (Dispatch.readOperands rf u).reg2 = .gpr .rax := by
  rw [IsWide, Dispatch.readOperands_opcode, Dispatch.readOperands_src] at h
  rw [Dispatch.readOperands, Dispatch.implicitOperands]
  rcases h with hop | hop | hop | ⟨hop, hsrc⟩ <;> simp [*]

end Operands

/-! ## The switch -/

section Switch

variable {inp : CycleInput} {op op' : Uop} {c c' : Core}

/-- A comparison or a store leaves its operands as they are. -/
theorem switchOp_keepsReg2 (h : Execute.switchOp inp op c = some (op', c'))
    (hkeeps : keepsReg2 op.opcode = true) : op' = op := by
  rw [Execute.switchOp] at h
  unfold keepsReg2 at hkeeps
  split at hkeeps
  · next hop =>
    simp only [hop, Execute.alu, Execute.divTraps] at h
    exact (Prod.mk.inj (Option.some.inj h)).1.symm
  · next hop =>
    simp only [hop, Execute.alu, Execute.divTraps] at h
    exact (Prod.mk.inj (Option.some.inj h)).1.symm
  · next hop =>
    rw [hop] at h
    exact (Prod.mk.inj (Option.some.inj h)).1.symm
  · cases hkeeps

/-- A multiplication or division keeps the number of its first destination. -/
theorem switchOp_isWide (h : Execute.switchOp inp op c = some (op', c')) (hwide : IsWide op) :
    op'.reg2 = op.reg2 := by
  have hmul : (Execute.mul inp.clzZero op).reg2 = op.reg2 := by
    rw [Execute.mul]
    split_ifs
    · rfl
    · dsimp only
      split_ifs <;> rfl
  have hdiv : (Execute.div op).reg2 = op.reg2 := by
    rw [Execute.div]
    split_ifs <;> rfl
  have hidiv : (Execute.idiv op).reg2 = op.reg2 := by
    rw [Execute.idiv]
    split_ifs <;> rfl
  rw [Execute.switchOp] at h
  rcases hwide with hop | hop | hop | ⟨hop, hsrc⟩
  · simp only [hop, Execute.alu] at h
    obtain ⟨-, h⟩ := Option.ite_none_left_eq_some.mp h
    obtain ⟨rfl, -⟩ := Prod.mk.inj (Option.some.inj h)
    exact hmul
  · simp only [hop, Execute.alu] at h
    obtain ⟨-, h⟩ := Option.ite_none_left_eq_some.mp h
    obtain ⟨rfl, -⟩ := Prod.mk.inj (Option.some.inj h)
    exact hdiv
  · simp only [hop, Execute.alu] at h
    obtain ⟨-, h⟩ := Option.ite_none_left_eq_some.mp h
    obtain ⟨rfl, -⟩ := Prod.mk.inj (Option.some.inj h)
    exact hidiv
  · simp only [hop, hsrc, Execute.alu, Execute.imul] at h
    obtain ⟨-, h⟩ := Option.ite_none_left_eq_some.mp h
    obtain ⟨rfl, -⟩ := Prod.mk.inj (Option.some.inj h)
    rfl

theorem isWide_of_sameUop (h : Execute.SameUop op op') : IsWide op' ↔ IsWide op := by
  rw [IsWide, IsWide, h.opcode, h.src]

end Switch

end Cse502.Pipeline
