import Cse502.Pipeline.Monitor
import Cse502.Pipeline.WideRuns

/-!
# The stack pointer in three places

RSP is kept in the register file, among the two latest results, and in the `stackpointer` of
`Execute`, which overrides the others unless it is zero. A uop that names RSP as its destination
updates all three. The implicit changes do not: `push`, `pushfq` and `call` assign `stackpointer`
and then take it back where their second register is RSP, which for a `push` or `call` through
memory is the base; `pop` into RSP assigns it for the last time before the word arrives; and
`Writeback` has no case for `push` and `pushfq`.

A monitor keeps the value RSP has to have. As long as no step goes wrong in one of these ways, or
reads a zero in `stackpointer` as one that was never set, all readers of RSP get that value, and
so does the register file when everything has retired.
-/

namespace Cse502.Pipeline

open Arch (IsWide)
open Execute (issued reads takesFront)

/-! ## Reads and writes of RSP -/

/-- The opcodes whose result goes to the second register. -/
def setsReg2 : Mnemonic → Bool
  | .mov | .cqo | .add | .sub | .dec | .inc | .mul | .div | .idiv | .imul | .and | .or | .xor | .neg
  | .pop | .load | .cmovnz | .cmovns | .cmovg | .shr | .sar | .shl | .sal => true
  | _ => false

/-- The second operand is RSP and a source of the uop. -/
def readsRsp2 (u : Uop) : Bool :=
  u.reg2 == .gpr .rsp && !overwrites u.opcode && !(u.opcode == .imul && u.src == .imul3)

/-- RSP is a source of the uop. -/
def readsRsp (u : Uop) : Bool := u.reg1 == .gpr .rsp || readsRsp2 u || u.reg3 == .gpr .rsp

/-- Every source of the uop that is RSP has this value. -/
structure GetsRsp (v : Word) (u : Uop) : Prop where
  value1 : u.reg1 = .gpr .rsp → u.value1 = v
  value2 : readsRsp2 u = true → u.value2 = v
  value3 : u.reg3 = .gpr .rsp → u.value3 = v

instance (v : Word) (u : Uop) : Decidable (GetsRsp v u) :=
  decidable_of_iff ((u.reg1 = .gpr .rsp → u.value1 = v) ∧ (readsRsp2 u = true → u.value2 = v) ∧
    (u.reg3 = .gpr .rsp → u.value3 = v)) ⟨fun h ↦ ⟨h.1, h.2.1, h.2.2⟩, fun h ↦ ⟨h.1, h.2, h.3⟩⟩

/-- `Dispatch` reads the first operand from the register file. -/
def readsFirst (u : Uop) : Bool := u.src == .reg || u.src == .imul2r || u.src == .imul3

/-! ## The monitor -/

/-- The value RSP has to have, and whether an instruction has changed it. -/
structure Rsp where
  value : Word
  changed : Bool
  deriving DecidableEq, Repr

/-- After a uop is completed. -/
def Rsp.after (s : Rsp) (op : Uop) : Rsp :=
  match op.opcode with
  | .push | .pushfq | .call => ⟨s.value - 8, true⟩
  | .ret => ⟨s.value + 8, true⟩
  | .pop => ⟨if op.reg2 = .gpr .rsp then op.value2 else s.value + 8, true⟩
  | _ => if setsReg2 op.opcode = true ∧ op.reg2 = .gpr .rsp then ⟨op.value2, true⟩ else s

/-- The uop that is run, if any, reads RSP only while `stackpointer` is set, or before RSP was
changed and then only where `Dispatch` has read it; it is no implicit change of RSP whose second
register is RSP; and the loop over the instruction's uops overwrites no RSP that was read from the
register file. -/
def StackRuns (s : Rsp) (c : Core) (ran : Option Uop) : Prop :=
  (∀ op ∈ ran, readsRsp op = true → c.ex.stackpointer ≠ 0 ∨
    (s.changed = false ∧ (op.reg1 = .gpr .rsp → readsFirst op = true))) ∧
  (∀ op ∈ ran, usesStack op.opcode = true → op.reg2 ≠ .gpr .rsp) ∧
  (∀ u ∈ c.deUopQueue.tail, c.ex.stackpointer = 0 → s.changed = false → readsRsp2 u = true →
    u.reg1 = c.ex.prevReg2 → c.ex.prevReg2 = .gpr .rsp)

instance (s : Rsp) (c : Core) (ran : Option Uop) : Decidable (StackRuns s c ran) :=
  inferInstanceAs (Decidable ((∀ op ∈ _, _ → _ ∨ (_ ∧ (_ → _))) ∧ (∀ op ∈ _, _ → _) ∧
    ∀ u ∈ _, _ → _ → _ → _ → _))

/-- An activation of `Execute` that takes a uop from the queue runs it like that. -/
def StackMeets (cur : Signals) (s : Rsp) (c : Core) : Prop :=
  takesFront cur c = true → StackRuns s c (issued cur c)

instance (cur : Signals) (s : Rsp) (c : Core) : Decidable (StackMeets cur s c) :=
  inferInstanceAs (Decidable (_ → _))

/-- The uop that is run gets the right stack pointer. -/
def StackRight (cur : Signals) (s : Rsp) (c : Core) : Prop :=
  ∀ op ∈ issued cur c, GetsRsp s.value op

instance (cur : Signals) (s : Rsp) (c : Core) : Decidable (StackRight cur s c) :=
  inferInstanceAs (Decidable (∀ op ∈ _, _))

section After

variable {s : Rsp} {op : Uop}

theorem Rsp.after_of_usesStack (hstack : usesStack op.opcode = true)
    (hreads : reads op.opcode = false) : s.after op = ⟨s.value - 8, true⟩ := by
  rw [Rsp.after]
  unfold usesStack at hstack
  split at hstack
  · next hop => rw [hop]
  · next hop =>
    rw [hop] at hreads
    cases hreads
  · next hop =>
    rw [hop] at hreads
    cases hreads
  · next hop => rw [hop]
  · next hop => rw [hop]
  · cases hstack

theorem Rsp.after_of_not_usesStack (hstack : usesStack op.opcode = false) : s.after op =
    if setsReg2 op.opcode = true ∧ op.reg2 = .gpr .rsp then ⟨op.value2, true⟩ else s := by
  rw [Rsp.after]
  split
  iterate 5
    · next hop =>
      rw [hop] at hstack
      cases hstack
  · rfl

end After

/-! ## The invariant -/

/-- What retiring a uop does to RSP. -/
def rspWrite (op : Uop) : Option Word :=
  if op.opcode = .call ∨ op.opcode = .ret ∨ op.opcode = .pop then some op.value3
  else if op.reg2 = .gpr .rsp then some op.value2
  else none

/-- Retiring the uop leaves RSP at this value. -/
def LeavesRsp (v : Word) (op : Uop) : Prop := ∀ w ∈ rspWrite op, w = v

/-- `Writeback` has no case for these: they move the stack pointer and retire without it. -/
def stale (op : Uop) : Bool := op.opcode == .push || op.opcode == .pushfq

/-- How a completed uop retires: RSP and the uop leave the value, the uop brings the new one, or
it is stale. -/
def Follows (s : Rsp) (op : Uop) : Prop :=
  ((s.after op).value = s.value ∧ LeavesRsp s.value op) ∨ rspWrite op = some (s.after op).value ∨
    stale op = true

/-- A uop that was read from the register file has the right stack pointer. -/
structure ReadRsp (v : Word) (u : Uop) : Prop where
  value1 : u.reg1 = .gpr .rsp → readsFirst u = true → u.value1 = v
  value2 : readsRsp2 u = true → u.value2 = v
  value3 : u.reg3 = .gpr .rsp → u.value3 = v

/-- Where RSP is to be found as long as it was not changed. -/
structure Fresh (v : Word) (c : Core) : Prop where
  regfile : c.regfile.gpr .rsp = v
  ew : ∀ op ∈ c.ewUopQueue, LeavesRsp v op
  prev1 : c.ex.prevReg1 = .gpr .rsp → c.ex.prevValue1 = v
  prev2 : c.ex.prevReg2 = .gpr .rsp → c.ex.prevValue2 = v
  queued : c.ex.stackpointer = 0 → ∀ u ∈ pending c, ReadRsp v u

/-- What holds between two activations. -/
structure StackInv (c : Core) (s : Rsp) : Prop where
  stackpointer : c.ex.stackpointer ≠ 0 → c.ex.stackpointer = s.value
  changed : s.changed = true → c.ex.stackpointer = s.value
  reading : c.ex.state = .read → usesStack c.ex.op.opcode = true →
    c.ex.op.value3 = s.value ∧ c.ex.op.reg2 ≠ .gpr .rsp
  fresh : s.changed = false → Fresh s.value c

/-- A `push` or `pushfq` is stale, and a `call` retires with the new value. -/
theorem follows_of_usesStack {op : Uop} (hstack : usesStack op.opcode = true)
    (hreads : reads op.opcode = false) :
    rspWrite { op with value3 := op.value3 - 8 } = some (op.value3 - 8) ∨
      stale { op with value3 := op.value3 - 8 } = true := by
  unfold usesStack at hstack
  split at hstack
  · next hop => exact .inl (if_pos (.inl hop))
  · next hop =>
    rw [hop] at hreads
    cases hreads
  · next hop =>
    rw [hop] at hreads
    cases hreads
  · next hop => exact .inr (by rw [stale, hop]; rfl)
  · next hop => exact .inr (by rw [stale, hop]; rfl)
  · cases hstack

/-- What an activation of `Execute` does to the invariant: it completes no uop, or it completes
one and the register file keeps RSP. -/
inductive StackStep (c c' : Core) (s : Rsp) : Prop
  | same (hew : c'.ewUopQueue = c.ewUopQueue) (hregfile : c'.regfile = c.regfile)
      (hinv : StackInv c' s)
  | appended (op : Uop) (hew : c'.ewUopQueue = c.ewUopQueue ++ [op])
      (hregfile : c'.regfile.gpr .rsp = c.regfile.gpr .rsp) (hfollows : Follows s op)
      (hinv : StackInv c' (s.after op))

theorem StackStep.inv {c c' : Core} {s : Rsp} (h : StackStep c c' s) :
    StackInv c' ((completed c c').foldl Rsp.after s) := by
  cases h with
  | same hew hregfile hinv =>
    rw [foldl_completed_same Rsp.after s hew]
    exact hinv
  | appended op hew hregfile hfollows hinv =>
    rw [foldl_completed_append Rsp.after s hew]
    exact hinv

/-- What retires to RSP. -/
theorem retire_rsp (rf : Arf) (op : Uop) :
    (Writeback.retire rf op).gpr .rsp = (rspWrite op).getD (rf.gpr .rsp) := by
  have hwrite : gprWrite op .rsp = rspWrite op := by
    rw [gprWrite, rspWrite]
    by_cases hstack : op.opcode = .call ∨ op.opcode = .ret ∨ op.opcode = .pop
    · rw [implicitWrite_of_stack hstack, if_pos rfl, if_pos hstack, Option.some_or]
    · -- RSP is not of the pair
      have hpair : pairWrite op .rsp = none := rfl
      have himplicit : implicitWrite op .rsp = none := by
        by_cases hmul : op.opcode = .mul ∨ op.opcode = .div ∨ op.opcode = .idiv
        · rw [implicitWrite_of_pair hmul, hpair]
        · rw [implicitWrite_of_not hstack hmul, hpair, ite_self]
      rw [himplicit, if_neg hstack, Option.none_or]
  rw [retire_gpr, hwrite]

theorem LeavesRsp.retire {v : Word} {op : Uop} (h : LeavesRsp v op) {rf : Arf}
    (hrf : rf.gpr .rsp = v) : (Writeback.retire rf op).gpr .rsp = v := by
  rw [retire_rsp]
  cases hwrite : rspWrite op with
  | none => exact hrf
  | some w => exact h w hwrite

/-! ## Operands -/

section Operands

variable {v : Word} {ex : Execute} {u : Uop}

theorem reg2_of_readsRsp2 (h : readsRsp2 u = true) : u.reg2 = .gpr .rsp := by
  rw [readsRsp2, Bool.and_eq_true, Bool.and_eq_true, beq_iff_eq] at h
  exact h.1.1

/-- An opcode without a result of its own reads its second operand. -/
theorem readsRsp2_of_not_sets (hreg2 : u.reg2 = .gpr .rsp) (h : setsReg2 u.opcode = false) :
    readsRsp2 u = true := by
  have hoverwrites : overwrites u.opcode = false := by
    unfold overwrites
    split
    iterate 7
      · next hop =>
        rw [hop] at h
        cases h
    · rfl
  have himul : (u.opcode == .imul) = false := by
    refine beq_eq_false_iff_ne.mpr fun hop ↦ ?_
    rw [hop] at h
    cases h
  rw [readsRsp2, hreg2, hoverwrites, himul]
  rfl

/-- The operands that are not named: RSP is read where it is one of them. -/
theorem readRsp_implicitOperands {rf : Arf} (hrf : rf.gpr .rsp = v)
    (h1 : u.reg1 = .gpr .rsp → readsFirst u = true → u.value1 = v)
    (h2 : u.reg2 = .gpr .rsp → u.value2 = v) (h3 : u.reg3 = .gpr .rsp → u.value3 = v) :
    ReadRsp v (Dispatch.implicitOperands rf u) := by
  have h2' : ∀ u' : Uop, u'.reg2 = u.reg2 → u'.value2 = u.value2 →
      readsRsp2 u' = true → u'.value2 = v :=
    fun u' hreg hvalue hread ↦ hvalue.trans (h2 (hreg ▸ reg2_of_readsRsp2 hread))
  have hother : ∀ {u' : Uop}, u'.reg2 ≠ .gpr .rsp → readsRsp2 u' = true → u'.value2 = v :=
    fun hne hread ↦ absurd (reg2_of_readsRsp2 hread) hne
  have hnone : Reg.none ≠ .gpr .rsp := Reg.noConfusion
  have hrax : Reg.gpr .rax ≠ .gpr .rsp := Reg.gpr_ne (by decide)
  have hrdx : Reg.gpr .rdx ≠ .gpr .rsp := Reg.gpr_ne (by decide)
  have himm : Reg.scratchreg ≠ .gpr .rsp := Reg.noConfusion
  rw [Dispatch.implicitOperands]
  split
  -- the stack pointer
  iterate 5 · exact ⟨h1, h2' _ rfl rfl, fun _ ↦ hrf⟩
  -- the register pair
  iterate 3 · exact ⟨h1, hother hrax, fun hreg ↦ absurd hreg hrdx⟩
  · exact ⟨fun hreg ↦ absurd hreg hnone, hother hnone, fun hreg ↦ absurd hreg hnone⟩
  · exact ⟨fun hreg ↦ absurd hreg hrax, hother hrdx, h3⟩
  · split_ifs
    · exact ⟨h1, hother hrax, fun hreg ↦ absurd hreg hrdx⟩
    · exact ⟨h1, h2' _ rfl rfl, fun hreg ↦ absurd hreg himm⟩
    · exact ⟨h1, h2' _ rfl rfl, h3⟩
    · exact ⟨h1, h2' _ rfl rfl, h3⟩
  · exact ⟨h1, h2' _ rfl rfl, h3⟩

/-- `Dispatch` reads the stack pointer from the register file. -/
theorem readRsp_readOperands {rf : Arf} (hrf : rf.gpr .rsp = v) (u : Uop) :
    ReadRsp v (Dispatch.readOperands rf u) := by
  have hread : ∀ (op : Uop) (r : Reg) (old : Word), r = .gpr .rsp →
      Dispatch.regValue rf op r old = v := by
    rintro op r old rfl
    exact hrf
  refine readRsp_implicitOperands hrf (fun hrsp hfirst ↦ ?_) (hread _ _ _) (hread _ _ _)
  change readsFirst (Dispatch.readValue1 rf u) = true at hfirst
  rw [readsFirst, Dispatch.readValue1_src, Bool.or_eq_true, Bool.or_eq_true, beq_iff_eq, beq_iff_eq,
    beq_iff_eq, or_assoc] at hfirst
  change (Dispatch.readValue1 rf u).reg1 = .gpr .rsp at hrsp
  change (Dispatch.readValue1 rf u).value1 = v
  rw [Dispatch.readValue1, if_pos hfirst] at hrsp ⊢
  exact hread _ _ _ hrsp

/-- The loop over the instruction's uops. -/
theorem ReadRsp.patch (h : ReadRsp v u) (hprev1 : ex.prevReg1 = .gpr .rsp → ex.prevValue1 = v)
    (hprev2 : ex.prevReg2 = .gpr .rsp → ex.prevValue2 = v)
    (hmatch : readsRsp2 u = true → u.reg1 = ex.prevReg2 → ex.prevReg2 = .gpr .rsp) :
    ReadRsp v (Execute.patchUop ex u) := by
  obtain ⟨hopcode, hsrc, hreg1, hreg2, hreg3, hvalue3⟩ := patchUop_fields ex u
  have hreads : readsRsp2 (Execute.patchUop ex u) = readsRsp2 u := by
    rw [readsRsp2, readsRsp2, hopcode, hsrc, hreg2]
  have hfirst : readsFirst (Execute.patchUop ex u) = readsFirst u := by
    rw [readsFirst, readsFirst, hsrc]
  refine ⟨fun hrsp hread ↦ ?_, fun hread ↦ ?_, fun hrsp ↦ ?_⟩
  · rw [hreg1] at hrsp
    rw [patchUop_value1]
    split_ifs with hprev
    · exact hprev1 (hprev.symm.trans hrsp)
    · exact h.value1 hrsp (hfirst ▸ hread)
  · rw [hreads] at hread
    have hrsp := reg2_of_readsRsp2 hread
    rw [patchUop_value2]
    split_ifs with hprev hprev'
    · exact hprev1 (hprev.2.symm.trans hrsp)
    · refine hprev2 (hprev'.elim (hmatch hread) fun heq ↦ heq.symm.trans hrsp)
    · exact h.value2 hread
  · rw [hreg3] at hrsp
    rw [hvalue3]
    exact h.value3 hrsp

/-- RSP after the forwarding code. -/
theorem forwardValue_rsp (ex : Execute) (w : Word) : Execute.forwardValue ex (.gpr .rsp) w =
    if ex.stackpointer ≠ 0 then ex.stackpointer
    else if .gpr .rsp = ex.prevReg1 then ex.prevValue1
    else if .gpr .rsp = ex.prevReg2 then ex.prevValue2 else w := by
  rw [Execute.forwardValue]
  simp only [true_and]

/-- While `stackpointer` is set it is what every reader of RSP gets. -/
theorem getsRsp_of_set (hsp : ex.stackpointer ≠ 0) (off : Word) (u : Uop) :
    GetsRsp ex.stackpointer (Execute.forward ex off u) := by
  refine ⟨fun hrsp ↦ ?_, fun hread ↦ ?_, fun hrsp ↦ ?_⟩
  · change u.reg1 = .gpr .rsp at hrsp
    rw [Execute.forward, hrsp, forwardValue_rsp, if_pos hsp]
  · change readsRsp2 u = true at hread
    rw [Execute.forward, reg2_of_readsRsp2 hread, forwardValue_rsp, if_pos hsp]
  · change u.reg3 = .gpr .rsp at hrsp
    rw [Execute.forward, hrsp, forwardValue_rsp, if_pos hsp]

/-- Before that the reader keeps what was read, or gets a result for RSP. -/
theorem ReadRsp.forward (h : ReadRsp v u) (hsp : ex.stackpointer = 0)
    (hprev1 : ex.prevReg1 = .gpr .rsp → ex.prevValue1 = v)
    (hprev2 : ex.prevReg2 = .gpr .rsp → ex.prevValue2 = v)
    (hfirst : u.reg1 = .gpr .rsp → readsFirst u = true) (off : Word) :
    GetsRsp v (Execute.forward ex off u) := by
  have hvalue : ∀ {w : Word}, w = v → Execute.forwardValue ex (.gpr .rsp) w = v := by
    intro w hw
    rw [forwardValue_rsp, if_neg (not_not.mpr hsp)]
    split_ifs with h1 h2
    · exact hprev1 h1.symm
    · exact hprev2 h2.symm
    · exact hw
  have hls : Reg.gpr .rsp ≠ .loadStoreReg := Reg.noConfusion
  refine ⟨fun hrsp ↦ ?_, fun hread ↦ ?_, fun hrsp ↦ ?_⟩
  · change u.reg1 = .gpr .rsp at hrsp
    rw [Execute.forward, hrsp]
    exact hvalue ((if_neg hls).trans (h.value1 hrsp (hfirst hrsp)))
  · change readsRsp2 u = true at hread
    rw [Execute.forward, reg2_of_readsRsp2 hread]
    exact hvalue ((if_neg hls).trans (h.value2 hread))
  · change u.reg3 = .gpr .rsp at hrsp
    rw [Execute.forward, hrsp]
    exact hvalue (h.value3 hrsp)

/-- A uop that does not read RSP has nothing to get wrong. -/
theorem getsRsp_of_readsRsp (h : readsRsp u = false) : GetsRsp v u := by
  rw [readsRsp, Bool.or_eq_false_iff, Bool.or_eq_false_iff, beq_eq_false_iff_ne,
    beq_eq_false_iff_ne] at h
  exact ⟨fun hrsp ↦ absurd hrsp h.1.1, fun hread ↦ Bool.noConfusion (h.1.2.symm.trans hread),
    fun hrsp ↦ absurd hrsp h.2⟩

end Operands

/-! ## The switch -/

section Switch

variable {inp : CycleInput} {op op' : Uop} {c c' : Core}

/-- What the `switch` does to a uop that has no result of its own: a `push`, `pushfq` or `call`
moves the stack pointer, and the others stay as they are. -/
theorem switchOp_stack (h : Execute.switchOp inp op c = some (op', c'))
    (hreads : reads op.opcode = false) :
    (usesStack op.opcode = true ∧ op' = { op with value3 := op.value3 - 8 } ∧
        c'.ex.stackpointer = op.value3 - 8) ∨
      (usesStack op.opcode = false ∧ c'.ex.stackpointer = c.ex.stackpointer ∧
        (setsReg2 op.opcode = false → op' = op)) := by
  have hjump : (Execute.doJump op c).ex.stackpointer = c.ex.stackpointer := by
    rw [Execute.doJump]
    split <;> rfl
  rw [Execute.switchOp] at h
  split at h
  · next hop =>
    obtain ⟨c₁, hcall, heq⟩ := Option.map_eq_some_iff.mp h
    obtain ⟨rfl, rfl⟩ := Prod.mk.inj heq
    rw [Execute.doSyscall, Option.map_eq_some_iff] at hcall
    obtain ⟨r, -, rfl⟩ := hcall
    exact .inr ⟨by rw [hop]; rfl, rfl, fun _ ↦ rfl⟩
  · next hop =>
    obtain ⟨rfl, rfl⟩ := Prod.mk.inj (Option.some.inj h)
    exact .inl ⟨by rw [hop]; rfl, rfl, rfl⟩
  · next hop =>
    obtain ⟨rfl, rfl⟩ := Prod.mk.inj (Option.some.inj h)
    exact .inl ⟨by rw [hop]; rfl, rfl, rfl⟩
  · next hop =>
    obtain ⟨rfl, rfl⟩ := Prod.mk.inj (Option.some.inj h)
    exact .inr ⟨by rw [hop]; rfl, rfl, fun _ ↦ rfl⟩
  · next hop =>
    obtain ⟨rfl, rfl⟩ := Prod.mk.inj (Option.some.inj h)
    exact .inl ⟨by rw [hop]; rfl, rfl, rfl⟩
  -- the jumps
  iterate 9
    · next hop =>
      obtain ⟨rfl, rfl⟩ := Prod.mk.inj (Option.some.inj h)
      refine .inr ⟨by rw [hop]; rfl, ?_, fun _ ↦ rfl⟩
      split_ifs
      · exact hjump
      · rfl
  -- `alu`, which has no case for the opcodes without a result
  · split_ifs at h
    obtain ⟨rfl, rfl⟩ := Prod.mk.inj (Option.some.inj h)
    refine .inr ⟨?_, rfl, fun hsets ↦ ?_⟩
    · rw [usesStack.eq_def]
      rw [reads] at hreads
      split <;> simp_all
    · rw [Execute.alu]
      split
      iterate 14
        · next hop =>
          rw [hop] at hsets
          cases hsets
      iterate 2 · rfl
      iterate 7
        · next hop =>
          rw [hop] at hsets
          cases hsets
      · rfl

/-- The `stackpointer` after the code behind the `switch`. -/
theorem finish_stackpointer (op : Uop) (c : Core) : (Execute.finish op c).ex.stackpointer =
    if op.opcode ≠ .nop ∧ op.opcode ≠ .syscall ∧ op.reg2 = .gpr .rsp then op.value2
    else c.ex.stackpointer := by
  have hiff : (op.opcode ≠ .nop ∧ op.opcode ≠ .syscall ∧ op.reg2 ≠ .none) ∧ op.reg2 = .gpr .rsp ↔
      op.opcode ≠ .nop ∧ op.opcode ≠ .syscall ∧ op.reg2 = .gpr .rsp := by
    constructor
    · rintro ⟨⟨hnop, hsyscall, -⟩, hrsp⟩
      exact ⟨hnop, hsyscall, hrsp⟩
    · rintro ⟨hnop, hsyscall, hrsp⟩
      exact ⟨⟨hnop, hsyscall, hrsp ▸ Reg.noConfusion⟩, hrsp⟩
  rw [← if_congr hiff rfl rfl]
  simp only [Execute.finish]
  split_ifs <;> simp_all

end Switch

/-! ## The stages -/

section Acts

variable {v : Word} {cur : Signals} {c c' : Core} {s : Rsp}

/-- RSP after reset. -/
def Rsp.start (v : Word) : Rsp := ⟨v, false⟩

theorem stackInv_boot (regs : Gpr → Word) (eflags : Eflags) (m : Mem) (expectedAddr : Word)
    (op : Uop) :
    StackInv (Core.boot regs eflags m (.init expectedAddr op)) (.start (regs .rsp)) := by
  refine ⟨fun hsp ↦ absurd rfl hsp, fun hchanged ↦ Bool.noConfusion hchanged,
    fun hread ↦ ExecState.noConfusion hread, fun _ ↦ ⟨rfl, List.forall_mem_nil _, fun hprev ↦ ?_,
      fun hprev ↦ ?_, fun _ ↦ List.forall_mem_nil _⟩⟩
  · exact Reg.noConfusion hprev
  · exact Reg.noConfusion hprev

theorem StackInv.deliver (h : StackInv c s) (us : List Uop) (ready : Bool) :
    StackInv { c with ddUopQueue := c.ddUopQueue ++ us, nxt.ddOutReady := ready } s := by
  refine ⟨h.stackpointer, h.changed, h.reading, fun hs ↦ ?_⟩
  have hf := h.fresh hs
  exact ⟨hf.regfile, hf.ew, hf.prev1, hf.prev2, hf.queued⟩

/-- `Dispatch` reads the operands of what it moves. -/
theorem StackInv.dispatch (h : StackInv c s) (cur : Signals) :
    StackInv (Dispatch.work cur c) s := by
  have hwork := Dispatch.work_outcome cur c
  generalize Dispatch.work cur c = c' at hwork ⊢
  cases hwork with
  | idle =>
    refine ⟨h.stackpointer, h.changed, h.reading, fun hs ↦ ?_⟩
    have hf := h.fresh hs
    exact ⟨hf.regfile, hf.ew, hf.prev1, hf.prev2, hf.queued⟩
  | cleared =>
    refine ⟨h.stackpointer, h.changed, h.reading, fun hs ↦ ?_⟩
    have hf := h.fresh hs
    exact ⟨hf.regfile, hf.ew, hf.prev1, hf.prev2, hf.queued⟩
  | moved front rest k hclear hdd hde haddr =>
    refine ⟨h.stackpointer, h.changed, h.reading, fun hs ↦ ?_⟩
    have hf := h.fresh hs
    refine ⟨hf.regfile, hf.ew, hf.prev1, hf.prev2, fun _ u hu ↦ ?_⟩
    obtain ⟨u₀, -, rfl⟩ := List.mem_map.mp (pending_subset _ hu)
    exact readRsp_readOperands hf.regfile u₀

/-- `Writeback` retires one uop. -/
theorem StackInv.writeback (h : StackInv c s) (cur : Signals) :
    StackInv (Writeback.work cur c) s := by
  rcases Writeback.work_eq cur c with hwork | ⟨op, rest, hew, hwork⟩
  · rw [hwork]
    exact h
  · rw [hwork]
    refine ⟨h.stackpointer, h.changed, h.reading, fun hs ↦ ?_⟩
    have hf := h.fresh hs
    have hleaves := hf.ew
    rw [hew] at hleaves
    exact ⟨(hleaves op List.mem_cons_self).retire hf.regfile,
      fun op' hop' ↦ hleaves op' (List.mem_cons_of_mem _ hop'), hf.prev1, hf.prev2, hf.queued⟩

/-- A uop has changed RSP, and `stackpointer` has the new value. -/
theorem stackInv_of_changed {s' : Rsp} (hsp : c'.ex.stackpointer = s'.value)
    (hchanged : s'.changed = true) (hstate : c'.ex.state ≠ .read) : StackInv c' s' :=
  ⟨fun _ ↦ hsp, fun _ ↦ hsp, fun hread ↦ absurd hread hstate,
    fun hfresh ↦ Bool.noConfusion (hchanged.symm.trans hfresh)⟩

/-- The two latest results are right where they are results for RSP. -/
def StackResults (v : Word) (ex ex' : Execute) : Prop :=
  Execute.SameResults ex ex' ∨ ∃ r w, Execute.NewResult r w ex ex' ∧ (r = .gpr .rsp → w = v)

/-- A uop is completed that leaves RSP as it is. -/
theorem StackInv.unchanged {op : Uop} (h : StackInv c s) (hleaves : LeavesRsp s.value op)
    (hsp : c'.ex.stackpointer = c.ex.stackpointer ∨ c'.ex.stackpointer = s.value)
    (hstate : c'.ex.state ≠ .read) (hregfile : c'.regfile.gpr .rsp = c.regfile.gpr .rsp)
    (hew : c'.ewUopQueue = c.ewUopQueue ++ [op]) (hresults : StackResults s.value c.ex c'.ex)
    (hqueued : s.changed = false → c.ex.stackpointer = 0 → ∀ u ∈ pending c', ReadRsp s.value u) :
    StackInv c' s := by
  refine ⟨fun hne ↦ ?_, fun hchanged ↦ ?_, fun hread ↦ absurd hread hstate, fun hs ↦ ?_⟩
  -- `stackpointer` is kept, or is given the value it has to have
  · rcases hsp with hsp | hsp
    · rw [hsp] at hne ⊢
      exact h.stackpointer hne
    · exact hsp
  · exact hsp.elim (fun hsp ↦ hsp.trans (h.changed hchanged)) id
  · have hf := h.fresh hs
    have hew' : ∀ op' ∈ c'.ewUopQueue, LeavesRsp s.value op' := by
      rw [hew]
      intro op' hop'
      rcases List.mem_append.mp hop' with hop' | hop'
      · exact hf.ew op' hop'
      · rw [List.mem_singleton.mp hop']
        exact hleaves
    have hzero : c'.ex.stackpointer = 0 → c.ex.stackpointer = 0 := by
      intro hzero
      by_contra hne
      exact hne (hsp.elim (fun hsp ↦ hsp.symm.trans hzero)
        fun hsp ↦ (h.stackpointer hne).trans (hsp.symm.trans hzero))
    rcases hresults with hsame | ⟨r, w, hnew, hrw⟩
    · refine ⟨hregfile.trans hf.regfile, hew', fun hprev ↦ ?_, fun hprev ↦ ?_,
        fun hz ↦ hqueued hs (hzero hz)⟩
      · rw [hsame.value1]
        exact hf.prev1 (hsame.reg1.symm.trans hprev)
      · rw [hsame.value2]
        exact hf.prev2 (hsame.reg2.symm.trans hprev)
    · refine ⟨hregfile.trans hf.regfile, hew', fun hprev ↦ ?_, fun hprev ↦ ?_,
        fun hz ↦ hqueued hs (hzero hz)⟩
      · rw [hnew.value1]
        exact hrw (hnew.reg1.symm.trans hprev)
      · rw [hnew.value2]
        exact hf.prev1 (hnew.reg2.symm.trans hprev)

/-- The loop over the instruction's uops leaves those behind the front one right. -/
theorem StackInv.patchLoop {rest : List Uop} (h : StackInv c s) (frontAddr : Word)
    (hrest : ∀ u ∈ rest, u ∈ pending c)
    (hmeets : ∀ u ∈ rest, c.ex.stackpointer = 0 → s.changed = false → readsRsp2 u = true →
      u.reg1 = c.ex.prevReg2 → c.ex.prevReg2 = .gpr .rsp)
    (hs : s.changed = false) (hsp : c.ex.stackpointer = 0) :
    ∀ u ∈ Execute.patchLoop c.ex frontAddr rest, ReadRsp s.value u := by
  intro u hu
  have hf := h.fresh hs
  obtain ⟨u₀, hmem, rfl | rfl⟩ := mem_patchLoop hu
  · exact hf.queued hsp u (hrest u hmem)
  · exact (hf.queued hsp u₀ (hrest u₀ hmem)).patch hf.prev1 hf.prev2 (hmeets u₀ hmem hsp hs)

/-- **The front uop gets the right stack pointer.** -/
theorem StackInv.getsRsp_front {front : Uop} {rest : List Uop} (h : StackInv c s)
    (hstate : c.ex.state ≠ .read) (hde : c.deUopQueue = front :: rest)
    (hmeets : readsRsp (Execute.forward c.ex c.offsetregValue front) = true →
      c.ex.stackpointer ≠ 0 ∨ (s.changed = false ∧
        ((Execute.forward c.ex c.offsetregValue front).reg1 = .gpr .rsp →
          readsFirst (Execute.forward c.ex c.offsetregValue front) = true))) :
    GetsRsp s.value (Execute.forward c.ex c.offsetregValue front) := by
  by_cases hsp : c.ex.stackpointer = 0
  · by_cases hread : readsRsp (Execute.forward c.ex c.offsetregValue front) = true
    · obtain ⟨hs, hfirst⟩ := (hmeets hread).resolve_left (not_not.mpr hsp)
      have hf := h.fresh hs
      exact (hf.queued hsp front (mem_pending hstate hde front List.mem_cons_self)).forward hsp
        hf.prev1 hf.prev2 hfirst _
    · exact getsRsp_of_readsRsp (Bool.not_eq_true _ ▸ hread)
  · rw [← h.stackpointer hsp]
    exact getsRsp_of_set hsp _ front

/-- What running the front uop starts from. -/
structure StackReady (c c₁ : Core) (s : Rsp) (op : Uop) : Prop where
  inv : StackInv c s
  ex : Execute.SameResults c.ex c₁.ex
  stackpointer : c₁.ex.stackpointer = c.ex.stackpointer
  regfile : c₁.regfile = c.regfile
  ewUopQueue : c₁.ewUopQueue = c.ewUopQueue
  state : c₁.ex.state ≠ .read
  filled : Filled op
  gets : GetsRsp s.value op
  reg2 : usesStack op.opcode = true → op.reg2 ≠ .gpr .rsp
  tail : s.changed = false → c.ex.stackpointer = 0 → ∀ u ∈ c₁.deUopQueue.tail, ReadRsp s.value u

/-- The uop waits for the memory. -/
theorem StackReady.startRead {c₁ : Core} {op : Uop} (h : StackReady c c₁ s op) (addr : Word) :
    StackInv (Execute.startRead op addr c₁) s := by
  refine ⟨fun hne ↦ ?_, fun hchanged ↦ ?_, fun _ hstack ↦ ?_, fun hs ↦ ?_⟩
  · exact h.stackpointer.trans (h.inv.stackpointer (h.stackpointer ▸ hne))
  · exact h.stackpointer.trans (h.inv.changed hchanged)
  · exact ⟨h.gets.value3 (h.filled.stack hstack), h.reg2 hstack⟩
  · have hf := h.inv.fresh hs
    refine ⟨?_, ?_, fun hprev ↦ ?_, fun hprev ↦ ?_, fun hz ↦ ?_⟩
    · exact (congrArg (·.gpr .rsp) h.regfile).trans hf.regfile
    · exact h.ewUopQueue ▸ hf.ew
    · exact h.ex.value1.trans (hf.prev1 (h.ex.reg1.symm.trans hprev))
    · exact h.ex.value2.trans (hf.prev2 (h.ex.reg2.symm.trans hprev))
    · exact h.tail hs (h.stackpointer.symm.trans hz)

/-- What the code behind the `switch` keeps. -/
theorem StackReady.finish_kept {inp : CycleInput} {c₁ c₂ : Core} {op op' : Uop}
    (h : StackReady c c₁ s op) (hswitch : Execute.switchOp inp op c₁ = some (op', c₂)) :
    (Execute.finish op' c₂).ewUopQueue = c.ewUopQueue ++ [op'] ∧
      (Execute.finish op' c₂).regfile.gpr .rsp = c.regfile.gpr .rsp ∧
      (Execute.finish op' c₂).ex.state ≠ .read := by
  obtain ⟨-, hkept⟩ := Execute.switchOp_kept hswitch
  refine ⟨?_, ?_, ?_⟩
  · rw [Execute.finish_ewUopQueue, hkept.ewUopQueue, h.ewUopQueue]
  · rw [← h.regfile]
    cases finishes_of_switchOp hswitch with
    | result _ _ hregfile => rw [hregfile]
    | none _ _ _ hregfile => rw [hregfile]
    | syscall hop v hnew hregfile =>
      rw [hregfile, Arf.set_gpr, Function.update_of_ne (by decide)]
  · rw [Execute.finish_state, hkept.state]
    exact h.state

/-- A `push`, `pushfq` or `call` is completed. -/
theorem StackReady.finish_usesStack {inp : CycleInput} {c₁ c₂ : Core} {op : Uop}
    (h : StackReady c c₁ s op) (hstack : usesStack op.opcode = true)
    (hop : reads op.opcode = false)
    (hswitch : Execute.switchOp inp op c₁ = some ({ op with value3 := op.value3 - 8 }, c₂))
    (hsp : c₂.ex.stackpointer = op.value3 - 8) :
    StackStep c (Execute.finish { op with value3 := op.value3 - 8 } c₂) s := by
  obtain ⟨hew, hregfile, hstate⟩ := h.finish_kept hswitch
  have hafter : s.after { op with value3 := op.value3 - 8 } = ⟨s.value - 8, true⟩ :=
    Rsp.after_of_usesStack hstack hop
  have hvalue3 : op.value3 = s.value := h.gets.value3 (h.filled.stack hstack)
  refine .appended _ hew hregfile (.inr ?_) ?_
  · rw [hafter, ← hvalue3]
    exact follows_of_usesStack hstack hop
  · rw [hafter]
    refine stackInv_of_changed ?_ rfl hstate
    -- the second register is not RSP, so `stackpointer` keeps what the `switch` has assigned
    rw [finish_stackpointer, if_neg fun hrsp ↦ h.reg2 hstack hrsp.2.2, hsp, hvalue3]

/-- A uop is completed that leaves the stack pointer to its second register. -/
theorem StackReady.finish_not_usesStack {inp : CycleInput} {c₁ c₂ : Core} {op op' : Uop}
    (h : StackReady c c₁ s op) (hstack : usesStack op.opcode = false)
    (hswitch : Execute.switchOp inp op c₁ = some (op', c₂))
    (hsp : c₂.ex.stackpointer = c₁.ex.stackpointer)
    (hkeeps : setsReg2 op.opcode = false → op' = op) : StackStep c (Execute.finish op' c₂) s := by
  obtain ⟨hsame, hkept⟩ := Execute.switchOp_kept hswitch
  obtain ⟨hew, hregfile, hstate⟩ := h.finish_kept hswitch
  have hstack' : usesStack op'.opcode = false := hsame.opcode ▸ hstack
  have hnone : ¬(op'.opcode = .call ∨ op'.opcode = .ret ∨ op'.opcode = .pop) := by
    rintro (hop | hop | hop) <;>
    · rw [hop] at hstack'
      cases hstack'
  have hafter := Rsp.after_of_not_usesStack hstack' (s := s)
  split_ifs at hafter with hsets
  · refine .appended _ hew hregfile (.inr (.inl ?_)) ?_
    · rw [hafter, rspWrite, if_neg hnone, if_pos hsets.2]
    rw [hafter]
    refine stackInv_of_changed ?_ rfl hstate
    have hopcode : op'.opcode ≠ .nop ∧ op'.opcode ≠ .syscall := by
      refine ⟨fun hop ↦ ?_, fun hop ↦ ?_⟩ <;>
      · rw [hop] at hsets
        cases hsets.1
    rw [finish_stackpointer, if_pos ⟨hopcode.1, hopcode.2, hsets.2⟩]
  · -- a uop without a result hands back the value it has read
    have hvalue : op'.reg2 = .gpr .rsp → op'.value2 = s.value := by
      intro hrsp
      have hnot : setsReg2 op.opcode = false := by
        rw [← Bool.not_eq_true, ← hsame.opcode]
        exact fun hset ↦ hsets ⟨hset, hrsp⟩
      obtain rfl := hkeeps hnot
      exact h.gets.value2 (readsRsp2_of_not_sets hrsp hnot)
    have hsp' : (Execute.finish op' c₂).ex.stackpointer = c.ex.stackpointer ∨
        (Execute.finish op' c₂).ex.stackpointer = s.value := by
      rw [finish_stackpointer]
      split_ifs with hrsp
      · exact .inr (hvalue hrsp.2.2)
      · exact .inl (hsp.trans h.stackpointer)
    have hleaves : LeavesRsp s.value op' := by
      intro w hw
      rw [rspWrite, if_neg hnone] at hw
      obtain ⟨hrsp, hw⟩ := Option.ite_none_right_eq_some.mp hw
      obtain rfl := Option.some.inj hw
      exact hvalue hrsp
    have hqueued : s.changed = false → c.ex.stackpointer = 0 →
        ∀ u ∈ pending (Execute.finish op' c₂), ReadRsp s.value u := by
      rw [pending, if_neg hstate, Execute.finish_deUopQueue, hkept.deUopQueue]
      exact h.tail
    have hresults : StackResults s.value c.ex (Execute.finish op' c₂).ex := by
      cases finishes_of_switchOp hswitch with
      | result hforms hnew => exact .inr ⟨_, _, h.ex.newResult hnew, hvalue⟩
      | none hforms hsyscall hsame => exact .inl (h.ex.trans hsame)
      | syscall hop v hnew =>
        refine .inr ⟨_, _, h.ex.newResult hnew, fun hreg ↦ ?_⟩
        exact absurd hreg (Reg.gpr_ne (by decide))
    refine .appended _ hew hregfile (.inl ⟨by rw [hafter], hleaves⟩) ?_
    rw [hafter]
    exact h.inv.unchanged hleaves hsp' hstate hregfile hew hresults hqueued

/-- The code after the `switch` is reached. -/
theorem StackReady.finish {inp : CycleInput} {c₁ c₂ : Core} {op op' : Uop}
    (h : StackReady c c₁ s op) (hop : reads op.opcode = false)
    (hswitch : Execute.switchOp inp op c₁ = some (op', c₂)) :
    StackStep c (Execute.finish op' c₂) s := by
  rcases switchOp_stack hswitch hop with ⟨hstack, rfl, hsp⟩ | ⟨hstack, hsp, hkeeps⟩
  · exact h.finish_usesStack hstack hop hswitch hsp
  · exact h.finish_not_usesStack hstack hswitch hsp hkeeps

/-- `Execute` runs the front uop. -/
theorem StackReady.run {c₁ : Core} {op : Uop} (h : StackReady c c₁ s op) (inp : CycleInput) :
    (Execute.runOp inp op c₁).aborted = true ∨ StackStep c (Execute.runOp inp op c₁) s := by
  have hran := Execute.runOp_ran inp op c₁
  generalize Execute.runOp inp op c₁ = c' at hran ⊢
  cases hran with
  | read addr hreads => exact .inr (.same h.ewUopQueue h.regfile (h.startRead addr))
  | died => exact .inl rfl
  | finished op' c₂ hreads hswitch => exact .inr (h.finish hreads hswitch)

/-- The front uop is ready once its operands have been forwarded. -/
theorem StackInv.ready {front : Uop} {rest : List Uop} (h : StackInv c s) (hshaped : Shaped c)
    (hwait : Execute.waiting cur c.ex = false) (hde : c.deUopQueue = front :: rest)
    (hmeets : StackRuns s c (some (Execute.forward c.ex c.offsetregValue front))) :
    StackReady c { Execute.select front (Execute.start c) with ex.firstrun := false } s
      (Execute.forward c.ex c.offsetregValue front) := by
  have hstate := hshaped.not_read hwait
  obtain ⟨hreads, hstack, hloop⟩ := hmeets
  rw [hde, List.tail_cons] at hloop
  refine ⟨h, ⟨rfl, rfl, rfl, rfl⟩, rfl, rfl, rfl, hstate,
    (hshaped.de front (hde ▸ List.mem_cons_self)).forward _ _,
    h.getsRsp_front hstate hde (hreads _ rfl), hstack _ rfl, fun hs hsp u hu ↦ ?_⟩
  refine h.patchLoop front.address (fun u hu ↦ ?_) hloop hs hsp u ?_
  · exact mem_pending hstate hde u (List.mem_cons_of_mem _ hu)
  · rw [← Execute.select_tail hde]
    exact hu

/-- The memory answers a `ret` or `pop`. -/
theorem stackStep_of_answered (op : Uop) (hew : c'.ewUopQueue = c.ewUopQueue ++ [op])
    (hregfile : c'.regfile = c.regfile) (hstate : c'.ex.state ≠ .read)
    (hvalue3 : op.value3 = s.value + 8) (hsp : c'.ex.stackpointer = op.value3)
    (hop : op.opcode = .ret ∨ op.opcode = .pop) (hafter : s.after op = ⟨s.value + 8, true⟩) :
    StackStep c c' s := by
  refine .appended _ hew (by rw [hregfile]) (.inr (.inl ?_)) ?_
  · rw [hafter, rspWrite, if_pos (.inr hop), hvalue3]
  · rw [hafter]
    exact stackInv_of_changed (hsp.trans hvalue3) rfl hstate

/-- **`Execute` keeps the invariant**, as long as the condition is met. -/
theorem StackInv.execute (inp : CycleInput) (h : StackInv c s) (hshaped : Shaped c)
    (hmeets : StackMeets cur s c) :
    (Execute.work inp cur c).aborted = true ∨ StackStep c (Execute.work inp cur c) s := by
  have hwork := Execute.work_outcome inp cur c
  unfold StackMeets at hmeets
  generalize Execute.work inp cur c = c' at hwork ⊢
  generalize issued cur c = ran at hwork hmeets
  cases hwork with
  | idle =>
    refine .inr (.same rfl rfl ⟨h.stackpointer, h.changed, h.reading, fun hs ↦ ?_⟩)
    have hf := h.fresh hs
    exact ⟨hf.regfile, hf.ew, hf.prev1, hf.prev2, hf.queued⟩
  | cleared =>
    refine .inr (.same rfl rfl ⟨h.stackpointer, h.changed, h.reading, fun hs ↦ ?_⟩)
    have hf := h.fresh hs
    exact ⟨hf.regfile, hf.ew, hf.prev1, hf.prev2,
      fun _ u hu ↦ absurd (pending_subset _ hu) List.not_mem_nil⟩
  | ret hclear hstate hready hop htag =>
    obtain ⟨hvalue3, -⟩ := h.reading hstate (by rw [hop]; rfl)
    refine .inr (stackStep_of_answered { c.ex.op with value3 := c.ex.op.value3 + 8 } rfl rfl nofun
      (congrArg (· + 8) hvalue3) rfl (.inl hop) ?_)
    rw [Rsp.after]
    simp only [hop]
  | pop hclear hstate hready hop htag =>
    obtain ⟨hvalue3, hreg2⟩ := h.reading hstate (by rw [hop]; rfl)
    refine .inr (stackStep_of_answered
      { c.ex.op with value2 := cur.dData, value3 := c.ex.op.value3 + 8 } rfl rfl nofun
      (congrArg (· + 8) hvalue3) rfl (.inr hop) ?_)
    rw [Rsp.after]
    simp only [hop, if_neg hreg2]
  | load hclear hstate hready hop htag =>
    -- the decoder loads to the scratch register only
    have hreg2 : c.ex.op.reg2 = .scratchregls := (hshaped.reading hstate).2.load hop
    have hew : (Execute.completeLoad cur (Execute.start c)).ewUopQueue =
        c.ewUopQueue ++ [{ c.ex.op with value2 := cur.dData }] := rfl
    have hafter : s.after { c.ex.op with value2 := cur.dData } = s := by
      rw [Rsp.after_of_not_usesStack (by rw [hop]; rfl), if_neg (by rw [hreg2]; exact nofun)]
    have hleaves : LeavesRsp s.value { c.ex.op with value2 := cur.dData } := by
      intro w hw
      rw [rspWrite, if_neg (by rw [hop]; decide), if_neg (by rw [hreg2]; exact nofun)] at hw
      cases hw
    refine .inr (.appended _ hew rfl (.inl ⟨by rw [hafter], hleaves⟩) ?_)
    rw [hafter]
    refine h.unchanged hleaves (.inl rfl) nofun rfl hew ?_ fun hs hsp u hu ↦ ?_
    · exact .inr ⟨c.ex.op.reg2, cur.dData, ⟨rfl, rfl, rfl, rfl⟩, by rw [hreg2]; exact nofun⟩
    · refine (h.fresh hs).queued hsp u ?_
      rw [pending, if_pos hstate]
      exact hu
  | dropped front rest hclear hwait hde hunexp htakes =>
    -- the loop over the instruction's uops has run before the address was looked at
    have hstate := hshaped.not_read hwait
    obtain ⟨-, -, hloop⟩ := hmeets htakes
    rw [hde, List.tail_cons] at hloop
    refine .inr (.same rfl rfl ⟨h.stackpointer, h.changed, fun hread ↦ absurd hread hstate,
      fun hs ↦ ?_⟩)
    have hf := h.fresh hs
    refine ⟨hf.regfile, hf.ew, hf.prev1, hf.prev2, fun hsp u hu ↦ ?_⟩
    refine h.patchLoop front.address (fun u hu ↦ ?_) hloop hs hsp u ?_
    · exact mem_pending hstate hde u (List.mem_cons_of_mem _ hu)
    · rw [← Execute.select_tail hde]
      exact pending_subset _ hu
  | ran front rest hclear hwait hew hde hexp htakes =>
    exact (h.ready hshaped hwait hde (hmeets htakes)).run inp

/-- **The uop that is run gets the right stack pointer.** -/
theorem StackInv.right (h : StackInv c s) (hshaped : Shaped c) (hmeets : StackMeets cur s c) :
    StackRight cur s c := by
  intro op hop
  have hwork := Execute.work_outcome CycleInput.zero cur c
  rw [Option.mem_def] at hop
  unfold StackMeets at hmeets
  rw [hop] at hwork hmeets
  generalize Execute.work CycleInput.zero cur c = c' at hwork
  cases hwork with
  | ran front rest hclear hwait hew hde hexp htakes =>
    exact h.getsRsp_front (hshaped.not_read hwait) hde ((hmeets htakes).1 _ rfl)

end Acts

end Cse502.Pipeline
