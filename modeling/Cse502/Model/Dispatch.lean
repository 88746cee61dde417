import Cse502.Model.Common

/-!
# Dispatch

`dispatch.cc`: `Dispatch::work` moves uops from `dd_uop_queue` to `de_uop_queue`, reading their
operands from the register file on the way. The three `switch` statements over the register number
are one function, `Dispatch.regValue`, applied to each operand.
-/

namespace Cse502.Dispatch

/-- The `switch` over a register number. A register no case names leaves the field as it is, which
for a uop fresh from the decoder is whatever was in memory. -/
def regValue (rf : Arf) (op : Uop) (r : Reg) (old : Word) : Word :=
  match r with
  | .gpr g => rf.gpr g
  | .rip => op.nextAddr
  | _ => old

/-- The first operand: a register, or the immediate under the number of the scratch register. -/
def readValue1 (rf : Arf) (op : Uop) : Uop :=
  if op.src = .reg ∨ op.src = .imul2r ∨ op.src = .imul3 then
    { op with value1 := regValue rf op op.reg1 op.value1 }
  else if op.src = .immed ∨ op.src = .imul2i ∨ op.src = .loadmul then
    { op with reg1 := .scratchreg, value1 := op.immed }
  else op

/-- The operands some opcodes use without naming them. -/
def implicitOperands (rf : Arf) (op : Uop) : Uop :=
  match op.opcode with
  | .call | .ret | .pop | .push | .pushfq =>
    { op with reg3 := .gpr .rsp, value3 := rf.gpr .rsp }
  | .mul | .div | .idiv =>
    { op with reg2 := .gpr .rax, value2 := rf.gpr .rax, reg3 := .gpr .rdx, value3 := rf.gpr .rdx }
  | .nop =>
    { op with reg1 := .none, reg2 := .none, reg3 := .none, value1 := 0, value2 := 0, value3 := 0 }
  | .cqo => { op with reg1 := .gpr .rax, value1 := rf.gpr .rax, reg2 := .gpr .rdx, value2 := 0 }
  | .imul =>
    if op.src = .imul1 then
      { op with reg2 := .gpr .rax, value2 := rf.gpr .rax, reg3 := .gpr .rdx, value3 := rf.gpr .rdx }
    else if op.src = .imul3 then
      if op.reg3 = .none then { op with reg3 := .scratchreg, value3 := op.immed } else op
    else op
  | _ => op

/-- What the loop of `Dispatch::work` does to one uop. -/
def readOperands (rf : Arf) (op : Uop) : Uop :=
  let op := readValue1 rf op
  let op := { op with value2 := regValue rf op op.reg2 op.value2 }
  let op := { op with value3 := regValue rf op op.reg3 op.value3 }
  implicitOperands rf op

/-- The loop of `Dispatch::work`: the counter `i` grows while the queue it is compared with
shrinks. -/
def loop (rf : Arf) (frontAddr : Word) : ℕ → List Uop → List Uop → List Uop × List Uop
  | _, [], de => ([], de)
  | i, op :: dd, de =>
    if i < (op :: dd).length ∧ op.address = frontAddr then
      loop rf frontAddr (i + 1) dd (de ++ [readOperands rf op])
    else (op :: dd, de)

/-- `Dispatch::work`. -/
def work (cur : Signals) (c : Core) : Core :=
  let c := { c with nxt.deOutReady := false }
  if cur.reset then c
  else if cur.clear then { c with ddUopQueue := [] }
  else if !cur.ddOutReady then c
  else match c.ddUopQueue with
    | [] => c
    | front :: _ =>
      -- one instruction at a time
      if 0 < c.deUopQueue.length then { c with nxt.deOutReady := true }
      else
        let r := loop c.regfile front.address 0 c.ddUopQueue c.deUopQueue
        { c with ddUopQueue := r.1, deUopQueue := r.2, nxt.deOutReady := true }

/-! ## What the reads leave alone -/

section Fields

variable (rf : Arf) (op : Uop)

@[simp] theorem readValue1_address : (readValue1 rf op).address = op.address := by
  rw [readValue1]; split_ifs <;> rfl

@[simp] theorem readValue1_opcode : (readValue1 rf op).opcode = op.opcode := by
  rw [readValue1]; split_ifs <;> rfl

@[simp] theorem readValue1_opsize : (readValue1 rf op).opsize = op.opsize := by
  rw [readValue1]; split_ifs <;> rfl

@[simp] theorem readValue1_src : (readValue1 rf op).src = op.src := by
  rw [readValue1]; split_ifs <;> rfl

@[simp] theorem implicitOperands_address : (implicitOperands rf op).address = op.address := by
  rw [implicitOperands]; split <;> (try split_ifs) <;> rfl

@[simp] theorem implicitOperands_opcode : (implicitOperands rf op).opcode = op.opcode := by
  rw [implicitOperands]; split <;> (try split_ifs) <;> rfl

@[simp] theorem implicitOperands_opsize : (implicitOperands rf op).opsize = op.opsize := by
  rw [implicitOperands]; split <;> (try split_ifs) <;> rfl

@[simp] theorem implicitOperands_src : (implicitOperands rf op).src = op.src := by
  rw [implicitOperands]; split <;> (try split_ifs) <;> rfl

@[simp] theorem readOperands_address : (readOperands rf op).address = op.address := by
  simp [readOperands]

@[simp] theorem readOperands_opcode : (readOperands rf op).opcode = op.opcode := by
  simp [readOperands]

@[simp] theorem readOperands_opsize : (readOperands rf op).opsize = op.opsize := by
  simp [readOperands]

@[simp] theorem readOperands_src : (readOperands rf op).src = op.src := by
  simp [readOperands]

end Fields

/-! ## What one activation can do -/

/-- The loop moves a prefix of the queue, all of it uops with the address asked for. -/
theorem loop_eq (rf : Arf) (frontAddr : Word) (i : ℕ) (dd de : List Uop) :
    ∃ k, loop rf frontAddr i dd de = (dd.drop k, de ++ (dd.take k).map (readOperands rf)) ∧
      ∀ u ∈ dd.take k, u.address = frontAddr := by
  induction dd generalizing i de with
  | nil => exact ⟨0, by simp [loop]⟩
  | cons op dd ih =>
    by_cases h : i < (op :: dd).length ∧ op.address = frontAddr
    · obtain ⟨k, hloop, haddr⟩ := ih (i + 1) (de ++ [readOperands rf op])
      refine ⟨k + 1, ?_, ?_⟩
      · rw [loop, if_pos h, hloop, List.drop_succ_cons, List.take_succ_cons, List.map_cons,
          List.append_assoc, List.singleton_append]
      · rw [List.take_succ_cons, List.forall_mem_cons]
        exact ⟨h.2, haddr⟩
    · exact ⟨0, by rw [loop, if_neg h]; simp, by simp⟩

/-- The ways one activation can end. -/
inductive Outcome (cur : Signals) (c : Core) : Core → Prop
  /-- Nothing but the ready signal changes. -/
  | idle (ready : Bool) (hclear : cur.reset = true ∨ cur.clear = false) :
      Outcome cur c { c with nxt.deOutReady := ready }
  /-- The queue is thrown away after a redirection. -/
  | cleared (hclear : cur.clear = true) :
      Outcome cur c { c with nxt.deOutReady := false, ddUopQueue := [] }
  /-- The front uop moves, with some of those of its instruction that follow it. -/
  | moved (front : Uop) (rest : List Uop) (k : ℕ) (hclear : cur.clear = false)
      (hdd : c.ddUopQueue = front :: rest) (hde : c.deUopQueue = [])
      (haddr : ∀ u ∈ rest.take k, u.address = front.address) :
      Outcome cur c
        { c with
          ddUopQueue := rest.drop k
          deUopQueue := (front :: rest.take k).map (readOperands c.regfile)
          nxt.deOutReady := true }

/-- **Every activation of `Dispatch::work` ends in one of the listed ways.** -/
theorem work_outcome (cur : Signals) (c : Core) : Outcome cur c (work cur c) := by
  rw [work]
  by_cases hreset : cur.reset = true
  · rw [if_pos hreset]
    exact .idle false (.inl hreset)
  rw [if_neg hreset]
  by_cases hclear : cur.clear = true
  · rw [if_pos hclear]
    exact .cleared hclear
  rw [if_neg hclear]
  rw [Bool.not_eq_true] at hclear
  by_cases hready : (!cur.ddOutReady) = true
  · rw [if_pos hready]
    exact .idle false (.inr hclear)
  rw [if_neg hready]
  split
  · exact .idle false (.inr hclear)
  · next front rest hdd =>
    have hdd' : c.ddUopQueue = front :: rest := hdd
    split_ifs with hlen
    · exact .idle true (.inr hclear)
    · have hde : c.deUopQueue = [] := List.length_eq_zero_iff.mp (Nat.eq_zero_of_not_pos hlen)
      obtain ⟨k, hloop, haddr⟩ := loop_eq c.regfile front.address 1 rest
        [readOperands c.regfile front]
      have hfront : loop c.regfile front.address 0 (front :: rest) [] =
          (rest.drop k, (front :: rest.take k).map (readOperands c.regfile)) := by
        rw [loop, if_pos ⟨Nat.succ_pos _, rfl⟩, List.nil_append, hloop]
        rfl
      simp only [hdd', hde, hfront]
      exact .moved front rest k hclear hdd' hde haddr

end Cse502.Dispatch
