import Cse502.Model.Common

/-!
# Writeback

`writeback.cc`: `Writeback::work` retires the front of `ew_uop_queue` into the register file.
-/

namespace Cse502.Writeback

/-- The `switch` over `Op.reg2`. -/
def writeReg2 (rf : Arf) (op : Uop) : Arf :=
  match op.reg2 with
  | .gpr g => rf.set g op.value2
  | .rip => { rf with rip := op.value2 }
  | _ => rf

/-- The second destinations, by opcode: the stack pointer or the register pair. -/
def writeImplicit (rf : Arf) (op : Uop) : Arf :=
  match op.opcode with
  | .call | .ret | .pop => rf.set .rsp op.value3
  | .mul | .div | .idiv => (rf.set .rax op.value2).set .rdx op.value3
  | _ => if op.src = .imul1 then (rf.set .rax op.value2).set .rdx op.value3 else rf

/-- What retiring one uop does to the register file. -/
def retire (rf : Arf) (op : Uop) : Arf :=
  writeImplicit (writeReg2 { rf with rip := op.nextAddr } op) op

/-- `Writeback::work`. -/
def work (cur : Signals) (c : Core) : Core :=
  if cur.reset then c
  else if !cur.ewOutReady then c
  else match c.ewUopQueue with
    | [] => c
    | op :: rest => { c with regfile := retire c.regfile op, ewUopQueue := rest }

/-- An activation retires the front uop or does nothing. -/
theorem work_eq (cur : Signals) (c : Core) :
    work cur c = c ∨ ∃ op rest, c.ewUopQueue = op :: rest ∧
      work cur c = { c with regfile := retire c.regfile op, ewUopQueue := rest } := by
  rw [work]
  split_ifs
  · exact .inl rfl
  · exact .inl rfl
  · cases hew : c.ewUopQueue with
    | nil => exact .inl rfl
    | cons op rest => exact .inr ⟨op, rest, rfl, rfl⟩

end Cse502.Writeback
