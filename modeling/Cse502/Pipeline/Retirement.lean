import Cse502.Model.Sequential
import Cse502.Model.Writeback

/-!
# What retiring a uop writes

`Writeback` writes the second register of a uop and after it, by opcode, the stack pointer or the
register pair. Which values these are is settled by the uop, whatever the register file holds: so
`ew_uop_queue` takes every register from its present value to the one it will have.
-/

namespace Cse502.Pipeline

open Arch (IsWide)

/-- The values of the register pair. -/
def pairWrite (op : Uop) (g : Gpr) : Option Word :=
  if g = .rdx then some op.value3 else if g = .rax then some op.value2 else none

/-- What `Writeback` writes by opcode. -/
def implicitWrite (op : Uop) (g : Gpr) : Option Word :=
  match op.opcode with
  | .call | .ret | .pop => if g = .rsp then some op.value3 else none
  | .mul | .div | .idiv => pairWrite op g
  | _ => if op.src = .imul1 then pairWrite op g else none

/-- What retiring a uop writes to a register. -/
def gprWrite (op : Uop) (g : Gpr) : Option Word :=
  (implicitWrite op g).or (if op.reg2 = .gpr g then some op.value2 else none)

section Gpr

variable {g : Gpr} {op : Uop}

theorem set_gpr_getD (rf : Arf) (g g' : Gpr) (v : Word) :
    (rf.set g' v).gpr g = (if g = g' then some v else none).getD (rf.gpr g) := by
  rw [Arf.set_gpr, Function.update_apply]
  split_ifs with hg
  · exact Option.getD_some.symm
  · exact Option.getD_none.symm

/-- RDX is written after RAX. -/
theorem set_pair_gpr (rf : Arf) (op : Uop) (g : Gpr) :
    ((rf.set .rax op.value2).set .rdx op.value3).gpr g = (pairWrite op g).getD (rf.gpr g) := by
  rw [set_gpr_getD, set_gpr_getD, pairWrite]
  split_ifs <;> rfl

/-- The first write is that of `Op.reg2`. -/
theorem writeReg2_gpr (rf : Arf) (op : Uop) (g : Gpr) :
    (Writeback.writeReg2 rf op).gpr g =
      (if op.reg2 = .gpr g then some op.value2 else none).getD (rf.gpr g) := by
  rw [Writeback.writeReg2]
  split
  · next g' hg =>
    have hiff : op.reg2 = .gpr g ↔ g = g' := by
      rw [hg, Reg.gpr.injEq, eq_comm]
    simp only [hiff]
    exact set_gpr_getD rf g g' op.value2
  · next hrip => rw [if_neg (by rw [hrip]; exact Reg.noConfusion), Option.getD_none]
  · next hne _ => rw [if_neg (hne g), Option.getD_none]

theorem implicitWrite_of_stack (h : op.opcode = .call ∨ op.opcode = .ret ∨ op.opcode = .pop) :
    implicitWrite op g = if g = .rsp then some op.value3 else none := by
  rw [implicitWrite]
  rcases h with hop | hop | hop <;> simp only [hop]

theorem implicitWrite_of_pair (h : op.opcode = .mul ∨ op.opcode = .div ∨ op.opcode = .idiv) :
    implicitWrite op g = pairWrite op g := by
  rw [implicitWrite]
  rcases h with hop | hop | hop <;> simp only [hop]

theorem implicitWrite_of_not (hstack : ¬(op.opcode = .call ∨ op.opcode = .ret ∨ op.opcode = .pop))
    (hpair : ¬(op.opcode = .mul ∨ op.opcode = .div ∨ op.opcode = .idiv)) :
    implicitWrite op g = if op.src = .imul1 then pairWrite op g else none := by
  rw [implicitWrite]
  split
  · next hop => exact absurd (.inl hop) hstack
  · next hop => exact absurd (.inr (.inl hop)) hstack
  · next hop => exact absurd (.inr (.inr hop)) hstack
  · next hop => exact absurd (.inl hop) hpair
  · next hop => exact absurd (.inr (.inl hop)) hpair
  · next hop => exact absurd (.inr (.inr hop)) hpair
  · rfl

/-- The second write goes by opcode. -/
theorem writeImplicit_gpr (rf : Arf) (op : Uop) (g : Gpr) :
    (Writeback.writeImplicit rf op).gpr g = (implicitWrite op g).getD (rf.gpr g) := by
  rw [Writeback.writeImplicit]
  split
  · next hop =>
    rw [implicitWrite_of_stack (.inl hop)]
    exact set_gpr_getD rf g .rsp op.value3
  · next hop =>
    rw [implicitWrite_of_stack (.inr (.inl hop))]
    exact set_gpr_getD rf g .rsp op.value3
  · next hop =>
    rw [implicitWrite_of_stack (.inr (.inr hop))]
    exact set_gpr_getD rf g .rsp op.value3
  · next hop =>
    rw [implicitWrite_of_pair (.inl hop)]
    exact set_pair_gpr rf op g
  · next hop =>
    rw [implicitWrite_of_pair (.inr (.inl hop))]
    exact set_pair_gpr rf op g
  · next hop =>
    rw [implicitWrite_of_pair (.inr (.inr hop))]
    exact set_pair_gpr rf op g
  · next hcall hret hpop hmul hdiv hidiv =>
    rw [implicitWrite_of_not (not_or.mpr ⟨hcall, not_or.mpr ⟨hret, hpop⟩⟩)
      (not_or.mpr ⟨hmul, not_or.mpr ⟨hdiv, hidiv⟩⟩)]
    by_cases hsrc : op.src = .imul1
    · rw [if_pos hsrc, if_pos hsrc]
      exact set_pair_gpr rf op g
    · rw [if_neg hsrc, if_neg hsrc, Option.getD_none]

/-- **What retiring a uop does to a register.** -/
theorem retire_gpr (rf : Arf) (op : Uop) (g : Gpr) :
    (Writeback.retire rf op).gpr g = (gprWrite op g).getD (rf.gpr g) := by
  rw [Writeback.retire, writeImplicit_gpr, writeReg2_gpr, gprWrite]
  cases implicitWrite op g with
  | none => rw [Option.none_or, Option.getD_none]
  | some v => rfl

/-- A multiplication or division brings both values. -/
theorem implicitWrite_of_isWide (h : IsWide op) (g : Gpr) :
    implicitWrite op g = pairWrite op g := by
  rcases h with hop | hop | hop | ⟨hop, hsrc⟩
  · exact implicitWrite_of_pair (.inl hop)
  · exact implicitWrite_of_pair (.inr (.inl hop))
  · exact implicitWrite_of_pair (.inr (.inr hop))
  · rw [implicitWrite_of_not (by rw [hop]; decide) (by rw [hop]; decide), if_pos hsrc]

theorem implicitWrite_of_not_isWide (himul1 : op.src = .imul1 → op.opcode = .imul) (h : ¬IsWide op)
    (hg : g ≠ .rsp) : implicitWrite op g = none := by
  by_cases hstack : op.opcode = .call ∨ op.opcode = .ret ∨ op.opcode = .pop
  · rw [implicitWrite_of_stack hstack, if_neg hg]
  · have hpair : ¬(op.opcode = .mul ∨ op.opcode = .div ∨ op.opcode = .idiv) := fun hop ↦
      h (hop.imp id fun hop ↦ hop.imp id .inl)
    rw [implicitWrite_of_not hstack hpair,
      if_neg fun hsrc ↦ h (.inr (.inr (.inr ⟨himul1 hsrc, hsrc⟩)))]

end Gpr

/-! ## Retiring a queue -/

/-- A register after a queue has retired. -/
def retired (g : Gpr) (ew : List Uop) (v : Word) : Word :=
  ew.foldl (fun v op ↦ (gprWrite op g).getD v) v

section Retired

variable {g : Gpr} {ew : List Uop} {v : Word}

@[simp] theorem retired_nil (g : Gpr) (v : Word) : retired g [] v = v := rfl

theorem retired_append (g : Gpr) (ew : List Uop) (op : Uop) (v : Word) :
    retired g (ew ++ [op]) v = (gprWrite op g).getD (retired g ew v) := by
  rw [retired, List.foldl_append]
  rfl

/-- The front uop retires. -/
theorem retired_retire (g : Gpr) (op : Uop) (ew : List Uop) (rf : Arf) :
    retired g ew ((Writeback.retire rf op).gpr g) = retired g (op :: ew) (rf.gpr g) := by
  rw [retire_gpr]
  rfl

/-- A queue that does not write the register. -/
theorem retired_of_none (h : ∀ op ∈ ew, gprWrite op g = none) : retired g ew v = v := by
  induction ew with
  | nil => rfl
  | cons op ew ih =>
    obtain ⟨hop, hew⟩ := List.forall_mem_cons.mp h
    rw [retired, List.foldl_cons, hop, Option.getD_none]
    exact ih hew

end Retired

end Cse502.Pipeline
