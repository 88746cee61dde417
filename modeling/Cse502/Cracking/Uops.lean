import Cse502.Model.Decoder
import Cse502.Model.Sequential

/-!
# Running a uop fresh from the decoder

The sequential machine on the uops `push2q` makes. A register operand is read at its latest value;
an operand whose register is `UD_NONE` keeps what was in memory when the uop was pushed.
-/

namespace Cse502.Arch

open Decoder (Push Uninit push2q)

/-- The latest value of a register, for a uop with this next address. A register nobody knows
leaves the field as it was. -/
def read (s : Arch) (next : Word) (r : Reg) (junk : Word) : Word :=
  match r with
  | .gpr g => s.regs g
  | .rip => next
  | .loadStoreReg => s.loadStore
  | .scratchregls => s.scratchls
  | _ => junk

section Read

variable (s : Arch) (next junk : Word)

@[simp] theorem read_gpr (g : Gpr) : s.read next (.gpr g) junk = s.regs g := rfl
@[simp] theorem read_rip : s.read next .rip junk = next := rfl
@[simp] theorem read_loadStoreReg : s.read next .loadStoreReg junk = s.loadStore := rfl
@[simp] theorem read_scratchregls : s.read next .scratchregls junk = s.scratchls := rfl
@[simp] theorem read_none : s.read next .none junk = junk := rfl

/-- Dispatch and the pseudo registers together read every register. -/
theorem pseudo_regValue (rip : Word) (op : Uop) (r : Reg) :
    s.pseudo r (Dispatch.regValue ⟨s.regs, rip⟩ op r junk) = s.read op.nextAddr r junk := by
  cases r <;> rfl

end Read

/-- The address of the next instruction. -/
abbrev next (address : Word) (size : ℕ) : Word := address + BitVec.ofNat 64 size

section Step

variable (clzZero : ℕ) (s : Arch) (u : Uninit) (address : Word) (size : ℕ)

/-- `mov` from a register. -/
theorem step_mov (r1 r2 : Reg) :
    s.step clzZero (push2q u address size ⟨.mov, r1, r2, .none, 0, .reg⟩) =
      s.write r2 (s.read (next address size) r1 u.value1) := by
  have hstep : s.step clzZero (push2q u address size ⟨.mov, r1, r2, .none, 0, .reg⟩) =
      s.write r2 (s.pseudo r1 (Dispatch.regValue ⟨s.regs, 0⟩
        (push2q u address size ⟨.mov, r1, r2, .none, 0, .reg⟩) r1 u.value1)) := rfl
  rw [hstep, pseudo_regValue]
  rfl

/-- `mov` of an immediate. -/
theorem step_movImm (r2 : Reg) (imm : Word) :
    s.step clzZero (push2q u address size ⟨.mov, .none, r2, .none, imm, .immed⟩) =
      s.write r2 imm := rfl

/-- `add` of a register to `load_store_reg`. -/
theorem step_add (r1 : Reg) :
    s.step clzZero (push2q u address size ⟨.add, r1, .loadStoreReg, .none, 0, .reg⟩) =
      s.write .loadStoreReg (s.loadStore + s.read (next address size) r1 u.value1) := by
  have hstep : s.step clzZero (push2q u address size ⟨.add, r1, .loadStoreReg, .none, 0, .reg⟩) =
      s.write .loadStoreReg (s.loadStore + s.pseudo r1 (Dispatch.regValue ⟨s.regs, 0⟩
        { push2q u address size ⟨.add, r1, .loadStoreReg, .none, 0, .reg⟩ with } r1 u.value1)) :=
      rfl
  rw [hstep, pseudo_regValue]
  rfl

/-- `add` of an immediate to `load_store_reg`. -/
theorem step_addImm (imm : Word) :
    s.step clzZero (push2q u address size ⟨.add, .none, .loadStoreReg, .none, imm, .immed⟩) =
      s.write .loadStoreReg (s.loadStore + imm) := rfl

/-- The multiplication of `load_store_reg` by a scale. -/
theorem step_loadmul (imm : Word) :
    s.step clzZero (push2q u address size ⟨.imul, .none, .loadStoreReg, .none, imm, .loadmul⟩) =
      s.write .loadStoreReg (s.loadStore * imm) := rfl

/-- `store` of the scratch word. -/
theorem step_store :
    s.step clzZero (push2q u address size Decoder.pushStore) =
      { s with mem := ByteMemory.store s.mem s.loadStore s.scratchls } := rfl

end Step

/-! ## Uops that leave the address alone -/

theorem write_loadStore (s : Arch) {r : Reg} (h : r ≠ .loadStoreReg) (v : Word) :
    (s.write r v).loadStore = s.loadStore := by
  cases r with
  | loadStoreReg => exact absurd rfl h
  | none | gpr g | rip | scratchreg | scratchregls | other code => rfl

/-- Dispatch never makes `load_store_reg` an operand that it was not. -/
private theorem readOperands_ne (rf : Arf) {op : Uop} (h1 : op.reg1 ≠ .loadStoreReg)
    (h2 : op.reg2 ≠ .loadStoreReg) :
    (Dispatch.readOperands rf op).reg1 ≠ .loadStoreReg ∧
      (Dispatch.readOperands rf op).reg2 ≠ .loadStoreReg := by
  have hreadValue1 : (Dispatch.readValue1 rf op).reg1 ≠ .loadStoreReg ∧
      (Dispatch.readValue1 rf op).reg2 ≠ .loadStoreReg := by
    rw [Dispatch.readValue1]
    split_ifs
    · exact ⟨h1, h2⟩
    · exact ⟨Reg.noConfusion, h2⟩
    · exact ⟨h1, h2⟩
  rw [Dispatch.readOperands]
  generalize Dispatch.readValue1 rf op = op' at hreadValue1
  rw [Dispatch.implicitOperands]
  split
  all_goals (try split_ifs)
  all_goals first
    | exact hreadValue1
    | exact ⟨hreadValue1.1, Reg.noConfusion⟩
    | exact ⟨Reg.noConfusion, Reg.noConfusion⟩

/-- The `switch` takes its destination from the second register or the first. -/
private theorem alu_reg2 (clzZero : ℕ) (op : Uop) (e : Eflags) :
    (Execute.alu clzZero op e).1.reg2 = op.reg2 ∨ (Execute.alu clzZero op e).1.reg2 = op.reg1 := by
  rw [Execute.alu]
  split
  all_goals try exact .inl rfl
  all_goals try exact .inr rfl
  · rw [Execute.mul]; split_ifs
    · exact .inl rfl
    · dsimp only; split_ifs <;> exact .inl rfl
  · rw [Execute.div]; split_ifs <;> exact .inl rfl
  · rw [Execute.idiv]; split_ifs <;> exact .inl rfl
  · rw [Execute.imul]; split <;> exact .inl rfl

/-- A uop that does not name `load_store_reg` leaves the address in it. -/
theorem loadStore_step (clzZero : ℕ) (s : Arch) {op : Uop} (h1 : op.reg1 ≠ .loadStoreReg)
    (h2 : op.reg2 ≠ .loadStoreReg) : (s.step clzZero op).loadStore = s.loadStore := by
  obtain ⟨hfetch1, hfetch2⟩ := readOperands_ne ⟨s.regs, 0⟩ h1 h2
  have hreg1 : (s.fetch op).reg1 ≠ .loadStoreReg := hfetch1
  have hreg2 : (s.fetch op).reg2 ≠ .loadStoreReg := hfetch2
  rw [step]
  generalize s.fetch op = op' at hreg1 hreg2 ⊢
  have halu : (Execute.alu clzZero op' s.eflags).1.reg2 ≠ .loadStoreReg := by
    rcases alu_reg2 clzZero op' s.eflags with h | h <;> rw [h]
    · exact hreg2
    · exact hreg1
  rw [execute]
  split
  · exact write_loadStore _ hreg2 _
  · exact write_loadStore _ hreg2 _
  · exact write_loadStore _ hreg2 _
  · exact write_loadStore _ hreg2 _
  · exact write_loadStore _ hreg2 _
  · exact write_loadStore _ hreg2 _
  · exact write_loadStore _ hreg2 _
  · dsimp only
    split_ifs
    · rfl
    · rw [write_loadStore _ halu]

end Cse502.Arch

namespace Cse502.Decoder

/-- The uops of a list of `push2q` calls. -/
def pushAll (uninit : ℕ → Uninit) (address : Word) (size : ℕ) (ps : List Push) : List Uop :=
  ps.mapIdx fun i p ↦ push2q (uninit i) address size p

section PushAll

variable (uninit : ℕ → Uninit) (address : Word) (size : ℕ)

@[simp] theorem pushAll_nil : pushAll uninit address size [] = [] := rfl

@[simp] theorem pushAll_cons (p : Push) (ps : List Push) :
    pushAll uninit address size (p :: ps) =
      push2q (uninit 0) address size p :: pushAll (fun i ↦ uninit (i + 1)) address size ps :=
  List.mapIdx_cons

theorem pushAll_append (ps qs : List Push) :
    pushAll uninit address size (ps ++ qs) = pushAll uninit address size ps ++
      pushAll (fun i ↦ uninit (i + ps.length)) address size qs := List.mapIdx_append

/-- Every uop of an instruction comes from one of its pushes. -/
theorem mem_pushAll {u : Uop} {ps : List Push} (h : u ∈ pushAll uninit address size ps) :
    ∃ p ∈ ps, ∃ i, u = push2q (uninit i) address size p := by
  obtain ⟨i, hi, hu⟩ := List.mem_mapIdx.mp h
  exact ⟨ps[i], List.getElem_mem hi, i, hu.symm⟩

end PushAll

end Cse502.Decoder
