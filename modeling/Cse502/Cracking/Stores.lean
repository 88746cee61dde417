import Cse502.Cracking.EffectiveAddress

/-!
# Stores in the three addressing forms

A `mov` to memory moves its source to the scratch register and stores that. The two paths with an
index register tell a register from an immediate; the path without one takes every source for a
register, so an immediate is looked up as the register `UD_NONE`, whose value is whatever the uop
held in memory.
-/

namespace Cse502.Cracking

open Decoder (Operand Ud Push Uninit push2q pushAll)

/-! ## Sources -/

/-- An immediate of one of the sizes x86 has. -/
inductive Imm
  | imm8 (v : BitVec 8) | imm16 (v : BitVec 16) | imm32 (v : BitVec 32) | imm64 (v : BitVec 64)
  deriving DecidableEq, Repr

namespace Imm

/-- The size udis86 reports for an immediate. -/
def size : Imm → ℕ
  | imm8 _ => 8
  | imm16 _ => 16
  | imm32 _ => 32
  | imm64 _ => 64

/-- The bytes udis86 reports for an immediate, in a word that was cleared before. -/
def lval : Imm → Word
  | imm8 v => v.setWidth 64
  | imm16 v => v.setWidth 64
  | imm32 v => v.setWidth 64
  | imm64 v => v

/-- The sign-extended value of an immediate. -/
def value : Imm → Word
  | imm8 v => v.signExtend 64
  | imm16 v => v.signExtend 64
  | imm32 v => v.signExtend 64
  | imm64 v => v

/-- **Immediates are sign extended** as the decoder reads them. -/
theorem signExtend_lval (i : Imm) : Decoder.signExtend i.lval i.size = i.value := by
  have key : ∀ {w : ℕ} (v : BitVec w), w = 8 ∨ w = 16 ∨ w = 32 →
      Decoder.signExtend (v.setWidth 64) w = v.signExtend 64 := by
    intro w v hw
    have hle : w ≤ 64 := by omega
    have hpow : 2 ^ w ≤ 2 ^ 64 := Nat.pow_le_pow_right (by omega) hle
    have hlt := v.isLt
    rw [Decoder.signExtend_eq hw, BitVec.setWidth_setWidth_of_le v hle, BitVec.setWidth_eq]
    rw [BitVec.toNat_setWidth, Nat.mod_eq_of_lt (by omega)]
    exact hlt
  cases i with
  | imm8 v => exact key v (.inl rfl)
  | imm16 v => exact key v (.inr (.inl rfl))
  | imm32 v => exact key v (.inr (.inr rfl))
  | imm64 v => exact Decoder.signExtend_64 v

end Imm

/-- The source of a store. -/
inductive Source
  | reg (g : Gpr) | imm (i : Imm)
  deriving DecidableEq, Repr

namespace Source

/-- What udis86 reports for a source. -/
def toOperand : Source → Operand
  | reg g => { Operand.none with type := .reg, size := 64, base := .gpr g }
  | imm i => { Operand.none with type := .imm, size := i.size, lval := i.lval }

/-- The value of a source. -/
def value (regs : Gpr → Word) : Source → Word
  | reg g => regs g
  | imm i => i.value

end Source

/-- `mov` of a source to memory. -/
def movStore (o : MemOperand) (src : Source) : Ud :=
  ⟨.mov, o.toOperand, src.toOperand, Operand.none⟩

/-! ## The uops -/

/-- The move of a source that is told apart from an immediate. -/
def Source.push : Source → Push
  | reg g => ⟨.mov, .gpr g, .scratchregls, .none, 0, .reg⟩
  | imm i => ⟨.mov, .none, .scratchregls, .none, i.value, .immed⟩

/-- The uop that moves the source to the scratch register. -/
def movePush (o : MemOperand) (src : Source) : Push :=
  if o.index = none then ⟨.mov, src.toOperand.base, .scratchregls, .none, 0, .reg⟩ else src.push

/-- The value of a source whose register is read: an immediate has none, and the uop keeps what was
in its memory. -/
def Source.readAsReg (regs : Gpr → Word) (junk : Word) : Source → Word
  | reg g => regs g
  | imm _ => junk

/-- The word that is stored, when the memory of the moving uop held `junk`. -/
def stored (o : MemOperand) (src : Source) (regs : Gpr → Word) (junk : Word) : Word :=
  if o.index = none then src.readAsReg regs junk else src.value regs

/-- The paths with an index register tell a register from an immediate. -/
private theorem crackStoreIndex_movStore (o : MemOperand) (src : Source) :
    Decoder.crackStoreIndex (movStore o src) src.toOperand = [src.push, Decoder.pushStore] := by
  rw [Decoder.crackStoreIndex]
  cases src with
  | reg g => rfl
  | imm i =>
    have hvalue : Decoder.signExtend (Source.imm i).toOperand.lval (Source.imm i).toOperand.size =
        i.value := i.signExtend_lval
    rw [hvalue]
    rfl

/-- A store is cracked into its address uops, a move and the store. -/
theorem crack_movStore (o : MemOperand) (src : Source) :
    Decoder.crack (movStore o src) =
      some (addressPart o.toOperand ++ [movePush o src, Decoder.pushStore]) := by
  have htype : (movStore o src).operand0.type = .mem := rfl
  have hsource : (movStore o src).operand1.type ≠ .none := by
    cases src <;> exact Decoder.OperandType.noConfusion
  have hmov : (movStore o src).mnemonic = .mov := rfl
  have hcrack : Decoder.crack (movStore o src) = some (Decoder.crackMemory (movStore o src)) := by
    simp [Decoder.crack, htype, hmov]
  have hindex : o.toOperand.index = .none ↔ o.index = none := by
    change o.index.elim Reg.none Reg.gpr = .none ↔ _
    cases o.index <;> simp
  rw [hcrack, Decoder.crackMemory, addressPart, movePush]
  simp only [if_pos htype, hsource, hmov, reduceCtorEq, if_false, or_self]
  change some (if o.toOperand.index = .none then _ else if o.toOperand.base = o.toOperand.index then
    Decoder.addressBaseIndex o.toOperand ++
      Decoder.crackStoreIndex (movStore o src) src.toOperand
    else Decoder.addressGeneral o.toOperand ++
      Decoder.crackStoreIndex (movStore o src) src.toOperand) = _
  rw [crackStoreIndex_movStore]
  by_cases h : o.index = none
  · rw [if_pos (hindex.mpr h), if_pos (hindex.mpr h), if_pos h]
    rfl
  · rw [if_neg (mt hindex.mp h), if_neg (mt hindex.mp h), if_neg h]
    split_ifs <;> rfl

section Run

variable (clzZero : ℕ) (s : Arch) (uninit : ℕ → Uninit) (address : Word) (size : ℕ)
  (o : MemOperand) (src : Source)

/-- The state after a store. -/
def afterStore : Arch := s.run clzZero (Decoder.crackAt uninit address size (movStore o src))

/-- **What a store does**, along every path. -/
theorem afterStore_eq :
    afterStore clzZero s uninit address size o src =
      { s with
        loadStore := o.built s.regs (Arch.next address size) (uninit 0).value1
        scratchls := stored o src s.regs (uninit (addressPart o.toOperand).length).value1
        mem := ByteMemory.store s.mem (o.built s.regs (Arch.next address size) (uninit 0).value1)
          (stored o src s.regs (uninit (addressPart o.toOperand).length).value1) } := by
  rw [afterStore, Decoder.crackAt_eq uninit address size (crack_movStore o src)]
  change s.run clzZero (pushAll uninit address size _) = _
  rw [Decoder.pushAll_append, Arch.run_append, run_addressPart, Decoder.pushAll_cons,
    Decoder.pushAll_cons, Decoder.pushAll_nil, Arch.run_cons, Arch.run_cons, Arch.run_nil,
    Nat.zero_add, movePush, stored]
  by_cases h : o.index = none
  · rw [if_pos h, if_pos h, Arch.step_mov, Arch.step_store]
    cases src <;> rfl
  · rw [if_neg h, if_neg h]
    cases src with
    | reg g =>
      rw [Source.push, Arch.step_mov, Arch.step_store]
      rfl
    | imm i =>
      rw [Source.push, Arch.step_movImm, Arch.step_store]
      rfl

/-- The memory holds the source at the address in `load_store_reg`, and no register changed. -/
def StoresSource (t : Arch) : Prop :=
  t.mem = ByteMemory.store s.mem t.loadStore (src.value s.regs) ∧ t.regs = s.regs

/-- The stores that are cracked right: an immediate needs an index register in the operand, or its
own value in the memory of the moving uop. -/
def StoreHandled (junk : Word) : Prop :=
  o.index = none → ∀ i, src = .imm i → junk = i.value

theorem stored_eq_value_iff (regs : Gpr → Word) (junk : Word) :
    stored o src regs junk = src.value regs ↔ StoreHandled o src junk := by
  rw [stored, StoreHandled]
  by_cases h : o.index = none
  · rw [if_pos h]
    cases src with
    | reg g => exact ⟨fun _ _ i hi ↦ Source.noConfusion hi, fun _ ↦ rfl⟩
    | imm i => exact ⟨fun hjunk _ j hj ↦ hjunk.trans (congrArg Imm.value (Source.imm.inj hj)),
        fun himm ↦ himm h i rfl⟩
  · rw [if_neg h]
    exact ⟨fun _ h' ↦ absurd h' h, fun _ ↦ rfl⟩

/-- **When a store stores its source.** -/
theorem storesSource_iff :
    StoresSource s src (afterStore clzZero s uninit address size o src) ↔
      StoreHandled o src (uninit (addressPart o.toOperand).length).value1 := by
  rw [← stored_eq_value_iff o src s.regs, afterStore_eq, StoresSource]
  generalize o.built s.regs (Arch.next address size) (uninit 0).value1 = a
  generalize stored o src s.regs (uninit (addressPart o.toOperand).length).value1 = w
  constructor
  · rintro ⟨hmem, -⟩
    have hload := congrArg (ByteMemory.load · a) hmem
    simpa only [ByteMemory.load_store_self] using hload
  · intro h
    exact ⟨by rw [h], rfl⟩

/-- Two forms of a store that are both cracked right and build the same address have the same effect
on memory and registers. -/
theorem afterStore_congr {o' : MemOperand} (uninit' : ℕ → Uninit)
    (h : StoreHandled o src (uninit (addressPart o.toOperand).length).value1)
    (h' : StoreHandled o' src (uninit' (addressPart o'.toOperand).length).value1)
    (hbuilt : o.built s.regs (Arch.next address size) (uninit 0).value1 =
      o'.built s.regs (Arch.next address size) (uninit' 0).value1) :
    (afterStore clzZero s uninit address size o src).mem =
        (afterStore clzZero s uninit' address size o' src).mem ∧
      (afterStore clzZero s uninit address size o src).regs =
        (afterStore clzZero s uninit' address size o' src).regs := by
  rw [← stored_eq_value_iff o src s.regs] at h
  rw [← stored_eq_value_iff o' src s.regs] at h'
  rw [afterStore_eq, afterStore_eq, hbuilt, h, h']
  exact ⟨rfl, rfl⟩

end Run

/-- `mov qword [rax], 5` with a zero in the memory of the uops stores that zero. -/
theorem not_storesSource_movRaxFive :
    ¬StoresSource ⟨fun _ ↦ 0x2000, 0, 0, ⟨0⟩, fun _ ↦ 0⟩ (.imm (.imm32 5))
      (afterStore 0 ⟨fun _ ↦ 0x2000, 0, 0, ⟨0⟩, fun _ ↦ 0⟩ (fun _ ↦ ⟨0, 0, 0⟩) 0x1000 7
        ⟨.gpr .rax, none, .x1, .none, 64⟩ (.imm (.imm32 5))) := by
  rintro ⟨hmem, -⟩
  have hbyte := congrFun hmem 0x2000
  revert hbyte
  decide

end Cse502.Cracking
