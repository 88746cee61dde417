import Cse502.Cracking.Stores

/-!
# Operations with a source in memory

An instruction `op mem, reg` is cracked into the uops of the address, a load into the scratch
register, and the operation on the scratch register and the destination. The destination is read
only by the last of these uops, so it may be the base or the index register as well.
-/

namespace Cse502.Cracking

open Decoder (Operand Ud Push Uninit push2q pushAll)

/-! ## Operations of two operands -/

/-- The arithmetic operations that may have a destination in memory. -/
inductive Arith
  | add | sub | and | or | xor
  deriving DecidableEq, Repr

/-- The mnemonic of an arithmetic operation. -/
def Arith.mnemonic : Arith → Mnemonic
  | add => .add
  | sub => .sub
  | and => .and
  | or => .or
  | xor => .xor

/-- The mnemonics `crack_opcodes` treats apart from the others. -/
def IsSpecial (m : Mnemonic) : Prop := m = .lea ∨ m = .cmp ∨ m = .test ∨ m = .imul

instance : DecidablePred IsSpecial := fun m ↦
  inferInstanceAs (Decidable (m = .lea ∨ m = .cmp ∨ m = .test ∨ m = .imul))

theorem Arith.not_isSpecial (op : Arith) : ¬IsSpecial op.mnemonic := by
  cases op <;> decide

/-- What an arithmetic operation makes of its destination and its source. -/
def Arith.result (dst src : Word) : Arith → Word
  | add => dst + src
  | sub => dst - src
  | and => dst &&& src
  | or => dst ||| src
  | xor => dst ^^^ src

/-- The operations whose source may be in memory. -/
inductive Binary
  | mov | arith (op : Arith) | cmovnz | cmovns | cmovg
  deriving DecidableEq, Repr

/-- The mnemonic of an operation. -/
def Binary.mnemonic : Binary → Mnemonic
  | mov => .mov
  | arith op => op.mnemonic
  | cmovnz => .cmovnz
  | cmovns => .cmovns
  | cmovg => .cmovg

theorem Binary.not_isSpecial (b : Binary) : ¬IsSpecial b.mnemonic := by
  cases b with
  | arith op => exact op.not_isSpecial
  | mov | cmovnz | cmovns | cmovg => decide

/-- What an operation makes of the flags, its destination and its source. -/
def Binary.result (e : Eflags) (dst src : Word) : Binary → Word
  | mov => src
  | arith op => op.result dst src
  | cmovnz => if e.test Eflags.maskZF then dst else src
  | cmovns => if e.test Eflags.maskSF then dst else src
  | cmovg =>
    if (e.test Eflags.maskSF ^^ e.test Eflags.maskOF) || e.test Eflags.maskZF then dst else src

section Step

variable (clzZero : ℕ) (s : Arch) (u : Uninit) (address : Word) (size : ℕ)

/-- The uop of an operation puts its result in its second register. -/
theorem step_binary (b : Binary) (r1 r2 : Reg) :
    s.step clzZero (push2q u address size ⟨b.mnemonic, r1, r2, .none, 0, .reg⟩) =
      s.write r2 (b.result s.eflags (s.read (Arch.next address size) r2 u.value2)
        (s.read (Arch.next address size) r1 u.value1)) := by
  have hread : ∀ r junk, s.pseudo r (Dispatch.regValue ⟨s.regs, 0⟩
      (push2q u address size ⟨b.mnemonic, r1, r2, .none, 0, .reg⟩) r junk) =
        s.read (Arch.next address size) r junk := fun r junk ↦
    Arch.pseudo_regValue s junk 0 (push2q u address size ⟨b.mnemonic, r1, r2, .none, 0, .reg⟩) r
  rw [← hread, ← hread]
  cases b with
  | mov => rfl
  | arith op => cases op <;> rfl
  | cmovnz =>
    rw [Binary.result, ← Bool.cond_eq_ite, ← Bool.cond_not, Bool.cond_eq_ite]
    rfl
  | cmovns =>
    rw [Binary.result, ← Bool.cond_eq_ite, ← Bool.cond_not, Bool.cond_eq_ite]
    rfl
  | cmovg =>
    rw [Binary.result, ← Bool.cond_eq_ite, ← Bool.cond_not, Bool.cond_eq_ite]
    rfl

/-- A load into the scratch register. -/
theorem step_load :
    s.step clzZero (push2q u address size Decoder.pushLoad) =
      { s with scratchls := ByteMemory.load s.mem s.loadStore } := rfl

end Step

/-! ## The uops behind the address -/

/-- The address uops come first, and what follows depends on the path only for a destination in
memory. -/
theorem crackMemory_of_ne_lea {ud : Ud} (hlea : ud.mnemonic ≠ .lea) {oi oj : Operand}
    (hoi : (if ud.operand0.type = .mem then ud.operand0 else ud.operand1) = oi)
    (hoj : (if ud.operand0.type = .mem then ud.operand1 else ud.operand0) = oj) :
    Decoder.crackMemory ud = addressPart oi ++
      (if ud.mnemonic = .cmp ∨ ud.mnemonic = .test then Decoder.crackCompare ud oj
      else if ud.operand1.type = .none ∨ ud.operand0.type ≠ .mem then Decoder.crackLoad ud
      else if oi.index = .none then Decoder.crackStoreNoIndex ud
      else Decoder.crackStoreIndex ud oj) := by
  have hload : (if ud.operand1.type = .none then Mnemonic.load else if ud.mnemonic = .lea then .lea
      else if ud.operand0.type = .mem then .store else .load) =
        if ud.operand1.type = .none ∨ ud.operand0.type ≠ .mem then .load else .store := by
    rw [if_neg hlea]
    by_cases h1 : ud.operand1.type = .none
    · rw [if_pos h1, if_pos (.inl h1)]
    · by_cases h0 : ud.operand0.type = .mem
      · rw [if_neg h1, if_pos h0, if_neg (not_or.mpr ⟨h1, not_not.mpr h0⟩)]
      · rw [if_neg h1, if_neg h0, if_pos (.inr h0)]
  rw [Decoder.crackMemory, hload, hoi, hoj, addressPart]
  simp only [if_neg hlea]
  by_cases hl : ud.operand1.type = .none ∨ ud.operand0.type ≠ .mem
  · simp only [if_pos hl, if_true]
    split_ifs <;> rfl
  · simp only [if_neg hl, reduceCtorEq, if_false, if_true]
    split_ifs <;> rfl

/-- The memory operand of an instruction is cracked along the last branch. -/
theorem crack_of_mem {ud : Ud} (himul : ud.mnemonic ≠ .imul)
    (h : ud.operand0.type = .mem ∨ (ud.operand0.type = .reg ∧ ud.operand1.type = .mem)) :
    Decoder.crack ud = some (Decoder.crackMemory ud) := by
  rcases h with h0 | ⟨h0, h1⟩
  · simp [Decoder.crack, himul, h0]
  · simp [Decoder.crack, himul, h0, h1]

/-- An operation without a branch of its own. -/
theorem crack_of_not_isSpecial {ud : Ud} (hplain : ¬IsSpecial ud.mnemonic)
    (hmem : ud.operand0.type = .mem ∨ (ud.operand0.type = .reg ∧ ud.operand1.type = .mem))
    {oi oj : Operand}
    (hoi : (if ud.operand0.type = .mem then ud.operand0 else ud.operand1) = oi)
    (hoj : (if ud.operand0.type = .mem then ud.operand1 else ud.operand0) = oj) :
    Decoder.crack ud = some (addressPart oi ++
      if ud.operand1.type = .none ∨ ud.operand0.type ≠ .mem then Decoder.crackLoad ud
      else if oi.index = .none then Decoder.crackStoreNoIndex ud
      else Decoder.crackStoreIndex ud oj) := by
  simp only [IsSpecial, not_or] at hplain
  obtain ⟨hlea, hcmp, htest, himul⟩ := hplain
  rw [crack_of_mem himul hmem, crackMemory_of_ne_lea hlea hoi hoj,
    if_neg (not_or.mpr ⟨hcmp, htest⟩)]

/-- The uops of an instruction that are run before the one that uses the address. -/
theorem addressUops_pushAll (uninit : ℕ → Uninit) (address : Word) (size : ℕ) (o : MemOperand)
    {p : Push} (hp : ∀ u, usesAddress (push2q u address size p) = true) (ps : List Push) :
    addressUops (pushAll uninit address size (addressPart o.toOperand ++ p :: ps)) =
      pushAll uninit address size (addressPart o.toOperand) := by
  rw [Decoder.pushAll_append, addressUops, List.takeWhile_append_of_pos]
  · rw [Decoder.pushAll_cons, List.takeWhile_cons, hp]
    exact List.append_nil _
  · intro u hu
    rw [usesAddress_eq_false hu]
    rfl

/-! ## Load and combine -/

/-- `op mem, reg`. -/
def loadOp (b : Binary) (o : MemOperand) (dst : Gpr) : Ud :=
  ⟨b.mnemonic, { Operand.none with type := .reg, size := 64, base := .gpr dst }, o.toOperand,
    Operand.none⟩

/-- The uops of `op mem, reg`. -/
theorem crack_loadOp (b : Binary) (o : MemOperand) (dst : Gpr) :
    Decoder.crack (loadOp b o dst) = some (addressPart o.toOperand ++
      [Decoder.pushLoad, ⟨b.mnemonic, .scratchregls, .gpr dst, .none, 0, .reg⟩]) := by
  have hplain : ¬IsSpecial (loadOp b o dst).mnemonic := b.not_isSpecial
  have hload : (loadOp b o dst).operand1.type = .none ∨ (loadOp b o dst).operand0.type ≠ .mem :=
    .inr Decoder.OperandType.noConfusion
  rw [crack_of_not_isSpecial hplain (.inr ⟨rfl, rfl⟩) rfl rfl, if_pos hload]
  rfl

/-- **Operations with a source in memory keep their meaning**: the destination is combined with the
word at the address the load is issued for, and nothing else changes. -/
theorem run_loadOp (clzZero : ℕ) (s : Arch) (uninit : ℕ → Uninit) (address : Word) (size : ℕ)
    (b : Binary) (o : MemOperand) (dst : Gpr) :
    let uops := Decoder.crackAt uninit address size (loadOp b o dst)
    let a := (s.run clzZero (addressUops uops)).loadStore
    (s.run clzZero uops).regs = Function.update s.regs dst
        (b.result s.eflags (s.regs dst) (ByteMemory.load s.mem a)) ∧
      (s.run clzZero uops).mem = s.mem ∧ (s.run clzZero uops).eflags = s.eflags := by
  intro uops a
  have huops : uops = pushAll uninit address size (addressPart o.toOperand ++
      [Decoder.pushLoad, ⟨b.mnemonic, .scratchregls, .gpr dst, .none, 0, .reg⟩]) :=
    Decoder.crackAt_eq uninit address size (crack_loadOp b o dst)
  have ha : a = o.built s.regs (Arch.next address size) (uninit 0).value1 := by
    change (s.run clzZero (addressUops uops)).loadStore = _
    rw [huops, addressUops_pushAll uninit address size o (fun u ↦ rfl), run_addressPart]
  have hrun : s.run clzZero uops =
      { s with
        regs := Function.update s.regs dst
          (b.result s.eflags (s.regs dst) (ByteMemory.load s.mem a))
        loadStore := a
        scratchls := ByteMemory.load s.mem a } := by
    rw [huops, Decoder.pushAll_append, Arch.run_append, run_addressPart, ← ha, Decoder.pushAll_cons,
      Decoder.pushAll_cons, Decoder.pushAll_nil, Arch.run_cons, Arch.run_cons, Arch.run_nil,
      step_load, step_binary]
    rfl
  rw [hrun]
  exact ⟨rfl, rfl, rfl⟩

end Cse502.Cracking
