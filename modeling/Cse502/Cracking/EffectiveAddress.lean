import Cse502.Cracking.Uops
import Mathlib.Tactic

/-!
# Effective addresses

A memory operand is cracked into uops that build its address in `load_store_reg`, along one of
three paths: without an index register, with the base register as the index, and in general. The
general path is right for all operands. The other two each miss a case that the general path
treats: without an index, an absent base is read all the same, from a field nobody has set; and when
the base is the index, a scale of one, which udis86 reports as zero, is taken for no index at all.
-/

namespace Cse502.Cracking

open Decoder (Operand Ud Push Uninit push2q)

/-! ## Memory operands -/

/-- The base of a memory operand. -/
inductive Base
  | none | rip | gpr (g : Gpr)
  deriving DecidableEq, Repr

/-- The register number udis86 reports for a base. -/
def Base.reg : Base → Reg
  | none => .none
  | rip => .rip
  | gpr g => .gpr g

/-- A base counts for its register, and an absent one for zero. -/
def Base.value (regs : Gpr → Word) (next : Word) : Base → Word
  | none => 0
  | rip => next
  | gpr g => regs g

/-- The scale of the index. -/
inductive Scale
  | x1 | x2 | x4 | x8
  deriving DecidableEq, Repr

/-- The number udis86 reports for a scale. -/
def Scale.reported : Scale → ℕ
  | x1 => 0
  | x2 => 2
  | x4 => 4
  | x8 => 8

/-- The factor a scale stands for. -/
def Scale.factor : Scale → Word
  | x1 => 1
  | x2 => 2
  | x4 => 4
  | x8 => 8

/-- The displacement. -/
inductive Disp
  | none | disp8 (d : BitVec 8) | disp32 (d : BitVec 32)
  deriving DecidableEq, Repr

/-- The size udis86 reports for a displacement. -/
def Disp.size : Disp → ℕ
  | none => 0
  | disp8 _ => 8
  | disp32 _ => 32

/-- The bytes udis86 reports for a displacement, in a word that was cleared before. -/
def Disp.lval : Disp → Word
  | none => 0
  | disp8 d => d.setWidth 64
  | disp32 d => d.setWidth 64

/-- The value of a displacement. -/
def Disp.value : Disp → Word
  | none => 0
  | disp8 d => d.signExtend 64
  | disp32 d => d.signExtend 64

/-- A memory operand. -/
structure MemOperand where
  base : Base
  index : Option Gpr
  scale : Scale
  disp : Disp
  size : ℕ
  deriving DecidableEq, Repr

namespace MemOperand

/-- What udis86 reports for a memory operand. -/
def toOperand (o : MemOperand) : Operand where
  type := .mem
  size := o.size
  base := o.base.reg
  index := o.index.elim .none .gpr
  scale := o.scale.reported
  offset := o.disp.size
  lval := o.disp.lval

/-- The effective address of a memory operand. -/
def address (o : MemOperand) (regs : Gpr → Word) (next : Word) : Word :=
  o.base.value regs next + o.index.elim 0 regs * o.scale.factor + o.disp.value

/-- The operands whose address is built right: an absent base is harmless with an index or if the
memory of the uop held a zero, and the base as its own index is harmless when it is scaled or
zero. -/
def Handled (o : MemOperand) (regs : Gpr → Word) (junk : Word) : Prop :=
  match o.index with
  | none => o.base = .none → junk = 0
  | some g => o.base = .gpr g → o.scale = .x1 → regs g = 0

end MemOperand

/-- An instruction with a memory operand. `imul` is cracked without looking at it, and the numbers
of the pseudo registers are none that udis86 reports. -/
structure MemInsn where
  ud : Ud
  operand : MemOperand
  mnemonic : ud.mnemonic ≠ .imul
  place : ud.operand0 = operand.toOperand ∨
    (ud.operand0.type ≠ .mem ∧ ud.operand0.type ≠ .jimm ∧ ud.operand1 = operand.toOperand)
  source : ud.operand1.base ≠ .loadStoreReg

/-! ## The address uops -/

/-- The load, the store and the final move of a `lea`. -/
def usesAddress (u : Uop) : Bool :=
  u.opcode == .load || u.opcode == .store || (u.opcode == .mov && u.reg1 == .loadStoreReg)

/-- The uops before the one that uses the address. -/
def addressUops (us : List Uop) : List Uop := us.takeWhile fun u ↦ !usesAddress u

/-- Sign extension is not undone by passing through an `int`. -/
private theorem toOffset_signExtend {w : ℕ} (hw : w ≤ 32) (d : BitVec w) :
    Decoder.toOffset (d.signExtend 64) = d.signExtend 64 := by
  have htrunc : (d.signExtend 64).setWidth 32 = d.signExtend 32 := by
    apply BitVec.eq_of_getLsbD_eq
    intro i hi
    rw [BitVec.getLsbD_setWidth, BitVec.getLsbD_signExtend, BitVec.getLsbD_signExtend,
      decide_eq_true hi, decide_eq_true (show i < 64 by omega), Bool.true_and, Bool.true_and]
  apply BitVec.eq_of_toInt_eq
  rw [Decoder.toOffset, htrunc, BitVec.toInt_signExtend_of_le (by omega),
    BitVec.toInt_signExtend_of_le hw, BitVec.toInt_signExtend_of_le (by omega)]

/-- The offset added to an address is the displacement. -/
theorem toOffset_disp (d : Disp) :
    Decoder.toOffset (Decoder.signExtend d.lval d.size) = d.value := by
  have hwidth : ∀ {w : ℕ} (x : BitVec w), w ≤ 64 → (x.setWidth 64).setWidth w = x := by
    intro w x hw
    rw [BitVec.setWidth_setWidth_of_le x hw, BitVec.setWidth_eq]
  cases d with
  | none => rfl
  | disp8 d =>
    rw [Disp.lval, Disp.size, Decoder.signExtend_eq (.inl rfl), hwidth d (by omega)]
    · exact toOffset_signExtend (by omega) d
    · rw [BitVec.toNat_setWidth]
      have := d.isLt
      omega
  | disp32 d =>
    rw [Disp.lval, Disp.size, Decoder.signExtend_eq (.inr (.inr rfl)), hwidth d (by omega)]
    · exact toOffset_signExtend (by omega) d
    · rw [BitVec.toNat_setWidth]
      have := d.isLt
      omega

/-- The address uops of a memory operand, by path. -/
def addressPart (o : Operand) : List Push :=
  if o.index = .none then Decoder.addressNoIndex o
  else if o.base = o.index then Decoder.addressBaseIndex o
  else Decoder.addressGeneral o

namespace MemOperand

/-- The address the uops build, when the memory of the first uop held `junk`. -/
def built (o : MemOperand) (regs : Gpr → Word) (next junk : Word) : Word :=
  match o.index with
  | none => (if o.base = .none then junk else o.base.value regs next) + o.disp.value
  | some g =>
    if o.base = .gpr g then
      regs g * (if o.scale = .x1 then 1 else o.scale.factor + 1) + o.disp.value
    else regs g * o.scale.factor + o.base.value regs next + o.disp.value

/-- **Which operands are built right.** -/
theorem built_eq_address_iff (o : MemOperand) (regs : Gpr → Word) (next junk : Word) :
    o.built regs next junk = o.address regs next ↔ o.Handled regs junk := by
  rw [built, address, Handled]
  cases o.index with
  | none =>
    by_cases hbase : o.base = .none
    · simp [hbase, Base.value]
    · simp [hbase]
  | some g =>
    by_cases hbase : o.base = .gpr g
    · cases hscale : o.scale with
      | x1 => simp [hbase, Base.value, Scale.factor]
      | x2 => simp [hbase, Base.value, Scale.factor]; bv_omega
      | x4 => simp [hbase, Base.value, Scale.factor]; bv_omega
      | x8 => simp [hbase, Base.value, Scale.factor]; bv_omega
    · simp [hbase, BitVec.add_comm]

end MemOperand

section Run

variable (clzZero : ℕ) (s : Arch) (uninit : ℕ → Uninit) (address : Word) (size : ℕ)
  (o : MemOperand)

open Decoder (pushAll)

/-- The displacement is added unless it is zero. -/
private theorem run_addOffset {c : Prop} [Decidable c] (hc : ¬c → o.disp.value = 0) :
    s.run clzZero (pushAll uninit address size
      (if c then [Decoder.addOffset o.toOperand] else [])) =
      { s with loadStore := s.loadStore + o.disp.value } := by
  split_ifs with h
  · have hvalue : Decoder.toOffset (Decoder.signExtend o.toOperand.lval o.toOperand.offset) =
        o.disp.value := toOffset_disp o.disp
    rw [Decoder.pushAll_cons, Decoder.pushAll_nil, Arch.run_cons, Arch.run_nil, Decoder.addOffset,
      Arch.step_addImm, hvalue, Arch.write_loadStoreReg]
  · rw [hc h, show s.loadStore + 0 = s.loadStore from BitVec.add_zero _]
    rfl

/-- The index is multiplied unless udis86 reports no scale. -/
private theorem run_scale (n : ℕ) :
    s.run clzZero (pushAll uninit address size
      (if o.toOperand.scale ≠ 0 then
        [⟨.imul, .none, .loadStoreReg, .none, BitVec.ofNat 64 n, .loadmul⟩] else [])) =
      { s with loadStore := s.loadStore * (if o.scale = .x1 then 1 else BitVec.ofNat 64 n) } := by
  have hscale : o.toOperand.scale = 0 ↔ o.scale = .x1 := by
    change o.scale.reported = 0 ↔ _
    cases o.scale <;> simp [Scale.reported]
  by_cases h : o.scale = .x1
  · rw [if_neg (not_not.mpr (hscale.mpr h)), if_pos h,
      show s.loadStore * 1 = s.loadStore from BitVec.mul_one _]
    rfl
  · rw [if_pos (mt hscale.mp h), if_neg h, Decoder.pushAll_cons, Decoder.pushAll_nil,
      Arch.run_cons, Arch.run_nil, Arch.step_loadmul, Arch.write_loadStoreReg]

/-- The base is added unless there is none. -/
private theorem run_base :
    s.run clzZero (pushAll uninit address size
      (if o.toOperand.base ≠ .none then [⟨.add, o.toOperand.base, .loadStoreReg, .none, 0, .reg⟩]
        else [])) =
      { s with loadStore :=
          s.loadStore + o.base.value s.regs (Arch.next address size) } := by
  cases hbase : o.base with
  | none =>
    have hreg : o.toOperand.base = .none := congrArg Base.reg hbase
    rw [if_neg (not_not.mpr hreg), Base.value,
      show s.loadStore + 0 = s.loadStore from BitVec.add_zero _]
    rfl
  | rip =>
    have hreg : o.toOperand.base = .rip := congrArg Base.reg hbase
    rw [hreg, if_pos (by exact Reg.noConfusion), Decoder.pushAll_cons, Decoder.pushAll_nil,
      Arch.run_cons,
      Arch.run_nil, Arch.step_add, Arch.write_loadStoreReg]
    rfl
  | gpr g =>
    have hreg : o.toOperand.base = .gpr g := congrArg Base.reg hbase
    rw [hreg, if_pos (by exact Reg.noConfusion), Decoder.pushAll_cons, Decoder.pushAll_nil,
      Arch.run_cons,
      Arch.run_nil, Arch.step_add, Arch.write_loadStoreReg]
    rfl

/-- **The address uops build the address and change nothing else.** -/
theorem run_addressPart :
    s.run clzZero (pushAll uninit address size (addressPart o.toOperand)) =
      { s with loadStore :=
          o.built s.regs (Arch.next address size) (uninit 0).value1 } := by
  have hoffset : ¬o.toOperand.offset ≠ 0 → o.disp.value = 0 := by
    intro h
    rw [not_not] at h
    change o.disp.size = 0 at h
    cases hdisp : o.disp with
    | none => rfl
    | disp8 d => rw [hdisp] at h; cases h
    | disp32 d => rw [hdisp] at h; cases h
  rw [addressPart, MemOperand.built]
  cases hindex : o.index with
  | none =>
    have hnone : o.toOperand.index = .none := by rw [MemOperand.toOperand, hindex]; rfl
    have hvalue : ¬Decoder.toOffset (Decoder.signExtend o.toOperand.lval o.toOperand.offset) ≠ 0 →
        o.disp.value = 0 := fun h ↦ (toOffset_disp o.disp).symm.trans (not_not.mp h)
    rw [if_pos hnone, Decoder.addressNoIndex, Decoder.pushAll_cons, Arch.run_cons, Arch.step_mov,
      Arch.write_loadStoreReg, run_addOffset _ _ _ _ _ _ hvalue]
    have hread : s.read (Arch.next address size) o.toOperand.base (uninit 0).value1 =
        if o.base = .none then (uninit 0).value1
        else o.base.value s.regs (Arch.next address size) := by
      change s.read _ o.base.reg _ = _
      cases o.base <;> rfl
    rw [hread]
  | some g =>
    have hsome : o.toOperand.index = .gpr g := by rw [MemOperand.toOperand, hindex]; rfl
    have hbase : o.toOperand.base = .gpr g ↔ o.base = .gpr g := by
      change o.base.reg = .gpr g ↔ _
      cases o.base <;> simp [Base.reg]
    rw [hsome, if_neg Reg.noConfusion]
    by_cases h : o.base = .gpr g
    · -- the base is the index as well: one factor for both, unless there is no scale
      have hfactor : BitVec.ofNat 64 (o.toOperand.scale + 1) = o.scale.factor + 1 ∨
          o.scale = .x1 := by
        change BitVec.ofNat 64 (o.scale.reported + 1) = _ ∨ _
        cases o.scale <;> simp [Scale.reported, Scale.factor]
      rw [if_pos (hbase.mpr h), Decoder.addressBaseIndex, Decoder.pushAll_cons, Arch.run_cons,
        Arch.step_mov, Arch.write_loadStoreReg, Decoder.pushAll_append, Arch.run_append, run_scale,
        run_addOffset _ _ _ _ _ _ hoffset]
      simp only [if_pos h, hbase.mpr h, Arch.read_gpr]
      rcases hfactor with hfactor | hx1
      · rw [hfactor]
      · simp only [if_pos hx1]
    · have hfactor : (if o.scale = .x1 then 1 else BitVec.ofNat 64 o.toOperand.scale) =
          o.scale.factor := by
        change (if o.scale = .x1 then 1 else BitVec.ofNat 64 o.scale.reported) = _
        cases o.scale <;> simp [Scale.reported, Scale.factor]
      rw [if_neg (mt hbase.mp h), Decoder.addressGeneral, Decoder.pushAll_cons, Arch.run_cons,
        Arch.step_mov, Arch.write_loadStoreReg, Decoder.pushAll_append, Arch.run_append, run_scale,
        Decoder.pushAll_append, Arch.run_append, run_base, run_addOffset _ _ _ _ _ _ hoffset]
      simp only [if_neg h, hsome, Arch.read_gpr, hfactor]

end Run

/-! ## The uops behind them -/

/-- What follows the address uops: a load, an operation with its store, or the move of a `lea`. -/
inductive UsesAddress : List Push → Prop
  | load (ps : List Push) : UsesAddress (Decoder.pushLoad :: ps)
  | store (p : Push) (h1 : p.reg1 ≠ .loadStoreReg) (h2 : p.reg2 = .scratchregls) :
      UsesAddress [p, Decoder.pushStore]
  | lea (dst : Reg) : UsesAddress (Decoder.crackLea dst)

/-- The two paths with an index register share what follows the address uops. -/
private theorem usesAddress_index {ud : Ud} {oj : Operand} (hj : ud.operand0.type = .mem →
    oj.base ≠ .loadStoreReg) (dst : Reg) {loadOStore : Mnemonic}
    (hload : ud.operand0.type ≠ .mem → ud.mnemonic ≠ .lea → loadOStore = .load) :
    UsesAddress (if ud.mnemonic = .lea then Decoder.crackLea dst
      else if ud.mnemonic = .cmp ∨ ud.mnemonic = .test then Decoder.crackCompare ud oj
      else if loadOStore = .load then Decoder.crackLoad ud
      else Decoder.crackStoreIndex ud oj) := by
  split_ifs with hlea hcmp hls
  · exact .lea dst
  · exact .load _
  · exact .load _
  · have hmem : ud.operand0.type = .mem := by
      by_contra h
      exact hls (hload h hlea)
    rw [Decoder.crackStoreIndex]
    split_ifs
    · exact .store _ (hj hmem) rfl
    · exact .store _ (by exact Reg.noConfusion) rfl

/-- **An instruction with a memory operand is cracked into address uops and uops that use them.** -/
theorem crackMemory_eq (ud : Ud) (hsource : ud.operand1.base ≠ .loadStoreReg) :
    ∃ rest, UsesAddress rest ∧ Decoder.crackMemory ud =
      addressPart (if ud.operand0.type = .mem then ud.operand0 else ud.operand1) ++ rest := by
  have hj : ud.operand0.type = .mem →
      (if ud.operand0.type = .mem then ud.operand1 else ud.operand0).base ≠ .loadStoreReg := by
    intro h
    rw [if_pos h]
    exact hsource
  have hload : ud.operand0.type ≠ .mem → ud.mnemonic ≠ .lea →
      (if ud.operand1.type = .none then Mnemonic.load else if ud.mnemonic = .lea then .lea
        else if ud.operand0.type = .mem then .store else .load) = .load := by
    intro h hlea
    rw [if_neg hlea, if_neg h, ite_self]
  rw [Decoder.crackMemory, addressPart]
  generalize (if ud.operand0.type = .mem then ud.operand0 else ud.operand1) = oi
  generalize (if ud.operand0.type = .mem then ud.operand1 else ud.operand0) = oj at hj ⊢
  generalize (if ud.operand1.type = .none then Mnemonic.load else if ud.mnemonic = .lea then .lea
        else if ud.operand0.type = .mem then .store else .load) = loadOStore at hload ⊢
  by_cases hindex : oi.index = .none
  · rw [if_pos hindex, if_pos hindex]
    refine ⟨_, ?_, rfl⟩
    split_ifs
    · exact .load _
    · exact .load _
    · exact .store _ hsource rfl
    · exact .lea _
  · rw [if_neg hindex, if_neg hindex]
    by_cases hbase : oi.base = oi.index
    · rw [if_pos hbase, if_pos hbase]
      exact ⟨_, usesAddress_index hj _ hload, rfl⟩
    · rw [if_neg hbase, if_neg hbase]
      exact ⟨_, usesAddress_index hj _ hload, rfl⟩

/-- What every push of the address part has in common. -/
private def BuildsAddress (p : Push) : Prop :=
  p.mnemonic ≠ .load ∧ p.mnemonic ≠ .store ∧ p.reg1 ≠ .loadStoreReg

private theorem forall_mem_ite {α : Type*} {P : α → Prop} {c : Prop} [Decidable c] {a : α}
    (h : P a) : ∀ x ∈ (if c then [a] else []), P x := by
  intro x hx
  split_ifs at hx
  · rwa [List.mem_singleton.mp hx]
  · exact absurd hx List.not_mem_nil

private theorem buildsAddress_addressPart (o : MemOperand) :
    ∀ p ∈ addressPart o.toOperand, BuildsAddress p := by
  have hbase : o.toOperand.base ≠ .loadStoreReg := by
    change o.base.reg ≠ _
    cases o.base <;> exact Reg.noConfusion
  have hindex : o.toOperand.index ≠ .loadStoreReg := by
    change o.index.elim Reg.none Reg.gpr ≠ _
    cases o.index <;> exact Reg.noConfusion
  have hoffset : BuildsAddress (Decoder.addOffset o.toOperand) :=
    ⟨Mnemonic.noConfusion, Mnemonic.noConfusion, Reg.noConfusion⟩
  have hscale : ∀ v, BuildsAddress ⟨.imul, .none, .loadStoreReg, .none, v, .loadmul⟩ := fun _ ↦
    ⟨Mnemonic.noConfusion, Mnemonic.noConfusion, Reg.noConfusion⟩
  have hreg : ∀ m r, m ≠ .load → m ≠ .store → r ≠ .loadStoreReg →
      BuildsAddress ⟨m, r, .loadStoreReg, .none, 0, .reg⟩ := fun m r h h' h'' ↦ ⟨h, h', h''⟩
  have hmov : ∀ r, r ≠ .loadStoreReg → BuildsAddress ⟨.mov, r, .loadStoreReg, .none, 0, .reg⟩ :=
    fun r ↦ hreg .mov r Mnemonic.noConfusion Mnemonic.noConfusion
  have hadd : ∀ r, r ≠ .loadStoreReg → BuildsAddress ⟨.add, r, .loadStoreReg, .none, 0, .reg⟩ :=
    fun r ↦ hreg .add r Mnemonic.noConfusion Mnemonic.noConfusion
  rw [addressPart]
  split_ifs
  · exact List.forall_mem_cons.mpr ⟨hmov _ hbase, forall_mem_ite hoffset⟩
  · exact List.forall_mem_cons.mpr ⟨hmov _ hbase, List.forall_mem_append.mpr
      ⟨forall_mem_ite (hscale _), forall_mem_ite hoffset⟩⟩
  · exact List.forall_mem_cons.mpr ⟨hmov _ hindex, List.forall_mem_append.mpr
      ⟨forall_mem_ite (hscale _), List.forall_mem_append.mpr
        ⟨forall_mem_ite (hadd _ hbase), forall_mem_ite hoffset⟩⟩⟩

/-- No address uop uses the address. -/
theorem usesAddress_eq_false {uninit : ℕ → Uninit} {address : Word} {size : ℕ}
    {o : MemOperand} {u : Uop}
    (hu : u ∈ Decoder.pushAll uninit address size (addressPart o.toOperand)) :
    usesAddress u = false := by
  obtain ⟨p, hp, i, rfl⟩ := Decoder.mem_pushAll uninit address size hu
  obtain ⟨hload, hstore, hreg1⟩ := buildsAddress_addressPart o p hp
  simp [usesAddress, push2q, hload, hstore, hreg1]

/-- The uops that come after the address uops but before the one that uses the address leave the
address in `load_store_reg`. -/
private theorem loadStore_run_rest (clzZero : ℕ) (s : Arch) (uninit : ℕ → Uninit) (address : Word)
    (size : ℕ) {rest : List Push} (h : UsesAddress rest) :
    (s.run clzZero (addressUops (Decoder.pushAll uninit address size rest))).loadStore =
      s.loadStore := by
  cases h with
  | load ps =>
    have hload : usesAddress (push2q (uninit 0) address size Decoder.pushLoad) = true := rfl
    rw [addressUops, Decoder.pushAll_cons, List.takeWhile_cons, hload]
    rfl
  | lea dst => rfl
  | store p h1 h2 =>
    have hstore : usesAddress (push2q (uninit 1) address size Decoder.pushStore) = true := rfl
    rw [addressUops, Decoder.pushAll_cons, Decoder.pushAll_cons, List.takeWhile_cons,
      List.takeWhile_cons, Nat.zero_add, hstore]
    rw [Bool.not_true, if_neg Bool.false_ne_true]
    split_ifs
    · rw [Arch.run_cons]
      exact Arch.loadStore_step clzZero s h1 (by
        change p.reg2 ≠ _
        rw [h2]
        exact Reg.noConfusion)
    · rfl

/-! ## The effective address -/

/-- The uops of an instruction with a memory operand. -/
theorem MemInsn.crack_eq (insn : MemInsn) :
    Decoder.crack insn.ud = some (Decoder.crackMemory insn.ud) := by
  have himul := insn.mnemonic
  rcases insn.place with h0 | ⟨hmem, hjimm, h1⟩
  · have htype : insn.ud.operand0.type = .mem := by rw [h0]; rfl
    simp [Decoder.crack, himul, htype]
  · have htype : insn.ud.operand1.type = .mem := by rw [h1]; rfl
    simp [Decoder.crack, himul, htype, hjimm]

/-- **When effective addresses are right.** -/
theorem effectiveAddress_iff (clzZero : ℕ) (s : Arch) (uninit : ℕ → Uninit) (address : Word)
    (size : ℕ) (insn : MemInsn) :
    (s.run clzZero (addressUops (Decoder.crackAt uninit address size insn.ud))).loadStore =
        insn.operand.address s.regs (address + BitVec.ofNat 64 size) ↔
      insn.operand.Handled s.regs (uninit 0).value1 := by
  have hoperand : (if insn.ud.operand0.type = .mem then insn.ud.operand0 else insn.ud.operand1) =
      insn.operand.toOperand := by
    rcases insn.place with h0 | ⟨hmem, -, h1⟩
    · rw [h0]
      exact if_pos rfl
    · rw [if_neg hmem, h1]
  obtain ⟨rest, hrest, hcrack⟩ := crackMemory_eq insn.ud insn.source
  rw [hoperand] at hcrack
  have huops : addressUops (Decoder.crackAt uninit address size insn.ud) =
      Decoder.pushAll uninit address size (addressPart insn.operand.toOperand) ++
        addressUops (Decoder.pushAll
          (fun i ↦ uninit (i + (addressPart insn.operand.toOperand).length))
            address size rest) := by
    rw [Decoder.crackAt_eq uninit address size insn.crack_eq, hcrack]
    change addressUops (Decoder.pushAll uninit address size _) = _
    rw [Decoder.pushAll_append, addressUops, List.takeWhile_append_of_pos]
    · rfl
    · intro u hu
      rw [usesAddress_eq_false hu]
      rfl
  rw [huops, Arch.run_append, loadStore_run_rest clzZero _ _ _ _ hrest, run_addressPart]
  exact insn.operand.built_eq_address_iff s.regs _ _

/-- `lea rcx, [rax + rax]`. -/
def leaRaxRax : MemInsn where
  ud := ⟨.lea, { Operand.none with type := .reg, base := .gpr .rcx },
    (⟨.gpr .rax, some .rax, .x1, .none, 0⟩ : MemOperand).toOperand, Operand.none⟩
  operand := ⟨.gpr .rax, some .rax, .x1, .none, 0⟩
  mnemonic := Mnemonic.noConfusion
  place := .inr ⟨by decide, by decide, rfl⟩
  source := Reg.noConfusion

/-- With one in every register, the address of `[rax + rax]` is two, and the uops build one. -/
theorem effectiveAddress_ne_leaRaxRax :
    (Arch.run 0 ⟨fun _ ↦ 1, 0, 0, ⟨0⟩, fun _ ↦ 0⟩
      (addressUops (Decoder.crackAt (fun _ ↦ ⟨0, 0, 0⟩) 0x1000 4 leaRaxRax.ud))).loadStore ≠
      leaRaxRax.operand.address (fun _ ↦ 1) (0x1000 + BitVec.ofNat 64 4) := by
  decide

end Cse502.Cracking
