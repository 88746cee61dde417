import Cse502.Cracking.LoadOps
import Cse502.Library.WordBits

/-!
# Operations with a destination in memory

`add [rax], rbx` has to load the word at the address, combine it with the source and store the
result. `crack_opcodes` pushes no load: only the operation, with the scratch register as its
destination, and the store. What is combined with the source is whatever the last memory access
left in the scratch register, so the instruction is right exactly when that agrees with the word in
memory on all the bits the operation depends on.

The source reaches the operation as it reaches a `mov` to memory, and the address is built as for
every memory operand.
-/

namespace Cse502.Cracking

open Decoder (Operand Ud Push Uninit push2q pushAll)

/-! ## The instructions -/

/-- The shifts. -/
inductive Shift
  | shl | sal | shr | sar
  deriving DecidableEq, Repr

/-- The mnemonic of a shift. -/
def Shift.mnemonic : Shift → Mnemonic
  | shl => .shl
  | sal => .sal
  | shr => .shr
  | sar => .sar

theorem Shift.not_isSpecial (op : Shift) : ¬IsSpecial op.mnemonic := by
  cases op <;> decide

/-- A word shifted by a number of bits. -/
def Shift.result (v : Word) (n : ℕ) : Shift → Word
  | shl | sal => v <<< n
  | shr => v >>> n
  | sar => v.sshiftRight n

/-- The operations on a memory destination, with their source. -/
inductive Rmw
  | arith (op : Arith) (src : Source)
  | shift (op : Shift) (count : Imm)
  deriving DecidableEq, Repr

namespace Rmw

/-- The mnemonic of an operation. -/
def mnemonic : Rmw → Mnemonic
  | arith op _ => op.mnemonic
  | shift op _ => op.mnemonic

/-- The source of an operation. -/
def source : Rmw → Source
  | arith _ src => src
  | shift _ count => .imm count

/-- What an operation makes of its destination and the value of its source. A shift counts modulo
64. -/
def combine (dst src : Word) : Rmw → Word
  | arith op _ => op.result dst src
  | shift op _ => op.result dst (src.toNat % 64)

/-- The bits of the destination the result depends on. -/
def Depends (src : Word) (i : ℕ) : Rmw → Prop
  | arith .add _ | arith .sub _ | arith .xor _ => True
  | arith .and _ => src.getLsbD i = true
  | arith .or _ => src.getLsbD i = false
  | shift .shl _ | shift .sal _ => i + src.toNat % 64 < 64
  | shift .shr _ | shift .sar _ => src.toNat % 64 ≤ i

/-- `op src, mem`. -/
def toUd (r : Rmw) (o : MemOperand) : Ud :=
  ⟨r.mnemonic, o.toOperand, r.source.toOperand, Operand.none⟩

end Rmw

/-- **An operation sees its destination through the bits it depends on.** -/
theorem Rmw.combine_eq_iff (r : Rmw) (x y src : Word) :
    r.combine x src = r.combine y src ↔
      ∀ i < 64, r.Depends src i → x.getLsbD i = y.getLsbD i := by
  have hall : x = y ↔ ∀ i < 64, True → x.getLsbD i = y.getLsbD i := by
    simpa only [forall_const] using WordBits.eq_iff x y
  cases r with
  | arith op source =>
    cases op with
    | add => exact (BitVec.add_left_inj src).trans hall
    | sub => exact (BitVec.sub_left_inj src).trans hall
    | xor => exact (BitVec.xor_left_inj src).trans hall
    | and => exact WordBits.and_eq_iff x y src
    | or => exact WordBits.or_eq_iff x y src
  | shift op count =>
    cases op with
    | shl | sal => exact WordBits.shiftLeft_eq_iff x y _
    | shr => exact WordBits.ushiftRight_eq_iff x y _
    | sar => exact WordBits.sshiftRight_eq_iff x y (Nat.mod_lt _ (by omega))

/-! ## The uop of the operation -/

/-- The loop of `do_shift` shifts by one bit at a time. -/
theorem Shift.shiftLoop_fst (op : Shift) (n : ℕ) (v : Word) (e : Eflags) :
    (Execute.shiftLoop op.mnemonic n v e).1 = op.result v n := by
  induction n generalizing v e with
  | zero => cases op <;> simp [Execute.shiftLoop, Shift.result]
  | succ n ih =>
    rw [Execute.shiftLoop, ih]
    cases op with
    | shl | sal =>
      change (v * 2#64) <<< n = v <<< (n + 1)
      rw [Nat.add_comm, BitVec.shiftLeft_add, BitVec.shiftLeft_eq_mul_twoPow v 1]
      rfl
    | shr =>
      change (v >>> 1) >>> n = v >>> (n + 1)
      rw [Nat.add_comm, BitVec.shiftRight_add]
    | sar =>
      change (v.sshiftRight 1).sshiftRight n = v.sshiftRight (n + 1)
      rw [Nat.add_comm, BitVec.sshiftRight_add]

/-- The count of a shift is masked to six bits. -/
theorem and_countmask (v : Word) : (v &&& 63).toNat = v.toNat % 64 := by
  rw [BitVec.toNat_and]
  exact Nat.and_two_pow_sub_one_eq_mod v.toNat 6

section Step

variable (clzZero : ℕ) (s : Arch) (u : Uninit) (address : Word) (size : ℕ)

/-- The uop of an operation on the scratch register, with a register as its source. -/
theorem step_rmw (r : Rmw) (r1 : Reg) :
    ∃ e, s.step clzZero (push2q u address size ⟨r.mnemonic, r1, .scratchregls, .none, 0, .reg⟩) =
      { s with
        scratchls := r.combine s.scratchls (s.read (Arch.next address size) r1 u.value1)
        eflags := e } := by
  cases r with
  | arith op source =>
    exact ⟨s.eflags, step_binary clzZero s u address size (.arith op) r1 .scratchregls⟩
  | shift op count =>
    have hread := Arch.pseudo_regValue s u.value1 0
      (push2q u address size ⟨op.mnemonic, r1, .scratchregls, .none, 0, .reg⟩) r1
    change s.pseudo r1 _ = s.read (Arch.next address size) r1 u.value1 at hread
    rw [Rmw.combine, ← hread, ← and_countmask, ← op.shiftLoop_fst _ _ s.eflags]
    cases op <;> exact ⟨_, rfl⟩

/-- The uop of an operation on the scratch register, with an immediate as its source. -/
theorem step_rmwImm (r : Rmw) (imm : Word) :
    ∃ e, s.step clzZero (push2q u address size ⟨r.mnemonic, .none, .scratchregls, .none, imm,
      .immed⟩) = { s with scratchls := r.combine s.scratchls imm, eflags := e } := by
  cases r with
  | arith op source => exact ⟨s.eflags, by cases op <;> rfl⟩
  | shift op count =>
    rw [Rmw.combine, ← and_countmask, ← op.shiftLoop_fst _ _ s.eflags]
    cases op <;> exact ⟨_, rfl⟩

end Step

/-! ## The instruction -/

/-- The operation that is pushed: the path without an index register takes every source for a
register. -/
def operationPush (o : MemOperand) (r : Rmw) : Push :=
  match r.source with
  | .reg g => ⟨r.mnemonic, .gpr g, .scratchregls, .none, 0, .reg⟩
  | .imm i =>
    if o.index = none then ⟨r.mnemonic, .none, .scratchregls, .none, 0, .reg⟩
    else ⟨r.mnemonic, .none, .scratchregls, .none, i.value, .immed⟩

/-- **No load is pushed**: the operation and the store follow the address uops. -/
theorem crack_rmw (o : MemOperand) (r : Rmw) :
    Decoder.crack (r.toUd o) =
      some (addressPart o.toOperand ++ [operationPush o r, Decoder.pushStore]) := by
  have hplain : ¬IsSpecial (r.toUd o).mnemonic := by
    cases r with
    | arith op src => exact op.not_isSpecial
    | shift op count => exact op.not_isSpecial
  have hload : ¬((r.toUd o).operand1.type = .none ∨ (r.toUd o).operand0.type ≠ .mem) := by
    refine not_or.mpr ⟨?_, not_not.mpr rfl⟩
    change r.source.toOperand.type ≠ .none
    cases r.source <;> exact Decoder.OperandType.noConfusion
  have hindex : o.toOperand.index = .none ↔ o.index = none := by
    change o.index.elim Reg.none Reg.gpr = .none ↔ _
    cases o.index <;> simp
  rw [crack_of_not_isSpecial hplain (.inl rfl) rfl rfl, if_neg hload]
  change some (addressPart o.toOperand ++ if o.toOperand.index = .none then _ else _) = _
  have hsource : (r.toUd o).operand1 = r.source.toOperand := rfl
  have hdest : (r.toUd o).mnemonic = r.mnemonic := rfl
  by_cases h : o.index = none
  · rw [if_pos (hindex.mpr h), Decoder.crackStoreNoIndex, hsource, hdest, operationPush]
    cases r.source with
    | reg g => rfl
    | imm i =>
      simp only [if_pos h]
      rfl
  · rw [if_neg (mt hindex.mp h), Decoder.crackStoreIndex, hdest, operationPush]
    change some (_ ++ [if r.source.toOperand.base ≠ .none then _ else _, _]) = _
    rw [hsource]
    cases r.source with
    | reg g => rfl
    | imm i =>
      simp only [if_neg h]
      rw [← i.signExtend_lval]
      rfl

section Run

variable (clzZero : ℕ) (s : Arch) (uninit : ℕ → Uninit) (address : Word) (size : ℕ)
  (o : MemOperand) (r : Rmw)

/-- The state after the instruction. -/
def afterRmw : Arch := s.run clzZero (Decoder.crackAt uninit address size (r.toUd o))

/-- **What the instruction does**, along every path: the scratch register is combined with what
reaches the uop of the source. -/
theorem afterRmw_eq :
    ∃ e, afterRmw clzZero s uninit address size o r =
      { s with
        loadStore := o.built s.regs (Arch.next address size) (uninit 0).value1
        scratchls := r.combine s.scratchls
          (stored o r.source s.regs (uninit (addressPart o.toOperand).length).value1)
        eflags := e
        mem := ByteMemory.store s.mem (o.built s.regs (Arch.next address size) (uninit 0).value1)
          (r.combine s.scratchls
            (stored o r.source s.regs (uninit (addressPart o.toOperand).length).value1)) } := by
  rw [afterRmw, Decoder.crackAt_eq uninit address size (crack_rmw o r)]
  change ∃ e, s.run clzZero (pushAll uninit address size _) = _
  rw [Decoder.pushAll_append, Arch.run_append, run_addressPart, Decoder.pushAll_cons,
    Decoder.pushAll_cons, Decoder.pushAll_nil, Arch.run_cons, Arch.run_cons, Arch.run_nil,
    Nat.zero_add, operationPush, stored]
  cases r.source with
  | reg g =>
    obtain ⟨e, he⟩ := step_rmw clzZero
      { s with loadStore := o.built s.regs (Arch.next address size) (uninit 0).value1 }
      (uninit (addressPart o.toOperand).length) address size r (.gpr g)
    refine ⟨e, ?_⟩
    rw [he, Arch.step_store]
    cases o.index <;> rfl
  | imm i =>
    by_cases h : o.index = none
    · obtain ⟨e, he⟩ := step_rmw clzZero
        { s with loadStore := o.built s.regs (Arch.next address size) (uninit 0).value1 }
        (uninit (addressPart o.toOperand).length) address size r .none
      refine ⟨e, ?_⟩
      simp only [if_pos h]
      rw [he, Arch.step_store]
      rfl
    · obtain ⟨e, he⟩ := step_rmwImm clzZero
        { s with loadStore := o.built s.regs (Arch.next address size) (uninit 0).value1 }
        (uninit (addressPart o.toOperand).length) address size r i.value
      refine ⟨e, ?_⟩
      simp only [if_neg h]
      rw [he, Arch.step_store]
      rfl

/-- The word at the effective address `a` was combined with the source, and no register changed. -/
structure ReadsModifiesWrites (a : Word) (t : Arch) : Prop where
  address : t.loadStore = a
  mem : t.mem = ByteMemory.store s.mem a
    (r.combine (ByteMemory.load s.mem a) (r.source.value s.regs))
  regs : t.regs = s.regs

/-- The instructions that are right: the address is built, and the scratch register happens to hold
the word in memory, as far as the operation looks at it. Where an immediate does not reach the uop,
the word that does has to make up for the difference. -/
structure RmwHandled (a addressJunk sourceJunk : Word) : Prop where
  address : o.Handled s.regs addressJunk
  scratch : StoreHandled o r.source sourceJunk →
    ∀ i < 64, r.Depends (r.source.value s.regs) i →
      s.scratchls.getLsbD i = (ByteMemory.load s.mem a).getLsbD i
  immediate : ¬StoreHandled o r.source sourceJunk →
    r.combine s.scratchls sourceJunk =
      r.combine (ByteMemory.load s.mem a) (r.source.value s.regs)

/-- **When a read-modify-write instruction reads its memory operand.** -/
theorem readsModifiesWrites_iff :
    ReadsModifiesWrites s r (o.address s.regs (Arch.next address size))
        (afterRmw clzZero s uninit address size o r) ↔
      RmwHandled s o r (o.address s.regs (Arch.next address size)) (uninit 0).value1
        (uninit (addressPart o.toOperand).length).value1 := by
  have hbuilt := o.built_eq_address_iff s.regs (Arch.next address size) (uninit 0).value1
  have hstored := stored_eq_value_iff o r.source s.regs
    (uninit (addressPart o.toOperand).length).value1
  have hjunk : ¬StoreHandled o r.source (uninit (addressPart o.toOperand).length).value1 →
      stored o r.source s.regs (uninit (addressPart o.toOperand).length).value1 =
        (uninit (addressPart o.toOperand).length).value1 := by
    intro h
    rw [stored]
    rw [StoreHandled] at h
    push Not at h
    obtain ⟨hindex, i, hi, -⟩ := h
    rw [if_pos hindex, hi]
    rfl
  obtain ⟨e, he⟩ := afterRmw_eq clzZero s uninit address size o r
  rw [he]
  generalize (uninit (addressPart o.toOperand).length).value1 = junk at hstored hjunk ⊢
  generalize (uninit 0).value1 = junk0 at hbuilt ⊢
  generalize o.address s.regs (Arch.next address size) = a at hbuilt ⊢
  generalize stored o r.source s.regs junk = src at hstored hjunk ⊢
  constructor
  · -- the word at the address is the one that was stored there
    rintro ⟨haddress, hmem, -⟩
    have ha : o.built s.regs (Arch.next address size) junk0 = a := haddress
    have hword : r.combine s.scratchls src =
        r.combine (ByteMemory.load s.mem a) (r.source.value s.regs) := by
      have hload := congrArg (ByteMemory.load · a) hmem
      simpa only [ha, ByteMemory.load_store_self] using hload
    refine ⟨hbuilt.mp ha, fun h ↦ ?_, fun h ↦ ?_⟩
    · rw [hstored.mpr h] at hword
      exact (r.combine_eq_iff _ _ _).mp hword
    · rwa [hjunk h] at hword
  · rintro ⟨haddress, hscratch, himm⟩
    have ha : o.built s.regs (Arch.next address size) junk0 = a := hbuilt.mpr haddress
    have hword : r.combine s.scratchls src =
        r.combine (ByteMemory.load s.mem a) (r.source.value s.regs) := by
      by_cases h : StoreHandled o r.source junk
      · rw [hstored.mpr h]
        exact (r.combine_eq_iff _ _ _).mpr (hscratch h)
      · rw [hjunk h]
        exact himm h
    exact ⟨ha, by rw [ha, hword], rfl⟩

end Run

/-- With 5 in memory, 1 in RBX and a cleared scratch register, `add [rax], rbx` stores 1. -/
theorem not_readsModifiesWrites_addRaxRbx :
    let s : Arch := ⟨fun g ↦ if g = .rax then 0x2000 else 1, 0, 0, ⟨0⟩,
      ByteMemory.store (fun _ ↦ 0) 0x2000 5⟩
    ¬ReadsModifiesWrites s (.arith .add (.reg .rbx)) 0x2000
      (afterRmw 0 s (fun _ ↦ ⟨0, 0, 0⟩) 0x1000 3 ⟨.gpr .rax, none, .x1, .none, 64⟩
        (.arith .add (.reg .rbx))) := by
  rintro s ⟨-, hmem, -⟩
  have hbyte := congrFun hmem 0x2000
  revert hbyte
  decide

end Cse502.Cracking
