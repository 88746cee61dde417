import Cse502.Cracking.LoadOps
import Cse502.Flags.Compare

/-!
# Comparisons with memory

`cmp` and `test` load first, wherever the memory operand stands. The loaded word then is the source
of the comparison when the other operand is a register, and its destination when the other operand
is an immediate. For `cmp mem, reg`, with the memory as the destination, that is the wrong way
round: the flags are those of the register minus the memory.
-/

namespace Cse502.Cracking

open Decoder (Operand Ud Push Uninit push2q pushAll)

/-! ## Comparisons -/

/-- The instructions that only set flags. -/
inductive Comparison
  | cmp | test
  deriving DecidableEq, Repr

namespace Comparison

/-- The mnemonic of a comparison. -/
def mnemonic : Comparison → Mnemonic
  | cmp => .cmp
  | test => .test

/-- The flags of destination minus source, or of destination and source. -/
def flags (dst src : Word) (e : Eflags) : Comparison → Eflags
  | cmp => Execute.cmpFlags src dst e
  | test => Execute.testFlags src dst e

theorem flags_test_comm (a b : Word) (e : Eflags) : test.flags a b e = test.flags b a e := by
  rw [flags, flags, Execute.testFlags, Execute.testFlags, BitVec.and_comm b a]

/-- **The flags of a comparison tell its operands apart.** The carry is set for one order only. -/
theorem flags_cmp_comm_iff (a b : Word) (e : Eflags) :
    cmp.flags a b e = cmp.flags b a e ↔ a = b := by
  constructor
  · intro h
    have hcf := congrArg (·.test Eflags.maskCF) h
    simp only [flags, Execute.cmpFlags_cf] at hcf
    have hlt : a.toNat < b.toNat ↔ b.toNat < a.toNat := by
      rw [← Execute.ult_iff, ← Execute.ult_iff, hcf]
    exact BitVec.eq_of_toNat_eq (by omega)
  · rintro rfl
    rfl

end Comparison

/-- The operand that is not in memory. -/
inductive Other
  /-- `cmp mem, src`: the memory is the destination. -/
  | source (src : Source)
  /-- `cmp reg, mem`: the memory is the source. -/
  | destination (g : Gpr)
  deriving DecidableEq, Repr

namespace Other

/-- What udis86 reports for a register operand. -/
def regOperand (g : Gpr) : Operand := { Operand.none with type := .reg, size := 64, base := .gpr g }

/-- The comparison of what udis86 reports for the first operand with this one. -/
def toUd (k : Comparison) (first : Operand) : Other → Ud
  | source src => ⟨k.mnemonic, first, src.toOperand, Operand.none⟩
  | destination g => ⟨k.mnemonic, regOperand g, first, Operand.none⟩

/-- The flags of the comparison when the operand in memory is `v`. -/
def flags (k : Comparison) (regs : Gpr → Word) (v : Word) (e : Eflags) : Other → Eflags
  | source src => k.flags v (src.value regs) e
  | destination g => k.flags (regs g) v e

/-- A register that the operand does not name. -/
def IsFree (r : Gpr) : Other → Prop
  | source (.reg g) | destination g => r ≠ g
  | source (.imm _) => True

end Other

section Step

variable (clzZero : ℕ) (s : Arch) (u : Uninit) (address : Word) (size : ℕ) (k : Comparison)

/-- The uop of a comparison of two registers. -/
theorem step_comparison (r1 : Reg) (g : Gpr) :
    s.step clzZero (push2q u address size ⟨k.mnemonic, r1, .gpr g, .none, 0, .reg⟩) =
      { s with eflags :=
          k.flags (s.regs g) (s.read (Arch.next address size) r1 u.value1) s.eflags } := by
  have hread := Arch.pseudo_regValue s u.value1 0
    (push2q u address size ⟨k.mnemonic, r1, .gpr g, .none, 0, .reg⟩) r1
  change s.pseudo r1 _ = s.read (Arch.next address size) r1 u.value1 at hread
  -- the destination is written back unchanged
  have hstep : s.step clzZero (push2q u address size ⟨k.mnemonic, r1, .gpr g, .none, 0, .reg⟩) =
      { s with
        regs := Function.update s.regs g (s.regs g)
        eflags := k.flags (s.regs g) (s.read (Arch.next address size) r1 u.value1) s.eflags } := by
    rw [← hread]
    cases k <;> rfl
  rw [hstep, Function.update_eq_self]

/-- The uop of a comparison of a register with an immediate. -/
theorem step_comparisonImm (g : Gpr) (imm : Word) :
    s.step clzZero (push2q u address size ⟨k.mnemonic, .none, .gpr g, .none, imm, .immed⟩) =
      { s with eflags := k.flags (s.regs g) imm s.eflags } := by
  have hstep : s.step clzZero
      (push2q u address size ⟨k.mnemonic, .none, .gpr g, .none, imm, .immed⟩) =
        { s with
          regs := Function.update s.regs g (s.regs g)
          eflags := k.flags (s.regs g) imm s.eflags } := by
    cases k <;> rfl
  rw [hstep, Function.update_eq_self]

/-- The uop of a comparison of the scratch register with an immediate. -/
theorem step_comparisonScratchImm (imm : Word) :
    s.step clzZero (push2q u address size ⟨k.mnemonic, .none, .scratchregls, .none, imm, .immed⟩) =
      { s with eflags := k.flags s.scratchls imm s.eflags } := by
  cases k <;> rfl

end Step

/-! ## The uops -/

/-- The comparison that follows the load: a register is always taken as the destination. -/
def comparisonPush (k : Comparison) : Other → Push
  | .source (.reg g) | .destination g => ⟨k.mnemonic, .scratchregls, .gpr g, .none, 0, .reg⟩
  | .source (.imm i) => ⟨k.mnemonic, .none, .scratchregls, .none, i.value, .immed⟩

/-- A comparison with memory loads, then compares. -/
theorem crack_memCompare (k : Comparison) (o : MemOperand) (other : Other) :
    Decoder.crack (other.toUd k o.toOperand) =
      some (addressPart o.toOperand ++ [Decoder.pushLoad, comparisonPush k other]) := by
  have hmnemonic :
      k.mnemonic ≠ .lea ∧ k.mnemonic ≠ .imul ∧ (k.mnemonic = .cmp ∨ k.mnemonic = .test) :=
    by cases k <;> decide
  obtain ⟨hlea, himul, hcompare⟩ := hmnemonic
  cases other with
  | destination g =>
    have hud : ((Other.destination g).toUd k o.toOperand).mnemonic = k.mnemonic := rfl
    rw [crack_of_mem himul (.inr ⟨rfl, rfl⟩), crackMemory_of_ne_lea hlea rfl rfl, hud,
      if_pos hcompare]
    rfl
  | source src =>
    have hud : ((Other.source src).toUd k o.toOperand).mnemonic = k.mnemonic := rfl
    rw [crack_of_mem himul (.inl rfl), crackMemory_of_ne_lea hlea rfl rfl, hud, if_pos hcompare]
    cases src with
    | reg g => rfl
    | imm i =>
      rw [comparisonPush, ← i.signExtend_lval]
      rfl

/-- The register form of a comparison is one uop. -/
theorem crack_regCompare (k : Comparison) (r : Gpr) (other : Other) :
    Decoder.crack (other.toUd k (Other.regOperand r)) =
      some [match other with
        | .source (.reg g) => ⟨k.mnemonic, .gpr g, .gpr r, .none, 0, .reg⟩
        | .source (.imm i) => ⟨k.mnemonic, .none, .gpr r, .none, i.value, .immed⟩
        | .destination g => ⟨k.mnemonic, .gpr r, .gpr g, .none, 0, .reg⟩] := by
  cases other with
  | destination g => cases k <;> rfl
  | source src =>
    cases src with
    | reg g => cases k <;> rfl
    | imm i =>
      dsimp only
      rw [← i.signExtend_lval]
      cases k <;> rfl

section Run

variable (clzZero : ℕ) (s : Arch) (uninit : ℕ → Uninit) (address : Word) (size : ℕ)
  (k : Comparison) (o : MemOperand) (other : Other)

/-- The word in memory: what is at the address the load is issued for. -/
def memoryWord : Word :=
  ByteMemory.load s.mem (s.run clzZero (addressUops
    (Decoder.crackAt uninit address size (other.toUd k o.toOperand)))).loadStore

/-- The state after the comparison. -/
def afterCompare : Arch :=
  s.run clzZero (Decoder.crackAt uninit address size (other.toUd k o.toOperand))

/-- The flags after the register form of the comparison, with `v` in the register `r` that stands
for the memory. -/
def registerFlags (r : Gpr) (v : Word) : Eflags :=
  (Arch.run clzZero { s with regs := Function.update s.regs r v }
    (Decoder.crackAt uninit address size (other.toUd k (Other.regOperand r)))).eflags

/-- The flags the cracked comparison computes when the operand in memory is `v`. -/
def crackedFlags (regs : Gpr → Word) (v : Word) (e : Eflags) : Eflags :=
  match other with
  | .source (.reg g) | .destination g => k.flags (regs g) v e
  | .source (.imm i) => k.flags v i.value e

/-- **What a comparison with memory does**, along every path. -/
theorem afterCompare_eflags :
    (afterCompare clzZero s uninit address size k o other).eflags =
      crackedFlags k other s.regs (memoryWord clzZero s uninit address size k o other)
        s.eflags := by
  have huops := Decoder.crackAt_eq uninit address size (crack_memCompare k o other)
  change _ = pushAll uninit address size _ at huops
  rw [memoryWord, afterCompare, huops, addressUops_pushAll uninit address size o (fun u ↦ rfl),
    Decoder.pushAll_append, Arch.run_append, run_addressPart, Decoder.pushAll_cons,
    Decoder.pushAll_cons, Decoder.pushAll_nil, Arch.run_cons, Arch.run_cons, Arch.run_nil,
    step_load]
  cases other with
  | destination g =>
    rw [comparisonPush, step_comparison]
    rfl
  | source src =>
    cases src with
    | reg g =>
      rw [comparisonPush, step_comparison]
      rfl
    | imm i =>
      rw [comparisonPush, step_comparisonScratchImm]
      rfl

/-- The register form compares as it says. -/
theorem registerFlags_eq {r : Gpr} (hr : other.IsFree r) (v : Word) :
    registerFlags clzZero s uninit address size k other r v = other.flags k s.regs v s.eflags := by
  rw [registerFlags, Decoder.crackAt_eq uninit address size (crack_regCompare k r other)]
  change (Arch.run clzZero _ (pushAll uninit address size _)).eflags = _
  rw [Decoder.pushAll_cons, Decoder.pushAll_nil, Arch.run_cons, Arch.run_nil]
  cases other with
  | destination g =>
    have hg : Function.update s.regs r v g = s.regs g := Function.update_of_ne (Ne.symm hr) _ _
    rw [step_comparison, Arch.read_gpr]
    dsimp only
    rw [hg, Function.update_self]
    rfl
  | source src =>
    cases src with
    | reg g =>
      have hg : Function.update s.regs r v g = s.regs g := Function.update_of_ne (Ne.symm hr) _ _
      rw [step_comparison, Arch.read_gpr]
      dsimp only
      rw [hg, Function.update_self]
      rfl
    | imm i =>
      rw [step_comparisonImm]
      dsimp only
      rw [Function.update_self]
      rfl

/-- The flags are those of destination and source, the same as after moving the word in memory to a
free register and comparing that. -/
structure ComparesInOrder : Prop where
  flags : (afterCompare clzZero s uninit address size k o other).eflags =
    other.flags k s.regs (memoryWord clzZero s uninit address size k o other) s.eflags
  register : ∀ r, other.IsFree r → (afterCompare clzZero s uninit address size k o other).eflags =
    registerFlags clzZero s uninit address size k other r
      (memoryWord clzZero s uninit address size k o other)

/-- The comparisons that are right: all but `cmp mem, reg` with two different words. -/
def InOrder (k : Comparison) (regs : Gpr → Word) (v : Word) (other : Other) : Prop :=
  k = .cmp → ∀ g, other = .source (.reg g) → regs g = v

theorem crackedFlags_eq_iff (regs : Gpr → Word) (v : Word) (e : Eflags) :
    crackedFlags k other regs v e = other.flags k regs v e ↔ InOrder k regs v other := by
  rw [InOrder]
  cases other with
  | destination g =>
    rw [crackedFlags, Other.flags]
    exact ⟨fun _ _ _ h ↦ Other.noConfusion h, fun _ ↦ rfl⟩
  | source src =>
    cases src with
    | imm i =>
      rw [crackedFlags, Other.flags]
      exact ⟨fun _ _ _ h ↦ Source.noConfusion (Other.source.inj h), fun _ ↦ rfl⟩
    | reg g =>
      rw [crackedFlags, Other.flags, Source.value]
      cases k with
      | test =>
        exact ⟨fun _ h ↦ Comparison.noConfusion h,
          fun _ ↦ Comparison.flags_test_comm (regs g) v e⟩
      | cmp =>
        rw [Comparison.flags_cmp_comm_iff]
        constructor
        · rintro h - g' hg'
          rwa [← Source.reg.inj (Other.source.inj hg')]
        · exact fun h ↦ h rfl g rfl

/-- **When a comparison with memory compares in the right order.** -/
theorem comparesInOrder_iff :
    ComparesInOrder clzZero s uninit address size k o other ↔
      InOrder k s.regs (memoryWord clzZero s uninit address size k o other) other := by
  have heflags := afterCompare_eflags clzZero s uninit address size k o other
  rw [← crackedFlags_eq_iff k other s.regs _ s.eflags, ← heflags]
  constructor
  · rintro ⟨hflags, -⟩
    exact hflags
  · intro hflags
    refine ⟨hflags, fun r hr ↦ hflags.trans ?_⟩
    rw [registerFlags_eq clzZero s uninit address size k other hr]

end Run

/-- With 1 in memory and 2 in RBX, `cmp [rax], rbx` has to borrow and does not. -/
theorem not_comparesInOrder_cmpRaxRbx :
    ¬ComparesInOrder 0 ⟨fun g ↦ if g = .rax then 0x2000 else 2, 0, 0, ⟨0⟩,
        ByteMemory.store (fun _ ↦ 0) 0x2000 1⟩ (fun _ ↦ ⟨0, 0, 0⟩) 0x1000 3 .cmp
      ⟨.gpr .rax, none, .x1, .none, 64⟩ (.source (.reg .rbx)) := by
  rintro ⟨hflags, -⟩
  have hcf := congrArg (·.test Eflags.maskCF) hflags
  revert hcf
  decide

end Cse502.Cracking
