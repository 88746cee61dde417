import Cse502.Cracking.LoadOps
import Cse502.Model.ExecuteRuns

/-!
# Instructions of one operand

A register reaches its uop as the first operand, and so does a word that was loaded. The branch for
operands outside memory takes an immediate for a register as well, so `push` of an immediate pushes
what its uop held. A word in memory that was incremented, decremented or negated is left in the
scratch register, and no store writes it back.
-/

namespace Cse502.Cracking

open Decoder (Operand Ud Push Uninit push2q pushAll)

/-! ## The instructions -/

/-- The operations of one operand. -/
inductive OneOp
  | push | call | jmp | inc | dec | neg | mul | div | idiv
  deriving DecidableEq, Repr

namespace OneOp

/-- The mnemonic of an operation. -/
def mnemonic : OneOp → Mnemonic
  | push => .push
  | call => .call
  | jmp => .jmp
  | inc => .inc
  | dec => .dec
  | neg => .neg
  | mul => .mul
  | div => .div
  | idiv => .idiv

theorem not_isSpecial (op : OneOp) : ¬IsSpecial op.mnemonic := by
  cases op <;> decide

/-- What an operation makes of its operand, if it writes it back. -/
def result : OneOp → Option (Word → Word)
  | inc => some (· + 1)
  | dec => some (· - 1)
  | neg => some (-·)
  | _ => none

end OneOp

/-- The operand of an instruction. -/
inductive Single
  | reg (g : Gpr) | imm (i : Imm) | mem (o : MemOperand)
  deriving DecidableEq, Repr

/-- The value of an operand in the state `t`, where an operand in memory has the address the
registers `regs` give it. -/
def Single.value (regs : Gpr → Word) (t : Arch) (next : Word) : Single → Word
  | reg g => t.regs g
  | imm i => i.value
  | mem o => ByteMemory.load t.mem (o.address regs next)

/-- An instruction of one operand. Only the operand of a `push` and the target of a `call` or
`jmp` may be immediate. -/
structure OneInsn where
  op : OneOp
  operand : Single
  allowed : ∀ i, operand = .imm i → op = .push ∨ op = .call ∨ op = .jmp

namespace OneInsn

/-- What udis86 reports for the operand. The immediate of a `call` or `jmp` is one of its own
type. -/
def toOperand (i : OneInsn) : Operand :=
  match i.operand with
  | .reg g => { Operand.none with type := .reg, size := 64, base := .gpr g }
  | .imm v => { Operand.none with
      type := if i.op = .push then .imm else .jimm, size := v.size, lval := v.lval }
  | .mem o => o.toOperand

/-- What udis86 reports for an instruction. -/
def toUd (i : OneInsn) : Ud := ⟨i.op.mnemonic, i.toOperand, Operand.none, Operand.none⟩

/-- Where an instruction jumps to, for the value of its operand: an immediate is a distance. -/
def target (i : OneInsn) (v next : Word) : Word :=
  match i.operand with
  | .imm _ => next + v
  | _ => v

/-- The registers an instruction changes. -/
def Changes (i : OneInsn) (g : Gpr) : Prop :=
  match i.op with
  | .push | .call => g = .rsp
  | .jmp => False
  | .inc | .dec | .neg => i.operand = .reg g
  | .mul | .div | .idiv => g = .rax ∨ g = .rdx

/-- The last uop of an instruction, with the operands it is run on. -/
def lastFetched (clzZero : ℕ) (s : Arch) (uops : List Uop) : Uop :=
  (s.run clzZero uops.dropLast).fetch (uops.getLastD Uop.zero)

/-- The uops of an instruction act on its operand. -/
structure ActsOnOperand (clzZero : ℕ) (s : Arch) (next : Word) (i : OneInsn) (uops : List Uop) :
    Prop where
  /-- An operand in memory is loaded from its address. -/
  loads : ∀ o, i.operand = .mem o →
    (s.run clzZero uops.dropLast).loadStore = o.address s.regs next
  /-- The operation is run on the value of the operand. -/
  uses : (lastFetched clzZero s uops).value1 = i.operand.value s.regs s next
  /-- A jump goes where the operand says. -/
  jumps : i.op = .call ∨ i.op = .jmp →
    Execute.jumpTarget (lastFetched clzZero s uops) = i.target (i.operand.value s.regs s next) next
  /-- The operand is replaced by the result. -/
  writesBack : ∀ f, i.op.result = some f →
    i.operand.value s.regs (s.run clzZero uops) next = f (i.operand.value s.regs s next)
  /-- The other registers are unchanged. -/
  keeps : ∀ g, ¬i.Changes g → (s.run clzZero uops).regs g = s.regs g

/-- The instructions that act on their operand, where the first uop held `junk`. -/
def Handled (s : Arch) (next junk : Word) (i : OneInsn) : Prop :=
  match i.operand with
  | .reg _ => True
  | .imm v => i.op = .push → junk = v.value
  | .mem o => o.Handled s.regs junk ∧
    ∀ f, i.op.result = some f → f (i.operand.value s.regs s next) = i.operand.value s.regs s next

/-! ## The uop of the operation -/

section Step

variable (clzZero : ℕ) (s : Arch) (u : Uninit) (address : Word) (size : ℕ)

/-- One register after an assignment. -/
theorem regs_write (s : Arch) (r : Reg) (v : Word) (g : Gpr) :
    (s.write r v).regs g = if r = .gpr g then v else s.regs g := by
  cases r with
  | gpr g' =>
    refine (Function.update_apply s.regs g' v g).trans ?_
    exact if_congr ⟨fun h ↦ by rw [h], fun h ↦ (Reg.gpr.inj h).symm⟩ rfl rfl
  | none | rip | scratchreg | scratchregls | loadStoreReg | other code => rfl

/-- The uop of an operation with its operand in `r1`. -/
abbrev opUop (op : OneOp) (r1 r2 : Reg) : Uop :=
  push2q u address size ⟨op.mnemonic, r1, r2, .none, 0, .reg⟩

/-- The first operand is read at its latest value. -/
theorem fetch_value1 (op : OneOp) (r1 r2 : Reg) :
    (s.fetch (opUop u address size op r1 r2)).value1 =
      s.read (Arch.next address size) r1 u.value1 := by
  have hread : (s.fetch (opUop u address size op r1 r2)).value1 =
      s.pseudo r1 (Dispatch.regValue ⟨s.regs, 0⟩ (opUop u address size op r1 r2) r1 u.value1) := by
    cases op <;> rfl
  rw [hread, Arch.pseudo_regValue]
  rfl

/-- A jump by a register goes to its value. -/
theorem jumpTarget_fetch (op : OneOp) (r1 r2 : Reg) :
    Execute.jumpTarget (s.fetch (opUop u address size op r1 r2)) =
      s.read (Arch.next address size) r1 u.value1 := by
  have hsrc : (s.fetch (opUop u address size op r1 r2)).src = .reg := Dispatch.readOperands_src _ _
  rw [Execute.jumpTarget, if_pos hsrc, fetch_value1]

/-- The second register gets back the value it had. -/
theorem regs_write_read (t : Arch) (next junk : Word) (r : Reg) (g : Gpr)
    (h : t.regs g = s.regs g) :
    (t.write r (s.read next r junk)).regs g = s.regs g := by
  rw [regs_write]
  split_ifs with hr
  · rw [hr]
    rfl
  · exact h

/-- **The registers an operation does not change.** -/
theorem regs_step (op : OneOp) (r1 r2 : Reg) {g : Gpr}
    (hstack : op = .push ∨ op = .call → g ≠ .rsp) (hresult : op.result.isSome → r1 ≠ .gpr g)
    (hwide : op = .mul ∨ op = .div ∨ op = .idiv → g ≠ .rax ∧ g ≠ .rdx) :
    (s.step clzZero (opUop u address size op r1 r2)).regs g = s.regs g := by
  have hread : ∀ r junk, s.pseudo r (Dispatch.regValue ⟨s.regs, 0⟩ (opUop u address size op r1 r2)
      r junk) = s.read (Arch.next address size) r junk := fun r junk ↦
    Arch.pseudo_regValue s junk 0 (opUop u address size op r1 r2) r
  have hpair : ∀ v2 v3, g ≠ .rax ∧ g ≠ .rdx →
      Function.update (Function.update s.regs .rax v2) .rdx v3 g = s.regs g := by
    rintro v2 v3 ⟨hrax, hrdx⟩
    rw [Function.update_of_ne hrdx, Function.update_of_ne hrax]
  cases op with
  | push =>
    obtain ⟨w, hstep⟩ : ∃ w, s.step clzZero (opUop u address size .push r1 r2) =
        (s.pushWord (s.regs .rsp) w).write r2 (s.pseudo r2 (Dispatch.regValue ⟨s.regs, 0⟩
          (opUop u address size .push r1 r2) r2 u.value2)) := ⟨_, rfl⟩
    rw [hstep, hread]
    exact regs_write_read s _ _ _ r2 g (Function.update_of_ne (hstack (.inl rfl)) _ _)
  | call =>
    obtain ⟨w, hstep⟩ : ∃ w, s.step clzZero (opUop u address size .call r1 r2) =
        (s.pushWord (s.regs .rsp) w).write r2 (s.pseudo r2 (Dispatch.regValue ⟨s.regs, 0⟩
          (opUop u address size .call r1 r2) r2 u.value2)) := ⟨_, rfl⟩
    rw [hstep, hread]
    exact regs_write_read s _ _ _ r2 g (Function.update_of_ne (hstack (.inr rfl)) _ _)
  | jmp =>
    have hstep : s.step clzZero (opUop u address size .jmp r1 r2) =
        s.write r2 (s.pseudo r2 (Dispatch.regValue ⟨s.regs, 0⟩
          (opUop u address size .jmp r1 r2) r2 u.value2)) := rfl
    rw [hstep, hread]
    exact regs_write_read s s _ _ r2 g rfl
  | inc | dec | neg =>
    -- the result goes to the first register, whatever the second one is
    refine (regs_write _ r1 _ g).trans ?_
    exact if_neg (hresult rfl)
  | mul | div | idiv => exact hpair _ _ (hwide (by decide))

/-- The result of an operation goes to its first register. -/
theorem step_result {op : OneOp} {f : Word → Word} (hf : op.result = some f) (r1 r2 : Reg) :
    ∃ e, s.step clzZero (opUop u address size op r1 r2) =
      { s with eflags := e }.write r1 (f (s.read (Arch.next address size) r1 u.value1)) := by
  refine ⟨(Execute.alu clzZero (s.fetch (opUop u address size op r1 r2)) s.eflags).2, ?_⟩
  rw [← fetch_value1 s u address size op r1 r2]
  cases op with
  | inc | dec | neg =>
    rw [OneOp.result, Option.some.injEq] at hf
    rw [← hf]
    rfl
  | push | call | jmp | mul | div | idiv => cases hf

end Step

/-! ## The uops -/

/-- The uops of an instruction with its operand in a register. -/
theorem crack_reg (i : OneInsn) {g : Gpr} (h : i.operand = .reg g) :
    Decoder.crack i.toUd = some [⟨i.op.mnemonic, .gpr g, .none, .none, 0, .reg⟩] := by
  rw [toUd, toOperand, h]
  cases i.op <;> rfl

/-- The uops of a `push` of an immediate: the immediate is not in them. -/
theorem crack_push (i : OneInsn) {v : Imm} (h : i.operand = .imm v) (hop : i.op = .push) :
    Decoder.crack i.toUd = some [⟨.push, .none, .none, .none, 0, .reg⟩] := by
  rw [toUd, toOperand, h, hop]
  rfl

/-- The uops of a `call` or `jmp` by a distance. -/
theorem crack_near (i : OneInsn) {v : Imm} (h : i.operand = .imm v) (hop : i.op ≠ .push) :
    Decoder.crack i.toUd = some [⟨i.op.mnemonic, .none, .none, .none, v.value, .immed⟩] := by
  have hcrack : Decoder.crack i.toUd =
      some [⟨i.op.mnemonic, .none, .none, .none, Decoder.signExtend v.lval v.size, .immed⟩] := by
    rw [toUd, toOperand, h]
    dsimp only
    rw [if_neg hop]
    rcases i.allowed v h with hop' | hop' | hop'
    · exact absurd hop' hop
    · rw [hop']; rfl
    · rw [hop']; rfl
  rw [hcrack, v.signExtend_lval]

/-- The uops of an instruction with its operand in memory. -/
theorem crack_mem (i : OneInsn) {o : MemOperand} (h : i.operand = .mem o) :
    Decoder.crack i.toUd = some (addressPart o.toOperand ++
      [Decoder.pushLoad, ⟨i.op.mnemonic, .scratchregls, o.base.reg, .none, 0, .reg⟩]) := by
  have hplain : ¬IsSpecial i.toUd.mnemonic := i.op.not_isSpecial
  have hoperand : i.toOperand = o.toOperand := by rw [toOperand, h]
  have htype : i.toUd.operand0.type = .mem := by
    change i.toOperand.type = .mem
    rw [hoperand]
    rfl
  have hoi : (if i.toUd.operand0.type = .mem then i.toUd.operand0 else i.toUd.operand1) =
      o.toOperand := by
    rw [if_pos htype]
    exact hoperand
  rw [crack_of_not_isSpecial hplain (.inl htype) hoi rfl, if_pos (.inl rfl), Decoder.crackLoad]
  have hbase : i.toUd.operand0.base = o.base.reg := congrArg Operand.base hoperand
  rw [hbase]
  rfl

/-! ## Acting on the operand -/

/-- Why a register is not one an instruction changes. -/
theorem not_changes {i : OneInsn} {g : Gpr} (hg : ¬i.Changes g) :
    (i.op = .push ∨ i.op = .call → g ≠ .rsp) ∧ (i.op.result.isSome → i.operand ≠ .reg g) ∧
      (i.op = .mul ∨ i.op = .div ∨ i.op = .idiv → g ≠ .rax ∧ g ≠ .rdx) := by
  rw [Changes] at hg
  cases hop : i.op <;> rw [hop] at hg <;> simp_all [OneOp.result]

theorem lastFetched_concat (clzZero : ℕ) (s : Arch) (us : List Uop) (u : Uop) :
    lastFetched clzZero s (us ++ [u]) = (s.run clzZero us).fetch u := by
  rw [lastFetched, List.dropLast_concat, List.getLastD_concat]

section Run

variable (clzZero : ℕ) (s : Arch) (uninit : ℕ → Uninit) (address : Word) (size : ℕ) (i : OneInsn)

/-- A register is the operand that is always handled. -/
theorem actsOnOperand_reg {g : Gpr} (h : i.operand = .reg g) :
    i.ActsOnOperand clzZero s (Arch.next address size)
      [opUop (uninit 0) address size i.op (.gpr g) .none] := by
  have hlast := lastFetched_concat clzZero s []
    (opUop (uninit 0) address size i.op (.gpr g) .none)
  rw [List.nil_append, Arch.run_nil] at hlast
  have hvalue : i.operand.value s.regs s (Arch.next address size) = s.regs g := by
    rw [h, Single.value]
  refine ⟨fun o ho ↦ ?_, ?_, fun _ ↦ ?_, fun f hf ↦ ?_, fun g' hg ↦ ?_⟩
  · rw [h] at ho
    cases ho
  · rw [hlast, hvalue, fetch_value1, Arch.read_gpr]
  · rw [hlast, hvalue, target, h, jumpTarget_fetch, Arch.read_gpr]
  · obtain ⟨e, hstep⟩ := step_result clzZero s (uninit 0) address size hf (.gpr g) .none
    rw [hvalue, h, Single.value, Arch.run_cons, Arch.run_nil, hstep, regs_write, if_pos rfl,
      Arch.read_gpr]
  · rw [Arch.run_cons, Arch.run_nil]
    obtain ⟨hstack, hresult, hwide⟩ := not_changes hg
    refine regs_step clzZero s (uninit 0) address size i.op (.gpr g) .none hstack (fun hop hgg ↦ ?_)
      hwide
    exact hresult hop (h.trans (congrArg Single.reg (Reg.gpr.inj hgg)))

/-- The distance of a `call` or `jmp` reaches its uop. -/
theorem actsOnOperand_near {v : Imm} (h : i.operand = .imm v) (hop : i.op = .call ∨ i.op = .jmp) :
    i.ActsOnOperand clzZero s (Arch.next address size)
      [push2q (uninit 0) address size
        ⟨i.op.mnemonic, .none, .none, .none, v.value, .immed⟩] := by
  have hvalue : i.operand.value s.regs s (Arch.next address size) = v.value := by
    rw [h, Single.value]
  refine ⟨fun o ho ↦ ?_, ?_, fun _ ↦ ?_, fun f hf ↦ ?_, fun g hg ↦ ?_⟩
  · rw [h] at ho
    cases ho
  · rw [hvalue]
    rcases hop with hop | hop <;> rw [hop] <;> rfl
  · rw [hvalue, target, h]
    rcases hop with hop | hop <;> rw [hop] <;> rfl
  · rcases hop with hop | hop <;> rw [hop] at hf <;> cases hf
  · rw [Changes] at hg
    rcases hop with hop | hop <;> rw [hop] at hg ⊢
    · exact Function.update_of_ne hg _ _
    · rfl

/-- The word a `push` of an immediate pushes is what its uop held. -/
theorem actsOnOperand_push_iff {v : Imm} (h : i.operand = .imm v) (hop : i.op = .push) :
    i.ActsOnOperand clzZero s (Arch.next address size)
      [opUop (uninit 0) address size .push .none .none] ↔ (uninit 0).value1 = v.value := by
  have hlast := lastFetched_concat clzZero s [] (opUop (uninit 0) address size .push .none .none)
  rw [List.nil_append, Arch.run_nil] at hlast
  have hvalue : i.operand.value s.regs s (Arch.next address size) = v.value := by
    rw [h, Single.value]
  constructor
  · intro hacts
    have huses := hacts.uses
    rwa [hlast, hvalue, fetch_value1, Arch.read_none] at huses
  · intro hjunk
    refine ⟨fun o ho ↦ ?_, ?_, fun hop' ↦ ?_, fun f hf ↦ ?_, fun g hg ↦ ?_⟩
    · rw [h] at ho
      cases ho
    · rw [hlast, hvalue, fetch_value1, Arch.read_none, hjunk]
    · rw [hop] at hop'
      rcases hop' with hop' | hop' <;> cases hop'
    · rw [hop] at hf
      cases hf
    · obtain ⟨hstack, -, hwide⟩ := not_changes hg
      rw [hop] at hstack hwide
      exact regs_step clzZero s (uninit 0) address size .push .none .none hstack
        (fun _ ↦ Reg.noConfusion) hwide

/-- The uops of an operand in memory: those before the last build its address and load its word. -/
private theorem pushAll_mem (o : MemOperand) {a : Word}
    (ha : a = o.built s.regs (Arch.next address size) (uninit 0).value1) : ∃ us v,
    pushAll uninit address size (addressPart o.toOperand ++
        [Decoder.pushLoad, ⟨i.op.mnemonic, .scratchregls, o.base.reg, .none, 0, .reg⟩]) =
      us ++ [opUop v address size i.op .scratchregls o.base.reg] ∧
    s.run clzZero us = { s with loadStore := a, scratchls := ByteMemory.load s.mem a } := by
  refine ⟨pushAll uninit address size (addressPart o.toOperand ++ [Decoder.pushLoad]),
    uninit (0 + (addressPart o.toOperand ++ [Decoder.pushLoad]).length), ?_, ?_⟩
  · rw [List.append_cons, Decoder.pushAll_append]
    rfl
  · rw [Decoder.pushAll_append, Arch.run_append, run_addressPart, ← ha]
    rfl

/-- No uop writes the result back, so the word in memory stays. -/
private theorem value_step_opUop {o : MemOperand} (h : i.operand = .mem o) (b : Arch)
    (hmem : b.mem = s.mem) (v : Uninit) {f : Word → Word} (hf : i.op.result = some f) :
    i.operand.value s.regs (b.step clzZero (opUop v address size i.op .scratchregls o.base.reg))
        (Arch.next address size) =
      i.operand.value s.regs s (Arch.next address size) := by
  obtain ⟨e, hstep⟩ := step_result clzZero b v address size hf .scratchregls o.base.reg
  rw [hstep, h, Single.value, Single.value, ← hmem]
  rfl

/-- **When an operand in memory is acted on**: its address is built right, and the word that would
have to be written back is the one that is there. -/
theorem actsOnOperand_mem_iff {o : MemOperand} (h : i.operand = .mem o) :
    i.ActsOnOperand clzZero s (Arch.next address size)
      (pushAll uninit address size (addressPart o.toOperand ++
        [Decoder.pushLoad, ⟨i.op.mnemonic, .scratchregls, o.base.reg, .none, 0, .reg⟩])) ↔
    o.Handled s.regs (uninit 0).value1 ∧ ∀ f, i.op.result = some f →
      f (i.operand.value s.regs s (Arch.next address size)) =
        i.operand.value s.regs s (Arch.next address size) := by
  obtain ⟨a, ha⟩ : ∃ a, a = o.built s.regs (Arch.next address size) (uninit 0).value1 := ⟨_, rfl⟩
  obtain ⟨us, v, huops, hbefore⟩ := pushAll_mem clzZero s uninit address size i o ha
  obtain ⟨b, hb⟩ : ∃ b : Arch,
      b = { s with loadStore := a, scratchls := ByteMemory.load s.mem a } := ⟨_, rfl⟩
  rw [← hb] at hbefore
  rw [huops]
  have hlast := lastFetched_concat clzZero s us
    (opUop v address size i.op .scratchregls o.base.reg)
  have hrun : s.run clzZero (us ++ [opUop v address size i.op .scratchregls o.base.reg]) =
      b.step clzZero (opUop v address size i.op .scratchregls o.base.reg) := by
    rw [Arch.run_append, hbefore]
    rfl
  rw [hbefore] at hlast
  have hvalue : i.operand.value s.regs s (Arch.next address size) =
      ByteMemory.load s.mem (o.address s.regs (Arch.next address size)) := by
    rw [h, Single.value]
  rw [← MemOperand.built_eq_address_iff o s.regs (Arch.next address size), ← ha]
  constructor
  · intro hacts
    have hloads := hacts.loads o h
    rw [List.dropLast_concat, hbefore, hb] at hloads
    refine ⟨hloads, fun f hf ↦ ?_⟩
    rw [← hacts.writesBack f hf, hrun]
    exact value_step_opUop clzZero s address size i h b (by rw [hb]) v hf
  · rintro ⟨haddress, hresult⟩
    have hvalue1 : b.read (Arch.next address size) .scratchregls v.value1 =
        i.operand.value s.regs s (Arch.next address size) := by
      rw [Arch.read_scratchregls, hb, hvalue, haddress]
    refine ⟨fun o' ho ↦ ?_, ?_, fun _ ↦ ?_, fun f hf ↦ ?_, fun g hg ↦ ?_⟩
    · rw [h] at ho
      cases ho
      rw [List.dropLast_concat, hbefore, hb]
      exact haddress
    · rw [hlast, fetch_value1, hvalue1]
    · rw [hlast, jumpTarget_fetch, hvalue1, target, h]
    · rw [hrun, value_step_opUop clzZero s address size i h b (by rw [hb]) v hf, hresult f hf]
    · obtain ⟨hstack, -, hwide⟩ := not_changes hg
      rw [hrun, regs_step clzZero b v address size i.op .scratchregls o.base.reg hstack
        (fun _ ↦ Reg.noConfusion) hwide, hb]

/-- **When instructions of one operand act on it.** -/
theorem actsOnOperand_iff :
    i.ActsOnOperand clzZero s (Arch.next address size)
      (Decoder.crackAt uninit address size i.toUd) ↔
    i.Handled s (Arch.next address size) (uninit 0).value1 := by
  cases h : i.operand with
  | reg g =>
    rw [Decoder.crackAt_eq uninit address size (crack_reg i h), Handled, h]
    exact iff_of_true (actsOnOperand_reg clzZero s uninit address size i h) trivial
  | imm v =>
    rw [Handled, h]
    by_cases hop : i.op = .push
    · rw [Decoder.crackAt_eq uninit address size (crack_push i h hop)]
      exact (actsOnOperand_push_iff clzZero s uninit address size i h hop).trans
        ⟨fun hjunk _ ↦ hjunk, fun hjunk ↦ hjunk hop⟩
    · rw [Decoder.crackAt_eq uninit address size (crack_near i h hop)]
      exact iff_of_true (actsOnOperand_near clzZero s uninit address size i h
        ((i.allowed v h).resolve_left hop)) fun hop' ↦ absurd hop' hop
  | mem o =>
    rw [Decoder.crackAt_eq uninit address size (crack_mem i h), Handled]
    simp only [h]
    rw [← h]
    exact actsOnOperand_mem_iff clzZero s uninit address size i h

end Run

/-- `inc qword [rax]` leaves the word in memory as it was. -/
theorem not_actsOnOperand_incRax :
    ¬(⟨.inc, .mem ⟨.gpr .rax, none, .x1, .none, 64⟩, fun _ h ↦ nomatch h⟩ : OneInsn).ActsOnOperand 0
      ⟨fun _ ↦ 0x2000, 0, 0, ⟨0⟩, fun _ ↦ 0⟩ 0x1003
      (Decoder.crackAt (fun _ ↦ ⟨0, 0, 0⟩) 0x1000 3
        (⟨.inc, .mem ⟨.gpr .rax, none, .x1, .none, 64⟩, fun _ h ↦ nomatch h⟩ : OneInsn).toUd) := by
  intro hacts
  have hword := hacts.writesBack (· + 1) rfl
  revert hword
  decide

end OneInsn

end Cse502.Cracking
