import Cse502.Model.ExecuteCases

/-!
# What running a uop does to the rest of the core

`runOp` ends in one of three ways: the uop waits for the memory, the host process dies, or the code
after the `switch` is reached. In the last case the queues, the state and the address registers are
what `finish` makes of them; only a taken jump or a call redirects.
-/

namespace Cse502.Execute

/-- The uops that wait for the memory. -/
def reads (opcode : Mnemonic) : Bool := opcode == .ret || opcode == .pop || opcode == .load

/-- While `Execute` waits for the memory it issues nothing. -/
theorem waiting_of_reads {cur : Signals} {ex : Execute} (hstate : ex.state = .read)
    (hop : reads ex.op.opcode = true) : waiting cur ex = true := by
  rw [reads] at hop
  rw [waiting, hstate, Bool.or_assoc, Bool.or_assoc, ← Bool.or_assoc (ex.op.opcode == .ret), hop,
    Bool.or_true]
  rfl

/-- The uops `do_jump` may be called for. -/
def jumps : Mnemonic → Bool
  | .call | .jmp | .ja | .jz | .jnz | .jb | .jl | .jle | .jg | .jge => true
  | _ => false

/-- `do_jump` is called for this uop. -/
def takes (op : Uop) (e : Eflags) : Bool :=
  op.opcode == .call || (jumps op.opcode && condition op.opcode e)

/-- Where `do_jump` goes. -/
def jumpTarget (op : Uop) : Word := if op.src = .reg then op.value1 else op.nextAddr + op.value1

/-- What the cases of the `switch` leave alone. -/
structure Kept (c c' : Core) : Prop where
  ddUopQueue : c'.ddUopQueue = c.ddUopQueue
  deUopQueue : c'.deUopQueue = c.deUopQueue
  ewUopQueue : c'.ewUopQueue = c.ewUopQueue
  aborted : c'.aborted = c.aborted
  reset : c'.nxt.reset = c.nxt.reset
  state : c'.ex.state = c.ex.state
  firstrun : c'.ex.firstrun = c.ex.firstrun
  prevAddr : c'.ex.prevAddr = c.ex.prevAddr

/-- Without a redirection. -/
structure Straight (c c' : Core) : Prop extends Kept c c' where
  expectedAddr : c'.ex.expectedAddr = c.ex.expectedAddr
  ripChanged : c'.ex.ripChanged = c.ex.ripChanged
  changeRIP : c'.nxt.changeRIP = c.nxt.changeRIP
  clear : c'.nxt.clear = c.nxt.clear

/-- With one. -/
structure Redirected (target : Word) (c c' : Core) : Prop extends Kept c c' where
  expectedAddr : c'.ex.expectedAddr = target
  ripChanged : c'.ex.ripChanged = true
  changeRIP : c'.nxt.changeRIP = true
  clear : c'.nxt.clear = true
  newRIP : c'.nxt.newRIP = target

private theorem Straight.refl (c : Core) : Straight c c :=
  ⟨⟨rfl, rfl, rfl, rfl, rfl, rfl, rfl, rfl⟩, rfl, rfl, rfl, rfl⟩

/-- A jump with a register or an immediate as its source goes to its target. -/
theorem doJump_redirected (op : Uop) (hsrc : op.src = .reg ∨ op.src = .immed) (c : Core) :
    Redirected (jumpTarget op) c (doJump op c) := by
  rcases hsrc with hsrc | hsrc
  · have htarget : jumpTarget op = op.value1 := if_pos hsrc
    rw [doJump, hsrc, htarget]
    exact ⟨⟨rfl, rfl, rfl, rfl, rfl, rfl, rfl, rfl⟩, rfl, rfl, rfl, rfl, rfl⟩
  · have htarget : jumpTarget op = op.nextAddr + op.value1 :=
      if_neg (by rw [hsrc]; exact SrcType.noConfusion)
    rw [doJump, hsrc, htarget]
    exact ⟨⟨rfl, rfl, rfl, rfl, rfl, rfl, rfl, rfl⟩, rfl, rfl, rfl, rfl, rfl⟩

/-- The call pushes its return address first, and jumps to the same target. -/
private theorem call_redirected {op : Uop} (hsrc : op.src = .reg ∨ op.src = .immed) (c : Core)
    (sp : Word) :
    Redirected (jumpTarget op) c
      { doJump { op with value3 := sp } (requestWrite sp op.nextAddr c) with
        ex.stackpointer := sp } := by
  have h := doJump_redirected { op with value3 := sp } hsrc (requestWrite sp op.nextAddr c)
  exact ⟨⟨h.ddUopQueue, h.deUopQueue, h.ewUopQueue, h.aborted, h.reset, h.state, h.firstrun,
    h.prevAddr⟩, h.expectedAddr, h.ripChanged, h.changeRIP, h.clear, h.newRIP⟩

private theorem doSyscall_straight {inp : CycleInput} {c c' : Core}
    (h : doSyscall inp c = some c') : Straight c c' := by
  rw [doSyscall, Option.map_eq_some_iff] at h
  obtain ⟨r, -, rfl⟩ := h
  exact ⟨⟨rfl, rfl, rfl, rfl, rfl, rfl, rfl, rfl⟩, rfl, rfl, rfl, rfl⟩

/-- The `switch` does not change what the uop is. -/
structure SameUop (op op' : Uop) : Prop where
  address : op'.address = op.address
  nextAddr : op'.nextAddr = op.nextAddr
  opcode : op'.opcode = op.opcode
  src : op'.src = op.src

private theorem SameUop.refl (op : Uop) : SameUop op op := ⟨rfl, rfl, rfl, rfl⟩

/-- The cases that only compute. -/
private theorem alu_straight {inp : CycleInput} {op op' : Uop} {c c' : Core}
    (h : (if divTraps op then none else
      some ((alu inp.clzZero op c.eflags).1,
        { c with eflags := (alu inp.clzZero op c.eflags).2 })) =
        some (op', c')) : SameUop op op' ∧ Straight c c' := by
  split_ifs at h
  obtain ⟨rfl, rfl⟩ := Prod.mk.inj (Option.some.inj h)
  exact ⟨⟨alu_address _ _ _, alu_nextAddr _ _ _, alu_opcode _ _ _, alu_src _ _ _⟩,
    ⟨⟨rfl, rfl, rfl, rfl, rfl, rfl, rfl, rfl⟩, rfl, rfl, rfl, rfl⟩⟩

/-- A conditional or unconditional jump. -/
private theorem jump_cases {op op' : Uop} {c c' : Core} (hjumps : jumps op.opcode = true)
    (hcall : op.opcode ≠ .call) (hsrc : op.src = .reg ∨ op.src = .immed)
    (h : some (op, if condition op.opcode c.eflags then doJump op c else c) = some (op', c')) :
    SameUop op op' ∧
      ((takes op c.eflags = false ∧ Straight c c') ∨
        (takes op c.eflags = true ∧ Redirected (jumpTarget op) c c')) := by
  have htakes : takes op c.eflags = condition op.opcode c.eflags := by
    rw [takes, hjumps, beq_eq_false_iff_ne.mpr hcall, Bool.false_or, Bool.true_and]
  obtain ⟨rfl, hc⟩ := Prod.mk.inj (Option.some.inj h)
  refine ⟨.refl op, ?_⟩
  by_cases hcond : condition op.opcode c.eflags = true
  · rw [if_pos hcond] at hc
    exact .inr ⟨htakes.trans hcond, hc ▸ doJump_redirected op hsrc c⟩
  · rw [if_neg hcond] at hc
    rw [Bool.not_eq_true] at hcond
    exact .inl ⟨htakes.trans hcond, hc ▸ .refl c⟩

/-- **The `switch` goes straight on or redirects.** -/
theorem switchOp_cases {inp : CycleInput} {op op' : Uop} {c c' : Core}
    (hsrc : jumps op.opcode = true → op.src = .reg ∨ op.src = .immed)
    (h : switchOp inp op c = some (op', c')) :
    SameUop op op' ∧
      ((takes op c.eflags = false ∧ Straight c c') ∨
        (takes op c.eflags = true ∧ Redirected (jumpTarget op) c c')) := by
  rw [switchOp] at h
  split at h
  · next hop =>
    obtain ⟨c₁, hcall, heq⟩ := Option.map_eq_some_iff.mp h
    obtain ⟨rfl, rfl⟩ := Prod.mk.inj heq
    exact ⟨.refl op, .inl ⟨by rw [takes, hop]; rfl, doSyscall_straight hcall⟩⟩
  · next hop =>
    obtain ⟨rfl, rfl⟩ := Prod.mk.inj (Option.some.inj h)
    exact ⟨⟨rfl, rfl, rfl, rfl⟩, .inr ⟨by rw [takes, hop]; rfl,
      call_redirected (hsrc (by rw [hop]; rfl)) c (op.value3 - 8)⟩⟩
  · next hop =>
    obtain ⟨rfl, rfl⟩ := Prod.mk.inj (Option.some.inj h)
    exact ⟨⟨rfl, rfl, rfl, rfl⟩, .inl ⟨by rw [takes, hop]; rfl,
      ⟨⟨rfl, rfl, rfl, rfl, rfl, rfl, rfl, rfl⟩, rfl, rfl, rfl, rfl⟩⟩⟩
  · next hop =>
    obtain ⟨rfl, rfl⟩ := Prod.mk.inj (Option.some.inj h)
    exact ⟨.refl op, .inl ⟨by rw [takes, hop]; rfl,
      ⟨⟨rfl, rfl, rfl, rfl, rfl, rfl, rfl, rfl⟩, rfl, rfl, rfl, rfl⟩⟩⟩
  · next hop =>
    obtain ⟨rfl, rfl⟩ := Prod.mk.inj (Option.some.inj h)
    exact ⟨⟨rfl, rfl, rfl, rfl⟩, .inl ⟨by rw [takes, hop]; rfl,
      ⟨⟨rfl, rfl, rfl, rfl, rfl, rfl, rfl, rfl⟩, rfl, rfl, rfl, rfl⟩⟩⟩
  iterate 9
    · next hop =>
      exact jump_cases (by rw [hop]; rfl) (by rw [hop]; exact Mnemonic.noConfusion)
        (hsrc (by rw [hop]; rfl)) h
  · next hsyscall hcall hpush hstore hpushfq hjmp hja hjz hjnz hjb hjl hjle hjg hjge =>
    have hjumps : jumps op.opcode = false := by
      cases hop : op.opcode <;> first | rfl | contradiction
    have htakes : takes op c.eflags = false := by
      rw [takes, hjumps, Bool.false_and, Bool.or_false]
      exact beq_eq_false_iff_ne.mpr hcall
    obtain ⟨hsame, hstraight⟩ := alu_straight h
    exact ⟨hsame, .inl ⟨htakes, hstraight⟩⟩

/-! ## The two latest results -/

/-- The two latest results are the same. -/
structure SameResults (ex ex' : Execute) : Prop where
  reg1 : ex'.prevReg1 = ex.prevReg1
  value1 : ex'.prevValue1 = ex.prevValue1
  reg2 : ex'.prevReg2 = ex.prevReg2
  value2 : ex'.prevValue2 = ex.prevValue2

/-- A new result for this register is the latest one. -/
structure NewResult (r : Reg) (v : Word) (ex ex' : Execute) : Prop where
  reg1 : ex'.prevReg1 = r
  value1 : ex'.prevValue1 = v
  reg2 : ex'.prevReg2 = ex.prevReg1
  value2 : ex'.prevValue2 = ex.prevValue1

theorem SameResults.trans {ex₁ ex₂ ex₃ : Execute} (h : SameResults ex₁ ex₂)
    (h' : SameResults ex₂ ex₃) : SameResults ex₁ ex₃ :=
  ⟨h'.reg1.trans h.reg1, h'.value1.trans h.value1, h'.reg2.trans h.reg2, h'.value2.trans h.value2⟩

/-- The new result after results that stayed the same. -/
theorem SameResults.newResult {r : Reg} {v : Word} {ex₁ ex₂ ex₃ : Execute} (h : SameResults ex₁ ex₂)
    (h' : NewResult r v ex₂ ex₃) : NewResult r v ex₁ ex₃ :=
  ⟨h'.reg1, h'.value1, h'.reg2.trans h.reg1, h'.value2.trans h.value1⟩

/-- The result stays the latest one. -/
theorem NewResult.sameResults {r : Reg} {v : Word} {ex₁ ex₂ ex₃ : Execute}
    (h : NewResult r v ex₁ ex₂)
    (h' : SameResults ex₂ ex₃) : NewResult r v ex₁ ex₃ :=
  ⟨h'.reg1.trans h.reg1, h'.value1.trans h.value1, h'.reg2.trans h.reg2, h'.value2.trans h.value2⟩

/-- The uop takes its place among the two latest results. -/
theorem finish_newResult {op : Uop} (c : Core)
    (h : op.opcode ≠ .nop ∧ op.opcode ≠ .syscall ∧ op.reg2 ≠ .none) :
    NewResult op.reg2 op.value2 c.ex (finish op c).ex := by
  simp only [finish, if_pos h]
  split_ifs <;> exact ⟨rfl, rfl, rfl, rfl⟩

theorem finish_sameResults {op : Uop} (c : Core)
    (h : ¬(op.opcode ≠ .nop ∧ op.opcode ≠ .syscall ∧ op.reg2 ≠ .none)) :
    SameResults c.ex (finish op c).ex := by
  simp only [finish, if_neg h]
  split_ifs <;> exact ⟨rfl, rfl, rfl, rfl⟩

private theorem doJump_results (op : Uop) (c : Core) :
    SameResults c.ex (doJump op c).ex ∧ (doJump op c).regfile = c.regfile := by
  rw [doJump]
  split <;> exact ⟨⟨rfl, rfl, rfl, rfl⟩, rfl⟩

/-- Only a system call forms a result before the code after the `switch` does, and writes the
register file. -/
theorem switchOp_results {inp : CycleInput} {op op' : Uop} {c c' : Core}
    (h : switchOp inp op c = some (op', c')) :
    (op.opcode ≠ .syscall ∧ SameResults c.ex c'.ex ∧ c'.regfile = c.regfile) ∨
      (op.opcode = .syscall ∧ op' = op ∧
        ∃ v, NewResult (.gpr .rax) v c.ex c'.ex ∧ c'.regfile = c.regfile.set .rax v) := by
  rw [switchOp] at h
  split at h
  · next hop =>
    obtain ⟨c₁, hcall, heq⟩ := Option.map_eq_some_iff.mp h
    obtain ⟨rfl, rfl⟩ := Prod.mk.inj heq
    rw [doSyscall, Option.map_eq_some_iff] at hcall
    obtain ⟨r, -, rfl⟩ := hcall
    exact .inr ⟨hop, rfl, r.1.signExtend 64, ⟨rfl, rfl, rfl, rfl⟩, rfl⟩
  · next hop =>
    obtain ⟨-, rfl⟩ := Prod.mk.inj (Option.some.inj h)
    obtain ⟨hex, hregfile⟩ := doJump_results { op with value3 := op.value3 - 8 }
      (requestWrite (op.value3 - 8) op.nextAddr c)
    exact .inl ⟨by rw [hop]; exact Mnemonic.noConfusion,
      ⟨hex.reg1, hex.value1, hex.reg2, hex.value2⟩, hregfile⟩
  iterate 3
    · next hop =>
      obtain ⟨-, rfl⟩ := Prod.mk.inj (Option.some.inj h)
      exact .inl ⟨by rw [hop]; exact Mnemonic.noConfusion, ⟨rfl, rfl, rfl, rfl⟩, rfl⟩
  iterate 9
    · next hop =>
      obtain ⟨-, rfl⟩ := Prod.mk.inj (Option.some.inj h)
      refine .inl ⟨by rw [hop]; exact Mnemonic.noConfusion, ?_⟩
      split_ifs
      · exact doJump_results op c
      · exact ⟨⟨rfl, rfl, rfl, rfl⟩, rfl⟩
  · next hsyscall _ _ _ _ _ _ _ _ _ _ _ _ _ =>
    split_ifs at h
    obtain ⟨-, rfl⟩ := Prod.mk.inj (Option.some.inj h)
    exact .inl ⟨hsyscall, ⟨rfl, rfl, rfl, rfl⟩, rfl⟩

/-! ## What is kept by every case -/

private theorem doJump_kept (op : Uop) (c : Core) : Kept c (doJump op c) := by
  rw [doJump]
  split <;> exact ⟨rfl, rfl, rfl, rfl, rfl, rfl, rfl, rfl⟩

/-- Whatever the uop's source is, the `switch` changes neither what the uop is nor the queues and
the state. -/
theorem switchOp_kept {inp : CycleInput} {op op' : Uop} {c c' : Core}
    (h : switchOp inp op c = some (op', c')) : SameUop op op' ∧ Kept c c' := by
  rw [switchOp] at h
  split at h
  · obtain ⟨c₁, hcall, heq⟩ := Option.map_eq_some_iff.mp h
    obtain ⟨rfl, rfl⟩ := Prod.mk.inj heq
    exact ⟨.refl op, (doSyscall_straight hcall).toKept⟩
  · obtain ⟨rfl, rfl⟩ := Prod.mk.inj (Option.some.inj h)
    have hjump := doJump_kept { op with value3 := op.value3 - 8 }
      (requestWrite (op.value3 - 8) op.nextAddr c)
    exact ⟨⟨rfl, rfl, rfl, rfl⟩, ⟨hjump.ddUopQueue, hjump.deUopQueue, hjump.ewUopQueue,
      hjump.aborted, hjump.reset, hjump.state, hjump.firstrun, hjump.prevAddr⟩⟩
  iterate 3
    · obtain ⟨rfl, rfl⟩ := Prod.mk.inj (Option.some.inj h)
      exact ⟨⟨rfl, rfl, rfl, rfl⟩, ⟨rfl, rfl, rfl, rfl, rfl, rfl, rfl, rfl⟩⟩
  iterate 9
    · obtain ⟨rfl, rfl⟩ := Prod.mk.inj (Option.some.inj h)
      refine ⟨.refl op, ?_⟩
      split_ifs
      · exact doJump_kept op c
      · exact (Straight.refl c).toKept
  · obtain ⟨hsame, hstraight⟩ := alu_straight h
    exact ⟨hsame, hstraight.toKept⟩

/-! ## Running a uop -/

/-- The ways running a uop can end: it waits for the memory, the host process dies, or the code
after the `switch` is reached. -/
inductive Ran (inp : CycleInput) (op : Uop) (c : Core) : Core → Prop
  | read (addr : Word) (hreads : reads op.opcode = true) : Ran inp op c (startRead op addr c)
  | died : Ran inp op c { c with aborted := true }
  | finished (op' : Uop) (c' : Core) (hreads : reads op.opcode = false)
      (hswitch : switchOp inp op c = some (op', c')) : Ran inp op c (finish op' c')

theorem runOp_ran (inp : CycleInput) (op : Uop) (c : Core) : Ran inp op c (runOp inp op c) := by
  rw [runOp]
  split
  iterate 3 · next hop => exact .read _ (by rw [hop]; rfl)
  · next hret hpop hload =>
    split
    · exact .died
    · next op' c' hswitch =>
      refine .finished op' c' ?_ hswitch
      rw [reads, beq_eq_false_iff_ne.mpr hret, beq_eq_false_iff_ne.mpr hpop,
        beq_eq_false_iff_ne.mpr hload]
      rfl

/-! ## Waiting for the memory -/

/-- A uop that reads is waited for, and the others leave the state as it is. -/
theorem runOp_state (inp : CycleInput) (op : Uop) (c : Core) :
    (reads op.opcode = true ∧ (runOp inp op c).ex.op = op) ∨
      (runOp inp op c).ex.state = c.ex.state := by
  have hran := runOp_ran inp op c
  generalize runOp inp op c = c' at hran ⊢
  cases hran with
  | read addr hreads => exact .inl ⟨hreads, rfl⟩
  | died => exact .inr rfl
  | finished op' c' hreads hswitch =>
    right
    rw [finish_state, (switchOp_kept hswitch).2.state]

/-- **When `Execute` waits for a word**: for that of the uop it has just run, or still for the one
it waited for before. -/
theorem work_state {inp : CycleInput} {cur : Signals} {c : Core}
    (hreads : c.ex.state = .read → reads c.ex.op.opcode = true)
    (h : (work inp cur c).ex.state = .read) :
    (∃ op, issued cur c = some op ∧ (work inp cur c).ex.op = op ∧
        reads op.opcode = true) ∨
      (issued cur c = none ∧ c.ex.state = .read ∧ (work inp cur c).ex.op = c.ex.op) := by
  have hbusy : ¬(waiting cur c.ex = false ∧ c.ex.state = .read) := by
    rintro ⟨hwait, hstate⟩
    exact absurd (hwait.symm.trans (waiting_of_reads hstate (hreads hstate)))
      Bool.noConfusion
  have hwork := work_outcome inp cur c
  generalize work inp cur c = c' at h hwork ⊢
  generalize issued cur c = ran at hwork ⊢
  cases hwork with
  | idle | cleared => exact .inr ⟨rfl, h, rfl⟩
  | ret | pop | load => cases h
  | dropped front rest hclear hwait => exact absurd ⟨hwait, h⟩ hbusy
  | ran front rest hclear hwait =>
    rcases runOp_state inp (forward c.ex c.offsetregValue front)
      { select front (start c) with ex.firstrun := false } with ⟨hop, hex⟩ | hstate
    · exact .inl ⟨_, rfl, hex, hop⟩
    · exact absurd ⟨hwait, hstate.symm.trans h⟩ hbusy

/-! ## A dead process stays dead -/

/-- **Once the host process has died, no activation brings it back.** -/
theorem work_aborted (inp : CycleInput) (cur : Signals) {c : Core} (h : c.aborted = true) :
    (work inp cur c).aborted = true := by
  have hrun : ∀ op (c : Core), c.aborted = true → (runOp inp op c).aborted = true := by
    intro op c h
    have hran := runOp_ran inp op c
    generalize runOp inp op c = c' at hran ⊢
    cases hran with
    | read addr hreads => exact h
    | died => rfl
    | finished op' c' hreads hswitch => rw [finish_aborted, (switchOp_kept hswitch).2.aborted, h]
  have hwork := work_outcome inp cur c
  generalize work inp cur c = c' at hwork
  generalize issued cur c = ran at hwork
  cases hwork with
  | idle => exact h
  | cleared => exact h
  | ret => exact h
  | pop => exact h
  | load => exact h
  | dropped => exact h
  | ran => exact hrun _ _ h

end Cse502.Execute
