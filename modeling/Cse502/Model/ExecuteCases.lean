import Cse502.Model.Execute
import Mathlib.Tactic

/-!
# What one activation of `Execute::work` can do

`work_outcome` lists the ways `Execute::work` can end, with the uop it issued if it issued one.
Every invariant of the pipeline is a case analysis on this list, and none unfolds `work`.
-/

namespace Cse502.Execute

/-- The signals every activation resets first. -/
def start (c : Core) : Core := { c with nxt.ewOutReady := false, nxt.changeRIP := false }

/-- This activation ends in `STATE_READ`, with or without an answer. -/
def waiting (cur : Signals) (ex : Execute) : Bool :=
  ex.state == .read &&
    (!cur.dReady || ex.op.opcode == .ret || ex.op.opcode == .pop || ex.op.opcode == .load)

/-- This activation looks at the front uop, if there is one. -/
def takesFront (cur : Signals) (c : Core) : Bool :=
  !cur.reset && !cur.clear && !waiting cur c.ex && cur.deOutReady &&
    decide (c.ewUopQueue.length ≤ 1)

/-- The uop this activation runs, with its forwarded operands. -/
def issued (cur : Signals) (c : Core) : Option Uop :=
  if cur.reset || cur.clear || waiting cur c.ex || !cur.deOutReady ||
      1 < c.ewUopQueue.length then none
  else match c.deUopQueue with
    | [] => none
    | front :: _ =>
      if unexpected c.ex front then none else some (forward c.ex c.offsetregValue front)

/-- The ways one activation can end. -/
inductive Outcome (inp : CycleInput) (cur : Signals) (c : Core) : Core → Option Uop → Prop
  /-- Nothing but the signals changes. -/
  | idle (ready : Bool) (hclear : cur.reset = true ∨ cur.clear = false) :
      Outcome inp cur c { start c with nxt.ewOutReady := ready } none
  /-- The queue is thrown away after a redirection. -/
  | cleared (ready : Bool) (hclear : cur.clear = true) :
      Outcome inp cur c
        { start c with nxt.ewOutReady := ready, nxt.clear := false, deUopQueue := [] } none
  /-- The memory answered a `ret`. -/
  | ret (hclear : cur.clear = false) (hstate : c.ex.state = .read) (hready : cur.dReady = true)
      (hop : c.ex.op.opcode = .ret) (htag : cur.dTagout.signExtend 64 = c.ex.op.value3) :
      Outcome inp cur c (completeRet cur (start c)) none
  /-- The memory answered a `pop`. -/
  | pop (hclear : cur.clear = false) (hstate : c.ex.state = .read) (hready : cur.dReady = true)
      (hop : c.ex.op.opcode = .pop) (htag : cur.dTagout.signExtend 64 = c.ex.op.value3) :
      Outcome inp cur c (completePop cur (start c)) none
  /-- The memory answered a `load`. -/
  | load (hclear : cur.clear = false) (hstate : c.ex.state = .read) (hready : cur.dReady = true)
      (hop : c.ex.op.opcode = .load) (htag : cur.dTagout.signExtend 64 = c.ex.op.value1) :
      Outcome inp cur c (completeLoad cur (start c)) none
  /-- The front uop is not the expected one and is dropped. -/
  | dropped (front : Uop) (rest : List Uop) (hclear : cur.clear = false)
      (hwait : waiting cur c.ex = false) (hde : c.deUopQueue = front :: rest)
      (hunexp : unexpected c.ex front = true) (htakes : takesFront cur c = true) :
      Outcome inp cur c
        { select front (start c) with deUopQueue := (select front (start c)).deUopQueue.tail } none
  /-- The front uop is run. -/
  | ran (front : Uop) (rest : List Uop) (hclear : cur.clear = false)
      (hwait : waiting cur c.ex = false) (hew : c.ewUopQueue.length ≤ 1)
      (hde : c.deUopQueue = front :: rest) (hexp : unexpected c.ex front = false)
      (htakes : takesFront cur c = true) :
      Outcome inp cur c
        (runOp inp (forward c.ex c.offsetregValue front)
          { select front (start c) with ex.firstrun := false })
        (some (forward c.ex c.offsetregValue front))

section Start

variable (c : Core)

@[simp] theorem start_ex : (start c).ex = c.ex := rfl
@[simp] theorem start_deUopQueue : (start c).deUopQueue = c.deUopQueue := rfl
@[simp] theorem start_ewUopQueue : (start c).ewUopQueue = c.ewUopQueue := rfl
@[simp] theorem start_ddUopQueue : (start c).ddUopQueue = c.ddUopQueue := rfl
@[simp] theorem start_regfile : (start c).regfile = c.regfile := rfl
@[simp] theorem start_eflags : (start c).eflags = c.eflags := rfl
@[simp] theorem start_offsetregValue : (start c).offsetregValue = c.offsetregValue := rfl
@[simp] theorem start_mem : (start c).mem = c.mem := rfl

end Start

/-- The issuing part, on a state whose queue has not been cleared. -/
private theorem issue_outcome (inp : CycleInput) {cur : Signals} {c : Core}
    (hreset : cur.reset = false) (hclear : cur.clear = false) (hwait : waiting cur c.ex = false) :
    Outcome inp cur c (issue inp cur (start c)) (issued cur c) := by
  rw [issue, issued, hreset, hclear, hwait, start_ewUopQueue, start_deUopQueue]
  by_cases hready : cur.deOutReady = true
  · by_cases hew : 1 < c.ewUopQueue.length
    · simp only [hready, hew]
      exact .idle true (.inr hclear)
    · cases hde : c.deUopQueue with
      | nil =>
        simp only [hready, hew]
        exact .idle false (.inr hclear)
      | cons front rest =>
        have hle : c.ewUopQueue.length ≤ 1 := Nat.le_of_not_lt hew
        have htakes : takesFront cur c = true := by
          rw [takesFront, hreset, hclear, hwait, hready, decide_eq_true hle]
          rfl
        by_cases hunexp : unexpected c.ex front = true
        · simp only [hready, hew, start_ex, hunexp]
          exact .dropped front rest hclear hwait hde hunexp htakes
        · rw [Bool.not_eq_true] at hunexp
          simp only [hready, hew, start_ex, hunexp]
          exact .ran front rest hclear hwait hle hde hunexp htakes
  · rw [Bool.not_eq_true] at hready
    simp only [hready]
    exact .idle false (.inr hclear)

/-- After a redirection the queue is empty, so nothing is issued. -/
private theorem issue_cleared (inp : CycleInput) (cur : Signals) (c : Core)
    (hde : c.deUopQueue = []) :
    ∃ ready, issue inp cur c = { c with nxt.ewOutReady := ready } := by
  rw [issue]
  split_ifs
  · exact ⟨c.nxt.ewOutReady, rfl⟩
  · exact ⟨true, rfl⟩
  · split
    · exact ⟨c.nxt.ewOutReady, rfl⟩
    · next hcons => rw [hde] at hcons; cases hcons

/-- An answer counts only under its own tag. -/
private theorem answer_outcome {inp : CycleInput} {cur : Signals} {c c' : Core} {tag : Word}
    (hclear : cur.clear = false)
    (hanswer : cur.dTagout.signExtend 64 = tag → Outcome inp cur c c' none) :
    Outcome inp cur c (if cur.dTagout.signExtend 64 ≠ tag then start c else c') none := by
  by_cases htag : cur.dTagout.signExtend 64 = tag
  · rw [if_neg (not_not.mpr htag)]
    exact hanswer htag
  · rw [if_pos htag]
    exact .idle false (.inr hclear)

/-- In `STATE_READ`, whatever the memory answers. -/
private theorem read_outcome (inp : CycleInput) {cur : Signals} {c : Core}
    (hreset : cur.reset = false) (hclear : cur.clear = false) (hstate : c.ex.state = .read) :
    Outcome inp cur c
      (if !cur.dReady then start c
      else match c.ex.op.opcode with
        | .ret =>
          if cur.dTagout.signExtend 64 ≠ c.ex.op.value3 then start c else completeRet cur (start c)
        | .pop =>
          if cur.dTagout.signExtend 64 ≠ c.ex.op.value3 then start c else completePop cur (start c)
        | .load =>
          if cur.dTagout.signExtend 64 ≠ c.ex.op.value1 then start c
          else completeLoad cur (start c)
        | _ => issue inp cur (start c)) (issued cur c) := by
  cases hready : cur.dReady with
  | false =>
    have hwait : waiting cur c.ex = true := by simp [waiting, hstate, hready]
    rw [issued, hwait, Bool.or_true]
    exact .idle false (.inr hclear)
  | true =>
    simp only [Bool.not_true, Bool.false_eq_true, if_false]
    split
    · next hop =>
      have hwait : waiting cur c.ex = true := by simp [waiting, hstate, hop]
      rw [issued, hwait, Bool.or_true]
      exact answer_outcome hclear (.ret hclear hstate hready hop)
    · next hop =>
      have hwait : waiting cur c.ex = true := by simp [waiting, hstate, hop]
      rw [issued, hwait, Bool.or_true]
      exact answer_outcome hclear (.pop hclear hstate hready hop)
    · next hop =>
      have hwait : waiting cur c.ex = true := by simp [waiting, hstate, hop]
      rw [issued, hwait, Bool.or_true]
      exact answer_outcome hclear (.load hclear hstate hready hop)
    · next hret hpop hload =>
      have hwait : waiting cur c.ex = false := by
        simp only [waiting, hstate, hready, Bool.not_true, Bool.false_or, beq_self_eq_true,
          Bool.true_and, Bool.or_eq_false_iff, beq_eq_false_iff_ne]
        exact ⟨⟨hret, hpop⟩, hload⟩
      exact issue_outcome inp hreset hclear hwait

/-- **Every activation of `Execute::work` ends in one of the listed ways.** -/
theorem work_outcome (inp : CycleInput) (cur : Signals) (c : Core) :
    Outcome inp cur c (work inp cur c) (issued cur c) := by
  rw [work]
  change Outcome inp cur c (if cur.reset then start c else _) _
  by_cases hreset : cur.reset = true
  · rw [if_pos hreset, issued, hreset]
    exact .idle false (.inl hreset)
  rw [if_neg hreset]
  rw [Bool.not_eq_true] at hreset
  by_cases hclear : cur.clear = true
  · rw [if_pos hclear, issued, hclear, Bool.or_true]
    obtain ⟨ready, hissue⟩ := issue_cleared inp cur
      { start c with nxt.clear := false, deUopQueue := [] } rfl
    change Outcome inp cur c
      (issue inp cur { start c with nxt.clear := false, deUopQueue := [] }) none
    rw [hissue]
    exact .cleared ready hclear
  rw [if_neg hclear]
  rw [Bool.not_eq_true] at hclear
  by_cases hstate : c.ex.state = .read
  · rw [if_pos hstate]
    exact read_outcome inp hreset hclear hstate
  · rw [if_neg hstate]
    have hwait : waiting cur c.ex = false := by
      rw [waiting, beq_eq_false_iff_ne.mpr hstate, Bool.false_and]
    exact issue_outcome inp hreset hclear hwait

/-- The front uop has its own address: it is patched with those behind it, and goes. -/
theorem select_tail {c : Core} {front : Uop} {rest : List Uop}
    (hde : c.deUopQueue = front :: rest) :
    (select front (start c)).deUopQueue.tail = patchLoop c.ex front.address rest := by
  change (patchLoop c.ex front.address c.deUopQueue).tail = _
  rw [hde, patchLoop, if_pos rfl, List.tail_cons]

/-! ## The code after the switch -/

section Finish

variable (op : Uop) (c : Core)

@[simp] theorem finish_deUopQueue : (finish op c).deUopQueue = c.deUopQueue.tail := by
  rw [finish]; split_ifs <;> rfl

@[simp] theorem finish_ewUopQueue : (finish op c).ewUopQueue = c.ewUopQueue ++ [op] := by
  rw [finish]; split_ifs <;> rfl

@[simp] theorem finish_ddUopQueue : (finish op c).ddUopQueue = c.ddUopQueue := by
  rw [finish]; split_ifs <;> rfl

@[simp] theorem finish_regfile : (finish op c).regfile = c.regfile := by
  rw [finish]; split_ifs <;> rfl

@[simp] theorem finish_eflags : (finish op c).eflags = c.eflags := by
  rw [finish]; split_ifs <;> rfl

@[simp] theorem finish_mem : (finish op c).mem = c.mem := by
  rw [finish]; split_ifs <;> rfl

@[simp] theorem finish_nxt : (finish op c).nxt = { c.nxt with ewOutReady := true } := by
  rw [finish]; split_ifs <;> rfl

@[simp] theorem finish_aborted : (finish op c).aborted = c.aborted := by
  rw [finish]; split_ifs <;> rfl

@[simp] theorem finish_state : (finish op c).ex.state = c.ex.state := by
  rw [finish]; split_ifs <;> rfl

@[simp] theorem finish_firstrun : (finish op c).ex.firstrun = c.ex.firstrun := by
  rw [finish]; split_ifs <;> rfl

@[simp] theorem finish_ripChanged : (finish op c).ex.ripChanged = false := by
  cases hrip : c.ex.ripChanged with
  | true => rw [finish, hrip]; simp only [if_true]; split_ifs <;> rfl
  | false =>
    rw [finish, hrip]; simp only [Bool.false_eq_true, if_false]; split_ifs <;> exact hrip

@[simp] theorem finish_expectedAddr : (finish op c).ex.expectedAddr =
    if c.ex.ripChanged then c.ex.expectedAddr else op.nextAddr := by
  rw [finish]; split_ifs <;> rfl

@[simp] theorem finish_prevAddr :
    (finish op c).ex.prevAddr = if c.ex.ripChanged then c.ex.prevAddr else op.address := by
  rw [finish]; split_ifs <;> rfl

/-- What a uop with a register destination leaves in the members of `Execute`. -/
theorem finish_ex {g : Gpr} (hrip : c.ex.ripChanged = false) (hnop : op.opcode ≠ .nop)
    (hsyscall : op.opcode ≠ .syscall) (hreg2 : op.reg2 = .gpr g) :
    (finish op c).ex =
      { c.ex with
        expectedAddr := op.nextAddr
        prevAddr := op.address
        prevValue2 := c.ex.prevValue1
        prevValue1 := op.value2
        prevReg2 := c.ex.prevReg1
        prevReg1 := .gpr g
        stackpointer := if g = .rsp then op.value2 else c.ex.stackpointer
        op := op } := by
  have hwrites : op.opcode ≠ .nop ∧ op.opcode ≠ .syscall ∧ op.reg2 ≠ .none :=
    ⟨hnop, hsyscall, by rw [hreg2]; exact Reg.noConfusion⟩
  have hls : op.reg2 ≠ .loadStoreReg := by rw [hreg2]; exact Reg.noConfusion
  rw [finish, hrip]
  simp only [Bool.false_eq_true, if_false, if_pos hwrites, if_neg hls]
  simp only [hreg2, Reg.gpr.injEq]

end Finish

section Alu

variable (clzZero : ℕ) (op : Uop) (e : Eflags)

/-- No case of the `switch` changes what the uop is or where it comes from. -/
theorem alu_identity :
    (alu clzZero op e).1.opcode = op.opcode ∧ (alu clzZero op e).1.src = op.src ∧
      (alu clzZero op e).1.address = op.address ∧ (alu clzZero op e).1.opsize = op.opsize := by
  rw [alu]
  split
  all_goals try exact ⟨rfl, rfl, rfl, rfl⟩
  · rw [mul]; split_ifs
    · exact ⟨rfl, rfl, rfl, rfl⟩
    · dsimp only; split_ifs <;> exact ⟨rfl, rfl, rfl, rfl⟩
  · rw [div]; split_ifs <;> exact ⟨rfl, rfl, rfl, rfl⟩
  · rw [idiv]; split_ifs <;> exact ⟨rfl, rfl, rfl, rfl⟩
  · rw [imul]; split <;> exact ⟨rfl, rfl, rfl, rfl⟩

@[simp] theorem alu_opcode :
    (alu clzZero op e).1.opcode = op.opcode := (alu_identity clzZero op e).1

@[simp] theorem alu_src : (alu clzZero op e).1.src = op.src := (alu_identity clzZero op e).2.1

@[simp] theorem alu_address : (alu clzZero op e).1.address = op.address :=
  (alu_identity clzZero op e).2.2.1

@[simp] theorem alu_nextAddr : (alu clzZero op e).1.nextAddr = op.nextAddr := by
  rw [Uop.nextAddr, alu_address, (alu_identity clzZero op e).2.2.2, Uop.nextAddr]

end Alu

end Cse502.Execute
