import Cse502.Pipeline.Branching

/-!
# Programs with jumps run as on a sequential machine

The register file lags behind by the results still in `ew_uop_queue`, a taken jump leaves the uops
of the fall-through path in two queues, and `Execute` repairs the one and throws the other away.

## The invariant

As long as the sequential machine is inside the program, the values in the core are those that it
has after the uops executed so far: the register file but for what is in `ew_uop_queue`, the
forwarding registers, the flags (`Values`). Where the uops come from is a matter of three phases
(`Control`):

* no redirection is under way, and the queues hold the uops from the instruction pointer on, the
  front one read from a register file that lagged by two results or fewer;
* a jump was taken in this cycle, and the queues do not matter;
* `clear` is seen, and at the end of the cycle the queues are empty and the decoder is at the
  target.
-/

namespace Cse502.Pipeline

open Decoder (Uninit push2q)
open Execute (jumps takes jumpTarget Straight Redirected SameUop SameResults)
open Writes (replay)

/-! ## A jump in the later stages -/

/-- What a uop leaves in the register file when it retires. -/
def Settles (op : Uop) : Option (Gpr × Word) → Prop
  | some w => Retires op w
  | none => op.opcode ∈ jumpOpcodes ∧ op.src ≠ .imul1 ∧ op.reg2 = .none

theorem Settles.retire_gpr {op : Uop} {w : Option (Gpr × Word)} (h : Settles op w) (rf : Arf) :
    (Writeback.retire rf op).gpr = replay rf.gpr w.toList := by
  cases w with
  | some w => exact Retires.retire_gpr h rf
  | none =>
    obtain ⟨hopcode, hsrc, hreg2⟩ := h
    have hnot : op.opcode ∉ [.call, .ret, .pop, .mul, .div, .idiv] :=
      (by decide : ∀ o ∈ jumpOpcodes, o ∉ [.call, .ret, .pop, .mul, .div, .idiv]) _ hopcode
    have hwrite : Writeback.writeReg2 { rf with rip := op.nextAddr } op =
        { rf with rip := op.nextAddr } := by
      rw [Writeback.writeReg2, hreg2]
    rw [Writeback.retire, hwrite, Writeback.writeImplicit]
    split
    all_goals try (next hop => simp [hop] at hnot)
    rw [if_neg hsrc]
    rfl

/-- The `switch` on a jump. -/
theorem runOp_of_jump (inp : CycleInput) {op : Uop} (h : op.opcode ∈ jumpOpcodes) (c : Core) :
    Execute.runOp inp op c =
      Execute.finish op
        (if Execute.condition op.opcode c.eflags then Execute.doJump op c else c) := by
  obtain ⟨src, address, opcode, reg1, value1, reg2, value2, reg3, value3, immed, opsize⟩ := op
  simp only [jumpOpcodes, List.mem_cons, List.not_mem_nil, or_false] at h
  rcases h with rfl | rfl | rfl | rfl | rfl | rfl | rfl | rfl | rfl <;> rfl

/-- Only a uop with a register destination moves the stack pointer. -/
theorem stackpointer_finish (op : Uop) (c : Core) : (Execute.finish op c).ex.stackpointer =
    if op.opcode ≠ .nop ∧ op.opcode ≠ .syscall ∧ op.reg2 ≠ .none then
      if op.reg2 = .gpr .rsp then op.value2 else c.ex.stackpointer
    else c.ex.stackpointer := by
  rw [Execute.finish]
  split_ifs <;> rfl

namespace BranchInsn

variable {regs : Gpr → Word} {e : Eflags} {op : Uop} {insn : BranchInsn}

/-- What running a uop of an instruction comes to: the code after the `switch` is reached with its
results, straight on or redirected. -/
structure Runs (regs : Gpr → Word) (e : Eflags) (op : Uop) (insn : BranchInsn) (c : Core) (r : Uop)
    (c' : Core) : Prop where
  settles : Settles r (insn.write regs e)
  flags : c'.eflags = insn.flags regs e
  same : SameUop op r
  results : SameResults c.ex c'.ex
  regfile : c'.regfile = c.regfile
  stackpointer : c'.ex.stackpointer = c.ex.stackpointer
  straight : insn.target regs e op.nextAddr = none → Straight c c'
  redirected : ∀ t, insn.target regs e op.nextAddr = some t → Redirected t c c'

private theorem runs_doJump (hopcode : op.opcode ∈ jumpOpcodes)
    (hsrc : op.src = .reg ∨ op.src = .immed) (hreg2 : op.reg2 = .none)
    (hwrite : insn.write regs e = none) (hflags : insn.flags regs e = e) {t : Word}
    (htarget : insn.target regs e op.nextAddr = some t) (ht : jumpTarget op = t) {c : Core}
    (hc : c.eflags = e) : insn.Runs regs e op c op (Execute.doJump op c) where
  settles := by
    rw [hwrite]
    refine ⟨hopcode, ?_, hreg2⟩
    rcases hsrc with h | h <;> rw [h] <;> exact SrcType.noConfusion
  flags := by
    rw [hflags, ← hc, Execute.doJump]
    split <;> rfl
  same := ⟨rfl, rfl, rfl, rfl⟩
  results := by
    rw [Execute.doJump]
    split <;> exact ⟨rfl, rfl, rfl, rfl⟩
  regfile := by
    rw [Execute.doJump]
    split <;> rfl
  stackpointer := by
    rw [Execute.doJump]
    split <;> rfl
  straight := fun h ↦ by rw [htarget] at h; cases h
  redirected := fun t' h ↦ by
    rw [htarget, Option.some.injEq] at h
    rw [← h, ← ht]
    exact Execute.doJump_redirected op hsrc c

/-- **What a uop does whose operands are right.** -/
theorem exists_runs (inp : CycleInput) (h : insn.Reads regs op) {c : Core} (hc : c.eflags = e) :
    ∃ r c', Execute.runOp inp op c = Execute.finish r c' ∧ insn.Runs regs e op c r c' := by
  cases insn with
  | plain insn =>
    have hreads : insn.Reads regs op := h
    have hplain := RegInsn.plain_of_reads hreads
    obtain ⟨hreg2, hvalue2, hflags⟩ := RegInsn.alu_of_reads inp.clzZero hreads c.eflags
    refine ⟨_, _, runOp_of_plain inp hplain c, ⟨⟨?_, ?_⟩, hreg2, ?_⟩, ?_, ?_,
      ⟨rfl, rfl, rfl, rfl⟩, rfl, rfl,
      fun _ ↦ ⟨⟨rfl, rfl, rfl, rfl, rfl, rfl, rfl, rfl⟩, rfl, rfl, rfl, rfl⟩,
      fun t ht ↦ by cases ht⟩
    · rw [Execute.alu_opcode]
      exact hplain.opcode
    · rw [Execute.alu_src]
      exact hplain.src
    · rw [hvalue2, hc]
    · rw [← hc]
      exact hflags
    · exact ⟨Execute.alu_address _ _ _, Execute.alu_nextAddr _ _ _, Execute.alu_opcode _ _ _,
        Execute.alu_src _ _ _⟩
  | jump opcode offset =>
    obtain ⟨hopcode, hsrc, hreg2, hvalue1⟩ := h
    have hmem : op.opcode ∈ jumpOpcodes := by rw [hopcode]; exact opcode.2
    refine ⟨op, _, runOp_of_jump inp hmem c, ?_⟩
    by_cases hcond : Execute.condition op.opcode c.eflags = true
    · rw [if_pos hcond]
      rw [hopcode, hc] at hcond
      have htarget : (jump opcode offset).target regs e op.nextAddr = some (op.nextAddr + offset) :=
        if_pos hcond
      refine runs_doJump hmem (.inr hsrc) hreg2 rfl rfl htarget ?_ hc
      rw [jumpTarget, hsrc, if_neg SrcType.noConfusion, hvalue1]
    · rw [if_neg hcond]
      rw [hopcode, hc] at hcond
      have htarget : (jump opcode offset).target regs e op.nextAddr = none := if_neg hcond
      exact
        { settles := ⟨hmem, by rw [hsrc]; exact SrcType.noConfusion, hreg2⟩
          flags := hc
          same := ⟨rfl, rfl, rfl, rfl⟩
          results := ⟨rfl, rfl, rfl, rfl⟩
          regfile := rfl
          stackpointer := rfl
          straight := fun _ ↦ ⟨⟨rfl, rfl, rfl, rfl, rfl, rfl, rfl, rfl⟩, rfl, rfl, rfl, rfl⟩
          redirected := fun t ht ↦ by rw [htarget] at ht; cases ht }
  | jumpReg g =>
    obtain ⟨hopcode, hsrc, hreg2, hvalue1⟩ := h
    have hmem : op.opcode ∈ jumpOpcodes := by rw [hopcode]; decide
    have hcond : Execute.condition op.opcode c.eflags = true := by rw [hopcode]; rfl
    refine ⟨op, _, runOp_of_jump inp hmem c, ?_⟩
    rw [if_pos hcond]
    refine runs_doJump hmem (.inl hsrc) hreg2 rfl rfl rfl ?_ hc
    rw [jumpTarget, if_pos hsrc, hvalue1]

end BranchInsn

namespace BranchProgram

variable {prog : BranchProgram} {s₀ : Point}

/-! ## The invariant -/

/-- The uop belongs to the instruction at this point, and reads the values it has there. -/
def Executes (prog : BranchProgram) (s : Point) (op : Uop) : Prop :=
  ∃ insn, prog.insn s.pc = some insn ∧ op.address = s.pc ∧ insn.Reads s.regs op

/-- The values in the core are those of the sequential machine, after `n` uops were executed and `r`
of them retired. -/
structure Values (prog : BranchProgram) (s₀ : Point) (p : Pipe Word) (n r : ℕ) : Prop where
  count : n = r + p.core.ewUopQueue.length
  ewQueue : List.Forall₂ Settles p.core.ewUopQueue
    ((List.range' r p.core.ewUopQueue.length).map fun k ↦ prog.writeAt (prog.after s₀ k))
  ewLength : p.core.ewUopQueue.length ≤ 2
  regfile : p.core.regfile.gpr = (prog.after s₀ r).regs
  recent : Recent p.core.ex (prog.results s₀ n)
  stack : p.core.ex.stackpointer ≠ 0 → p.core.ex.stackpointer = (prog.after s₀ n).regs .rsp
  eflags : p.core.eflags = (prog.after s₀ n).eflags
  alive : p.core.aborted = false
  normal : p.core.ex.state = .normal
  ripChanged : p.core.ex.ripChanged = false
  reset : p.cur.reset = false ∧ p.core.nxt.reset = false
  length : p.trace.length = n
  traced : ∀ k op, p.trace[k]? = some op → prog.Executes (prog.after s₀ k) op

/-- The queues hold the uops from the instruction pointer on. The front one was read from a register
file that lagged by two instructions or fewer. -/
def Queued (prog : BranchProgram) (s₀ : Point) (n : ℕ) (de dd : List Uop) (feed : Word) : Prop :=
  (de = [] ∧ prog.Delivered (prog.after s₀ n).pc dd feed) ∨
    ∃ insn u rf r rest, prog.insn (prog.after s₀ n).pc = some insn ∧
      de = Dispatch.readOperands rf (prog.uop u (prog.after s₀ n).pc insn) :: rest ∧
      rf.gpr = (prog.after s₀ r).regs ∧ (r ≤ n ∧ n ≤ r + 2) ∧
      (prog.insn (prog.behind (prog.after s₀ n).pc) ≠ none →
        rest = [] ∧ prog.Delivered (prog.behind (prog.after s₀ n).pc) dd feed)

/-- Where the uops come from, inside a cycle in which these stages have run. -/
inductive Control (prog : BranchProgram) (s₀ : Point) (n : ℕ) (done : List Stage) (p : Pipe Word) :
    Prop
  /-- No redirection is under way. -/
  | flowing (cur : p.cur.clear = false) (nxt : p.core.nxt.clear = false)
      (expected : p.core.ex.firstrun = true ∨ p.core.ex.expectedAddr = (prog.after s₀ n).pc)
      (queued : prog.Queued s₀ n p.core.deUopQueue p.core.ddUopQueue p.feed)
  /-- A jump was taken in this cycle. -/
  | leaving (ran : .execute ∈ done) (cur : p.cur.clear = false) (nxt : p.core.nxt.clear = true)
      (newRIP : p.core.nxt.newRIP = (prog.after s₀ n).pc)
      (expected : p.core.ex.expectedAddr = (prog.after s₀ n).pc) (landed : prog.Landed s₀ n)
  /-- A jump was taken in the cycle before. -/
  | clearing (cur : p.cur.clear = true) (newRIP : p.cur.newRIP = (prog.after s₀ n).pc)
      (expected : p.core.ex.expectedAddr = (prog.after s₀ n).pc) (landed : prog.Landed s₀ n)
      (decoded : .decode ∈ done → p.feed = (prog.after s₀ n).pc)
      (dispatched : .dispatch ∈ done → p.core.ddUopQueue = [])
      (executed : .execute ∈ done → p.core.deUopQueue = [] ∧ p.core.nxt.clear = false)

/-- What holds inside a cycle, as long as the sequential machine is inside the program. -/
def Inv (prog : BranchProgram) (s₀ : Point) (done : List Stage) (p : Pipe Word) : Prop :=
  prog.Inside s₀ p.trace.length →
    ∃ n r, prog.Values s₀ p n r ∧ prog.Control s₀ n done p

/-! ## The stages other than `Execute` -/

variable {p p' : Pipe Word} {n r : ℕ} {done : List Stage}

/-- The values do not depend on the queues in front of `Execute`. -/
private theorem Values.frame (h : prog.Values s₀ p n r)
    (hregfile : p'.core.regfile = p.core.regfile)
    (hew : p'.core.ewUopQueue = p.core.ewUopQueue) (hex : p'.core.ex = p.core.ex)
    (heflags : p'.core.eflags = p.core.eflags) (haborted : p'.core.aborted = p.core.aborted)
    (hreset : p'.cur.reset = false ∧ p'.core.nxt.reset = false) (htrace : p'.trace = p.trace) :
    prog.Values s₀ p' n r where
  count := by rw [hew]; exact h.count
  ewQueue := by rw [hew]; exact h.ewQueue
  ewLength := by rw [hew]; exact h.ewLength
  regfile := by rw [hregfile]; exact h.regfile
  recent := by rw [hex]; exact h.recent
  stack := by rw [hex]; exact h.stack
  eflags := by rw [heflags]; exact h.eflags
  alive := by rw [haborted]; exact h.alive
  normal := by rw [hex]; exact h.normal
  ripChanged := by rw [hex]; exact h.ripChanged
  reset := hreset
  length := by rw [htrace]; exact h.length
  traced := by rw [htrace]; exact h.traced

theorem mem_concat_iff {st st' : Stage} (hne : st' ≠ st) : st' ∈ done ++ [st] ↔ st' ∈ done := by
  rw [List.mem_append, List.mem_singleton, or_iff_left hne]

private theorem control_decode (h : prog.Control s₀ n done p) (i : Input (List Delivery)) :
    prog.Control s₀ n (done ++ [.decode]) (act prog.deliver i .decode p) := by
  cases h with
  | flowing cur nxt expected queued =>
    have hdeliver : prog.deliver i.choice p.cur p.feed = prog.fallThrough i.choice p.feed :=
      if_neg (by rw [cur]; exact Bool.false_ne_true)
    have hdd : (act prog.deliver i .decode p).core.ddUopQueue =
        p.core.ddUopQueue ++ (prog.fallThrough i.choice p.feed).1 :=
      congrArg (p.core.ddUopQueue ++ ·) (congrArg Prod.fst hdeliver)
    have hfeed : (act prog.deliver i .decode p).feed = (prog.fallThrough i.choice p.feed).2 :=
      congrArg Prod.snd hdeliver
    refine .flowing cur nxt expected ?_
    rw [hdd, hfeed]
    rcases queued with ⟨hde, hdelivered⟩ | ⟨insn, u, rf, q, rest, hinsn, hde, hrf, hq, hrest⟩
    · exact .inl ⟨hde, hdelivered.append i.choice⟩
    · refine .inr ⟨insn, u, rf, q, rest, hinsn, hde, hrf, hq, fun hknown ↦ ?_⟩
      obtain ⟨hnil, hdelivered⟩ := hrest hknown
      exact ⟨hnil, hdelivered.append i.choice⟩
  | leaving ran cur nxt newRIP expected landed =>
    exact .leaving (List.mem_append_left _ ran) cur nxt newRIP expected landed
  | clearing cur newRIP expected landed decoded dispatched executed =>
    have hdeliver : prog.deliver i.choice p.cur p.feed = ([], p.cur.newRIP) := if_pos cur
    have hdd : (act prog.deliver i .decode p).core.ddUopQueue = p.core.ddUopQueue ++ [] :=
      congrArg (p.core.ddUopQueue ++ ·) (congrArg Prod.fst hdeliver)
    have hfeed : (act prog.deliver i .decode p).feed = p.cur.newRIP := congrArg Prod.snd hdeliver
    refine .clearing cur newRIP expected landed (fun _ ↦ hfeed.trans newRIP) (fun hmem ↦ ?_)
      fun hmem ↦ executed ((mem_concat_iff (by decide)).mp hmem)
    rw [hdd, dispatched ((mem_concat_iff (by decide)).mp hmem)]
    rfl

/-- Of the uops behind the front one none moves with it, since they belong to other addresses. -/
private theorem take_eq_nil {pc feed : Word} {front : Uop} {rest : List Uop} {k : ℕ}
    (hpc : prog.insn pc ≠ none) (hfront : front.address = pc)
    (hknown : prog.insn (prog.behind pc) ≠ none)
    (hdelivered : prog.Delivered (prog.behind pc) rest feed)
    (haddr : ∀ u ∈ rest.take k, u.address = front.address) : rest.take k = [] := by
  cases rest with
  | nil => exact List.take_nil
  | cons y rest =>
    cases k with
    | zero => rfl
    | succ k =>
      obtain ⟨insn, hinsn⟩ := Option.ne_none_iff_exists'.mp hknown
      obtain ⟨⟨u, rfl⟩, -⟩ := hdelivered.cons hinsn
      have hy := haddr (prog.uop u (prog.behind pc) insn) (by simp)
      rw [hfront] at hy
      exact absurd hy (behind_ne hpc)

private theorem control_dispatch (hknown : prog.insn (prog.after s₀ n).pc ≠ none)
    (hvalues : prog.Values s₀ p n r) (h : prog.Control s₀ n done p)
    (i : Input (List Delivery)) :
    prog.Control s₀ n (done ++ [.dispatch]) (act prog.deliver i .dispatch p) := by
  change prog.Control s₀ n _ { p with core := Dispatch.work p.cur p.core }
  have houtcome := Dispatch.work_outcome p.cur p.core
  generalize Dispatch.work p.cur p.core = c at houtcome ⊢
  cases h with
  | flowing cur nxt expected queued =>
    cases houtcome with
    | idle ready _ => exact .flowing cur nxt expected queued
    | cleared hclear => rw [cur] at hclear; cases hclear
    | moved front rest k _ hdd hde haddr =>
      obtain ⟨insn, hinsn⟩ := Option.ne_none_iff_exists'.mp hknown
      have hdelivered : prog.Delivered (prog.after s₀ n).pc (front :: rest) p.feed := by
        rcases queued with ⟨-, hdelivered⟩ | ⟨_, _, _, _, _, _, hde', -⟩
        · rwa [hdd] at hdelivered
        · rw [hde] at hde'
          cases hde'
      obtain ⟨⟨u, hfront⟩, hrest⟩ := hdelivered.cons hinsn
      have hlag : r ≤ n ∧ n ≤ r + 2 := by
        rw [hvalues.count]
        exact ⟨Nat.le_add_right _ _, Nat.add_le_add_left hvalues.ewLength r⟩
      refine .flowing cur nxt expected (.inr ⟨insn, u, p.core.regfile, r,
        (rest.take k).map (Dispatch.readOperands p.core.regfile), hinsn, ?_, hvalues.regfile, hlag,
        fun hbehind ↦ ?_⟩)
      · rw [← hfront]
        exact List.map_cons
      · have hnil := take_eq_nil hknown (congrArg Uop.address hfront) hbehind hrest haddr
        have hdrop := List.take_append_drop k rest
        rw [hnil, List.nil_append] at hdrop
        change (rest.take k).map _ = [] ∧ prog.Delivered _ (rest.drop k) p.feed
        rw [hnil, hdrop]
        exact ⟨rfl, hrest⟩
  | leaving ran cur nxt newRIP expected landed =>
    have hleaving : ∀ c : Core, c.nxt.clear = p.core.nxt.clear → c.nxt.newRIP = p.core.nxt.newRIP →
        c.ex = p.core.ex → prog.Control s₀ n (done ++ [.dispatch]) { p with core := c } := by
      intro c hclear hnewRIP hex
      refine .leaving (List.mem_append_left _ ran) cur (hclear.trans nxt) (hnewRIP.trans newRIP) ?_
        landed
      rw [hex]
      exact expected
    cases houtcome with
    | idle ready _ => exact hleaving _ rfl rfl rfl
    | cleared _ => exact hleaving _ rfl rfl rfl
    | moved front rest k _ hdd hde haddr => exact hleaving _ rfl rfl rfl
  | clearing cur newRIP expected landed decoded dispatched executed =>
    cases houtcome with
    | idle ready hidle =>
      rcases hidle with hreset | hclear
      · rw [hvalues.reset.1] at hreset
        cases hreset
      · rw [cur] at hclear
        cases hclear
    | cleared _ =>
      exact .clearing cur newRIP expected landed
        (fun hmem ↦ decoded ((mem_concat_iff (by decide)).mp hmem)) (fun _ ↦ rfl)
        fun hmem ↦ executed ((mem_concat_iff (by decide)).mp hmem)
    | moved front rest k hclear => rw [cur] at hclear; cases hclear

private theorem values_dispatch (h : prog.Values s₀ p n r) (i : Input (List Delivery)) :
    prog.Values s₀ (act prog.deliver i .dispatch p) n r := by
  change prog.Values s₀ { p with core := Dispatch.work p.cur p.core } n r
  have houtcome := Dispatch.work_outcome p.cur p.core
  generalize Dispatch.work p.cur p.core = c at houtcome ⊢
  cases houtcome <;> exact h.frame rfl rfl rfl rfl rfl h.reset rfl

private theorem control_writeback (h : prog.Control s₀ n done p) (i : Input (List Delivery)) :
    prog.Control s₀ n (done ++ [.writeback]) (act prog.deliver i .writeback p) := by
  change prog.Control s₀ n _ { p with core := Writeback.work p.cur p.core }
  have hkeep : ∀ c : Core, c.nxt = p.core.nxt → c.ex = p.core.ex →
      c.deUopQueue = p.core.deUopQueue → c.ddUopQueue = p.core.ddUopQueue →
      prog.Control s₀ n (done ++ [.writeback]) { p with core := c } := by
    intro c hnxt hex hde hdd
    cases h with
    | flowing cur nxt expected queued =>
      refine .flowing cur ?_ ?_ ?_
      · exact (congrArg Signals.clear hnxt).trans nxt
      · rw [hex]
        exact expected
      · rw [hde, hdd]
        exact queued
    | leaving ran cur nxt newRIP expected landed =>
      refine .leaving (List.mem_append_left _ ran) cur ?_ ?_ ?_ landed
      · exact (congrArg Signals.clear hnxt).trans nxt
      · exact (congrArg Signals.newRIP hnxt).trans newRIP
      · rw [hex]
        exact expected
    | clearing cur newRIP expected landed decoded dispatched executed =>
      refine .clearing cur newRIP ?_ landed
        (fun hmem ↦ decoded ((mem_concat_iff (by decide)).mp hmem)) (fun hmem ↦ ?_) fun hmem ↦ ?_
      · rw [hex]
        exact expected
      · exact hdd.trans (dispatched ((mem_concat_iff (by decide)).mp hmem))
      · obtain ⟨hempty, hclear⟩ := executed ((mem_concat_iff (by decide)).mp hmem)
        exact ⟨hde.trans hempty, (congrArg Signals.clear hnxt).trans hclear⟩
  rcases Writeback.work_eq p.cur p.core with hwork | ⟨op, rest, -, hwork⟩
  · rw [hwork]
    exact hkeep _ rfl rfl rfl rfl
  · rw [hwork]
    exact hkeep _ rfl rfl rfl rfl

private theorem values_writeback (h : prog.Values s₀ p n r) (i : Input (List Delivery)) :
    ∃ r', prog.Values s₀ (act prog.deliver i .writeback p) n r' := by
  change ∃ r', prog.Values s₀ { p with core := Writeback.work p.cur p.core } n r'
  rcases Writeback.work_eq p.cur p.core with hwork | ⟨op, rest, hew, hwork⟩
  · rw [hwork]
    exact ⟨r, h⟩
  · have hcount := h.count
    have hforall := h.ewQueue
    have hlength := h.ewLength
    rw [hew, List.length_cons] at hcount hforall hlength
    rw [List.range'_succ, List.map_cons] at hforall
    obtain ⟨hop, hrest⟩ := List.forall₂_cons.mp hforall
    rw [hwork]
    refine ⟨r + 1, ?_⟩
    exact
      { h with
        count := by rw [hcount]; exact (Nat.succ_add_eq_add_succ r rest.length).symm
        ewQueue := hrest
        ewLength := (Nat.le_succ _).trans hlength
        regfile := by
          change (Writeback.retire p.core.regfile op).gpr = _
          rw [hop.retire_gpr, h.regfile, regs_after, regs_after, results, Writes.replay_append] }

/-! ## `Execute` -/

/-- **The operands of the uop that is run are those of the sequential machine.** -/
private theorem reads_forward {ex : Execute} {ws : List (Gpr × Word)} {f : Gpr → Word}
    (hrecent : Recent ex ws) (hstack : ex.stackpointer ≠ 0 → ex.stackpointer = replay f ws .rsp)
    {rf : Arf} {q : ℕ} (hrf : rf.gpr = replay f (ws.take q)) (hq : ws.length ≤ q + 2)
    (offsetregValue : Word) (u : Uninit) (address : Word) (size : ℕ) (insn : BranchInsn) :
    insn.Reads (replay f ws) (Execute.forward ex offsetregValue
      (Dispatch.readOperands rf (push2q u address size insn.push))) := by
  have hgpr : ∀ g, Execute.forwardValue ex (.gpr g) (rf.gpr g) = replay f ws g := by
    intro g
    rw [hrf]
    exact forwardValue_eq hrecent hstack hq g
  have himm := forwardValue_scratchreg hrecent
  cases insn with
  | plain insn =>
    refine RegInsn.reads_of_forward rf
      (fun r w ↦ Execute.forwardValue ex r (if r = .loadStoreReg then offsetregValue else w))
      (fun r w ↦ Execute.forwardValue ex r w) (fun g ↦ ?_) (fun w ↦ ?_) hgpr himm u address size
      insn rfl rfl
    · rw [if_neg Reg.noConfusion]
      exact hgpr g
    · rw [if_neg Reg.noConfusion]
      exact himm w
  | jump opcode offset =>
    obtain ⟨opcode, hopcode⟩ := opcode
    simp only [jumpOpcodes, List.mem_cons, List.not_mem_nil, or_false] at hopcode
    rcases hopcode with rfl | rfl | rfl | rfl | rfl | rfl | rfl | rfl | rfl <;>
      exact ⟨rfl, rfl, rfl, himm offset⟩
  | jumpReg g => exact ⟨rfl, rfl, rfl, hgpr g⟩

/-- The latest results, once a uop is run. -/
private theorem recent_ran {c c' : Core} {r : Uop} {ws : List (Gpr × Word)}
    {w : Option (Gpr × Word)} (h : Recent c.ex ws) (hsettles : Settles r w)
    (hresults : SameResults c.ex c'.ex) : Recent (Execute.finish r c').ex (ws ++ w.toList) := by
  cases w with
  | none =>
    have hsame := hresults.trans (Execute.finish_sameResults c' fun hwrites ↦
      hwrites.2.2 hsettles.2.2)
    rw [Option.toList_none, List.append_nil]
    refine ⟨?_, ?_⟩
    · rw [hsame.reg1, hsame.value1]
      exact h.last
    · rw [hsame.reg2, hsame.value2]
      exact h.previous
  | some w =>
    have hwrites : r.opcode ≠ .nop ∧ r.opcode ≠ .syscall ∧ r.reg2 ≠ .none :=
      ⟨hsettles.plain.forall (P := (· ≠ .nop)) (by decide),
        hsettles.plain.forall (P := (· ≠ .syscall)) (by decide),
        by rw [hsettles.reg2]; exact Reg.noConfusion⟩
    have hnew := hresults.newResult (Execute.finish_newResult c' hwrites)
    refine ⟨?_, ?_⟩
    · rw [Option.toList_some, List.getLast?_concat, hnew.reg1, hnew.value1]
      exact ⟨hsettles.reg2, hsettles.value2⟩
    · rw [Option.toList_some, List.dropLast_concat, hnew.reg2, hnew.value2]
      exact h.last

/-- The stack pointer, once a uop is run. -/
private theorem stack_ran {c' : Core} {r : Uop} {regs : Gpr → Word} {w : Option (Gpr × Word)}
    (hsettles : Settles r w)
    (h : c'.ex.stackpointer ≠ 0 → c'.ex.stackpointer = regs .rsp) :
    (Execute.finish r c').ex.stackpointer ≠ 0 →
      (Execute.finish r c').ex.stackpointer = replay regs w.toList .rsp := by
  rw [stackpointer_finish]
  cases w with
  | none =>
    rw [if_neg fun hwrites ↦ hwrites.2.2 hsettles.2.2]
    exact h
  | some w =>
    have hwrites : r.opcode ≠ .nop ∧ r.opcode ≠ .syscall ∧ r.reg2 ≠ .none :=
      ⟨hsettles.plain.forall (P := (· ≠ .nop)) (by decide),
        hsettles.plain.forall (P := (· ≠ .syscall)) (by decide),
        by rw [hsettles.reg2]; exact Reg.noConfusion⟩
    rw [if_pos hwrites, hsettles.reg2, hsettles.value2, Option.toList_some, Writes.replay_cons,
      Writes.replay_nil, Function.update_apply]
    simp only [Reg.gpr.injEq, eq_comm (a := Gpr.rsp)]
    split_ifs
    · exact fun _ ↦ rfl
    · exact h

/-- The state in which the `switch` is reached. -/
private abbrev selected (p : Pipe Word) (front : Uop) : Core :=
  { Execute.select front (Execute.start p.core) with ex.firstrun := false }

/-- **The values, once the uop at the instruction pointer is run.** -/
private theorem values_ran (h : prog.Values s₀ p n r) {front op op' : Uop} {c' : Core}
    {insn : BranchInsn} (hinsn : prog.insn (prog.after s₀ n).pc = some insn)
    (hreads : insn.Reads (prog.after s₀ n).regs op) (haddr : op.address = (prog.after s₀ n).pc)
    (hew : p.core.ewUopQueue.length ≤ 1)
    (hruns : insn.Runs (prog.after s₀ n).regs (prog.after s₀ n).eflags op (selected p front) op' c')
    (hkept : Execute.Kept (selected p front) c') (hreset : c'.nxt.reset = false) :
    prog.Values s₀ { p with core := Execute.finish op' c', trace := p.trace ++ [op] }
      (n + 1) r := by
  have hwrite := prog.writeAt_of_insn hinsn
  have hafter : prog.after s₀ (n + 1) = _ := prog.step_of_insn hinsn
  have hresults : prog.results s₀ (n + 1) = prog.results s₀ n ++
      (insn.write (prog.after s₀ n).regs (prog.after s₀ n).eflags).toList := by
    rw [results, hwrite]
  have hqueue : (Execute.finish op' c').ewUopQueue = p.core.ewUopQueue ++ [op'] := by
    rw [Execute.finish_ewUopQueue, hkept.ewUopQueue]
    rfl
  have hlength : (Execute.finish op' c').ewUopQueue.length = p.core.ewUopQueue.length + 1 := by
    rw [hqueue, List.length_append, List.length_singleton]
  exact
    { count := by rw [hlength, ← Nat.add_assoc, ← h.count]
      ewQueue := by
        rw [hlength, List.range'_concat, List.map_append, Nat.one_mul, ← h.count, hqueue]
        refine List.rel_append h.ewQueue (.cons ?_ .nil)
        change Settles op' (prog.writeAt (prog.after s₀ n))
        rw [hwrite]
        exact hruns.settles
      ewLength := by
        rw [hlength]
        exact Nat.succ_le_succ hew
      regfile := by
        rw [Execute.finish_regfile, hruns.regfile]
        exact h.regfile
      recent := by
        have hrecent : Recent (selected p front).ex (prog.results s₀ n) :=
          ⟨h.recent.last, h.recent.previous⟩
        rw [hresults]
        exact recent_ran hrecent hruns.settles hruns.results
      stack := by
        have hstack : c'.ex.stackpointer ≠ 0 →
            c'.ex.stackpointer = (prog.after s₀ n).regs .rsp := by
          rw [hruns.stackpointer]
          exact h.stack
        have hregs : (prog.after s₀ (n + 1)).regs = _ := congrArg Point.regs hafter
        rw [hregs]
        exact stack_ran hruns.settles hstack
      eflags := by rw [Execute.finish_eflags, hruns.flags, hafter]
      alive := by
        rw [Execute.finish_aborted, hkept.aborted]
        exact h.alive
      normal := by
        rw [Execute.finish_state, hkept.state]
        exact h.normal
      ripChanged := Execute.finish_ripChanged op' c'
      reset := ⟨h.reset.1, by rw [Execute.finish_nxt]; exact hreset⟩
      length := by rw [List.length_append, List.length_singleton, h.length]
      traced := by
        intro k x hk
        rcases Nat.lt_trichotomy k p.trace.length with hlt | rfl | hgt
        · rw [List.getElem?_append_left hlt] at hk
          exact h.traced k x hk
        · rw [List.getElem?_concat_length, Option.some.injEq] at hk
          rw [← hk, h.length]
          exact ⟨insn, hinsn, haddr, hreads⟩
        · rw [List.getElem?_eq_none (by rw [List.length_append]; simpa using hgt)] at hk
          cases hk }

/-- What else running the uop at this point does. -/
structure Issued (prog : BranchProgram) (s : Point) (c c' : Core) : Prop where
  ewLength : c'.ewUopQueue.length = c.ewUopQueue.length + 1
  ewReady : c'.nxt.ewOutReady = true
  empty : c'.nxt.clear = false → c'.deUopQueue = []
  straight : c'.nxt.clear = false → prog.targetAt s = none

/-- **Running the uop at the instruction pointer keeps the invariant.** -/
private theorem inv_ran (hvalues : prog.Values s₀ p n r) {front : Uop} {rest : List Uop}
    (hcur : p.cur.clear = false) (hnxt : p.core.nxt.clear = false)
    (hqueued : prog.Queued s₀ n p.core.deUopQueue p.core.ddUopQueue p.feed)
    (hde : p.core.deUopQueue = front :: rest) (hew : p.core.ewUopQueue.length ≤ 1)
    (hinside : prog.insn (prog.after s₀ (n + 1)).pc ≠ none) (inp : CycleInput) :
    ∃ n' r', prog.Values s₀
        { p with
          core := Execute.runOp inp (Execute.forward p.core.ex p.core.offsetregValue front)
            (selected p front)
          trace := p.trace ++ [Execute.forward p.core.ex p.core.offsetregValue front] } n' r' ∧
      prog.Control s₀ n' (done ++ [.execute])
        { p with
          core := Execute.runOp inp (Execute.forward p.core.ex p.core.offsetregValue front)
            (selected p front)
          trace := p.trace ++ [Execute.forward p.core.ex p.core.offsetregValue front] } ∧
      prog.Issued (prog.after s₀ n) p.core (Execute.runOp inp
        (Execute.forward p.core.ex p.core.offsetregValue front) (selected p front)) := by
  rcases hqueued with ⟨hnil, -⟩ | ⟨insn, u, rf, r', rest', hinsn, hde', hrf, hlag, hrest⟩
  · rw [hde] at hnil
    cases hnil
  rw [hde, List.cons.injEq] at hde'
  obtain ⟨rfl, rfl⟩ := hde'
  obtain ⟨q, hq, hlength⟩ := exists_regs_after_eq s₀ hlag.1
  -- the operands
  have hreads : insn.Reads (prog.after s₀ n).regs (Execute.forward p.core.ex p.core.offsetregValue
      (Dispatch.readOperands rf (prog.uop u (prog.after s₀ n).pc insn))) := by
    have hstack := hvalues.stack
    rw [regs_after] at hstack ⊢
    exact reads_forward hvalues.recent hstack (hrf.trans hq) (by omega) _ u _ _ insn
  have haddr : (Execute.forward p.core.ex p.core.offsetregValue
      (Dispatch.readOperands rf (prog.uop u (prog.after s₀ n).pc insn))).address =
        (prog.after s₀ n).pc := Dispatch.readOperands_address _ _
  have hbehind : (Execute.forward p.core.ex p.core.offsetregValue
      (Dispatch.readOperands rf (prog.uop u (prog.after s₀ n).pc insn))).nextAddr =
        prog.behind (prog.after s₀ n).pc := by
    simp only [Uop.nextAddr, Execute.forward, Dispatch.readOperands_address,
      Dispatch.readOperands_opsize]
    rfl
  generalize Execute.forward p.core.ex p.core.offsetregValue
    (Dispatch.readOperands rf (prog.uop u (prog.after s₀ n).pc insn)) = op
      at hreads haddr hbehind ⊢
  obtain ⟨op', c', hrun, hruns⟩ := BranchInsn.exists_runs inp hreads
    (c := selected p (Dispatch.readOperands rf (prog.uop u (prog.after s₀ n).pc insn)))
    hvalues.eflags
  rw [hrun]
  have hissued : Execute.Kept (selected p
      (Dispatch.readOperands rf (prog.uop u (prog.after s₀ n).pc insn))) c' →
      ((Execute.finish op' c').nxt.clear = false → (Execute.finish op' c').deUopQueue = []) →
      ((Execute.finish op' c').nxt.clear = false → prog.targetAt (prog.after s₀ n) = none) →
      prog.Issued (prog.after s₀ n) p.core (Execute.finish op' c') := by
    intro hkept hempty hstraight
    refine ⟨?_, by rw [Execute.finish_nxt], hempty, hstraight⟩
    rw [Execute.finish_ewUopQueue, hkept.ewUopQueue, List.length_append, List.length_singleton]
    rfl
  have hpc : (prog.after s₀ (n + 1)).pc =
      (insn.target (prog.after s₀ n).regs (prog.after s₀ n).eflags op.nextAddr).getD
        (prog.behind (prog.after s₀ n).pc) := by
    rw [hbehind]
    exact congrArg Point.pc (prog.step_of_insn hinsn)
  cases htarget : insn.target (prog.after s₀ n).regs (prog.after s₀ n).eflags op.nextAddr with
  | none =>
    -- straight on: the uop behind this instruction is the next one
    have hstraight := hruns.straight htarget
    rw [htarget, Option.getD_none] at hpc
    have hreset : c'.nxt.reset = false := hstraight.reset.trans hvalues.reset.2
    refine ⟨_, r, values_ran hvalues hinsn hreads haddr hew hruns hstraight.toKept hreset, ?_⟩
    rw [hpc] at hinside
    obtain ⟨rfl, hdelivered⟩ := hrest hinside
    have hempty : (Execute.finish op' c').deUopQueue = [] := by
      rw [Execute.finish_deUopQueue, hstraight.deUopQueue]
      exact Execute.select_tail hde
    have htargetAt : prog.targetAt (prog.after s₀ n) = none := by
      rw [prog.targetAt_of_insn hinsn, ← hbehind, htarget]
    refine ⟨.flowing hcur ?_ (.inr ?_) (.inl ⟨hempty, ?_⟩),
      hissued hstraight.toKept (fun _ ↦ hempty) fun _ ↦ htargetAt⟩
    · change (Execute.finish op' c').nxt.clear = false
      rw [Execute.finish_nxt]
      exact hstraight.clear.trans hnxt
    · change (Execute.finish op' c').ex.expectedAddr = (prog.after s₀ (n + 1)).pc
      rw [Execute.finish_expectedAddr, hstraight.ripChanged, if_neg (by
        change ¬p.core.ex.ripChanged = true
        rw [hvalues.ripChanged]
        exact Bool.false_ne_true), hruns.same.nextAddr, hbehind, hpc]
    · change prog.Delivered (prog.after s₀ (n + 1)).pc (Execute.finish op' c').ddUopQueue p.feed
      rw [Execute.finish_ddUopQueue, hstraight.ddUopQueue, hpc]
      exact hdelivered
  | some t =>
    have hredirected := hruns.redirected t htarget
    rw [htarget, Option.getD_some] at hpc
    have hreset : c'.nxt.reset = false := hredirected.reset.trans hvalues.reset.2
    refine ⟨_, r, values_ran hvalues hinsn hreads haddr hew hruns hredirected.toKept hreset, ?_⟩
    have hclear : (Execute.finish op' c').nxt.clear = true := by
      rw [Execute.finish_nxt]
      exact hredirected.clear
    have htargetAt : prog.targetAt (prog.after s₀ n) = some t := by
      rw [prog.targetAt_of_insn hinsn, ← hbehind, htarget]
    have hlanded : prog.Landed s₀ (n + 1) :=
      ⟨n, rfl, by rw [htargetAt]; exact Option.some_ne_none t⟩
    refine ⟨.leaving (List.mem_append_right _ (List.mem_singleton_self _)) hcur hclear ?_ ?_
      hlanded, hissued hredirected.toKept
        (fun hclear' ↦ absurd (hclear'.symm.trans hclear) Bool.noConfusion)
        fun hclear' ↦ absurd (hclear'.symm.trans hclear) Bool.noConfusion⟩
    · change (Execute.finish op' c').nxt.newRIP = (prog.after s₀ (n + 1)).pc
      rw [Execute.finish_nxt, hpc]
      exact hredirected.newRIP
    · change (Execute.finish op' c').ex.expectedAddr = (prog.after s₀ (n + 1)).pc
      rw [Execute.finish_expectedAddr, hredirected.ripChanged, if_pos rfl, hpc]
      exact hredirected.expectedAddr

/-- The front uop is never taken for one from a wrong path. -/
theorem unexpected_eq_false {front : Uop} {rest : List Uop}
    (hexpected : p.core.ex.firstrun = true ∨ p.core.ex.expectedAddr = (prog.after s₀ n).pc)
    (hqueued : prog.Queued s₀ n p.core.deUopQueue p.core.ddUopQueue p.feed)
    (hde : p.core.deUopQueue = front :: rest) : Execute.unexpected p.core.ex front = false := by
  rcases hqueued with ⟨hnil, -⟩ | ⟨insn, u, rf, q, rest', hinsn, hde', -⟩
  · rw [hde] at hnil
    cases hnil
  · rw [hde, List.cons.injEq] at hde'
    have haddr : front.address = (prog.after s₀ n).pc := by
      rw [hde'.1, Dispatch.readOperands_address]
      rfl
    rw [Execute.unexpected, Bool.and_eq_false_iff]
    rcases hexpected with hfirst | hexpected
    · exact .inr (by rw [hfirst]; rfl)
    · left
      rw [bne_eq_false_iff_eq, Execute.expected, hexpected, haddr]
      split_ifs <;> rfl

/-- **What an activation of `Execute` does.** Unless it sees `clear`, it runs the uop at the
instruction pointer, or none. -/
theorem inv_execute (hdone : .execute ∉ done)
    (hinside : prog.Inside s₀ (n + 1) ∨ Execute.issued p.cur p.core = none)
    (hvalues : prog.Values s₀ p n r) (h : prog.Control s₀ n done p) (i : Input (List Delivery)) :
    ∃ n' r', prog.Values s₀ (act prog.deliver i .execute p) n' r' ∧
      prog.Control s₀ n' (done ++ [.execute]) (act prog.deliver i .execute p) ∧
      (Execute.issued p.cur p.core ≠ none →
        prog.Issued (prog.after s₀ n) p.core (act prog.deliver i .execute p).core) := by
  change ∃ n' r', prog.Values s₀
      { p with
        core := Execute.work i.cycle p.cur p.core
        trace := p.trace ++ (Execute.issued p.cur p.core).toList } n' r' ∧
    prog.Control s₀ n' _
      { p with
        core := Execute.work i.cycle p.cur p.core
        trace := p.trace ++ (Execute.issued p.cur p.core).toList } ∧
      (_ → prog.Issued (prog.after s₀ n) p.core (Execute.work i.cycle p.cur p.core))
  have houtcome := Execute.work_outcome i.cycle p.cur p.core
  generalize Execute.work i.cycle p.cur p.core = c at houtcome ⊢
  generalize Execute.issued p.cur p.core = issued at houtcome hinside ⊢
  have hread : p.core.ex.state ≠ .read := by
    rw [hvalues.normal]
    exact ExecState.noConfusion
  have hquiet : ∀ c : Core, c.regfile = p.core.regfile → c.ewUopQueue = p.core.ewUopQueue →
      c.ex = p.core.ex → c.eflags = p.core.eflags → c.aborted = p.core.aborted →
      c.nxt.reset = p.core.nxt.reset →
      prog.Values s₀
        { p with core := c, trace := p.trace ++ (Option.none : Option Uop).toList } n r := by
    intro c hregfile hew hex heflags haborted hreset
    exact hvalues.frame hregfile hew hex heflags haborted
      ⟨hvalues.reset.1, hreset.trans hvalues.reset.2⟩ (List.append_nil _)
  cases h with
  | flowing cur nxt expected queued =>
    cases houtcome with
    | idle ready _ =>
      exact ⟨n, r, hquiet _ rfl rfl rfl rfl rfl rfl, .flowing cur nxt expected queued,
        fun h ↦ absurd rfl h⟩
    | cleared ready hclear => rw [cur] at hclear; cases hclear
    | ret hclear hstate => exact absurd hstate hread
    | pop hclear hstate => exact absurd hstate hread
    | load hclear hstate => exact absurd hstate hread
    | dropped front rest hclear hwait hde hunexp =>
      rw [unexpected_eq_false expected queued hde] at hunexp
      cases hunexp
    | ran front rest hclear hwait hew hde hexp =>
      have hnext : prog.insn (prog.after s₀ (n + 1)).pc ≠ none := by
        rcases hinside with hinside | hnone
        · exact hinside _ le_rfl
        · cases hnone
      obtain ⟨n', r', hvalues', hcontrol, hissued⟩ :=
        inv_ran hvalues cur nxt queued hde hew hnext i.cycle
      exact ⟨n', r', hvalues', hcontrol, fun _ ↦ hissued⟩
  | leaving ran => exact absurd ran hdone
  | clearing cur newRIP expected landed decoded dispatched executed =>
    cases houtcome with
    | idle ready hidle =>
      rcases hidle with hreset | hclear
      · rw [hvalues.reset.1] at hreset
        cases hreset
      · rw [cur] at hclear
        cases hclear
    | cleared ready _ =>
      exact ⟨n, r, hquiet _ rfl rfl rfl rfl rfl rfl, .clearing cur newRIP expected landed
        (fun hmem ↦ decoded ((mem_concat_iff (by decide)).mp hmem))
        (fun hmem ↦ dispatched ((mem_concat_iff (by decide)).mp hmem)) fun _ ↦ ⟨rfl, rfl⟩,
        fun h ↦ absurd rfl h⟩
    | ret hclear => rw [cur] at hclear; cases hclear
    | pop hclear => rw [cur] at hclear; cases hclear
    | load hclear => rw [cur] at hclear; cases hclear
    | dropped _ _ hclear => rw [cur] at hclear; cases hclear
    | ran _ _ hclear => rw [cur] at hclear; cases hclear

/-! ## Cycles -/

/-- Nothing is taken from the trace. -/
theorem length_le_act (i : Input (List Delivery)) (st : Stage) (p : Pipe Word) :
    p.trace.length ≤ (act prog.deliver i st p).trace.length := by
  cases st with
  | execute => exact (Nat.le_add_right _ _).trans_eq List.length_append.symm
  | decode | dispatch | writeback => exact le_rfl

/-- One process of a cycle. -/
theorem inv_act (i : Input (List Delivery)) {st : Stage} (hdone : st ∉ done)
    (h : prog.Inv s₀ done p) : prog.Inv s₀ (done ++ [st]) (act prog.deliver i st p) := by
  intro hinside
  have htrace : p.trace.length ≤ (act prog.deliver i st p).trace.length := length_le_act i st p
  obtain ⟨n, r, hvalues, hcontrol⟩ := h (hinside.mono htrace)
  have hknown : prog.insn (prog.after s₀ n).pc ≠ none := hinside n (hvalues.length ▸ htrace)
  cases st with
  | decode =>
    exact ⟨n, r, hvalues.frame rfl rfl rfl rfl rfl hvalues.reset rfl, control_decode hcontrol i⟩
  | dispatch => exact ⟨n, r, values_dispatch hvalues i, control_dispatch hknown hvalues hcontrol i⟩
  | writeback =>
    obtain ⟨r', hvalues'⟩ := values_writeback hvalues i
    exact ⟨n, r', hvalues', control_writeback hcontrol i⟩
  | execute =>
    have hexecute : prog.Inside s₀ (n + 1) ∨ Execute.issued p.cur p.core = none →
        ∃ n r, prog.Values s₀ (act prog.deliver i .execute p) n r ∧
          prog.Control s₀ n (done ++ [.execute]) (act prog.deliver i .execute p) := by
      intro h
      obtain ⟨n', r', hvalues', hcontrol', -⟩ := inv_execute hdone h hvalues hcontrol i
      exact ⟨n', r', hvalues', hcontrol'⟩
    refine hexecute ?_
    cases hissued : Execute.issued p.cur p.core with
    | none => exact .inr rfl
    | some op =>
      left
      have hlength : (act prog.deliver i .execute p).trace.length = n + 1 := by
        change (p.trace ++ (Execute.issued p.cur p.core).toList).length = _
        rw [hissued, List.length_append, hvalues.length]
        rfl
      rwa [hlength] at hinside

/-- The end of a cycle in which every stage has run. -/
theorem inv_commit (i : Input (List Delivery)) (hdone : ∀ st, st ∈ done)
    (h : prog.Inv s₀ done p) : prog.Inv s₀ [] (commit i p) := by
  intro hinside
  obtain ⟨n, r, hvalues, hcontrol⟩ := h hinside
  refine ⟨n, r, hvalues.frame rfl rfl rfl rfl rfl ⟨hvalues.reset.2, hvalues.reset.2⟩ rfl, ?_⟩
  cases hcontrol with
  | flowing cur nxt expected queued => exact .flowing nxt nxt expected queued
  | leaving ran cur nxt newRIP expected landed =>
    exact .clearing nxt newRIP expected landed (fun h ↦ by cases h) (fun h ↦ by cases h)
      fun h ↦ by cases h
  | clearing cur newRIP expected landed decoded dispatched executed =>
    obtain ⟨hde, hclear⟩ := executed (hdone _)
    refine .flowing hclear hclear (.inr expected) (.inl ⟨hde, ?_⟩)
    change prog.Delivered _ p.core.ddUopQueue p.feed
    rw [dispatched (hdone _), decoded (hdone _)]
    exact .nil _

/-- The pipeline after reset, about to run a program from this point. -/
def boot (s₀ : Point) (m : Mem) (expectedAddr : Word) (op : Uop) : Pipe Word :=
  Pipe.start (Core.boot s₀.regs s₀.eflags m (Execute.init expectedAddr op)) s₀.pc

/-- Inside a cycle. -/
theorem inv_order {order : List Stage} (hnodup : order.Nodup) (i : Input (List Delivery))
    (h : prog.Inv s₀ [] p) :
    prog.Inv s₀ order (Schedule.runOrder (act prog.deliver) i order p) :=
  Schedule.runOrder_induction hnodup (Q := fun done ↦ prog.Inv s₀ done) h
    fun _ _ _ _ hst h ↦ inv_act i hst h

/-- A cycle keeps the invariant, whatever the order of the stages. -/
theorem inv_cycle (c : Schedule.Cycle (Input (List Delivery)) stages) (h : prog.Inv s₀ [] p) :
    prog.Inv s₀ [] (Schedule.cycle (act prog.deliver) commit c p) :=
  inv_commit c.input (fun st ↦ c.perm.mem_iff.mpr (by cases st <;> decide))
    (inv_order (c.perm.nodup_iff.mpr (by decide)) c.input h)

/-- The invariant holds after reset. -/
theorem inv_boot (prog : BranchProgram) (s₀ : Point) (m : Mem) (expectedAddr : Word) (op : Uop) :
    prog.Inv s₀ [] (boot s₀ m expectedAddr op) := by
  intro _
  refine ⟨0, 0, ?_, .flowing rfl rfl (.inl rfl) (.inl ⟨rfl, .nil _⟩)⟩
  exact
    { count := rfl
      ewQueue := .nil
      ewLength := Nat.zero_le 2
      regfile := rfl
      recent := ⟨rfl, rfl⟩
      stack := fun h ↦ absurd rfl h
      eflags := rfl
      alive := rfl
      normal := rfl
      ripChanged := rfl
      reset := ⟨rfl, rfl⟩
      length := rfl
      traced := fun k op h ↦ by cases h }

/-- The invariant holds throughout every run. -/
theorem inv_run (prog : BranchProgram) (s₀ : Point) (m : Mem) (expectedAddr : Word) (op : Uop)
    (cs : Cycles (List Delivery)) :
    prog.Inv s₀ [] (run prog.deliver cs (boot s₀ m expectedAddr op)) :=
  Schedule.run_invariant_of_cycle (fun c _ h ↦ inv_cycle c h) (inv_boot prog s₀ m expectedAddr op)
    cs

/-- **Programs with jumps run as on a sequential machine.** Under every schedule, whatever is
delivered behind the program's jumps, and as long as the sequential machine has not left the
program: the `k`-th uop executed is that of the `k`-th instruction of the sequential run and reads
the values of that point; the flags are those of the point reached, and the register file is that of
the point which the uops still in `ew_uop_queue`, two or fewer, are to be run from. -/
theorem branchProgram_refines (prog : BranchProgram) (s₀ : Point) (m : Mem) (expectedAddr : Word)
    (op : Uop) (cs : Cycles (List Delivery)) :
    let p := run prog.deliver cs (boot s₀ m expectedAddr op)
    prog.Inside s₀ p.trace.length →
      p.core.aborted = false ∧
      (∀ k op, p.trace[k]? = some op → prog.Executes (prog.after s₀ k) op) ∧
      p.core.eflags = (prog.after s₀ p.trace.length).eflags ∧
      p.core.ewUopQueue.length ≤ 2 ∧
      p.core.regfile.gpr =
        (prog.after s₀ (p.trace.length - p.core.ewUopQueue.length)).regs := by
  intro p hinside
  obtain ⟨n, r, h, -⟩ := inv_run prog s₀ m expectedAddr op cs hinside
  have hr : p.trace.length - p.core.ewUopQueue.length = r := by
    have hlength : p.trace.length = n := h.length
    have hcount : n = r + p.core.ewUopQueue.length := h.count
    omega
  rw [hr, show p.trace.length = n from h.length]
  exact ⟨h.alive, h.traced, h.eflags, h.ewLength, h.regfile⟩

/-- Count RCX down to zero, and stay behind the loop. -/
def countdown : BranchProgram where
  insn a :=
    if a = 0x100 then some (.plain (.unary ⟨.dec, by decide⟩ .rcx))
    else if a = 0x103 then some (.plain (.regReg ⟨.test, by decide⟩ .rcx .rcx))
    else if a = 0x106 then some (.jump ⟨.jnz, by decide⟩ (-8))
    else if a = 0x108 then some (.jump ⟨.jmp, by decide⟩ (-2))
    else none
  size a := if a = 0x100 ∨ a = 0x103 then 3 else 2
  sized a _ := by split_ifs <;> decide

/-- Twenty cycles of it, with two instructions delivered in each and the stages in order. -/
def countdownCycles : Cycles (List Delivery) :=
  List.replicate 20
    ⟨⟨List.replicate 2 ⟨⟨0, 0, 0⟩, [], 0⟩, true, false, 0, 0, .zero⟩, stages, .refl _⟩

theorem countdown_refines :
    let s₀ : Point := ⟨0x100, fun _ ↦ 2, ⟨0⟩⟩
    let p := run countdown.deliver countdownCycles (boot s₀ (fun _ ↦ 0) 0 Uop.zero)
    p.core.aborted = false ∧
      (∀ k op, p.trace[k]? = some op → countdown.Executes (countdown.after s₀ k) op) ∧
      p.core.eflags = (countdown.after s₀ p.trace.length).eflags ∧
      p.core.ewUopQueue.length ≤ 2 ∧
      p.core.regfile.gpr =
        (countdown.after s₀ (p.trace.length - p.core.ewUopQueue.length)).regs :=
  branchProgram_refines countdown ⟨0x100, fun _ ↦ 2, ⟨0⟩⟩ (fun _ ↦ 0) 0 Uop.zero countdownCycles
    (by decide +kernel)

-- in this run the loop has been left
example : (run countdown.deliver countdownCycles
    (boot ⟨0x100, fun _ ↦ 2, ⟨0⟩⟩ (fun _ ↦ 0) 0 Uop.zero)).core.regfile.gpr .rcx = 0 := by
  decide +kernel

end BranchProgram

end Cse502.Pipeline
