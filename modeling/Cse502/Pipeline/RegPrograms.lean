import Cse502.Library.Writes
import Cse502.Pipeline.RegInsn
import Cse502.Pipeline.Stages

/-!
# Register programs run as on a sequential machine

Dispatch reads a register file that lags behind by the results still in `ew_uop_queue`, at most two
of them, and `Execute` repairs what it read from `prev_reg1`, `prev_reg2` and `stackpointer`.

## The invariant

Write `W` for the results of the instructions executed so far, in order. Then

* the register file has seen `W` but for what is in `ew_uop_queue`, the last two writes or fewer;
* the uop in `de_uop_queue` was read from a file that had seen all but the last two of `W`, or more;
* the forwarding registers hold the last two writes of `W`.

A uop is dispatched only when `de_uop_queue` is empty, so no result is added to `W` between the
moment it is read and the moment it is executed, and `Writes.replay_drop_take` closes the gap.
-/

namespace Cse502.Pipeline

open Decoder (Uninit push2q)
open Writes (replay)

/-! ## Programs -/

/-- An instruction with its place in the program, and what was in the memory of its uop. -/
structure Entry where
  insn : RegInsn
  address : Word
  size : ℕ
  uninit : Uninit

/-- The uop the decoder pushes. -/
def Entry.toUop (e : Entry) : Uop := push2q e.uninit e.address e.size e.insn.push

/-- A straight-line program of register instructions. The sizes are those of x86 instructions. -/
structure RegProgram where
  entries : List Entry
  sized : ∀ e ∈ entries, 1 ≤ e.size ∧ e.size ≤ 15
  chain : entries.IsChain fun e e' ↦ e'.address = e.toUop.nextAddr

/-- The decoder delivers any number of instructions in a cycle. -/
def deliverEntries (n : ℕ) (_ : Signals) (pending : List Entry) : List Uop × List Entry :=
  ((pending.take n).map Entry.toUop, pending.drop n)

/-- The sequential machine after these instructions. -/
def seq (s : Arch) (es : List Entry) : Arch := s.run 0 (es.map Entry.toUop)

/-- The results of these instructions, in order. -/
def writes (s : Arch) : List Entry → List (Gpr × Word)
  | [] => []
  | e :: es => (e.insn.dest, (e.insn.effect s.regs s.eflags).1) :: writes (s.step 0 e.toUop) es

theorem seq_concat (s : Arch) (es : List Entry) (e : Entry) :
    seq s (es ++ [e]) = (seq s es).step 0 e.toUop := by
  rw [seq, List.map_append, Arch.run_append]
  rfl

theorem writes_concat (s : Arch) (es : List Entry) (e : Entry) :
    writes s (es ++ [e]) = writes s es ++
      [(e.insn.dest, (e.insn.effect (seq s es).regs (seq s es).eflags).1)] := by
  induction es generalizing s with
  | nil => rfl
  | cons e' es ih =>
    rw [List.cons_append, writes, ih, writes, List.cons_append]
    rfl

/-- The sequential machine's registers are its results, replayed. -/
theorem regs_seq (s : Arch) (es : List Entry) : (seq s es).regs = replay s.regs (writes s es) := by
  induction es using List.reverseRecOn with
  | nil => rfl
  | append_singleton es e ih =>
    rw [seq_concat, writes_concat, Writes.replay_concat, Entry.toUop, RegInsn.step_push, ← ih]

/-! ## Forwarding -/

/-- A forwarding register holds this write, or none. -/
def Holds (r : Reg) (v : Word) : Option (Gpr × Word) → Prop
  | none => r = .none
  | some w => r = .gpr w.1 ∧ v = w.2

/-- The forwarding registers hold the last two writes. -/
structure Recent (ex : Execute) (ws : List (Gpr × Word)) : Prop where
  last : Holds ex.prevReg1 ex.prevValue1 ws.getLast?
  previous : Holds ex.prevReg2 ex.prevValue2 ws.dropLast.getLast?

/-- A forwarding register that holds a write overrides the operand the write names. -/
private theorem ite_of_holds {r : Reg} {v : Word} {w : Option (Gpr × Word)} (h : Holds r v w)
    (f : Gpr → Word) (g : Gpr) :
    (if Reg.gpr g = r then v else f g) = replay f w.toList g := by
  cases w with
  | none =>
    have hr : r = .none := h
    rw [hr, if_neg Reg.noConfusion]
    rfl
  | some w =>
    obtain ⟨hr, hv⟩ : r = .gpr w.1 ∧ v = w.2 := h
    rw [hr, hv, Option.toList_some, Writes.replay_cons, Writes.replay_nil, Function.update_apply]
    simp only [Reg.gpr.injEq]

/-- The writes before the last two, and the last two. -/
private theorem eq_dropLast_append {α : Type*} (ws : List α) :
    ws = ws.dropLast.dropLast ++ (ws.dropLast.getLast?.toList ++ ws.getLast?.toList) := by
  have hlast : ∀ l : List α, l = l.dropLast ++ l.getLast?.toList := by
    intro l
    rcases List.eq_nil_or_concat l with rfl | ⟨l, a, rfl⟩
    · rfl
    · simp
  rw [← List.append_assoc, ← hlast, ← hlast]

/-- **An operand is up to date after forwarding**, if the register file it was read from lagged by
two writes or fewer. -/
theorem forwardValue_eq {ex : Execute} {ws : List (Gpr × Word)} (h : Recent ex ws)
    {f : Gpr → Word} (hstack : ex.stackpointer ≠ 0 → ex.stackpointer = replay f ws .rsp)
    {q : ℕ} (hq : ws.length ≤ q + 2) (g : Gpr) :
    Execute.forwardValue ex (.gpr g) (replay f (ws.take q) g) = replay f ws g := by
  have hlen : ws.dropLast.dropLast.length ≤ q := by
    rw [List.length_dropLast, List.length_dropLast]
    omega
  have hdrop : ws.drop ws.dropLast.dropLast.length =
      ws.dropLast.getLast?.toList ++ ws.getLast?.toList := by
    conv_lhs => arg 2; rw [eq_dropLast_append ws]
    exact List.drop_left
  have hforward : (if Reg.gpr g = ex.prevReg1 then ex.prevValue1 else
      if Reg.gpr g = ex.prevReg2 then ex.prevValue2 else replay f (ws.take q) g) =
      replay f ws g := by
    rw [ite_of_holds h.previous,
      ite_of_holds h.last (fun g ↦ replay (replay f (ws.take q)) ws.dropLast.getLast?.toList g),
      ← Writes.replay_append, ← hdrop, Writes.replay_drop_take f ws hlen]
  rw [Execute.forwardValue, hforward]
  split_ifs with hrsp
  · rw [hstack hrsp.2, Reg.gpr.inj hrsp.1]
  · rfl

/-- Immediates are not forwarded. -/
theorem forwardValue_scratchreg {ex : Execute} {ws : List (Gpr × Word)} (h : Recent ex ws)
    (v : Word) : Execute.forwardValue ex .scratchreg v = v := by
  have hne :
      ∀ {r : Reg} {v : Word} {w : Option (Gpr × Word)}, Holds r v w → Reg.scratchreg ≠ r := by
    intro r v w hw
    cases w with
    | none =>
      have hr : r = .none := hw
      rw [hr]
      exact Reg.noConfusion
    | some w =>
      rw [hw.1]
      exact Reg.noConfusion
  rw [Execute.forwardValue, if_neg (hne h.previous), if_neg (hne h.last),
    if_neg (fun hrsp ↦ Reg.noConfusion hrsp.1)]

/-! ## A register instruction in the later stages -/

/-- A uop that writes one general register when it retires. -/
structure Retires (op : Uop) (w : Gpr × Word) : Prop where
  plain : RegInsn.Plain op
  reg2 : op.reg2 = .gpr w.1
  value2 : op.value2 = w.2

theorem Retires.retire_gpr {op : Uop} {w : Gpr × Word} (h : Retires op w) (rf : Arf) :
    (Writeback.retire rf op).gpr = Function.update rf.gpr w.1 w.2 := by
  have hnot := h.plain.forall (P := fun o ↦ o ∉ [.call, .ret, .pop, .mul, .div, .idiv]) (by decide)
  have hreg2 : Writeback.writeReg2 { rf with rip := op.nextAddr } op =
      Arf.set { rf with rip := op.nextAddr } w.1 w.2 := by
    rw [Writeback.writeReg2, h.reg2, h.value2]
  rw [Writeback.retire, hreg2, Writeback.writeImplicit]
  split
  all_goals try (next hop => simp [hop] at hnot)
  rw [if_neg h.plain.src, Arf.set_gpr]

/-- The `switch` on a uop of a register instruction. -/
theorem runOp_of_plain (inp : CycleInput) {op : Uop} (h : RegInsn.Plain op) (c : Core) :
    Execute.runOp inp op c =
      Execute.finish (Execute.alu inp.clzZero op c.eflags).1
        { c with eflags := (Execute.alu inp.clzZero op c.eflags).2 } := by
  have hnot := h.forall (P := fun o ↦ o ∉ [.ret, .pop, .load, .syscall, .call, .push, .store,
    .pushfq, .jmp, .ja, .jz, .jnz, .jb, .jl, .jle, .jg, .jge, .div, .idiv]) (by decide)
  have htraps : Execute.divTraps op = false := by
    rw [Execute.divTraps]
    split
    all_goals try (next hop => simp [hop] at hnot)
    rfl
  have hswitch : Execute.switchOp inp op c =
      some ((Execute.alu inp.clzZero op c.eflags).1,
        { c with eflags := (Execute.alu inp.clzZero op c.eflags).2 }) := by
    rw [Execute.switchOp]
    split
    all_goals try (next hop => simp [hop] at hnot)
    rw [htraps]
    rfl
  rw [Execute.runOp]
  split
  all_goals try (next hop => simp [hop] at hnot)
  rw [hswitch]

/-! ## The invariant -/

/-- Where the instructions of a program are, and which results the register file has seen. -/
structure View where
  done : List Entry
  de : List Entry
  dd : List Entry
  retired : List (Gpr × Word)
  inflight : List (Gpr × Word)

/-- The uop in `de_uop_queue`, read from a register file that lags by two results or fewer. -/
def Dispatched (s₀ : Arch) (ws : List (Gpr × Word)) (de : List Entry) (queue : List Uop) : Prop :=
  (de = [] ∧ queue = []) ∨ ∃ (e : Entry) (rf : Arf) (q : ℕ), de = [e] ∧
    queue = [Dispatch.readOperands rf e.toUop] ∧ rf.gpr = replay s₀.regs (ws.take q) ∧
      ws.length ≤ q + 2

/-- What holds of the pipeline between any two processes of any cycle. -/
structure Inv (s₀ : Arch) (es : List Entry) (p : Pipe (List Entry)) (v : View) : Prop where
  split : es = v.done ++ (v.de ++ (v.dd ++ p.feed))
  results : writes s₀ v.done = v.retired ++ v.inflight
  -- the control state
  calm : p.cur.reset = false ∧ p.cur.clear = false ∧ p.core.nxt.reset = false ∧
    p.core.nxt.clear = false
  normal : p.core.ex.state = .normal
  ripChanged : p.core.ex.ripChanged = false
  expected : p.core.ex.firstrun = true ∨
    ∀ e ∈ (v.de ++ (v.dd ++ p.feed)).head?, p.core.ex.expectedAddr = e.address
  -- the queues
  ddQueue : p.core.ddUopQueue = v.dd.map Entry.toUop
  deQueue : Dispatched s₀ (writes s₀ v.done) v.de p.core.deUopQueue
  ewQueue : List.Forall₂ Retires p.core.ewUopQueue v.inflight
  ewLength : v.inflight.length ≤ 2
  -- the values
  regfile : p.core.regfile.gpr = replay s₀.regs v.retired
  recent : Recent p.core.ex (writes s₀ v.done)
  stack : p.core.ex.stackpointer ≠ 0 → p.core.ex.stackpointer = (seq s₀ v.done).regs .rsp
  eflags : p.core.eflags = (seq s₀ v.done).eflags
  -- what was executed
  traceLength : p.trace.length = v.done.length
  traced : ∀ k op (e : Entry), p.trace[k]? = some op → v.done[k]? = some e →
    e.insn.Reads (seq s₀ (v.done.take k)).regs op

variable {s₀ : Arch} {es : List Entry} {p : Pipe (List Entry)} {v : View}

/-- Signals that are not about redirection do not matter. -/
private theorem Inv.of_core (h : Inv s₀ es p v) {c : Core} (hregfile : c.regfile = p.core.regfile)
    (hdd : c.ddUopQueue = p.core.ddUopQueue) (hde : c.deUopQueue = p.core.deUopQueue)
    (hew : c.ewUopQueue = p.core.ewUopQueue) (heflags : c.eflags = p.core.eflags)
    (hex : c.ex = p.core.ex) (hreset : c.nxt.reset = p.core.nxt.reset)
    (hclear : c.nxt.clear = p.core.nxt.clear) : Inv s₀ es { p with core := c } v where
  split := h.split
  results := h.results
  calm := ⟨h.calm.1, h.calm.2.1, hreset.trans h.calm.2.2.1, hclear.trans h.calm.2.2.2⟩
  normal := by rw [hex]; exact h.normal
  ripChanged := by rw [hex]; exact h.ripChanged
  expected := by rw [hex]; exact h.expected
  ddQueue := hdd.trans h.ddQueue
  deQueue := by rw [hde]; exact h.deQueue
  ewQueue := by rw [hew]; exact h.ewQueue
  ewLength := h.ewLength
  regfile := by rw [hregfile]; exact h.regfile
  recent := by rw [hex]; exact h.recent
  stack := by rw [hex]; exact h.stack
  eflags := heflags.trans h.eflags
  traceLength := h.traceLength
  traced := h.traced

/-! ## One process keeps the invariant -/

private theorem inv_decode (h : Inv s₀ es p v) (i : Input ℕ) :
    ∃ v', Inv s₀ es (act deliverEntries i .decode p) v' := by
  refine ⟨{ v with dd := v.dd ++ p.feed.take i.choice }, ?_⟩
  have hfeed : v.dd ++ p.feed = (v.dd ++ p.feed.take i.choice) ++ p.feed.drop i.choice := by
    rw [List.append_assoc, List.take_append_drop]
  exact
    { split := by rw [h.split, hfeed]; rfl
      results := h.results
      calm := h.calm
      normal := h.normal
      ripChanged := h.ripChanged
      expected := by
        have hexp := h.expected
        rw [hfeed] at hexp
        exact hexp
      ddQueue := by
        change p.core.ddUopQueue ++ (p.feed.take i.choice).map Entry.toUop = _
        rw [h.ddQueue, List.map_append]
      deQueue := h.deQueue
      ewQueue := h.ewQueue
      ewLength := h.ewLength
      regfile := h.regfile
      recent := h.recent
      stack := h.stack
      eflags := h.eflags
      traceLength := h.traceLength
      traced := h.traced }

/-- Uops of different instructions of a program that follow one another have different addresses. -/
private theorem address_ne {e e' : Entry} (hsize : 1 ≤ e.size ∧ e.size ≤ 15)
    (h : e'.address = e.toUop.nextAddr) : e'.address ≠ e.address := by
  have hnext : e.toUop.nextAddr = e.address + BitVec.ofNat 64 e.size := rfl
  rw [h, hnext]
  intro heq
  have htoNat := congrArg BitVec.toNat heq
  rw [BitVec.toNat_add, BitVec.toNat_ofNat] at htoNat
  have hlt := e.address.isLt
  omega

private theorem inv_dispatch (hsized : ∀ e ∈ es, 1 ≤ e.size ∧ e.size ≤ 15)
    (hchain : es.IsChain fun e e' ↦ e'.address = e.toUop.nextAddr) (h : Inv s₀ es p v)
    (i : Input ℕ) : ∃ v', Inv s₀ es (act deliverEntries i .dispatch p) v' := by
  change ∃ v', Inv s₀ es { p with core := Dispatch.work p.cur p.core } v'
  have houtcome := Dispatch.work_outcome p.cur p.core
  generalize Dispatch.work p.cur p.core = c at houtcome ⊢
  cases houtcome with
  | idle ready hclear => exact ⟨v, h.of_core rfl rfl rfl rfl rfl rfl rfl rfl⟩
  | cleared hclear =>
    rw [h.calm.2.1] at hclear
    exact absurd hclear Bool.false_ne_true
  | moved front rest k hclear hdd hde haddr =>
    have hdd' : v.dd.map Entry.toUop = front :: rest := by rw [← h.ddQueue, hdd]
    obtain ⟨e, dd, hv, rfl, rfl⟩ := List.map_eq_cons_iff.mp hdd'
    have hnone : v.de = [] := by
      rcases h.deQueue with ⟨hde', -⟩ | ⟨e', rf, q, -, hqueue, -⟩
      · exact hde'
      · rw [hde] at hqueue
        exact absurd hqueue (List.cons_ne_nil _ _).symm
    have hsplit : es = v.done ++ (e :: (dd ++ p.feed)) := by
      rw [h.split, hnone, hv]
      rfl
    -- the uop behind the front one belongs to the next instruction, so it stays
    have htake : (dd.map Entry.toUop).take k = [] := by
      cases dd with
      | nil => simp
      | cons e' dd =>
        cases k with
        | zero => rfl
        | succ k =>
          have haddr' : e'.address = e.address := haddr e'.toUop (by simp)
          have hnext : e'.address = e.toUop.nextAddr := by
            rw [hsplit, List.cons_append] at hchain
            exact (List.isChain_append_cons_cons.mp hchain).2.1
          exact absurd haddr' (address_ne (hsized e (by rw [hsplit]; simp)) hnext)
    have hdrop : (dd.map Entry.toUop).drop k = dd.map Entry.toUop := by
      have := List.take_append_drop k (dd.map Entry.toUop)
      rwa [htake, List.nil_append] at this
    have htakeRetired : (writes s₀ v.done).take v.retired.length = v.retired := by
      rw [h.results, List.take_left]
    refine ⟨{ v with de := [e], dd := dd }, ?_⟩
    exact
      { split := hsplit
        results := h.results
        calm := h.calm
        normal := h.normal
        ripChanged := h.ripChanged
        expected := by
          have hexp := h.expected
          rw [hnone, hv] at hexp
          exact hexp
        ddQueue := hdrop
        deQueue := by
          refine .inr ⟨e, p.core.regfile, v.retired.length, rfl, ?_, ?_, ?_⟩
          · rw [htake]
            rfl
          · rw [h.regfile, htakeRetired]
          · rw [h.results, List.length_append]
            exact Nat.add_le_add_left h.ewLength _
        ewQueue := h.ewQueue
        ewLength := h.ewLength
        regfile := h.regfile
        recent := h.recent
        stack := h.stack
        eflags := h.eflags
        traceLength := h.traceLength
        traced := h.traced }

private theorem inv_writeback (h : Inv s₀ es p v) (i : Input ℕ) :
    ∃ v', Inv s₀ es (act deliverEntries i .writeback p) v' := by
  change ∃ v', Inv s₀ es { p with core := Writeback.work p.cur p.core } v'
  rcases Writeback.work_eq p.cur p.core with hwork | ⟨op, rest, hew, hwork⟩
  · rw [hwork]
    exact ⟨v, h⟩
  · have hforall := h.ewQueue
    rw [hew] at hforall
    cases hinflight : v.inflight with
    | nil =>
      rw [hinflight] at hforall
      cases hforall
    | cons w ws =>
      rw [hinflight] at hforall
      obtain ⟨hop, hrest⟩ := List.forall₂_cons.mp hforall
      rw [hwork]
      refine ⟨{ v with retired := v.retired ++ [w], inflight := ws }, ?_⟩
      exact
        { split := h.split
          results := by
            rw [h.results, hinflight, List.append_assoc]
            rfl
          calm := h.calm
          normal := h.normal
          ripChanged := h.ripChanged
          expected := h.expected
          ddQueue := h.ddQueue
          deQueue := h.deQueue
          ewQueue := hrest
          ewLength := by
            have hlen := h.ewLength
            rw [hinflight, List.length_cons] at hlen
            exact (Nat.le_succ _).trans hlen
          regfile := by
            change (Writeback.retire p.core.regfile op).gpr = _
            rw [hop.retire_gpr, h.regfile, Writes.replay_concat]
          recent := h.recent
          stack := h.stack
          eflags := h.eflags
          traceLength := h.traceLength
          traced := h.traced }

/-- The front uop of a program is never taken for one from a wrong path. -/
private theorem unexpected_eq_false (h : Inv s₀ es p v) {front : Uop} {rest : List Uop}
    (hde : p.core.deUopQueue = front :: rest) : Execute.unexpected p.core.ex front = false := by
  rcases h.deQueue with ⟨-, hqueue⟩ | ⟨e, rf, q, hv, hqueue, -⟩
  · rw [hde] at hqueue
    exact absurd hqueue (List.cons_ne_nil _ _)
  · rw [hde] at hqueue
    obtain ⟨rfl, -⟩ := List.cons.inj hqueue
    rw [Execute.unexpected, Bool.and_eq_false_iff]
    rcases h.expected with hfirst | hexp
    · exact .inr (by rw [hfirst]; rfl)
    · left
      rw [hv, List.cons_append] at hexp
      have haddr : p.core.ex.expectedAddr =
          (Dispatch.readOperands rf e.toUop).address := by
        rw [hexp e rfl, Dispatch.readOperands_address]
        rfl
      rw [bne_eq_false_iff_eq, Execute.expected]
      split_ifs
      · rfl
      · exact haddr.symm

/-- The operands of the uop that is run are those of the sequential machine. -/
private theorem reads_forward (h : Inv s₀ es p v) {e : Entry} {rf : Arf} {q : ℕ}
    (hrf : rf.gpr = replay s₀.regs ((writes s₀ v.done).take q))
    (hq : (writes s₀ v.done).length ≤ q + 2) :
    e.insn.Reads (seq s₀ v.done).regs
      (Execute.forward p.core.ex p.core.offsetregValue (Dispatch.readOperands rf e.toUop)) := by
  have hstack := h.stack
  rw [regs_seq] at hstack ⊢
  have hgpr : ∀ g, Execute.forwardValue p.core.ex (.gpr g) (rf.gpr g) =
      replay s₀.regs (writes s₀ v.done) g := by
    intro g
    rw [hrf]
    exact forwardValue_eq h.recent hstack hq g
  have himm := forwardValue_scratchreg h.recent
  refine RegInsn.reads_of_forward rf
    (fun r w ↦ Execute.forwardValue p.core.ex r
      (if r = .loadStoreReg then p.core.offsetregValue else w))
    (fun r w ↦ Execute.forwardValue p.core.ex r w)
    (fun g ↦ ?_) (fun w ↦ ?_) hgpr himm e.uninit e.address e.size e.insn rfl rfl
  · rw [if_neg Reg.noConfusion]
    exact hgpr g
  · rw [if_neg Reg.noConfusion]
    exact himm w

/-- What a uop of a program leaves for its instruction, once its operands are right. -/
private theorem retires_alu {e : Entry} {op : Uop} {regs : Gpr → Word}
    (hreads : e.insn.Reads regs op) (clzZero : ℕ) (eflags : Eflags) :
    Retires (Execute.alu clzZero op eflags).1 (e.insn.dest, (e.insn.effect regs eflags).1) := by
  obtain ⟨hreg2, hvalue2, -⟩ := RegInsn.alu_of_reads clzZero hreads eflags
  have hplain := RegInsn.plain_of_reads hreads
  exact ⟨⟨by rw [Execute.alu_opcode]; exact hplain.opcode,
    by rw [Execute.alu_src]; exact hplain.src⟩, hreg2, hvalue2⟩

/-- The next instruction joins those that were executed. -/
private theorem seq_executed (s₀ : Arch) (done : List Entry) (e : Entry) :
    (seq s₀ (done ++ [e])).regs = Function.update (seq s₀ done).regs e.insn.dest
        (e.insn.effect (seq s₀ done).regs (seq s₀ done).eflags).1 ∧
      (seq s₀ (done ++ [e])).eflags =
        (e.insn.effect (seq s₀ done).regs (seq s₀ done).eflags).2 := by
  refine ⟨?_, ?_⟩
  · rw [regs_seq, writes_concat, Writes.replay_concat, ← regs_seq]
  · rw [seq_concat, Entry.toUop, RegInsn.step_push]

private theorem traced_concat (h : Inv s₀ es p v) {e : Entry} {op : Uop}
    (hreads : e.insn.Reads (seq s₀ v.done).regs op) (k : ℕ) (op' : Uop) (e' : Entry)
    (hop' : (p.trace ++ [op])[k]? = some op') (he' : (v.done ++ [e])[k]? = some e') :
    e'.insn.Reads (seq s₀ ((v.done ++ [e]).take k)).regs op' := by
  -- an entry from before, the new one, or none
  rcases Nat.lt_trichotomy k v.done.length with hk | rfl | hk
  · rw [List.getElem?_append_left (by rwa [h.traceLength])] at hop'
    rw [List.getElem?_append_left hk] at he'
    rw [List.take_append_of_le_length hk.le]
    exact h.traced k op' e' hop' he'
  · rw [List.getElem?_concat_length, Option.some.injEq] at he'
    rw [← h.traceLength, List.getElem?_concat_length, Option.some.injEq] at hop'
    rw [← he', ← hop', List.take_left]
    exact hreads
  · rw [List.getElem?_eq_none (by rw [List.length_append]; simpa using hk)] at he'
    cases he'

/-- **The uop of a program that is run keeps the invariant**, if its operands are right. -/
private theorem Inv.ran (hchain : es.IsChain fun e e' ↦ e'.address = e.toUop.nextAddr)
    (h : Inv s₀ es p v) {e : Entry} {front op r : Uop} {eflags : Eflags} (hv : v.de = [e])
    (hde : p.core.deUopQueue = [front]) (hew : p.core.ewUopQueue.length ≤ 1)
    (hreads : e.insn.Reads (seq s₀ v.done).regs op) (hnext : r.nextAddr = e.toUop.nextAddr)
    (hresult : Retires r (e.insn.dest, (e.insn.effect (seq s₀ v.done).regs p.core.eflags).1))
    (hflags : eflags = (e.insn.effect (seq s₀ v.done).regs p.core.eflags).2) :
    ∃ v', Inv s₀ es
      { p with
        core := Execute.finish r
          { Execute.select front (Execute.start p.core) with
            ex.firstrun := false, eflags := eflags }
        trace := p.trace ++ [op] } v' := by
  have hsplit : es = v.done ++ (e :: (v.dd ++ p.feed)) := by
    rw [h.split, hv]
    rfl
  have hwrites := writes_concat s₀ v.done e
  obtain ⟨hregs, heflags⟩ := seq_executed s₀ v.done e
  rw [h.eflags] at hresult hflags
  have hex := Execute.finish_ex r
    { Execute.select front (Execute.start p.core) with ex.firstrun := false, eflags := eflags }
    h.ripChanged (hresult.plain.forall (P := (· ≠ .nop)) (by decide))
    (hresult.plain.forall (P := (· ≠ .syscall)) (by decide)) hresult.reg2
  refine ⟨{ v with
    done := v.done ++ [e]
    de := []
    inflight := v.inflight ++
      [(e.insn.dest, (e.insn.effect (seq s₀ v.done).regs (seq s₀ v.done).eflags).1)] }, ?_⟩
  exact
    { split := by
        rw [hsplit, List.append_assoc]
        rfl
      results := by rw [hwrites, h.results, List.append_assoc]
      calm := by
        rw [Execute.finish_nxt]
        exact h.calm
      normal := by
        rw [hex]
        exact h.normal
      ripChanged := by
        rw [hex]
        exact h.ripChanged
      expected := by
        -- nothing redirects, so the address to come is the one behind this instruction
        right
        intro e' he'
        rw [hex]
        change r.nextAddr = e'.address
        rw [List.nil_append] at he'
        obtain ⟨es', hes'⟩ := List.head?_eq_some_iff.mp he'
        rw [hsplit, hes'] at hchain
        rw [hnext, (List.isChain_append_cons_cons.mp hchain).2.1]
      ddQueue := by
        rw [Execute.finish_ddUopQueue]
        exact h.ddQueue
      deQueue := by
        refine .inl ⟨rfl, ?_⟩
        rw [Execute.finish_deUopQueue]
        exact Execute.select_tail hde
      ewQueue := by
        rw [Execute.finish_ewUopQueue]
        exact List.rel_append h.ewQueue (.cons hresult .nil)
      ewLength := by
        rw [List.length_append, ← h.ewQueue.length_eq, List.length_singleton]
        exact Nat.succ_le_succ hew
      regfile := by
        rw [Execute.finish_regfile]
        exact h.regfile
      recent := by
        -- the result is the latest one now, and the latest one before is the second
        rw [hex, hwrites]
        refine ⟨?_, ?_⟩
        · rw [List.getLast?_concat]
          exact ⟨rfl, hresult.value2⟩
        · rw [List.dropLast_concat]
          exact h.recent.last
      stack := by
        rw [hex, hregs]
        intro hne
        change (if e.insn.dest = .rsp then r.value2 else p.core.ex.stackpointer) ≠ 0 at hne
        change (if e.insn.dest = .rsp then r.value2 else p.core.ex.stackpointer) = _
        split_ifs at hne ⊢ with hrsp
        · rw [hrsp, Function.update_self]
          exact hresult.value2
        · rw [Function.update_of_ne (Ne.symm hrsp)]
          exact h.stack hne
      eflags := by
        rw [Execute.finish_eflags, heflags]
        exact hflags
      traceLength := by
        rw [List.length_append, List.length_append, h.traceLength]
        rfl
      traced := traced_concat h hreads }

private theorem inv_execute (hchain : es.IsChain fun e e' ↦ e'.address = e.toUop.nextAddr)
    (h : Inv s₀ es p v) (i : Input ℕ) :
    ∃ v', Inv s₀ es (act deliverEntries i .execute p) v' := by
  change ∃ v', Inv s₀ es
    { p with
      core := Execute.work i.cycle p.cur p.core
      trace := p.trace ++ (Execute.issued p.cur p.core).toList } v'
  have houtcome := Execute.work_outcome i.cycle p.cur p.core
  generalize Execute.work i.cycle p.cur p.core = c at houtcome ⊢
  generalize Execute.issued p.cur p.core = issued at houtcome ⊢
  have hread : p.core.ex.state ≠ .read := by
    rw [h.normal]
    exact ExecState.noConfusion
  cases houtcome with
  | idle ready hclear =>
    rw [Option.toList_none, List.append_nil]
    exact ⟨v, h.of_core rfl rfl rfl rfl rfl rfl rfl rfl⟩
  | cleared ready hclear =>
    rw [h.calm.2.1] at hclear
    exact absurd hclear Bool.false_ne_true
  | ret hclear hstate => exact absurd hstate hread
  | pop hclear hstate => exact absurd hstate hread
  | load hclear hstate => exact absurd hstate hread
  | dropped front rest hclear hwait hde hunexp =>
    rw [unexpected_eq_false h hde] at hunexp
    exact absurd hunexp Bool.false_ne_true
  | ran front rest hclear hwait hew hde hexp =>
    rcases h.deQueue with ⟨-, hqueue⟩ | ⟨e, rf, q, hv, hqueue, hrf, hq⟩
    · rw [hde] at hqueue
      exact absurd hqueue (List.cons_ne_nil _ _)
    rw [hde] at hqueue
    obtain ⟨rfl, rfl⟩ := List.cons.inj hqueue
    have hreads := reads_forward (e := e) h hrf hq
    generalize hop : Execute.forward p.core.ex p.core.offsetregValue
      (Dispatch.readOperands rf e.toUop) = op at hreads ⊢
    have hnext : (Execute.alu i.cycle.clzZero op p.core.eflags).1.nextAddr = e.toUop.nextAddr := by
      rw [Execute.alu_nextAddr, ← hop]
      simp only [Uop.nextAddr, Execute.forward, Dispatch.readOperands_address,
        Dispatch.readOperands_opsize]
    have hresult := retires_alu hreads i.cycle.clzZero p.core.eflags
    obtain ⟨-, -, hflags⟩ := RegInsn.alu_of_reads i.cycle.clzZero hreads p.core.eflags
    rw [runOp_of_plain i.cycle (RegInsn.plain_of_reads hreads)]
    exact h.ran hchain hv hde hew hreads hnext hresult hflags

private theorem inv_commit (h : Inv s₀ es p v) (i : Input ℕ) : Inv s₀ es (commit i p) v where
  split := h.split
  results := h.results
  calm := ⟨h.calm.2.2.1, h.calm.2.2.2, h.calm.2.2.1, h.calm.2.2.2⟩
  normal := h.normal
  ripChanged := h.ripChanged
  expected := h.expected
  ddQueue := h.ddQueue
  deQueue := h.deQueue
  ewQueue := h.ewQueue
  ewLength := h.ewLength
  regfile := h.regfile
  recent := h.recent
  stack := h.stack
  eflags := h.eflags
  traceLength := h.traceLength
  traced := h.traced

/-! ## Runs -/

/-- The pipeline after reset, about to run a program from this state of the machine. -/
def bootProgram (s₀ : Arch) (expectedAddr : Word) (op : Uop) (es : List Entry) :
    Pipe (List Entry) :=
  Pipe.start (Core.boot s₀.regs s₀.eflags s₀.mem (Execute.init expectedAddr op)) es

private theorem inv_boot (s₀ : Arch) (expectedAddr : Word) (op : Uop) (es : List Entry) :
    Inv s₀ es (bootProgram s₀ expectedAddr op es) ⟨[], [], [], [], []⟩ where
  split := rfl
  results := rfl
  calm := ⟨rfl, rfl, rfl, rfl⟩
  normal := rfl
  ripChanged := rfl
  expected := .inl rfl
  ddQueue := rfl
  deQueue := .inl ⟨rfl, rfl⟩
  ewQueue := .nil
  ewLength := Nat.zero_le 2
  regfile := rfl
  recent := ⟨rfl, rfl⟩
  stack := fun h ↦ absurd rfl h
  eflags := rfl
  traceLength := rfl
  traced := fun k op e h ↦ by cases h

/-- The invariant holds throughout every run. -/
theorem inv_run (prog : RegProgram) (s₀ : Arch) (expectedAddr : Word) (op : Uop) (cs : Cycles ℕ) :
    ∃ v, Inv s₀ prog.entries
      (run deliverEntries cs (bootProgram s₀ expectedAddr op prog.entries)) v := by
  refine Schedule.run_invariant (I := fun p ↦ ∃ v, Inv s₀ prog.entries p v) ?_ ?_
    ⟨_, inv_boot s₀ expectedAddr op prog.entries⟩ cs
  · rintro i (_ | _ | _ | _) p ⟨v, h⟩
    · exact inv_decode h i
    · exact inv_dispatch prog.sized prog.chain h i
    · exact inv_execute prog.chain h i
    · exact inv_writeback h i
  · rintro i p ⟨v, h⟩
    exact ⟨v, inv_commit h i⟩

/-- Nothing is left to deliver, and the queues are empty. -/
def Drained (p : Pipe (List Entry)) : Prop :=
  p.feed = [] ∧ p.core.ddUopQueue = [] ∧ p.core.deUopQueue = [] ∧ p.core.ewUopQueue = []

instance : DecidablePred Drained := fun p ↦
  inferInstanceAs (Decidable (p.feed = [] ∧ p.core.ddUopQueue = [] ∧ _))

/-- **Register programs run as on a sequential machine.** Under every schedule, the `k`-th uop
executed is that of the `k`-th instruction and reads the values the first `k` instructions gave its
operands, and when the pipeline has drained the register file is the sequential machine's. -/
theorem regProgram_refines (prog : RegProgram) (s₀ : Arch) (expectedAddr : Word) (op : Uop)
    (cs : Cycles ℕ) :
    let p := run deliverEntries cs (bootProgram s₀ expectedAddr op prog.entries)
    (∀ k op, p.trace[k]? = some op → ∃ e : Entry, prog.entries[k]? = some e ∧
      e.insn.Reads (seq s₀ (prog.entries.take k)).regs op) ∧
    (Drained p → p.trace.length = prog.entries.length ∧
      p.core.regfile.gpr = (seq s₀ prog.entries).regs) := by
  intro p
  obtain ⟨v, h⟩ := inv_run prog s₀ expectedAddr op cs
  refine ⟨fun k op hop ↦ ?_, fun ⟨hfeed, hdd, hde, hew⟩ ↦ ?_⟩
  · have hk : k < v.done.length := by
      rw [← h.traceLength]
      exact (List.getElem?_eq_some_iff.mp hop).1
    refine ⟨v.done[k], ?_, ?_⟩
    · rw [h.split, List.getElem?_append_left hk, List.getElem?_eq_getElem hk]
    · rw [h.split, List.take_append_of_le_length hk.le]
      exact h.traced k op v.done[k] hop (List.getElem?_eq_getElem hk)
  · have hdone : prog.entries = v.done := by
      have hdd' : v.dd = [] := List.map_eq_nil_iff.mp (h.ddQueue.symm.trans hdd)
      have hde' : v.de = [] := by
        rcases h.deQueue with ⟨hv, -⟩ | ⟨e, rf, q, -, hqueue, -⟩
        · exact hv
        · exact absurd (hde.symm.trans hqueue) (List.cons_ne_nil _ _).symm
      have hsplit := h.split
      rw [hdd', hde', show (run deliverEntries cs _).feed = [] from hfeed] at hsplit
      simpa using hsplit
    have hinflight : v.inflight = [] := by
      have hforall := h.ewQueue
      rw [show (run deliverEntries cs _).core.ewUopQueue = [] from hew] at hforall
      exact List.forall₂_nil_left_iff.mp hforall
    refine ⟨by rw [hdone]; exact h.traceLength, ?_⟩
    rw [hdone, regs_seq, h.results, hinflight, List.append_nil]
    exact h.regfile

theorem mov_mem_immOpcodes : Mnemonic.mov ∈ immOpcodes := by decide

theorem add_mem_regOpcodes : Mnemonic.add ∈ regOpcodes := by decide

theorem inc_mem_unaryOpcodes : Mnemonic.inc ∈ unaryOpcodes := by decide

/-- Each instruction reads what the one before it writes. -/
def threeInsns : RegProgram where
  entries := [⟨.regImm ⟨.mov, mov_mem_immOpcodes⟩ 5 .rax, 0x100, 7, ⟨0, 0, 0⟩⟩,
    ⟨.regReg ⟨.add, add_mem_regOpcodes⟩ .rax .rsp, 0x107, 3, ⟨0, 0, 0⟩⟩,
    ⟨.unary ⟨.inc, inc_mem_unaryOpcodes⟩ .rsp, 0x10a, 3, ⟨0, 0, 0⟩⟩]
  sized := by decide
  chain := by decide

/-- Twelve cycles, with up to two instructions delivered in each and the stages in order. -/
def twelveCycles : Cycles ℕ :=
  List.replicate 12 ⟨⟨2, true, false, 0, 0, CycleInput.zero⟩, stages, .refl _⟩

theorem regProgram_refines_threeInsns :
    let p := run deliverEntries twelveCycles
      (bootProgram ⟨fun _ ↦ 0, 0, 0, ⟨0⟩, fun _ ↦ 0⟩ 0 Uop.zero threeInsns.entries)
    p.trace.length = 3 ∧
      p.core.regfile.gpr = (seq ⟨fun _ ↦ 0, 0, 0, ⟨0⟩, fun _ ↦ 0⟩ threeInsns.entries).regs := by
  have hdrained : Drained (run deliverEntries twelveCycles
      (bootProgram ⟨fun _ ↦ 0, 0, 0, ⟨0⟩, fun _ ↦ 0⟩ 0 Uop.zero threeInsns.entries)) := by
    decide +kernel
  exact (regProgram_refines threeInsns ⟨fun _ ↦ 0, 0, 0, ⟨0⟩, fun _ ↦ 0⟩ 0 Uop.zero
    twelveCycles).2 hdrained

end Cse502.Pipeline
