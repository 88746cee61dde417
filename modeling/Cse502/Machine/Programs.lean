import Cse502.Machine.Supply

/-!
# The machine runs the programs in its memory

From the reset on, for a program of register instructions and jumps whose bytes are in the guest
memory, the machine does what the sequential machine does. The decoder's deliveries are those of the
program, whatever `Memory` answers when, in whatever order the processes run, and wherever the
fetching goes on behind the program.

## The invariant

Between two cycles the machine is a run of the pipeline on the program's deliveries (`Sim`), and the
feed of that run is where the decoder stands (`Running`). Two things the decoder is not told of can
go wrong at the first byte of a target: its stripping destroys a byte whose high digit is zero, so
the entry point and the targets must start with another one (`Enterable`).
-/

namespace Cse502.Machine

open Decoder (DecodeState)
open Frontend (hi Entering)
open Pipeline (BranchProgram Delivery Pipe Point stages)

variable {u : Decoder.Udis} {mem : Mem} {prog : BranchProgram} {s₀ : Point} {m : Machine}
  {p : Pipe Word}

/-- The state `Decoder::work` starts from. `RIP_jump` is shared with `Fetch`. -/
def decodeState (d : DecodeState) (c : Core) : DecodeState := { d with ripJump := c.ripJump }

/-- What holds between two cycles of a machine that runs a program. -/
structure Running (mem : Mem) (prog : BranchProgram) (m : Machine) (p : Pipe Word) : Prop where
  sim : Sim m p
  coherent : Coherent m
  served : Served mem m
  stands : ∃ next, Supplied mem m next ∧
    (prog.insn p.feed ≠ none → Standing mem (decodeState m.decoder m.core) next p.feed)
  scratchQ : m.decoder.scratchQ = []
  fresh : m.decoder.firstRun = true →
    p.core.ddUopQueue = [] ∧ p.core.deUopQueue = [] ∧ p.trace = []
  raised : m.decoder.firstRun = false → m.cur.ddOutReady = true

/-! ## What is delivered in a cycle -/

/-- What the decoder does in a cycle is a delivery of the program. Only at the first block of a
target it may deliver nothing. -/
structure Delivers (u : Decoder.Udis) (mem : Mem) (prog : BranchProgram) (i : MachineInput)
    (m : Machine) (p : Pipe Word) (ds : List Delivery) : Prop where
  pushed : (prog.deliver ds p.cur p.feed).1 = pushed u i m
  scratchQ : (decodeWork u i m).1.scratchQ = []
  fresh : (decodeWork u i m).1.firstRun = true →
    m.decoder.firstRun = true ∧ Machine.pushed u i m = []
  stands : m.cur.clear = false → prog.insn (prog.deliver ds p.cur p.feed).2 ≠ none →
    Standing mem (decodeState (decodeWork u i m).1 (decodeWork u i m).2) m.fetch.rip
      (prog.deliver ds p.cur p.feed).2
  clearing : m.cur.clear = true → ds ≠ []
  decoding : decodes m.cur = true → (decodeWork u i m).1.firstRun = false ∧
    (decodeWork u i m).2.ripJump = false ∧
      (m.decoder.firstRun = false → m.core.ripJump = false → ds ≠ [])
  idle : m.cur.clear = false → decodes m.cur = false → ds = []

theorem Sim.clear (h : Sim m p) : p.cur.clear = m.cur.clear := (congrArg Signals.clear h.cur).symm

theorem Sim.eflags (h : Sim m p) : m.core.eflags = p.core.eflags := by
  rw [h.core]
  rfl

theorem Sim.ewUopQueue (h : Sim m p) : m.core.ewUopQueue = p.core.ewUopQueue := by
  rw [h.core]
  rfl

theorem Sim.regfile (h : Sim m p) : m.core.regfile = p.core.regfile := by
  rw [h.core]
  rfl

theorem Sim.newRIP (h : Sim m p) : p.cur.newRIP = m.cur.newRIP :=
  (congrArg Signals.newRIP h.cur).symm

/-- The decoder has nothing to do. -/
theorem decodeWork_of_idle (i : MachineInput) (h : decodes m.cur = false) :
    decodeWork u i m = (m.decoder, m.core) ∧ pushed u i m = [] := by
  cases hreset : m.cur.reset <;> cases hready : m.cur.fdOutReady <;>
    cases hclear : m.cur.clear <;>
      simp_all [decodes, pushed, decodeWork, Decoder.work]

/-- The decoder decodes a block. -/
private theorem decodeWork_of_decodes (i : MachineInput) (h : decodes m.cur = true) :
    let r := Decoder.decodeOpcodes u m.cur.fdOutData m.cur.fdOutAddr m.cur.fdOutAlign.toNat
      (decodeState m.decoder m.core)
    (decodeWork u i m).1 = r.1 ∧ (decodeWork u i m).2.ripJump = r.1.ripJump ∧
      pushed u i m =
        (Decoder.crackOpcodes i.uninit ⟨r.2.sizeBytes, r.2.addrQ, []⟩ r.2.opcodes).pushed := by
  rw [decodes, Bool.and_eq_true, Bool.and_eq_true, Bool.not_eq_true', Bool.not_eq_true'] at h
  obtain ⟨⟨hreset, hready⟩, hclear⟩ := h
  simp [pushed, decodeWork, Decoder.work, decodeState, hreset, hready, hclear]

theorem Running.exists_delivers (h : Running mem prog m p) (hload : Loaded u mem prog)
    (i : MachineInput) : ∃ ds, Delivers u mem prog i m p ds := by
  obtain ⟨next, hsupplied, hstands⟩ := h.stands
  have hsim := h.sim.clear
  cases hdecodes : decodes m.cur with
  | false =>
    obtain ⟨hwork, hpushed⟩ := decodeWork_of_idle (u := u) i hdecodes
    refine ⟨if m.cur.clear then [⟨⟨0, 0, 0⟩, [], 0⟩] else [], ?_, by rw [hwork]; exact h.scratchQ,
      fun hfirst ↦ ?_, fun hclear hinsn ↦ ?_, fun hclear ↦ by simp [hclear],
      fun hdecodes' ↦ absurd (hdecodes'.symm.trans hdecodes) Bool.noConfusion,
      fun hclear _ ↦ by simp [hclear]⟩
    · rw [hpushed, BranchProgram.deliver, hsim]
      split_ifs <;> rfl
    · rw [hwork] at hfirst
      exact ⟨hfirst, hpushed⟩
    · rw [hclear, if_neg Bool.false_ne_true] at hinsn ⊢
      have hfeed : (prog.deliver [] p.cur p.feed).2 = p.feed := by
        rw [BranchProgram.deliver, if_neg (by rw [hsim, hclear]; exact Bool.false_ne_true)]
        rfl
      have hready : m.cur.fdOutReady = false := by
        rw [decodes, h.coherent.reset, hclear] at hdecodes
        simpa using hdecodes
      have hrip := hsupplied.rip
      rw [hready, if_neg Bool.false_ne_true] at hrip
      rw [hfeed] at hinsn ⊢
      rw [hwork, hrip]
      exact hstands hinsn
  | true =>
    obtain ⟨hstate, hrip, hpushed⟩ := decodeWork_of_decodes (u := u) i hdecodes
    have hsome := hdecodes
    rw [decodes, Bool.and_eq_true, Bool.and_eq_true, Bool.not_eq_true', Bool.not_eq_true']
      at hdecodes
    obtain ⟨⟨-, hready⟩, hclear⟩ := hdecodes
    have hblock := decodes_block hload i.uninit hstands (hsupplied.handed hready)
    obtain ⟨⟨ds, feed, hfall, hstands', hpushes⟩, hscratch, hfirst, hjump⟩ := hblock
    have hdeliver : prog.deliver ds p.cur p.feed = prog.fallThrough ds p.feed :=
      if_neg (by rw [hsim, hclear]; exact Bool.false_ne_true)
    have hnext := hsupplied.rip
    rw [hready, if_pos rfl] at hnext
    refine ⟨ds, ?_, by rw [hstate]; exact hscratch, fun hfirst' ↦ ?_, fun _ hinsn ↦ ?_,
      fun hclear' ↦ absurd (hclear.symm.trans hclear') Bool.noConfusion,
      fun _ ↦ ⟨by rw [hstate]; exact hfirst, by rw [hrip]; exact hjump, hpushes⟩,
      fun _ hnone ↦ absurd (hsome.symm.trans hnone) Bool.noConfusion⟩
    · rw [hdeliver, hfall, hpushed]
    · rw [hstate, hfirst] at hfirst'
      cases hfirst'
    · rw [hdeliver, hfall] at hinsn ⊢
      rw [decodeState, hrip, hstate, hnext]
      exact hstands' hinsn

/-! ## Before the first block -/

/-- As long as nothing is delivered nothing is executed. -/
private theorem cycle_of_empty (c : Schedule.Cycle (Pipeline.Input (List Delivery)) stages)
    (hdd : p.core.ddUopQueue = []) (hde : p.core.deUopQueue = [])
    (hpushed : (prog.deliver c.input.choice p.cur p.feed).1 = []) :
    let p' := Schedule.cycle (Pipeline.act prog.deliver) Pipeline.commit c p
    p'.core.ddUopQueue = [] ∧ p'.core.deUopQueue = [] ∧ p'.trace = p.trace := by
  have hnodup : c.order.Nodup := c.perm.nodup_iff.mpr (by decide)
  let Q : List Pipeline.Stage → Pipe Word → Prop := fun done p' ↦ p'.cur = p.cur ∧
    (.decode ∉ done → p'.feed = p.feed) ∧ p'.core.ddUopQueue = [] ∧ p'.core.deUopQueue = [] ∧
      p'.trace = p.trace
  have hwithin : Q c.order (Schedule.runOrder (Pipeline.act prog.deliver) c.input c.order p) := by
    refine Schedule.runOrder_induction hnodup ⟨rfl, fun _ ↦ rfl, hdd, hde, rfl⟩
      fun done st p' _ hdone ⟨hcur, hfeed, hdd', hde', htrace⟩ ↦ ?_
    cases st with
    | decode =>
      refine ⟨hcur, fun hnot ↦ absurd (by simp) hnot, ?_, hde', htrace⟩
      change p'.core.ddUopQueue ++ (prog.deliver c.input.choice p'.cur p'.feed).1 = []
      rw [hcur, hfeed hdone, hpushed, hdd']
      rfl
    | dispatch =>
      refine ⟨hcur, fun hnot ↦ hfeed fun hmem ↦ hnot (List.mem_append_left _ hmem), ?_⟩
      change (Dispatch.work p'.cur p'.core).ddUopQueue = [] ∧
        (Dispatch.work p'.cur p'.core).deUopQueue = [] ∧ _
      have houtcome := Dispatch.work_outcome p'.cur p'.core
      generalize Dispatch.work p'.cur p'.core = c' at houtcome ⊢
      cases houtcome with
      | idle => exact ⟨hdd', hde', htrace⟩
      | cleared => exact ⟨rfl, hde', htrace⟩
      | moved front rest k _ hcons => exact absurd (hcons.symm.trans hdd') (by simp)
    | execute =>
      refine ⟨hcur, fun hnot ↦ hfeed fun hmem ↦ hnot (List.mem_append_left _ hmem),
        (Pipeline.execute_dd c.input.cycle p'.cur p'.core).2.trans hdd', ?_⟩
      change (Execute.work c.input.cycle p'.cur p'.core).deUopQueue = [] ∧
        p'.trace ++ (Execute.issued p'.cur p'.core).toList = p.trace
      have houtcome := Execute.work_outcome c.input.cycle p'.cur p'.core
      generalize Execute.work c.input.cycle p'.cur p'.core = c' at houtcome ⊢
      generalize Execute.issued p'.cur p'.core = ran at houtcome ⊢
      cases houtcome with
      | idle => exact ⟨hde', (List.append_nil _).trans htrace⟩
      | ret | pop | load =>
        exact ⟨congrArg List.tail hde', (List.append_nil _).trans htrace⟩
      | cleared => exact ⟨rfl, (List.append_nil _).trans htrace⟩
      | dropped front rest _ _ hcons => exact absurd (hcons.symm.trans hde') (by simp)
      | ran front rest _ _ _ hcons => exact absurd (hcons.symm.trans hde') (by simp)
    | writeback =>
      refine ⟨hcur, fun hnot ↦ hfeed fun hmem ↦ hnot (List.mem_append_left _ hmem), ?_⟩
      change (Writeback.work p'.cur p'.core).ddUopQueue = [] ∧
        (Writeback.work p'.cur p'.core).deUopQueue = [] ∧ _
      rcases Writeback.work_eq p'.cur p'.core with hwork | ⟨op, rest, -, hwork⟩ <;> rw [hwork]
      · exact ⟨hdd', hde', htrace⟩
      · exact ⟨hdd', hde', htrace⟩
  exact hwithin.2.2

/-! ## Cycles -/

/-- The first bytes of the entry point and of the targets of these jumps have two digits. -/
def Enterable (mem : Mem) (prog : BranchProgram) (s₀ : Point) (n : ℕ) : Prop :=
  hi (mem s₀.pc) ≠ 0 ∧ ∀ k < n, prog.targetAt (prog.after s₀ k) ≠ none →
    hi (mem (prog.after s₀ (k + 1)).pc) ≠ 0

instance (mem : Mem) (prog : BranchProgram) (s₀ : Point) (n : ℕ) :
    Decidable (Enterable mem prog s₀ n) :=
  inferInstanceAs (Decidable (_ ∧ ∀ k < n, _ → _))

theorem Enterable.mono {n n' : ℕ} (h : Enterable mem prog s₀ n) (hle : n' ≤ n) :
    Enterable mem prog s₀ n' := ⟨h.1, fun k hk ↦ h.2 k (hk.trans_le hle)⟩

private theorem calm_of_opcode {op : Uop} (h : op.opcode ∉
    [.syscall, .ret, .pop, .load, .call, .push, .store, .pushfq]) : Calm op := by
  refine ⟨fun hop ↦ h (by simp [hop]), fun e ↦ ?_⟩
  rw [Memory.access]
  split
  all_goals first | rfl | (next hop => exact absurd (by simp [hop]) h)

/-- The instructions of a program leave the memory alone. -/
theorem calm_of_executes {s : Point} {op : Uop} (h : prog.Executes s op) : Calm op := by
  obtain ⟨insn, -, -, hreads⟩ := h
  refine calm_of_opcode ?_
  cases insn with
  | plain insn =>
    exact (Pipeline.RegInsn.plain_of_reads hreads).forall
      (P := (· ∉ [.syscall, .ret, .pop, .load, .call, .push, .store, .pushfq])) (by decide)
  | jump opcode offset =>
    rw [hreads.1]
    exact (by decide : ∀ o ∈ Pipeline.jumpOpcodes,
      o ∉ [.syscall, .ret, .pop, .load, .call, .push, .store, .pushfq]) _ opcode.2
  | jumpReg r =>
    rw [hreads.1]
    decide

/-- The decoder has decoded before a jump is taken. -/
private theorem firstRun_of_landed (h : Running mem prog m p)
    (hlanded : prog.Landed s₀ p.trace.length) : m.decoder.firstRun = false := by
  by_contra hne
  obtain ⟨k, hk, -⟩ := hlanded
  rw [(h.fresh (eq_true_of_ne_false hne)).2.2] at hk
  cases hk

/-- Where the decoder stands when a jump is taken. -/
private theorem standing_of_landed (h : Running mem prog m p) {a : Word}
    (hlanded : prog.Landed s₀ p.trace.length) (hfirst : hi (mem a) ≠ 0) :
    Standing mem { m.decoder with ripJump := true } a a := by
  have hstate : { m.decoder with ripJump := true } =
      ((Entering.jump m.decoder.remString).start m.decoder.lastGoodAddr).state := by
    change (⟨m.decoder.firstRun, true, _, _, m.decoder.scratchQ⟩ : DecodeState) = _
    rw [firstRun_of_landed h hlanded, h.scratchQ]
    rfl
  exact .entering _ _ hstate rfl hfirst

/-- Where `clear` is seen, the new address is that of the point the run has landed at. -/
theorem landed_of_clear (hinv : prog.Inv s₀ [] p)
    (hinside : prog.Inside s₀ p.trace.length) (hclear : p.cur.clear = true) :
    prog.Landed s₀ p.trace.length ∧ p.cur.newRIP = (prog.after s₀ p.trace.length).pc := by
  obtain ⟨n, r, hvalues, hcontrol⟩ := hinv hinside
  rw [hvalues.length]
  cases hcontrol with
  | flowing cur => exact absurd (hclear.symm.trans cur) Bool.noConfusion
  | leaving ran cur => exact absurd (hclear.symm.trans cur) Bool.noConfusion
  | clearing cur newRIP expected landed => exact ⟨landed, newRIP⟩

/-- What has died is not alive again. -/
theorem alive_of_cycle (c : Schedule.Cycle MachineInput processes)
    (h : (Schedule.cycle (act u) commit c m).core.aborted = false) : m.core.aborted = false := by
  by_contra hne
  have hdead : (Schedule.runOrder (act u) c.input c.order m).core.aborted = true :=
    Schedule.runOrder_invariant (I := fun m : Machine ↦ m.core.aborted = true)
      (fun st m hm ↦ (congrArg (·.core.aborted) (act_of_aborted c.input st hm)).trans hm) c.order
      (eq_true_of_ne_false hne)
  exact absurd (hdead.symm.trans h) Bool.noConfusion

/-- Nothing is taken from the trace in a cycle. -/
theorem trace_grows_cycle (c : Schedule.Cycle MachineInput processes) (m : Machine) :
    m.trace <+: (Schedule.cycle (act u) commit c m).trace :=
  Schedule.runOrder_invariant (I := fun m' : Machine ↦ m.trace <+: m'.trace)
    (fun st m' hm ↦ hm.trans (trace_grows c.input st m')) c.order List.prefix_rfl

/-- What a cycle of the machine comes to: a cycle of the pipeline on a delivery of the program. -/
structure Follows (u : Decoder.Udis) (mem : Mem) (prog : BranchProgram)
    (c : Schedule.Cycle MachineInput processes) (m : Machine) (p : Pipe Word)
    (c' : Schedule.Cycle (Pipeline.Input (List Delivery)) stages) : Prop where
  delivers : Delivers u mem prog c.input m p c'.input.choice
  front : FrontCycle u c.input m (Schedule.cycle (act u) commit c m)
  ready : p.core.ddUopQueue ≠ [] ∨ c'.input.choice ≠ [] → c'.input.ddReady = true
  running : Running mem prog (Schedule.cycle (act u) commit c m)
    (Schedule.cycle (Pipeline.act prog.deliver) Pipeline.commit c' p)

/-- Once something is delivered, the decoder has raised its signal. -/
private theorem ready_of_delivers (h : Running mem prog m p) (hc : Coherent m) {i : MachineInput}
    {ds : List Delivery} (hdelivers : Delivers u mem prog i m p ds)
    (hclear : m.cur.clear = true → m.decoder.firstRun = false)
    (hsome : p.core.ddUopQueue ≠ [] ∨ ds ≠ []) :
    (m.core.nxt.ddOutReady || decodes m.cur) = true := by
  cases hdecodes : decodes m.cur with
  | true => exact Bool.or_true _
  | false =>
    have hfirst : m.decoder.firstRun = false := by
      cases hcur : m.cur.clear with
      | true => exact hclear hcur
      | false =>
        have hdd := hsome.resolve_right (not_not.mpr (hdelivers.idle hcur hdecodes))
        by_contra hne
        exact hdd (h.fresh (eq_true_of_ne_false hne)).1
    rw [Bool.or_false, ← hc.settled]
    exact h.raised hfirst

/-- **A cycle of the machine.** As long as the sequential machine is inside the program, it is a
cycle of the pipeline on a delivery of the program. -/
theorem Running.cycle (h : Running mem prog m p) (hload : Loaded u mem prog)
    (hinv : prog.Inv s₀ [] p) (c : Schedule.Cycle MachineInput processes)
    (halive : (Schedule.cycle (act u) commit c m).core.aborted = false)
    (hinside : prog.Inside s₀ (Schedule.cycle (act u) commit c m).trace.length)
    (henter : Enterable mem prog s₀ (Schedule.cycle (act u) commit c m).trace.length) :
    ∃ c', Follows u mem prog c m p c' := by
  obtain ⟨ds, hdelivers⟩ := h.exists_delivers hload c.input
  obtain ⟨c', rfl, hready, hsim, hcoherent, hfeed, hnext⟩ :=
    sim_cycle c h.coherent h.sim ds hdelivers.pushed halive
  have hle : p.trace.length ≤ (Schedule.cycle (act u) commit c m).trace.length := by
    rw [← h.sim.trace]
    exact (trace_grows_cycle c m).length_le
  have hcalm : ∀ op ∈ (Schedule.cycle (act u) commit c m).trace, Calm op := by
    rw [hsim.trace] at hinside ⊢
    obtain ⟨n, r, hvalues, -⟩ := BranchProgram.inv_cycle c' hinv hinside
    intro op hop
    obtain ⟨k, hk⟩ := List.mem_iff_getElem?.mp hop
    exact calm_of_executes (hvalues.traced k op hk)
  have hfront := frontCycle c h.coherent h.served.idle (alive_of_cycle c halive) halive hcalm
  have hlanded : m.cur.clear = true → prog.Landed s₀ p.trace.length ∧
      p.cur.newRIP = (prog.after s₀ p.trace.length).pc := fun hclear ↦
    landed_of_clear hinv (hinside.mono hle) (h.sim.clear.trans hclear)
  have hfirst : m.cur.clear = true → m.decoder.firstRun = false := fun hclear ↦
    firstRun_of_landed h (hlanded hclear).1
  obtain ⟨next, hsupplied, -⟩ := h.stands
  refine ⟨c', hdelivers, hfront, fun hsome ↦ ?_, hsim, hcoherent,
    h.served.cycle h.coherent hfront,
    ⟨_, hsupplied.cycle h.coherent h.served hfront, fun hinsn ↦ ?_⟩, ?_, fun hfirst' ↦ ?_,
    fun hfirst' ↦ ?_⟩
  · rw [hready]
    exact ready_of_delivers h h.coherent hdelivers hfirst hsome
  · rw [hfeed] at hinsn ⊢
    rw [decodeState, hfront.decoder, hfront.ripJump]
    cases hclear : m.cur.clear with
    | false => exact hdelivers.stands hclear hinsn
    | true =>
      obtain ⟨hlanded, hnewRIP⟩ := hlanded hclear
      have htarget : (prog.deliver c'.input.choice p.cur p.feed).2 = m.cur.newRIP := by
        rw [BranchProgram.deliver, if_pos (h.sim.clear.trans hclear)]
        exact h.sim.newRIP
      have hidle : decodes m.cur = false := by rw [decodes, hclear, Bool.not_true, Bool.and_false]
      rw [htarget, (decodeWork_of_idle c.input hidle).1]
      refine standing_of_landed h hlanded ?_
      obtain ⟨k, hk, htaken⟩ := hlanded
      have hentry := henter.2 k (by omega) htaken
      rwa [← hk, ← hnewRIP, h.sim.newRIP] at hentry
  · rw [hfront.decoder]
    exact hdelivers.scratchQ
  · rw [hfront.decoder] at hfirst'
    obtain ⟨hbefore, hpushed⟩ := hdelivers.fresh hfirst'
    obtain ⟨hdd, hde, htrace⟩ := h.fresh hbefore
    have hempty := cycle_of_empty c' hdd hde (by rw [hdelivers.pushed, hpushed])
    exact ⟨hempty.1, hempty.2.1, hempty.2.2.trans htrace⟩
  · rw [hnext, hready]
    cases hdecodes : decodes m.cur with
    | true => exact Bool.or_true _
    | false =>
      rw [hfront.decoder, (decodeWork_of_idle c.input hdecodes).1] at hfirst'
      rw [Bool.or_false, ← h.coherent.settled]
      exact h.raised hfirst'

/-! ## Runs -/

/-- The point that the reset leaves. -/
def bootPoint (entry rsp : Word) (regs : Gpr → Word) (eflags : Eflags) : Point :=
  ⟨entry, Function.update regs .rsp rsp, eflags⟩

theorem running_boot (entry rsp : Word) (regs : Gpr → Word) (eflags : Eflags) (now : ℕ)
    (x : Unset) (hfirst : hi (mem entry) ≠ 0) :
    Running mem prog (boot mem entry rsp regs eflags now x)
      (BranchProgram.boot (bootPoint entry rsp regs eflags) mem x.expectedAddr x.op) where
  sim := ⟨rfl, rfl, rfl⟩
  coherent := ⟨rfl, rfl, rfl, fun _ ↦ ⟨rfl,
    (Function.update_self Gpr.rsp rsp regs : Function.update regs .rsp rsp .rsp = rsp)⟩⟩
  served :=
    ⟨rfl, rfl, fun h ↦ absurd rfl h, fun r hr ↦ absurd hr (Multiset.notMem_zero r),
      Merging.State.covered_empty, fun h ↦ by cases h⟩
  stands := ⟨entry, ⟨rfl, fun h ↦ (by cases h), fun h ↦ (by cases h)⟩,
    fun _ ↦ .entering .entry x.lastGoodAddr rfl rfl hfirst⟩
  scratchQ := rfl
  fresh _ := ⟨rfl, rfl, rfl⟩
  raised h := by cases h

/-- As long as it is inside the program, a run of the machine is one of the pipeline. What the
cycles keep holds at its end. -/
theorem exists_running (hload : Loaded u mem prog) (entry rsp : Word) (regs : Gpr → Word)
    (eflags : Eflags) (now : ℕ) (x : Unset) {Q : ℕ → Machine → Pipe Word → Prop}
    (hboot : Q 0 (boot mem entry rsp regs eflags now x)
      (BranchProgram.boot (bootPoint entry rsp regs eflags) mem x.expectedAddr x.op))
    (hcycle : ∀ n c m p c', Running mem prog m p →
      prog.Inv (bootPoint entry rsp regs eflags) [] p → Follows u mem prog c m p c' →
      prog.Inside (bootPoint entry rsp regs eflags)
        (Schedule.cycle (Pipeline.act prog.deliver) Pipeline.commit c' p).trace.length →
      Q n m p → Q (n + 1) (Schedule.cycle (act u) commit c m)
        (Schedule.cycle (Pipeline.act prog.deliver) Pipeline.commit c' p)) (cs : Cycles) :
    let s₀ := bootPoint entry rsp regs eflags
    let m := run u cs (boot mem entry rsp regs eflags now x)
    m.core.aborted = false → prog.Inside s₀ m.trace.length →
      Enterable mem prog s₀ m.trace.length →
        ∃ p, Running mem prog m p ∧ prog.Inv s₀ [] p ∧ Q cs.length m p := by
  intro s₀
  induction cs using List.reverseRecOn with
  | nil =>
    exact fun _ _ henter ↦ ⟨_, running_boot entry rsp regs eflags now x henter.1,
      BranchProgram.inv_boot prog s₀ mem _ _, hboot⟩
  | append_singleton cs c ih =>
    have hrun : run u (cs ++ [c]) (boot mem entry rsp regs eflags now x) =
        Schedule.cycle (act u) commit c (run u cs (boot mem entry rsp regs eflags now x)) :=
      Schedule.run_concat _ _ _ _ _
    rw [hrun, List.length_append, List.length_singleton]
    intro m halive hinside henter
    have hle := (trace_grows_cycle (u := u) c
      (run u cs (boot mem entry rsp regs eflags now x))).length_le
    obtain ⟨p, hrunning, hinv, hp⟩ :=
      ih (alive_of_cycle c halive) (hinside.mono hle) (henter.mono hle)
    obtain ⟨c', hnext⟩ := hrunning.cycle hload hinv c halive hinside henter
    have hinside' := hinside
    rw [show m.trace = _ from hnext.running.sim.trace] at hinside'
    exact ⟨_, hnext.running, BranchProgram.inv_cycle c' hinv,
      hcycle _ c _ p c' hrunning hinv hnext hinside' hp⟩

end Cse502.Machine
