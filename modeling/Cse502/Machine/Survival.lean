import Cse502.Machine.Progress

/-!
# The machine survives

`Memory` asserts that what is asked for lies in the guest memory, and `Fetch` asks for one block
after another, far behind the program and without an end, until the next jump is taken. So a program
must jump often enough, and far enough from the end of the memory.

## The invariant

Between two cycles the instruction pointer of `Fetch` is behind the point it was last sent to, by a
block at most for every cycle since then. By `Paced` there are only so many of these cycles, since
the program executes an instruction in time and jumps after so many instructions (`Leashed`).
-/

namespace Cse502.Machine

open Fetch (block)
open Memory (inRange memIRead memDRead)
open Pipeline (BranchProgram Delivery Pipe Point Stage)
open Pipeline.BranchProgram (inv_order)

variable {u : Decoder.Udis} {mem : Mem} {prog : BranchProgram} {s₀ : Point} {m m' : Machine}
  {p : Pipe Word} {i : MachineInput}

/-! ## `Memory` -/

/-- What is waited for can be read, and nothing is waited for on the data side. -/
structure Readable (m : Machine) : Prop where
  aligned : ∀ r ∈ m.memory.i.outstanding, r.2.toNat % 16 = 0
  quiet : m.memory.d.resp.pq = []

/-- A port answers unless what it is to answer cannot be read. -/
private theorem exists_answer {width : ℕ} {read : Word → Option (BitVec width)} {s : Side}
    (now pick : ℕ) (h : ∀ r ∈ s.outstanding, read r.2 ≠ none) :
    ∃ r, Memory.answer read now pick s = some r := by
  rw [Memory.answer]
  cases hresp : s.respond now pick with
  | none => exact ⟨_, rfl⟩
  | some r =>
    obtain ⟨data, hdata⟩ := Option.ne_none_iff_exists'.mp
      (h r.1 (Multiset.mem_add.mpr (.inl (Side.toState_respond hresp).1)))
    exact ⟨(some (r.1.1, data), r.2), by simp only [hdata, Option.map_some]⟩

/-- A port takes a request unless it is out of range. -/
private theorem exists_iRequest {req : InstRequest} (now : ℕ)
    (h : req.op ≠ .none → req.op = .read ∧ inRange req.addr = true) (m : Memory) :
    ∃ m', Memory.iRequest now req m = some m' := by
  rw [Memory.iRequest]
  by_cases hop : req.op = .none
  · exact ⟨m, if_pos hop⟩
  · obtain ⟨hread, hrange⟩ := h hop
    rw [if_neg hop, if_neg (not_not.mpr hread)]
    split
    · exact ⟨_, rfl⟩
    · exact ⟨_, if_pos hrange⟩

/-- **`Memory` survives a cycle.** -/
theorem Readable.exists_work (h : Readable m) (hc : Coherent m) (hidle : m.cur.dOp = .none)
    (hrange : m.cur.iOp ≠ .none → m.cur.iOp = .read ∧ inRange m.cur.iAddr = true)
    (i : MachineInput) : ∃ r, Memory.work (memoryInput i m) m.core.mem m.memory = some r := by
  have hread : ∀ r ∈ m.memory.i.outstanding, memIRead m.core.mem r.2 ≠ none := fun r hr ↦ by
    rw [memIRead, if_pos (h.aligned r hr)]
    exact Option.some_ne_none _
  obtain ⟨⟨iOut, iSide⟩, hi⟩ := exists_answer m.now i.iPick hread
  have hd : Memory.answer (memDRead m.core.mem) m.now i.dPick m.memory.d =
      some (none, m.memory.d) := by
    have hresp : m.memory.d.respond m.now i.dPick = none := by
      rw [Side.respond, Option.map_eq_none_iff, DelayBucket.get_eq_none_iff, h.quiet]
      exact fun e he ↦ absurd he List.not_mem_nil
    rw [Memory.answer, hresp]
  let req : InstRequest := ⟨m.cur.iOp, m.cur.iTagin, m.cur.iAddr⟩
  have hreq : req.op ≠ .none → req.op = .read ∧ inRange req.addr = true := hrange
  obtain ⟨memory, hrequest⟩ := exists_iRequest m.now hreq { m.memory with i := iSide }
  refine ⟨⟨m.core.mem, memory, [iOut], [none]⟩, ?_⟩
  have hreset : (memoryInput i m).reset = false := hc.reset
  rw [Memory.work, if_neg (by rw [hreset]; exact Bool.false_ne_true)]
  simp only [Option.bind_eq_bind, Option.bind_eq_some_iff]
  refine ⟨([iOut], iSide), ?_, ([none], m.memory.d), ?_, memory, ?_, (m.core.mem, memory), ?_, rfl⟩
  · change (Memory.answer (memIRead m.core.mem) m.now i.iPick m.memory.i).bind _ = _
    rw [hi]
    rfl
  · change (Memory.answer (memDRead m.core.mem) m.now i.dPick m.memory.d).bind _ = _
    rw [hd]
    rfl
  · change (Memory.iRequest m.now ⟨m.cur.iOp, m.cur.iTagin, m.cur.iAddr⟩
      { m.memory with i := iSide }).bind _ = _
    rw [hrequest]
    rfl
  · have hnone : Memory.dRequest m.now (Memory.dataRequest m.cur) m.core.mem memory =
        some (m.core.mem, memory) := if_pos hidle
    change (Memory.dRequest m.now (Memory.dataRequest m.cur) m.core.mem memory).bind _ = _
    rw [hnone]
    rfl

/-- A cycle leaves what is waited for readable. -/
theorem Readable.cycle (h : Readable m) (hc : Coherent m) (hserved : Served mem m)
    (hasking : Asking m) (hfront : FrontCycle u i m m') : Readable m' := by
  obtain ⟨r, hr⟩ := Machine.exists_memoryWork hfront.worked
  have hmemory : m'.memory = r.memory := by
    rw [hfront.memory, memoryWork_of_some hc.reset hr]
  obtain ⟨out, -, hinst⟩ := work_inst hc.reset hserved.covered hr
  obtain ⟨iSent, dSent, hturns⟩ := Memory.work_turns (le_refl 112000) hc.reset hr
  refine ⟨fun r' hr' ↦ ?_, ?_⟩
  · rw [hmemory] at hr'
    rcases hinst.outstanding r' hr' with hr' | ⟨hop, rfl, -⟩
    · exact h.aligned r' hr'
    · change m.cur.iAddr.toNat % 16 = 0
      rw [(hasking.asked_of_ne hc hop).2, Frontend.toNat_block]
      omega
  · have hturn := hturns.d
    have hnone : Memory.asks ((memoryInput i m).dReq 0).op ((memoryInput i m).dReq 0).tagin
        ((memoryInput i m).dReq 0).addr = none := if_pos hserved.idle
    rw [hnone] at hturn
    obtain ⟨d, hanswers, htakes⟩ := hturn
    rw [hmemory]
    generalize r.memory.d = d' at htakes ⊢
    cases htakes with
    | nothing =>
      cases hanswers with
      | nothing => exact h.quiet
      | sent r' d' pick hrespond =>
        obtain ⟨t, b, -, -, hperm, -⟩ := Side.respond_cases hrespond
        change m.memory.d.resp.pq.Perm _ at hperm
        rw [h.quiet] at hperm
        exact absurd hperm.nil_eq (List.cons_ne_nil _ _).symm

/-! ## Inside a cycle -/

/-- No process but `Memory` and `Execute` has an assert. -/
private theorem aborted_act {st : Process} (hst : st ≠ .memory ∧ st ≠ .execute) (i : MachineInput)
    (m : Machine) : (act u i st m).core.aborted = m.core.aborted := by
  unfold act
  split_ifs
  · rfl
  · cases st with
    | memory => exact absurd rfl hst.1
    | execute => exact absurd rfl hst.2
    | fetch =>
      have hport : ∀ (a : Word) (f : Fetch) (c : Core),
          (Fetch.port m.cur a f c).2.aborted = c.aborted := by
        intro a f c
        rw [Fetch.port]
        dsimp only
        split_ifs <;> rfl
      change (Fetch.work m.cur m.fetch m.core).2.aborted = m.core.aborted
      rw [Fetch.work]
      dsimp only
      split_ifs <;> first | rfl | exact hport _ _ _
    | decode =>
      change (Decoder.work u i.uninit m.cur m.decoder m.core).2.aborted = m.core.aborted
      cases hreset : m.cur.reset <;> cases hready : m.cur.fdOutReady <;>
        cases hclear : m.cur.clear <;> simp [Decoder.work, hreset, hready, hclear]
    | dispatch =>
      change (Dispatch.work m.cur m.core).aborted = m.core.aborted
      have houtcome := Dispatch.work_outcome m.cur m.core
      generalize Dispatch.work m.cur m.core = c at houtcome ⊢
      cases houtcome <;> rfl
    | writeback =>
      change (Writeback.work m.cur m.core).aborted = m.core.aborted
      rcases Writeback.work_eq m.cur m.core with hwork | ⟨op, rest, -, hwork⟩ <;> rw [hwork]

private theorem stage_nodup {order : List Process} (h : order.Nodup) :
    (order.filterMap Process.stage).Nodup := by
  refine h.filterMap fun st st' stage hst hst' ↦ ?_
  cases st <;> cases hst <;> cases st' <;> first | rfl | cases hst'

/-- `Memory` does in a cycle what it would do at its start. -/
private theorem alive_memory {done : List Process} (h : FrontWithin u i m done m')
    (hdone : .memory ∉ done) (hnow : m'.now = m.now) (hreset : m.cur.reset = false)
    (halive : m'.core.aborted = false)
    (hwork : ∃ r, Memory.work (memoryInput i m) m.core.mem m.memory = some r) :
    (memoryWork i m').core.aborted = false := by
  obtain ⟨r, hr⟩ := hwork
  have hmemory := h.memory
  rw [if_neg hdone] at hmemory
  have hinput : memoryInput i m' = memoryInput i m := by
    rw [memoryInput, memoryInput, h.cur, hnow]
  rw [← hinput, ← h.mem, ← hmemory] at hr
  rw [memoryWork_of_some (h.cur ▸ hreset) hr]
  exact halive

private theorem Sim.issued (h : Sim m p) :
    Execute.issued m.cur m.core = Execute.issued p.cur p.core := by
  rw [h.cur, h.core]
  exact issued_withFront _ _ _ _

/-- `Execute` dies on the machine if it does in the pipeline. -/
private theorem alive_execute (h : Sim m p) (inp : CycleInput)
    (halive : (Execute.work inp p.cur p.core).aborted = false) :
    (Execute.work inp m.cur m.core).aborted = false := by
  obtain ⟨mem, hmem⟩ := execute_withFront p.cur m.cur p.core m.core inp
  rw [← h.cur, ← h.core] at hmem
  rw [hmem]
  exact halive

/-- **No assert fails in a cycle**, as long as `Memory` survives it and the sequential machine is
inside the program. -/
theorem alive_order (hrunning : Running mem prog m p) (hload : Loaded u mem prog)
    (hinv : prog.Inv s₀ [] p) (halive : m.core.aborted = false)
    (hwork : ∃ r, Memory.work (memoryInput i m) m.core.mem m.memory = some r)
    (order : List Process) (hnodup : order.Nodup) :
    prog.Inside s₀ (Schedule.runOrder (act u) i order m).trace.length →
      (Schedule.runOrder (act u) i order m).core.aborted = false := by
  obtain ⟨ds, hdelivers⟩ := hrunning.exists_delivers hload i
  induction order using List.reverseRecOn with
  | nil => exact fun _ ↦ halive
  | append_singleton order st ih =>
    rw [Schedule.runOrder_concat]
    intro hinside
    obtain ⟨hnodup', -, hdisjoint⟩ := List.nodup_append.mp hnodup
    have hst : st ∉ order := fun h ↦ hdisjoint st h st (List.mem_singleton_self st) rfl
    have hinside' := hinside.mono (trace_grows i st (Schedule.runOrder (act u) i order m)).length_le
    have hbefore := ih hnodup' hinside'
    have hwithin := sim_order hnodup' hrunning.coherent hrunning.sim ds hdelivers.pushed m hbefore
    have hinv' := inv_order (stage_nodup hnodup') (pipeInput ds i m m) hinv
    have hnow : (Schedule.runOrder (act u) i order m).now = m.now :=
      Schedule.runOrder_invariant (I := fun m' : Machine ↦ m'.now = m.now)
        (fun st m' hm ↦ (act_now i st m').trans hm) order rfl
    have hfront := front_order (u := u) (i := i) hnodup' hrunning.coherent hrunning.served.idle
      halive hbefore
    generalize Schedule.runOrder (act u) i order m = m' at *
    generalize Schedule.runOrder (Pipeline.act prog.deliver) (pipeInput ds i m m)
      (order.filterMap Process.stage) p = p' at *
    have hact : act u i st m' = _ := if_neg (by rw [hbefore]; exact Bool.false_ne_true)
    have htrace : m'.trace = p'.trace := hwithin.sim.trace
    by_cases hmemory : st = .memory
    · subst hmemory
      rw [hact]
      refine alive_memory (hfront fun op hop ↦ ?_) hst hnow hrunning.coherent.reset hbefore hwork
      rw [htrace] at hinside' hop
      obtain ⟨n, r, hvalues, -⟩ := hinv' hinside'
      obtain ⟨k, hk⟩ := List.mem_iff_getElem?.mp hop
      exact calm_of_executes (hvalues.traced k op hk)
    by_cases hexecute : st = .execute
    · subst hexecute
      rw [hact] at hinside ⊢
      have hnot : Stage.execute ∉ order.filterMap Process.stage := by
        intro hmem
        obtain ⟨st, hmem, hstage⟩ := List.mem_filterMap.mp hmem
        cases st <;> cases hstage
        exact hst hmem
      change prog.Inside s₀ (m'.trace ++ (Execute.issued m'.cur m'.core).toList).length at hinside
      rw [htrace, hwithin.sim.issued] at hinside
      obtain ⟨n, r, hvalues, -⟩ := BranchProgram.inv_act (pipeInput ds i m m) hnot hinv' hinside
      have hcycle : cycleInput i m' = cycleInput i m := by rw [cycleInput, cycleInput, hnow]
      refine alive_execute hwithin.sim _ ?_
      rw [hcycle]
      exact hvalues.alive
    · rw [aborted_act ⟨hmemory, hexecute⟩]
      exact hbefore

/-! ## How far `Fetch` gets -/

/-- The first `N` instructions of a program stay in the guest memory, with room behind them for what
is fetched until the next jump. -/
structure Placed (mem : Mem) (prog : BranchProgram) (s₀ : Point) (top L N : ℕ) : Prop where
  inside : prog.Inside s₀ N
  enterable : Enterable mem prog s₀ N
  low : ∀ k ≤ N, 0x10000 ≤ (prog.after s₀ k).pc.toNat
  high : ∀ k ≤ N, (prog.after s₀ k).pc.toNat ≤ top
  turns : ∀ k, k + L ≤ N → ∃ j < L, prog.targetAt (prog.after s₀ (k + j)) ≠ none
  room : top + 57920 * (L + 1) ≤ 0x4000000

/-- `Fetch` was sent to the `n`-th point so many cycles ago, and no jump was taken since. -/
structure Leashed (prog : BranchProgram) (s₀ : Point) (m : Machine) (p : Pipe Word)
    (k n since : ℕ) : Prop where
  le : n ≤ p.trace.length
  straight : ∀ j, n ≤ j → j < p.trace.length →
    prog.targetAt (prog.after s₀ j) = none ∨ (j + 1 = p.trace.length ∧ p.cur.clear = true)
  low : 0x10000 ≤ m.fetch.rip.toNat
  high : m.fetch.rip.toNat ≤ (prog.after s₀ n).pc.toNat + 16 * since
  paced : since + pace p k + 3620 * n ≤ 3620 * p.trace.length + 3619

variable {top L N k n since : ℕ}

/-- So it has not got far. -/
theorem Leashed.rip_lt (h : Leashed prog s₀ m p k n since) (hplaced : Placed mem prog s₀ top L N)
    (hN : p.trace.length ≤ N) : m.fetch.rip.toNat + 16 ≤ top + 57920 * (L + 1) := by
  have hpaced := h.paced
  have hrip := h.high
  have hn := h.le
  have htop := hplaced.high n (hn.trans hN)
  have hlength : p.trace.length ≤ n + L := by
    by_contra hlt
    obtain ⟨j, hj, htaken⟩ := hplaced.turns n (by omega)
    rcases h.straight (n + j) (Nat.le_add_right n j) (by omega) with hnone | ⟨heq, -⟩
    · exact htaken hnone
    · omega
  omega

theorem block_toNat_add (a : Word) (h : a.toNat + 16 ≤ 0x4000000) :
    a.toNat < (block a + 16).toNat ∧ (block a + 16).toNat ≤ a.toNat + 16 := by
  rw [BitVec.toNat_add, Frontend.toNat_block]
  change _ < (_ + 16) % 2 ^ 64 ∧ (_ + 16) % 2 ^ 64 ≤ _
  omega

/-- The instruction pointer of `Fetch` at the end of a cycle. -/
theorem rip_cycle (hc : Coherent m) (hfront : FrontCycle u i m m') :
    m'.fetch.rip = if m.cur.clear then m.cur.newRIP
      else if Frontend.Awaited m.cur m.fetch then block m.fetch.rip + 16 else m.fetch.rip := by
  rw [hfront.fetch]
  cases hclear : m.cur.clear with
  | true =>
    rw [fetchWork_redirect hc hclear]
    rfl
  | false =>
    rw [fetchWork_port hc hclear, if_neg Bool.false_ne_true]
    split_ifs with hawaited
    · exact (Frontend.port_awaited (block m.fetch.rip) m.core hawaited).1
    · exact (Frontend.port_ignored (block m.fetch.rip) m.core hawaited).1

/-- **A cycle keeps the leash.** -/
theorem Leashed.cycle (h : Leashed prog s₀ m p k n since) (hplaced : Placed mem prog s₀ top L N)
    (hN : p.trace.length ≤ N) (hrunning : Running mem prog m p) (hinv : prog.Inv s₀ [] p)
    (hfront : FrontCycle u i m m') {p' : Pipe Word} {k' : ℕ} (hk' : k' ≤ 904)
    (hstep : pace p' k' + 1 + 3620 * p.trace.length ≤ pace p k + 3620 * p'.trace.length)
    (hle : p.trace.length ≤ p'.trace.length)
    (hstraight : ∀ j, p.trace.length ≤ j → j < p'.trace.length →
      prog.targetAt (prog.after s₀ j) = none ∨
        (j + 1 = p'.trace.length ∧ p'.cur.clear = true)) :
    ∃ n' since', Leashed prog s₀ m' p' k' n' since' := by
  have hrip := rip_cycle hrunning.coherent hfront
  cases hclear : m.cur.clear with
  | true =>
    have hnewRIP := (landed_of_clear hinv (hplaced.inside.mono hN)
      (hrunning.sim.clear.trans hclear)).2
    rw [hclear, if_pos rfl, ← hrunning.sim.newRIP, hnewRIP] at hrip
    refine ⟨p.trace.length, 0, hle, hstraight, ?_, ?_, ?_⟩
    · rw [hrip]
      exact hplaced.low _ hN
    · rw [hrip]
      exact le_rfl
    · have hrank := BranchProgram.rank_le p'
      rw [pace]
      omega
  | false =>
    have hlt := (h.rip_lt hplaced hN).trans hplaced.room
    have hlow := h.low
    have hhigh := h.high
    have hpaced := h.paced
    obtain ⟨hgt, hblock⟩ := block_toNat_add m.fetch.rip hlt
    rw [hclear, if_neg Bool.false_ne_true] at hrip
    refine ⟨n, since + 1, h.le.trans hle, fun j hj hlt ↦ ?_, ?_, ?_, by omega⟩
    · rcases Nat.lt_or_ge j p.trace.length with hold | hnew
      · rcases h.straight j hj hold with hnone | ⟨-, hseen⟩
        · exact .inl hnone
        · exact absurd (hseen.symm.trans (hrunning.sim.clear.trans hclear)) Bool.noConfusion
      · exact hstraight j hnew hlt
    · rw [hrip]
      split_ifs <;> omega
    · rw [hrip]
      split_ifs <;> omega

theorem leashed_boot (entry rsp : Word) (regs : Gpr → Word) (eflags : Eflags) (now : ℕ) (x : Unset)
    (hlow : 0x10000 ≤ entry.toNat) :
    Leashed prog (bootPoint entry rsp regs eflags) (boot mem entry rsp regs eflags now x)
      (BranchProgram.boot (bootPoint entry rsp regs eflags) mem x.expectedAddr x.op) 904 0 0 where
  le := le_rfl
  straight j _ hlt := absurd hlt (Nat.not_lt_zero j)
  low := hlow
  high := le_rfl
  paced := by
    rw [pace_boot]
    omega

/-- What `Fetch` asks for is in the guest memory. -/
theorem inRange_block {a : Word} (hlow : 0x10000 ≤ a.toNat) (hhigh : a.toNat + 16 ≤ 0x4000000) :
    inRange (block a) = true := by
  rw [inRange, Bool.and_eq_true, BitVec.ult_iff_lt, BitVec.ult_iff_lt, BitVec.lt_def,
    BitVec.lt_def, Frontend.toNat_block]
  change 65535 < _ ∧ _ < 67108864
  omega

/-! ## Runs -/

/-- **In every run no assert fails and `Fetch` is on the leash**, for the first `N` instructions. -/
theorem exists_leashed (hload : Loaded u mem prog) (entry rsp : Word)
    (regs : Gpr → Word) (eflags : Eflags) (now : ℕ) (x : Unset)
    (hplaced : Placed mem prog (bootPoint entry rsp regs eflags) top L N) (cs : Cycles) :
    let m := run u cs (boot mem entry rsp regs eflags now x)
    m.trace.length ≤ N → m.core.aborted = false ∧ ∃ p k n since, Running mem prog m p ∧
      Leashed prog (bootPoint entry rsp regs eflags) m p k n since := by
  let s₀ := bootPoint entry rsp regs eflags
  let Q : ℕ → Machine → Pipe Word → Prop := fun _ m p ↦ p.trace.length ≤ N →
    ∃ k n since, Paced m p k ∧ Readable m ∧ Leashed prog s₀ m p k n since
  have hboot : Q 0 (boot mem entry rsp regs eflags now x)
      (BranchProgram.boot s₀ mem x.expectedAddr x.op) := fun hN ↦
    ⟨904, 0, 0, paced_boot entry rsp regs eflags now x,
      ⟨fun r hr ↦ absurd hr (Multiset.notMem_zero r), rfl⟩,
      leashed_boot entry rsp regs eflags now x (hplaced.low 0 hN)⟩
  have hcycle : ∀ n c m p c', Running mem prog m p → prog.Inv s₀ [] p →
      Follows u mem prog c m p c' →
      prog.Inside s₀
        (Schedule.cycle (Pipeline.act prog.deliver) Pipeline.commit c' p).trace.length →
      Q n m p → Q (n + 1) (Schedule.cycle (act u) commit c m)
        (Schedule.cycle (Pipeline.act prog.deliver) Pipeline.commit c' p) := by
    intro n c m p c' hrunning hinv hfollows hinside hm hN
    have hle : p.trace.length ≤ _ := (Schedule.runOrder_invariant (i := c'.input)
      (I := fun q ↦ p.trace.length ≤ q.trace.length)
      (fun st q h ↦ h.trans (BranchProgram.length_le_act c'.input st q)) c'.order le_rfl).trans hN
    obtain ⟨k, n, since, hpaced, hreadable, hleashed⟩ := hm hle
    obtain ⟨⟨k', hpaced', hstep⟩, hgrown, hstraight⟩ :=
      hpaced.cycle hrunning hinv hfollows hinside
    obtain ⟨n', since', hleashed'⟩ := hleashed.cycle hplaced hle hrunning hinv hfollows.front
      hpaced'.le hstep hgrown hstraight
    exact ⟨k', n', since', hpaced',
      hreadable.cycle hrunning.coherent hrunning.served hpaced.asking hfollows.front, hleashed'⟩
  let m₀ := boot mem entry rsp regs eflags now x
  have hinvariants : ∀ cs, (run u cs m₀).core.aborted = false → (run u cs m₀).trace.length ≤ N →
      ∃ p, Running mem prog (run u cs m₀) p ∧ prog.Inv s₀ [] p ∧
        ∃ k n since, Paced (run u cs m₀) p k ∧ Readable (run u cs m₀) ∧
          Leashed prog s₀ (run u cs m₀) p k n since := by
    intro cs halive hN
    obtain ⟨p, hrunning, hinv, hm⟩ := exists_running hload entry rsp regs eflags now x hboot
      hcycle cs halive (hplaced.inside.mono hN) (hplaced.enterable.mono hN)
    exact ⟨p, hrunning, hinv, hm (hrunning.sim.trace ▸ hN)⟩
  have halive : ∀ cs, (run u cs m₀).trace.length ≤ N → (run u cs m₀).core.aborted = false := by
    intro cs
    induction cs using List.reverseRecOn with
    | nil => exact fun _ ↦ rfl
    | append_singleton cs c ih =>
      have hrun : run u (cs ++ [c]) m₀ = Schedule.cycle (act u) commit c (run u cs m₀) :=
        Schedule.run_concat _ _ _ _ _
      rw [hrun]
      intro hN
      have hle := (trace_grows_cycle (u := u) c (run u cs m₀)).length_le.trans hN
      have halive := ih hle
      obtain ⟨p, hrunning, hinv, k, n, since, hpaced, hreadable, hleashed⟩ :=
        hinvariants cs halive hle
      have hrange := inRange_block hleashed.low
        ((hleashed.rip_lt hplaced (hrunning.sim.trace ▸ hle)).trans hplaced.room)
      have hwork := hreadable.exists_work hrunning.coherent hrunning.served.idle (fun hop ↦ by
        obtain ⟨hread, haddr⟩ := hpaced.asking.asked_of_ne hrunning.coherent hop
        exact ⟨hread, haddr ▸ hrange⟩) c.input
      exact alive_order hrunning hload hinv halive hwork c.order
        (c.perm.nodup_iff.mpr processes_nodup) (hplaced.inside.mono hN)
  intro m hN
  obtain ⟨p, hrunning, -, k, n, since, -, -, hleashed⟩ := hinvariants cs (halive cs hN) hN
  exact ⟨halive cs hN, p, k, n, since, hrunning, hleashed⟩

end Cse502.Machine
