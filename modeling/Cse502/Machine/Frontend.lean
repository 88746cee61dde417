import Cse502.Machine.Simulation

/-!
# A cycle of the front end

What `Memory`, `Fetch` and `Decoder` do in a cycle depends on its start only, in whatever order they
run, as long as nothing writes the guest memory.
-/

namespace Cse502.Machine

/-- The signals that `Fetch` drives. -/
def fetched (s : Signals) : Signals :=
  { Signals.zero with
    fdOutData := s.fdOutData
    fdOutAddr := s.fdOutAddr
    fdOutAlign := s.fdOutAlign
    fdOutReady := s.fdOutReady
    iOp := s.iOp
    iTagin := s.iTagin
    iAddr := s.iAddr }

/-- The signals of an answer to `Fetch`. -/
def replied (s : Signals) : Signals :=
  { Signals.zero with iReady := s.iReady, iTagout := s.iTagout, iData := s.iData }

/-- What `Fetch` does depends on its own signals only. -/
theorem fetch_congr (cur : Signals) (f : Fetch) {c c' : Core}
    (h : fetched c'.nxt = fetched c.nxt) :
    (Fetch.work cur f c').1 = (Fetch.work cur f c).1 ∧
      fetched (Fetch.work cur f c').2.nxt = fetched (Fetch.work cur f c).2.nxt := by
  have hport : ∀ (f : Fetch) (a : Word) (c c' : Core), fetched c'.nxt = fetched c.nxt →
      (Fetch.port cur a f c').1 = (Fetch.port cur a f c).1 ∧
        fetched (Fetch.port cur a f c').2.nxt = fetched (Fetch.port cur a f c).2.nxt := by
    intro f a c c' h
    simp only [fetched, Signals.mk.injEq] at h
    by_cases hreply : cur.iReady = true ∧ Fetch.replyAddr cur = Fetch.block f.prevTag
    · cases hflag : f.firstRunFlag
      · simp only [Fetch.port, if_pos hreply, Fetch.accept, hflag]
        exact ⟨rfl, rfl⟩
      · simp only [Fetch.port, if_pos hreply, Fetch.accept, hflag, Fetch.request]
        exact ⟨rfl, rfl⟩
    · cases hflag : f.firstRunFlag
      · simp only [Fetch.port, if_neg hreply, hflag, fetched]
        simp [h]
      · simp only [Fetch.port, if_neg hreply, hflag, fetched, Fetch.request]
        simp [h]
  cases hreset : cur.reset
  · cases hchange : cur.changeRIP
    · cases hclear : cur.clear
      · simp only [Fetch.work, hreset, hclear, hchange, Bool.false_eq_true, if_false]
        exact hport f _ c c' h
      · simp only [Fetch.work, hreset, hclear, hchange, Bool.false_eq_true, if_false, if_true]
        refine hport _ _ _ _ ?_
        simp only [fetched, Signals.mk.injEq] at h
        simp [Fetch.clearSignals, fetched, h]
    · cases hclear : cur.clear
      · simp only [Fetch.work, hreset, hclear, hchange]
        simp only [fetched, Signals.mk.injEq] at h
        simp [Fetch.redirect, Fetch.request, fetched, h]
      · simp only [Fetch.work, hreset, hclear, hchange]
        simp only [fetched, Signals.mk.injEq] at h
        simp [Fetch.redirect, Fetch.request, fetched, h, Fetch.clearSignals]
  · simp only [Fetch.work, hreset]
    exact ⟨rfl, h⟩

/-! ## Uops that leave the memory alone -/

/-- The uop makes no system call and no request. -/
def Calm (op : Uop) : Prop := op.opcode ≠ .syscall ∧ ∀ e, Memory.access op e = none

theorem execute_calm {inp : CycleInput} {cur : Signals} {c : Core}
    (h : (Execute.work inp cur c).aborted = false)
    (hcalm : ∀ op ∈ Execute.issued cur c, Calm op) :
    (Execute.work inp cur c).mem = c.mem ∧
      Memory.dataRequest (Execute.work inp cur c).nxt = Memory.dataRequest c.nxt := by
  have hport := Memory.work_port inp cur c h
  cases hissued : Execute.issued cur c with
  | none =>
    rw [hissued] at hport
    exact ⟨hport.mem, hport.port⟩
  | some op =>
    obtain ⟨hsyscall, haccess⟩ := hcalm op hissued
    rw [hissued] at hport
    exact ⟨hport.mem.trans (Memory.memAfter_of_ne hsyscall _),
      hport.port.trans (Memory.portAfter_of_none (haccess _) _)⟩

/-! ## One process -/

/-- What `Fetch::work` starts from in this cycle. -/
def fetchWork (m : Machine) : Fetch × Core := Fetch.work m.cur m.fetch m.core

variable {u : Decoder.Udis} {i : MachineInput} {m m' : Machine} {done : List Process}

/-- What holds inside a cycle that began in `m`. -/
structure FrontWithin (u : Decoder.Udis) (i : MachineInput) (m : Machine) (done : List Process)
    (m' : Machine) : Prop where
  cur : m'.cur = m.cur
  mem : m'.core.mem = m.core.mem
  request : Memory.dataRequest m'.core.nxt = Memory.dataRequest m.core.nxt
  fetch : m'.fetch = if .fetch ∈ done then (fetchWork m).1 else m.fetch
  fetched : fetched m'.core.nxt =
    if .fetch ∈ done then fetched (fetchWork m).2.nxt else fetched m.core.nxt
  decoder : m'.decoder = if .decode ∈ done then (decodeWork u i m).1 else m.decoder
  ripJump : m'.core.ripJump =
    if m.cur.clear then (if .fetch ∈ done then true else m.core.ripJump)
    else if .decode ∈ done then (decodeWork u i m).2.ripJump else m.core.ripJump
  memory : m'.memory = if .memory ∈ done then (memoryWork i m).memory else m.memory
  replied : replied m'.core.nxt =
    if .memory ∈ done then replied (memoryWork i m).core.nxt else replied m.core.nxt
  worked : .memory ∈ done → (memoryWork i m).core.aborted = false

private theorem mem_concat (st st' : Process) :
    st' ∈ done ++ [st] ↔ st' ∈ done ∨ st' = st := by
  rw [List.mem_append, List.mem_singleton]

/-- The later stages. -/
private theorem frontWithin_stage {st : Process}
    (hst : st ≠ .memory ∧ st ≠ .fetch ∧ st ≠ .decode) (h : FrontWithin u i m done m') {c : Core}
    {t : List Uop} (hfront : c = c.withFront m'.core)
    (hrequest : Memory.dataRequest c.nxt = Memory.dataRequest m'.core.nxt) :
    FrontWithin u i m (done ++ [st]) { m' with core := c, trace := t } := by
  obtain ⟨hmemory, hfetch, hdecode⟩ := hst
  have hnxt : fetched c.nxt = fetched m'.core.nxt ∧ replied c.nxt = replied m'.core.nxt ∧
      c.mem = m'.core.mem ∧ c.ripJump = m'.core.ripJump := by
    rw [hfront]
    exact ⟨rfl, rfl, rfl, rfl⟩
  obtain ⟨hfetched, hreplied, hmem, hrip⟩ := hnxt
  refine ⟨h.cur, hmem.trans h.mem, hrequest.trans h.request, ?_, ?_, ?_, ?_, ?_, ?_, ?_⟩ <;>
    simp only [mem_concat, hmemory.symm, hfetch.symm, hdecode.symm, or_false]
  · exact h.fetch
  · exact hfetched.trans h.fetched
  · exact h.decoder
  · exact hrip.trans h.ripJump
  · exact h.memory
  · exact hreplied.trans h.replied
  · exact h.worked

/-- `Fetch` leaves the memory and its signals alone. -/
private theorem fetch_keeps (cur : Signals) (f : Fetch) (c : Core) :
    (Fetch.work cur f c).2.mem = c.mem ∧
      Memory.dataRequest (Fetch.work cur f c).2.nxt = Memory.dataRequest c.nxt ∧
      replied (Fetch.work cur f c).2.nxt = replied c.nxt := by
  have hport : ∀ (f : Fetch) (a : Word) (c : Core), (Fetch.port cur a f c).2.mem = c.mem ∧
      Memory.dataRequest (Fetch.port cur a f c).2.nxt = Memory.dataRequest c.nxt ∧
      replied (Fetch.port cur a f c).2.nxt = replied c.nxt := by
    intro f a c
    rw [Fetch.port]
    dsimp only
    split_ifs <;> exact ⟨rfl, rfl, rfl⟩
  rw [Fetch.work]
  dsimp only
  split_ifs
  · exact ⟨rfl, rfl, rfl⟩
  · exact ⟨rfl, rfl, rfl⟩
  · exact ⟨rfl, rfl, rfl⟩
  · exact hport _ _ _
  · exact hport _ _ _

/-- A redirection tells the decoder. -/
private theorem fetch_ripJump_of_redirect {cur : Signals} (hreset : cur.reset = false)
    (hchange : cur.changeRIP = true) (f : Fetch) (c : Core) :
    (Fetch.work cur f c).2.ripJump = true := by
  rw [Fetch.work, hreset, hchange]
  rfl

private theorem frontWithin_fetch (hc : Coherent m) (hdone : .fetch ∉ done)
    (h : FrontWithin u i m done m') :
    FrontWithin u i m (done ++ [.fetch])
      { m' with
        fetch := (Fetch.work m'.cur m'.fetch m'.core).1
        core := (Fetch.work m'.cur m'.fetch m'.core).2 } := by
  have hprev := h.fetched
  have hfetch := h.fetch
  have hrip := h.ripJump
  rw [if_neg hdone] at hprev hfetch
  obtain ⟨hone, htwo⟩ := fetch_congr m.cur m.fetch hprev
  obtain ⟨hmem, hrequest, hreplied⟩ := fetch_keeps m'.cur m'.fetch m'.core
  have hmem' : .fetch ∈ done ++ [Process.fetch] :=
    List.mem_append_right _ (List.mem_singleton_self _)
  refine ⟨h.cur, hmem.trans h.mem, hrequest.trans h.request, ?_, ?_, ?_, ?_, ?_, ?_, ?_⟩
  · rw [if_pos hmem', fetchWork, ← hone, h.cur, hfetch]
  · rw [if_pos hmem', fetchWork, ← htwo, h.cur, hfetch]
  · simp only [mem_concat, reduceCtorEq, or_false]
    exact h.decoder
  · simp only [mem_concat, or_true, if_true, reduceCtorEq, or_false]
    cases hclear : m.cur.clear
    · have hchange : m'.cur.changeRIP = false := by rw [h.cur, hc.redirect, hclear]
      rw [hclear] at hrip
      exact (fetch_ripJump hchange _ _).trans hrip
    · exact fetch_ripJump_of_redirect (by rw [h.cur, hc.reset])
        (by rw [h.cur, hc.redirect, hclear]) _ _
  · simp only [mem_concat, reduceCtorEq, or_false]
    exact h.memory
  · simp only [mem_concat, reduceCtorEq, or_false]
    exact hreplied.trans h.replied
  · simp only [mem_concat, reduceCtorEq, or_false]
    exact h.worked

/-- The decoder in the middle of a cycle. -/
private theorem decodeWork_congr (hcur : m'.cur = m.cur) (hdecoder : m'.decoder = m.decoder)
    (hjump : m.cur.clear = false → m'.core.ripJump = m.core.ripJump) :
    (decodeWork u i m').1 = (decodeWork u i m).1 ∧
      (m.cur.clear = false → (decodeWork u i m').2.ripJump = (decodeWork u i m).2.ripJump) := by
  cases hreset : m.cur.reset <;> cases hready : m.cur.fdOutReady <;>
    cases hclear : m.cur.clear <;>
      simp [decodeWork, Decoder.work, hcur, hdecoder, hreset, hready, hclear, hjump]

private theorem frontWithin_decode (hdone : .decode ∉ done) (h : FrontWithin u i m done m') :
    FrontWithin u i m (done ++ [.decode])
      { m' with decoder := (decodeWork u i m').1, core := (decodeWork u i m').2 } := by
  have hdecoder := h.decoder
  have hrip := h.ripJump
  rw [if_neg hdone] at hdecoder hrip
  have hjump : m.cur.clear = false → m'.core.ripJump = m.core.ripJump := fun hclear ↦ by
    rw [hrip, hclear]
    rfl
  obtain ⟨hone, htwo⟩ := decodeWork_congr (u := u) (i := i) h.cur hdecoder hjump
  have hnxt : fetched (decodeWork u i m').2.nxt = fetched m'.core.nxt ∧
      replied (decodeWork u i m').2.nxt = replied m'.core.nxt ∧
      Memory.dataRequest (decodeWork u i m').2.nxt = Memory.dataRequest m'.core.nxt ∧
      (decodeWork u i m').2.mem = m'.core.mem ∧
      (m.cur.clear = true → (decodeWork u i m').2.ripJump = m'.core.ripJump) := by
    cases hreset : m.cur.reset <;> cases hready : m.cur.fdOutReady <;>
      cases hclear : m.cur.clear <;>
        simp [decodeWork, Decoder.work, h.cur, hreset, hready, hclear, fetched, replied,
          Memory.dataRequest]
  obtain ⟨hfetched, hreplied, hrequest, hmem, hclearing⟩ := hnxt
  have hmem' : .decode ∈ done ++ [Process.decode] :=
    List.mem_append_right _ (List.mem_singleton_self _)
  refine ⟨h.cur, hmem.trans h.mem, hrequest.trans h.request, ?_, ?_, ?_, ?_, ?_, ?_, ?_⟩
  · simp only [mem_concat, reduceCtorEq, or_false]
    exact h.fetch
  · simp only [mem_concat, reduceCtorEq, or_false]
    exact hfetched.trans h.fetched
  · rw [if_pos hmem', ← hone]
  · cases hclear : m.cur.clear
    · rw [if_neg Bool.false_ne_true, if_pos hmem']
      exact htwo hclear
    · rw [hclear] at hrip
      simp only [mem_concat, reduceCtorEq, or_false]
      exact (hclearing hclear).trans hrip
  · simp only [mem_concat, reduceCtorEq, or_false]
    exact h.memory
  · simp only [mem_concat, reduceCtorEq, or_false]
    exact hreplied.trans h.replied
  · simp only [mem_concat, reduceCtorEq, or_false]
    exact h.worked

/-- An activation of `Memory` that passes its asserts. -/
theorem memoryWork_of_some {r : MemoryResult} (hreset : m.cur.reset = false)
    (h : Memory.work (memoryInput i m) m.core.mem m.memory = some r) :
    memoryWork i m =
      { m with
        memory := r.memory
        core := { m.core with
          mem := r.mem
          nxt := Memory.drive (r.iOut.headD none) (r.dOut.headD none) m.core.nxt } } := by
  rw [memoryWork, h, hreset]
  rfl

theorem exists_memoryWork (h : (memoryWork i m).core.aborted = false) :
    ∃ r, Memory.work (memoryInput i m) m.core.mem m.memory = some r := by
  rw [memoryWork] at h
  split at h
  · cases h
  · next r hr => exact ⟨r, hr⟩

/-- Without a request on the data port the guest memory stays as it is. -/
theorem mem_of_idle {r : MemoryResult} (hreset : m.cur.reset = false) (hidle : m.cur.dOp = .none)
    (h : Memory.work (memoryInput i m) m.core.mem m.memory = some r) : r.mem = m.core.mem := by
  obtain ⟨out, -, hport⟩ := Memory.work_one hreset h
  rw [hport.written]
  change Memory.perform (Memory.dataRequest m.cur) _ = _
  rw [Memory.perform, if_neg]
  change ¬m.cur.dOp = .write
  rw [hidle]
  exact MemOp.noConfusion

private theorem frontWithin_memory (hc : Coherent m) (hidle : m.cur.dOp = .none)
    (hdone : .memory ∉ done) (hnow : m'.now = m.now) (halive : m.core.aborted = false)
    (hafter : (memoryWork i m').core.aborted = false) (h : FrontWithin u i m done m') :
    FrontWithin u i m (done ++ [.memory]) (memoryWork i m') := by
  have hmemory := h.memory
  have hreplied := h.replied
  rw [if_neg hdone] at hmemory hreplied
  obtain ⟨r, hr⟩ := exists_memoryWork hafter
  have hinput : memoryInput i m' = memoryInput i m := by
    rw [memoryInput, memoryInput, h.cur, hnow]
  have hr' := hr
  rw [hinput, h.mem, hmemory] at hr'
  have hmem := mem_of_idle hc.reset hidle hr'
  have hmem' : .memory ∈ done ++ [Process.memory] :=
    List.mem_append_right _ (List.mem_singleton_self _)
  rw [memoryWork_of_some (by rw [h.cur]; exact hc.reset) hr]
  refine ⟨h.cur, hmem, h.request, ?_, ?_, ?_, ?_, ?_, ?_, fun _ ↦ ?_⟩
  · simp only [mem_concat, reduceCtorEq, or_false]
    exact h.fetch
  · simp only [mem_concat, reduceCtorEq, or_false]
    exact h.fetched
  · simp only [mem_concat, reduceCtorEq, or_false]
    exact h.decoder
  · simp only [mem_concat, reduceCtorEq, or_false]
    exact h.ripJump
  · rw [if_pos hmem', memoryWork_of_some hc.reset hr']
  · rw [if_pos hmem', memoryWork_of_some hc.reset hr']
    simp only [replied, Signals.mk.injEq] at hreplied
    simp [replied, Memory.drive, hreplied]
  · rw [memoryWork_of_some hc.reset hr']
    exact halive

/-! ## A cycle -/

/-- Nothing is taken from the trace. -/
theorem trace_grows (i : MachineInput) (st : Process) (m : Machine) :
    m.trace <+: (act u i st m).trace := by
  unfold act
  split_ifs
  · exact List.prefix_rfl
  · cases st with
    | memory =>
      change m.trace <+: (memoryWork i m).trace
      rw [memoryWork]
      split <;> exact List.prefix_rfl
    | execute => exact List.prefix_append _ _
    | fetch | decode | dispatch | writeback => exact List.prefix_rfl

/-- Every process keeps it, as long as no uop touches the memory. -/
private theorem frontWithin_act (hc : Coherent m) (hidle : m.cur.dOp = .none)
    (halive : m.core.aborted = false) {st : Process} (hdone : st ∉ done) (hnow : m'.now = m.now)
    (hbefore : m'.core.aborted = false) (hafter : (act u i st m').core.aborted = false)
    (hcalm : ∀ op ∈ (act u i st m').trace, Calm op) (h : FrontWithin u i m done m') :
    FrontWithin u i m (done ++ [st]) (act u i st m') := by
  have hact : act u i st m' = _ := if_neg (by rw [hbefore]; exact Bool.false_ne_true)
  rw [hact] at hafter hcalm ⊢
  cases st with
  | memory => exact frontWithin_memory hc hidle hdone hnow halive hafter h
  | fetch => exact frontWithin_fetch hc hdone h
  | decode => exact frontWithin_decode hdone h
  | dispatch =>
    refine frontWithin_stage (by decide) h (dispatch_withFront m'.cur m'.cur m'.core m'.core) ?_
    have houtcome := Dispatch.work_outcome m'.cur m'.core
    generalize Dispatch.work m'.cur m'.core = c at houtcome ⊢
    cases houtcome <;> rfl
  | execute =>
    have hissued : ∀ op ∈ Execute.issued m'.cur m'.core, Calm op := by
      intro op hop
      refine hcalm op (List.mem_append_right _ ?_)
      rwa [Option.mem_toList]
    obtain ⟨hmem, hrequest⟩ := execute_calm hafter hissued
    obtain ⟨mem, hfront⟩ := execute_withFront m'.cur m'.cur m'.core m'.core (cycleInput i m')
    refine frontWithin_stage (by decide) h ?_ hrequest
    have hmem' := congrArg Core.mem hfront
    change (Execute.work (cycleInput i m') m'.cur m'.core).mem = mem at hmem'
    rw [hmem] at hmem'
    subst hmem'
    exact hfront
  | writeback =>
    refine frontWithin_stage (by decide) h (writeback_withFront m'.cur m'.cur m'.core m'.core) ?_
    rcases Writeback.work_eq m'.cur m'.core with hwork | ⟨op, rest, -, hwork⟩ <;> rw [hwork]

/-- Inside a cycle, as long as the host process is alive and no uop has touched the memory. -/
theorem front_order {order : List Process} (hnodup : order.Nodup) (hc : Coherent m)
    (hidle : m.cur.dOp = .none) (halive : m.core.aborted = false)
    (hafter : (Schedule.runOrder (act u) i order m).core.aborted = false)
    (hcalm : ∀ op ∈ (Schedule.runOrder (act u) i order m).trace, Calm op) :
    FrontWithin u i m order (Schedule.runOrder (act u) i order m) := by
  let Q : List Process → Machine → Prop := fun done m' ↦ m'.now = m.now ∧
    (m'.core.aborted = false → (∀ op ∈ m'.trace, Calm op) → FrontWithin u i m done m')
  have hstart : Q [] m :=
    ⟨rfl, fun _ _ ↦ ⟨rfl, rfl, rfl, rfl, rfl, rfl, by simp, rfl, rfl, fun h ↦ by cases h⟩⟩
  have hwithin : Q order (Schedule.runOrder (act u) i order m) := by
    refine Schedule.runOrder_induction hnodup hstart fun done st m' _ hst ⟨hnow, hprev⟩ ↦
      ⟨(act_now _ _ _).trans hnow, fun hafter' hcalm' ↦ ?_⟩
    have hbefore : m'.core.aborted = false := by
      by_contra hne
      rw [Bool.not_eq_false] at hne
      rw [act_of_aborted _ _ hne, hne] at hafter'
      cases hafter'
    refine frontWithin_act hc hidle halive hst hnow hbefore hafter' hcalm' (hprev hbefore ?_)
    exact fun op hop ↦ hcalm' op ((trace_grows i st m').subset hop)
  exact hwithin.2 hafter hcalm

/-- What a cycle leaves in the front end. -/
structure FrontCycle (u : Decoder.Udis) (i : MachineInput) (m m' : Machine) : Prop where
  mem : m'.core.mem = m.core.mem
  request : Memory.dataRequest m'.cur = Memory.dataRequest m.cur
  fetch : m'.fetch = (fetchWork m).1
  fetched : fetched m'.cur = fetched (fetchWork m).2.nxt
  decoder : m'.decoder = (decodeWork u i m).1
  ripJump : m'.core.ripJump = if m.cur.clear then true else (decodeWork u i m).2.ripJump
  memory : m'.memory = (memoryWork i m).memory
  replied : replied m'.cur = replied (memoryWork i m).core.nxt
  worked : (memoryWork i m).core.aborted = false

/-- **The front end does not depend on the order of the processes.** -/
theorem frontCycle (c : Schedule.Cycle MachineInput processes) (hc : Coherent m)
    (hidle : m.cur.dOp = .none) (halive : m.core.aborted = false)
    (hafter : (Schedule.cycle (act u) commit c m).core.aborted = false)
    (hcalm : ∀ op ∈ (Schedule.cycle (act u) commit c m).trace, Calm op) :
    FrontCycle u c.input m (Schedule.cycle (act u) commit c m) := by
  have hmem : ∀ st, st ∈ c.order := fun st ↦ c.perm.mem_iff.mpr (mem_processes st)
  have h := front_order (c.perm.nodup_iff.mpr processes_nodup) hc hidle halive hafter hcalm
  have hfetch := h.fetch
  have hfetched := h.fetched
  have hdecoder := h.decoder
  have hrip := h.ripJump
  have hmemory := h.memory
  have hreplied := h.replied
  rw [if_pos (hmem _)] at hfetch hfetched hdecoder hmemory hreplied
  rw [if_pos (hmem _), if_pos (hmem _)] at hrip
  exact ⟨h.mem, h.request.trans (by rw [hc.settled]), hfetch, hfetched, hdecoder, hrip, hmemory,
    hreplied, h.worked (hmem _)⟩

end Cse502.Machine
