import Cse502.Library.CallStack
import Cse502.Memory.Loads
import Cse502.Pipeline.StackPointer

/-!
# Calls and returns in the pipeline

A log of the uops that `Execute` completes, each with the RSP it has to find and to leave, what
`stackpointer` was before and after, what it put on the data port and what it read, and where it
sent the fetch. Seen as calls and returns through a stack in memory, its events do what they
should as long as no step goes wrong in one of the ways `StackMeets` names.
-/

namespace Cse502.Pipeline

open CallStack (Kind)
open Execute (reads)
open Memory (readAddr)

/-! ## The log -/

/-- The opcodes that write to memory. -/
def drivesWrite : Mnemonic → Bool
  | .call | .push | .pushfq | .store => true
  | _ => false

/-- A completed uop, and what the activation of `Execute` that completed it has done. -/
structure StackEvent where
  op : Uop
  /-- The value RSP has to have before and after. -/
  before : Word
  after : Word
  /-- The `stackpointer` of `Execute` before and after. -/
  stackpointer : Word
  stackpointer' : Word
  redirect : Option Word
  store : Option (Word × Word)
  load : Option Word
  word : Word
  deriving DecidableEq, Repr

/-- The event of an activation that completed the uop. -/
def StackEvent.of (cur : Signals) (c c' : Core) (s : Rsp) (op : Uop) : StackEvent where
  op := op
  before := s.value
  after := (s.after op).value
  stackpointer := c.ex.stackpointer
  stackpointer' := c'.ex.stackpointer
  redirect := if c'.nxt.changeRIP then some c'.nxt.newRIP else none
  store := if drivesWrite op.opcode then some (c'.nxt.dAddr, c'.nxt.dDout) else none
  load := if reads op.opcode then readAddr c.ex.op else none
  word := cur.dData

/-- The events as calls and returns through a stack in memory. -/
def stackView : CallStack.View StackEvent Word Word where
  kind e :=
    match e.op.opcode with
    | .call => .call
    | .ret => .ret
    | _ => .plain
  before := StackEvent.before
  after := StackEvent.after
  stores := StackEvent.store
  loads := StackEvent.load
  word := StackEvent.word
  link e := e.op.nextAddr

/-- What a call and a return have to do: the events are sound, a return sends the fetch to the
word it has read and `stackpointer` along with RSP, and a call finds RSP in `stackpointer`, if it
was set. -/
structure EventRight (e : StackEvent) : Prop where
  sound : stackView.Sound (· - 8) (· + 8) e
  ret : e.op.opcode = .ret → e.redirect = some e.word ∧ e.stackpointer' = e.after
  call : e.op.opcode = .call → e.stackpointer ≠ 0 → e.stackpointer = e.before

/-- The return goes behind its call, and leaves the stack pointer from before it. -/
def Returns (p : StackEvent × StackEvent) : Prop :=
  p.2.redirect = some p.1.op.nextAddr ∧ p.2.stackpointer' = p.1.before ∧
    (p.1.stackpointer ≠ 0 → p.2.stackpointer' = p.1.stackpointer)

instance (p : StackEvent × StackEvent) : Decidable (Returns p) :=
  inferInstanceAs (Decidable (_ ∧ _ ∧ (_ → _)))

section Events

variable {e : StackEvent}

theorem kind_eq_call : stackView.kind e = .call ↔ e.op.opcode = .call := by
  rw [stackView]
  dsimp only
  split
  · next hop => exact ⟨fun _ ↦ hop, fun _ ↦ rfl⟩
  · next hop => exact ⟨Kind.noConfusion, fun hcall ↦ Mnemonic.noConfusion (hop.symm.trans hcall)⟩
  · next hcall _ => exact ⟨Kind.noConfusion, fun h ↦ absurd h hcall⟩

theorem kind_eq_ret : stackView.kind e = .ret ↔ e.op.opcode = .ret := by
  rw [stackView]
  dsimp only
  split
  · next hop => exact ⟨Kind.noConfusion, fun hret ↦ Mnemonic.noConfusion (hop.symm.trans hret)⟩
  · next hop => exact ⟨fun _ ↦ hop, fun _ ↦ rfl⟩
  · next _ hret => exact ⟨Kind.noConfusion, fun h ↦ absurd h hret⟩

/-- Neither a call nor a return. -/
theorem EventRight.of_plain (hcall : e.op.opcode ≠ .call) (hret : e.op.opcode ≠ .ret) :
    EventRight e :=
  ⟨⟨fun h ↦ absurd (kind_eq_call.mp h) hcall, fun h ↦ absurd (kind_eq_ret.mp h) hret⟩,
    fun h ↦ absurd h hret, fun h ↦ absurd h hcall⟩

theorem EventRight.of_call (hop : e.op.opcode = .call) (hafter : e.after = e.before - 8)
    (hstore : e.store = some (e.after, e.op.nextAddr))
    (hsp : e.stackpointer ≠ 0 → e.stackpointer = e.before) : EventRight e := by
  have hret : e.op.opcode ≠ .ret := fun hret ↦ Mnemonic.noConfusion (hop.symm.trans hret)
  exact ⟨⟨fun _ ↦ ⟨hafter, hstore⟩, fun h ↦ absurd (kind_eq_ret.mp h) hret⟩,
    fun h ↦ absurd h hret, fun _ ↦ hsp⟩

theorem EventRight.of_ret (hop : e.op.opcode = .ret) (hafter : e.after = e.before + 8)
    (hload : e.load = some e.before) (hstore : e.store = none)
    (hredirect : e.redirect = some e.word)
    (hsp : e.stackpointer' = e.after) : EventRight e := by
  have hcall : e.op.opcode ≠ .call := fun hcall ↦ Mnemonic.noConfusion (hop.symm.trans hcall)
  exact ⟨⟨fun h ↦ absurd (kind_eq_call.mp h) hcall, fun _ ↦ ⟨hafter, hload, hstore⟩⟩,
    fun _ ↦ ⟨hredirect, hsp⟩, fun h ↦ absurd h hcall⟩

/-- **Calls and returns nest**, wherever in a log of events that are right. -/
theorem returns_of_matched {log pre es post : List StackEvent} (hright : ∀ e ∈ log, EventRight e)
    (hlog : log = pre ++ es ++ post) (hloads : stackView.LoadsLatest (fun _ ↦ none) log)
    (hnested : stackView.Nested [] es) : ∀ p ∈ stackView.matched [] es, Returns p := by
  have hes : ∀ e ∈ es, EventRight e := by
    intro e he
    refine hright e ?_
    rw [hlog, List.append_assoc]
    exact List.mem_append_right _ (List.mem_append_left _ he)
  rw [hlog, CallStack.View.loadsLatest_append, CallStack.View.loadsLatest_append] at hloads
  obtain ⟨⟨-, hloads⟩, -⟩ := hloads
  intro p hp
  obtain ⟨hword, hafter⟩ := CallStack.View.matched_returns (fun a ↦ BitVec.sub_add_cancel a 8)
    (fun e he ↦ (hes e he).sound) (List.forall_mem_nil _) hnested hloads p hp
  obtain ⟨hcall, hret, hretKind⟩ := CallStack.View.mem_matched hp
  obtain ⟨hcall, hcallKind⟩ := hcall.resolve_left List.not_mem_nil
  obtain ⟨hredirect, hsp⟩ := (hes p.2 hret).ret (kind_eq_ret.mp hretKind)
  have hback : p.2.stackpointer' = p.1.before := hsp.trans hafter
  refine ⟨hredirect.trans (congrArg some hword), hback, fun hset ↦ ?_⟩
  rw [hback, (hes p.1 hcall).call (kind_eq_call.mp hcallKind) hset]

end Events

/-! ## The monitor -/

/-- RSP and the log. -/
structure CallLog where
  rsp : Rsp
  log : List StackEvent

/-- How the monitor follows an activation of `Execute`. -/
def CallLog.follow (cur : Signals) (c c' : Core) (t : CallLog) : CallLog :=
  (completed c c').foldl (fun t op ↦ ⟨t.rsp.after op, t.log ++ [.of cur c c' t.rsp op]⟩) t

/-- What holds between two activations. -/
structure CallLogInv (c : Core) (t : CallLog) : Prop where
  stack : StackInv c t.rsp
  log : ∀ e ∈ t.log, EventRight e

section Acts

variable {cur : Signals} {c c' : Core} {s : Rsp}

/-- A call puts the address to come back to on the data port. -/
theorem switchOp_call {inp : CycleInput} {op op' : Uop} {c₂ : Core} (hcall : op.opcode = .call)
    (hswitch : Execute.switchOp inp op c = some (op', c₂)) :
    op' = { op with value3 := op.value3 - 8 } ∧ c₂.nxt.dAddr = op.value3 - 8 ∧
      c₂.nxt.dDout = op.nextAddr := by
  have hport : ∀ (op : Uop) (c : Core), (Execute.doJump op c).nxt.dAddr = c.nxt.dAddr ∧
      (Execute.doJump op c).nxt.dDout = c.nxt.dDout := by
    intro op c
    rw [Execute.doJump]
    split <;> exact ⟨rfl, rfl⟩
  rw [Execute.switchOp] at hswitch
  split at hswitch
  case h_2 =>
    obtain ⟨rfl, rfl⟩ := Prod.mk.inj (Option.some.inj hswitch)
    exact ⟨rfl, hport _ _⟩
  all_goals simp_all

/-- The event of a call. -/
theorem eventRight_call {inp : CycleInput} {c₁ c₂ : Core} {op op' : Uop} (h : StackReady c c₁ s op)
    (hcall : op.opcode = .call) (hswitch : Execute.switchOp inp op c₁ = some (op', c₂)) :
    EventRight (.of cur c (Execute.finish op' c₂) s op') := by
  have hvalue3 : op.value3 = s.value := h.gets.value3 (h.filled.stack (by rw [hcall]; rfl))
  obtain ⟨rfl, haddr, hdout⟩ := switchOp_call hcall hswitch
  have hafter : s.after { op with value3 := op.value3 - 8 } = ⟨s.value - 8, true⟩ :=
    Rsp.after_of_usesStack (by rw [hcall]; rfl) (by rw [hcall]; rfl)
  refine .of_call hcall (congrArg Rsp.value hafter) ?_ fun hset ↦ h.inv.stackpointer hset
  rw [StackEvent.of]
  dsimp only
  rw [hafter, if_pos (by rw [hcall]; rfl), Execute.finish_nxt, ← hvalue3, haddr, hdout]
  rfl

/-- The event of a return. -/
theorem eventRight_ret {op : Uop} (hop : op.opcode = .ret) (hread : c.ex.op.opcode = .ret)
    (hvalue3 : c.ex.op.value3 = s.value) (hchange : c'.nxt.changeRIP = true)
    (hrip : c'.nxt.newRIP = cur.dData) (hsp : c'.ex.stackpointer = c.ex.op.value3 + 8) :
    EventRight (.of cur c c' s op) := by
  have hafter : s.after op = ⟨s.value + 8, true⟩ := by
    rw [Rsp.after]
    simp only [hop]
  have hload : readAddr c.ex.op = some s.value := by
    rw [readAddr, ← hvalue3]
    simp only [hread]
  have hreads : reads op.opcode = true := by rw [hop]; rfl
  have hwrites : ¬drivesWrite op.opcode = true := by rw [hop]; exact Bool.noConfusion
  refine .of_ret hop (congrArg Rsp.value hafter) ((if_pos hreads).trans hload) (if_neg hwrites)
    ((if_pos hchange).trans (congrArg some hrip)) ?_
  rw [StackEvent.of]
  dsimp only
  rw [hsp, hafter, hvalue3]

/-- The event of the uop that was run. -/
theorem StackReady.eventRight {inp : CycleInput} {c₁ : Core} {op o : Uop} (h : StackReady c c₁ s o)
    (hew : (Execute.runOp inp o c₁).ewUopQueue = c.ewUopQueue ++ [op]) :
    EventRight (.of cur c (Execute.runOp inp o c₁) s op) := by
  have hsame : c.ewUopQueue ≠ c.ewUopQueue ++ [op] := fun heq ↦
    List.cons_ne_nil _ _ (List.append_right_eq_self.mp heq.symm)
  have hran := Execute.runOp_ran inp o c₁
  generalize Execute.runOp inp o c₁ = c' at hran hew ⊢
  cases hran with
  | read addr hreads => exact absurd (h.ewUopQueue.symm.trans hew) hsame
  | died => exact absurd (h.ewUopQueue.symm.trans hew) hsame
  | finished op' c₂ hreads hswitch =>
    obtain ⟨hopcode, hkept⟩ := Execute.switchOp_kept hswitch
    have hop : op = op' := by
      rw [Execute.finish_ewUopQueue, hkept.ewUopQueue, h.ewUopQueue] at hew
      exact (List.cons.inj (List.append_cancel_left hew)).1.symm
    subst hop
    by_cases hcall : o.opcode = .call
    · exact eventRight_call h hcall hswitch
    · refine .of_plain (fun hc ↦ hcall (hopcode.opcode.symm.trans hc)) fun hr ↦ ?_
      rw [hopcode.opcode.symm.trans hr] at hreads
      cases hreads

/-- **The event of a completed uop is right.** -/
theorem StackInv.eventRight {inp : CycleInput} {op : Uop} (h : StackInv c s) (hshaped : Shaped c)
    (hmeets : StackMeets cur s c)
    (hew : (Execute.work inp cur c).ewUopQueue = c.ewUopQueue ++ [op]) :
    EventRight (.of cur c (Execute.work inp cur c) s op) := by
  have hwork := Execute.work_outcome inp cur c
  unfold StackMeets at hmeets
  generalize Execute.work inp cur c = c' at hwork hew ⊢
  generalize Execute.issued cur c = ran at hwork hmeets
  -- the cases that complete no uop are void
  have hsame : c'.ewUopQueue ≠ c.ewUopQueue := by
    rw [hew]
    exact fun h ↦ List.cons_ne_nil _ _ (List.append_right_eq_self.mp h)
  have hop : ∀ {o : Uop}, c'.ewUopQueue = c.ewUopQueue ++ [o] → op = o := fun ho ↦
    (List.cons.inj (List.append_cancel_left (hew.symm.trans ho))).1
  cases hwork with
  | idle => exact absurd rfl hsame
  | cleared => exact absurd rfl hsame
  | ret hclear hstate hready hopcode htag =>
    obtain rfl := hop rfl
    exact eventRight_ret hopcode hopcode (h.reading hstate (by rw [hopcode]; rfl)).1 rfl rfl rfl
  | pop hclear hstate hready hopcode htag =>
    obtain rfl := hop rfl
    exact .of_plain (fun hcall ↦ Mnemonic.noConfusion (hopcode.symm.trans hcall))
      (fun hret ↦ Mnemonic.noConfusion (hopcode.symm.trans hret))
  | load hclear hstate hready hopcode htag =>
    obtain rfl := hop rfl
    exact .of_plain (fun hcall ↦ Mnemonic.noConfusion (hopcode.symm.trans hcall))
      (fun hret ↦ Mnemonic.noConfusion (hopcode.symm.trans hret))
  | dropped front rest hclear hwait hde hunexp htakes => exact absurd rfl hsame
  | ran front rest hclear hwait hlength hde hexp htakes =>
    exact (h.ready hshaped hwait hde (hmeets htakes)).eventRight hew

/-- An activation of `Execute` adds at most one event to the log. -/
theorem CallLogInv.execute {t : CallLog} (inp : CycleInput) (h : CallLogInv c t)
    (hshaped : Shaped c)
    (hmeets : StackMeets cur t.rsp c) : (Execute.work inp cur c).aborted = true ∨
      CallLogInv (Execute.work inp cur c) (t.follow cur c (Execute.work inp cur c)) := by
  refine (h.stack.execute inp hshaped hmeets).imp id fun hstep ↦ ?_
  rw [CallLog.follow]
  cases hstep with
  | same hew hregfile hinv =>
    rw [foldl_completed_same _ _ hew]
    exact ⟨hinv, h.log⟩
  | appended op hew hregfile hfollows hinv =>
    rw [foldl_completed_append _ _ hew]
    refine ⟨hinv, List.forall_mem_append.mpr ⟨h.log, List.forall_mem_singleton.mpr ?_⟩⟩
    exact h.stack.eventRight hshaped hmeets hew

end Acts

/-! ## Runs -/

/-- The monitor that keeps the log. -/
def callLogMonitor : Monitor CallLog where
  follow _ cur c c' t := t.follow cur c c'
  meets
    | .execute, cur, c, t => decide (StackMeets cur t.rsp c)
    | _, _, _, _ => true
  right _ _ _ _ := true

theorem callLogMonitor_keeps : callLogMonitor.Keeps CallLogInv where
  deliver := fun _ h us ready ↦ ⟨h.stack.deliver us ready, h.log⟩
  dispatch := fun _ h _ ↦ ⟨h.stack.dispatch _, h.log⟩
  execute := fun inp hshaped h hmeets ↦ h.execute inp hshaped (of_decide_eq_true hmeets)
  writeback := fun _ h _ ↦ ⟨h.stack.writeback _, h.log⟩
  right := fun _ _ _ ↦ rfl

/-- A run from reset, with its log. -/
def callRun (regs : Gpr → Word) (eflags : Eflags) (m : Mem) (expectedAddr : Word) (op : Uop)
    (cs : Cycles (List Insn)) : Monitored CallLog :=
  callLogMonitor.run cs
    (Monitor.start (Core.boot regs eflags m (.init expectedAddr op)) ⟨.start (regs .rsp), []⟩)

/-- **Calls and returns nest.** In every run in which each step meets the condition, under any
order of the stages: where the loads get the latest stores and a part of the log is well nested,
every return in it has its call, sends the fetch behind it and leaves the stack pointer from
before it. -/
theorem calls_nest (regs : Gpr → Word) (eflags : Eflags) (m : Mem) (expectedAddr : Word) (op : Uop)
    (cs : Cycles (List Insn)) (hmet : (callRun regs eflags m expectedAddr op cs).met = true)
    {pre es post : List StackEvent}
    (hlog : (callRun regs eflags m expectedAddr op cs).seen.log = pre ++ es ++ post)
    (hloads :
      stackView.LoadsLatest (fun _ ↦ none) (callRun regs eflags m expectedAddr op cs).seen.log)
    (hnested : stackView.Nested [] es) :
    (callRun regs eflags m expectedAddr op cs).pipe.core.aborted = true ∨
      (∀ r ∈ es, r.op.opcode = .ret → ∃ c, (c, r) ∈ stackView.matched [] es) ∧
        ∀ p ∈ stackView.matched [] es, Returns p := by
  have hinv :
      CallLogInv (Core.boot regs eflags m (.init expectedAddr op)) ⟨.start (regs .rsp), []⟩ :=
    ⟨stackInv_boot regs eflags m expectedAddr op, List.forall_mem_nil _⟩
  obtain ⟨-, hend⟩ := Monitor.run_right callLogMonitor_keeps
    (shaped_boot regs eflags m expectedAddr op) hinv cs hmet
  refine hend.imp id fun hend ↦ ⟨fun r hr hret ↦ ?_, ?_⟩
  · exact hnested.exists_matched r hr (kind_eq_ret.mpr hret)
  · exact returns_of_matched hend.log hlog hloads hnested

/-! ## Two runs -/

private def nestInsn (mnemonic : Mnemonic) (operand : Decoder.Operand) (address : Word) (size : ℕ)
    (h : mnemonic ≠ .load ∧ mnemonic ≠ .store) : Insn :=
  ⟨⟨mnemonic, operand, .none, .none⟩, address, size, fun _ ↦ ⟨0, 0, 0⟩, h⟩

private def nestGpr (g : Gpr) : Decoder.Operand :=
  { Decoder.Operand.none with type := .reg, size := 64, base := .gpr g }

/-- One cycle in which the decoder delivers these instructions and the memory answers for this
address with this word. -/
private def answering (is : List Insn) (addr : BitVec 32) (word : Word) :
    Schedule.Cycle (Input (List Insn)) stages :=
  ⟨⟨is, true, true, addr, word, CycleInput.zero⟩,
    [.writeback, .execute, .dispatch, .decode], writebackFirst_perm⟩

/-- RSP is 0x1000; RBX and RCX hold the addresses of two functions. -/
private def nestRun (cs : Cycles (List Insn)) : Monitored CallLog :=
  callRun (fun | .rsp => 0x1000 | .rbx => 0x2000 | .rcx => 0x3000 | _ => 0)
    ⟨0⟩ (fun _ ↦ 0) 0 Uop.zero cs

private def nestCallRbx (rest : Cycles (List Insn)) : Cycles (List Insn) :=
  [answering [nestInsn .call (nestGpr .rbx) 0x100 2 (by decide)] 0 0] ++
    List.replicate 5 (answering [] 0 0) ++ rest

/-- `call rbx`, with `push [rsp + 8]; pop rax; ret` at its target. -/
private def pushedCycles : Cycles (List Insn) := nestCallRbx <|
  [answering [nestInsn .push ⟨.mem, 64, .gpr .rsp, .none, 0, 8, 8⟩ 0x2000 4 (by decide),
    nestInsn .pop (nestGpr .rax) 0x2004 1 (by decide),
    nestInsn .ret .none 0x2005 1 (by decide)] 0 0] ++
  List.replicate 8 (answering [] 0x1000 7) ++ List.replicate 6 (answering [] 0xff8 0x102) ++
  List.replicate 6 (answering [] 0x1000 7)

/-- The body is balanced, and it stores nothing where the return address is. But the second
register of the `push` is RSP, which takes `stackpointer` back, so the `pop` gets the return
address and the `ret` the word behind it. -/
theorem not_calls_nest_push :
    stackView.Nested [] (nestRun pushedCycles).seen.log ∧
      stackView.LoadsLatest (fun _ ↦ none) (nestRun pushedCycles).seen.log ∧
      (nestRun pushedCycles).pipe.core.aborted = false ∧
      ((stackView.matched [] (nestRun pushedCycles).seen.log).map fun p ↦
        (p.1.op.nextAddr, p.2.redirect, p.1.before, p.2.stackpointer')) =
          [(0x102, some 7, 0x1000, 0x1008)] ∧
      ¬∀ p ∈ stackView.matched [] (nestRun pushedCycles).seen.log, Returns p := by
  decide +kernel

/-- `call rbx`, with `call rcx; ret` at its target and `ret` at the other one's. -/
private def nestedCycles : Cycles (List Insn) := nestCallRbx <|
  [answering [nestInsn .call (nestGpr .rcx) 0x2000 2 (by decide)] 0 0] ++
  List.replicate 5 (answering [] 0 0) ++
  [answering [nestInsn .ret .none 0x3000 1 (by decide)] 0 0] ++
  List.replicate 6 (answering [] 0xff0 0x2002) ++
  [answering [nestInsn .ret .none 0x2002 1 (by decide)] 0 0] ++
  List.replicate 6 (answering [] 0xff8 0x102)

theorem calls_nest_nested :
    (nestRun nestedCycles).met = true ∧
      (stackView.matched [] (nestRun nestedCycles).seen.log).length = 2 ∧
      ((nestRun nestedCycles).pipe.core.aborted = true ∨
        (∀ r ∈ (nestRun nestedCycles).seen.log, r.op.opcode = .ret →
          ∃ c, (c, r) ∈ stackView.matched [] (nestRun nestedCycles).seen.log) ∧
        ∀ p ∈ stackView.matched [] (nestRun nestedCycles).seen.log, Returns p) := by
  have hmet : (nestRun nestedCycles).met = true := by decide +kernel
  have hloads : stackView.LoadsLatest (fun _ ↦ none) (nestRun nestedCycles).seen.log := by
    decide +kernel
  have hnested : stackView.Nested [] (nestRun nestedCycles).seen.log := by decide +kernel
  have hlog : (nestRun nestedCycles).seen.log = [] ++ (nestRun nestedCycles).seen.log ++ [] :=
    (List.append_nil _).symm
  exact ⟨hmet, by decide +kernel, calls_nest _ _ _ _ _ nestedCycles hmet hlog hloads hnested⟩

end Cse502.Pipeline
