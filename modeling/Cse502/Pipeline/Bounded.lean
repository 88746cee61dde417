import Cse502.Model.ExecuteRuns
import Cse502.Pipeline.Stages

/-!
# The buffers behind `Dispatch` and `Execute` are bounded

`Execute` pushes to `ew_uop_queue` on four paths and looks at its size on one of them only. The
other three end a wait for the memory, and the wait began after the size was looked at: in
`STATE_READ` the queue holds one uop at most, and nothing but the answer can add to it. So it never
holds more than two, whatever the stages do in the meantime.

`Dispatch` fills `de_uop_queue` only when it is empty, and with uops of one instruction.
-/

namespace Cse502.Execute

/-! ## The uops that are completed -/

/-- The uop that waits, once its word has arrived under its tag. -/
def answered (cur : Signals) (ex : Execute) : Option Uop :=
  if !cur.dReady then none
  else match ex.op.opcode with
    | .ret =>
      if cur.dTagout.signExtend 64 ≠ ex.op.value3 then none
      else some { ex.op with value3 := ex.op.value3 + 8 }
    | .pop =>
      if cur.dTagout.signExtend 64 ≠ ex.op.value3 then none
      else some { ex.op with value2 := cur.dData, value3 := ex.op.value3 + 8 }
    | .load =>
      if cur.dTagout.signExtend 64 ≠ ex.op.value1 then none
      else some { ex.op with value2 := cur.dData }
    | _ => none

/-- The uop whose execution this activation ends, as it is then: the one that was issued, if it does
not wait and the host process survives it, or the one that waits. -/
def completed (inp : CycleInput) (cur : Signals) (c : Core) : Option Uop :=
  match issued cur c, c.deUopQueue with
  | some op, front :: _ =>
    if reads op.opcode then none
    else (switchOp inp op { select front (start c) with ex.firstrun := false }).map Prod.fst
  | _, _ =>
    if cur.reset || cur.clear || c.ex.state != .read then none else answered cur c.ex

section Completed

variable {inp : CycleInput} {cur : Signals} {c : Core}

theorem completed_of_none (h : issued cur c = none) :
    completed inp cur c =
      if cur.reset || cur.clear || c.ex.state != .read then none else answered cur c.ex := by
  rw [completed, h]

/-- An answer ends the wait of a uop that reads. -/
private theorem answered_of_not_waiting (hstate : c.ex.state = .read)
    (hwait : waiting cur c.ex = false) : answered cur c.ex = none := by
  rw [waiting, hstate, beq_self_eq_true, Bool.true_and, Bool.or_eq_false_iff,
    Bool.or_eq_false_iff, Bool.or_eq_false_iff] at hwait
  obtain ⟨⟨⟨hready, hret⟩, hpop⟩, hload⟩ := hwait
  rw [answered, hready]
  split
  · rfl
  · split
    · next hop => rw [hop] at hret; cases hret
    · next hop => rw [hop] at hpop; cases hpop
    · next hop => rw [hop] at hload; cases hload
    · rfl

/-- In `STATE_READ`. -/
private theorem waiting_pushes (hreset : cur.reset = false) (hclear : cur.clear = false)
    (hwait : waiting cur c.ex = true) :
    (work inp cur c).ewUopQueue = c.ewUopQueue ++ (completed inp cur c).toList := by
  have hissued : issued cur c = none := by
    rw [issued, hwait, Bool.or_true]
    rfl
  rw [waiting, Bool.and_eq_true, beq_iff_eq] at hwait
  obtain ⟨hstate, hwait⟩ := hwait
  rw [completed_of_none hissued, hreset, hclear, hstate, work, hreset, hclear, answered]
  dsimp only
  rw [if_neg Bool.false_ne_true, if_neg Bool.false_ne_true, if_pos hstate,
    if_neg (by decide : ¬(false || false || ExecState.read != .read) = true)]
  cases hready : cur.dReady with
  | false => exact (List.append_nil _).symm
  | true =>
    have hop : c.ex.op.opcode = .ret ∨ c.ex.op.opcode = .pop ∨ c.ex.op.opcode = .load := by
      simpa [hready, or_assoc] using hwait
    rcases hop with hop | hop | hop
    all_goals
      simp only [hop, Bool.not_true, Bool.false_eq_true, if_false]
      split_ifs
      · exact (List.append_nil _).symm
      · rw [← hop]
        rfl

/-- Running a uop pushes it unless it waits or the process dies. -/
private theorem runOp_pushes (inp : CycleInput) (op : Uop) (c : Core) :
    (runOp inp op c).ewUopQueue = c.ewUopQueue ++
      (if reads op.opcode then none else (switchOp inp op c).map Prod.fst).toList := by
  rw [runOp]
  split
  iterate 3
    · next hop =>
      rw [if_pos (by rw [hop]; rfl)]
      exact (List.append_nil _).symm
  · next hret hpop hload =>
    have hreads : ¬reads op.opcode = true := by
      rw [reads, beq_eq_false_iff_ne.mpr hret, beq_eq_false_iff_ne.mpr hpop,
        beq_eq_false_iff_ne.mpr hload]
      exact Bool.false_ne_true
    rw [if_neg hreads]
    split
    · next hswitch =>
      rw [hswitch]
      exact (List.append_nil _).symm
    · next op' c' hswitch =>
      rw [hswitch, finish_ewUopQueue, (switchOp_kept hswitch).2.ewUopQueue]
      rfl

/-- **Every activation of `Execute` pushes the uop it completes, and nothing else.** -/
theorem work_pushes (inp : CycleInput) (cur : Signals) (c : Core) :
    (work inp cur c).ewUopQueue = c.ewUopQueue ++ (completed inp cur c).toList := by
  by_cases hskip : cur.reset = true ∨ cur.clear = true
  · -- nothing is looked at
    have hissued : issued cur c = none := by
      rw [issued]
      rcases hskip with h | h <;> simp [h]
    have hcompleted : completed inp cur c = none := by
      rw [completed_of_none hissued]
      rcases hskip with h | h <;> simp [h]
    rw [hcompleted, Option.toList_none, List.append_nil]
    by_cases hreset : cur.reset = true
    · rw [work, if_pos hreset]
    · have hclear : cur.clear = true := hskip.resolve_left hreset
      have hwork := work_outcome inp cur c
      rw [hissued] at hwork
      generalize work inp cur c = c' at hwork ⊢
      cases hwork with
      | idle => rfl
      | cleared => rfl
      | ret h | pop h | load h => rw [h] at hclear; cases hclear
      | dropped front rest h => rw [h] at hclear; cases hclear
  rw [not_or, Bool.not_eq_true, Bool.not_eq_true] at hskip
  obtain ⟨hreset, hclear⟩ := hskip
  by_cases hwait : waiting cur c.ex = true
  · exact waiting_pushes hreset hclear hwait
  rw [Bool.not_eq_true] at hwait
  -- what is not issued is not answered either
  have hnone : issued cur c = none → completed inp cur c = none := by
    intro hissued
    rw [completed_of_none hissued]
    split_ifs with h
    · rfl
    · refine answered_of_not_waiting ?_ hwait
      rw [Bool.or_eq_true, not_or, bne_iff_ne, not_not] at h
      exact h.2
  have hcompleted : ∀ front rest op, c.deUopQueue = front :: rest → issued cur c = some op →
      completed inp cur c =
        if reads op.opcode then none
        else
          (switchOp inp op { select front (start c) with ex.firstrun := false }).map Prod.fst := by
    intro front rest op hde hissued
    rw [completed, hissued, hde]
  have hwork := work_outcome inp cur c
  generalize work inp cur c = c' at hwork ⊢
  generalize hissued : issued cur c = ran at hwork hnone hcompleted
  cases hwork with
  | idle | cleared | dropped =>
    rw [hnone rfl]
    exact (List.append_nil _).symm
  | ret h hstate hready hop | pop h hstate hready hop | load h hstate hready hop =>
    simp [waiting, hstate, hop] at hwait
  | ran front rest h hwait hew hde =>
    rw [hcompleted front rest _ hde rfl]
    exact runOp_pushes inp _ _

/-- The size is looked at before a uop is issued. -/
theorem length_of_issued {op : Uop} (h : issued cur c = some op) : c.ewUopQueue.length ≤ 1 := by
  rw [issued] at h
  by_contra hlen
  rw [decide_eq_true (by omega : 1 < c.ewUopQueue.length), Bool.or_true, if_pos rfl] at h
  cases h

/-- A uop is completed only when there is room for it. -/
theorem length_of_completed {op : Uop} (hread : c.ex.state = .read → c.ewUopQueue.length ≤ 1)
    (h : completed inp cur c = some op) : c.ewUopQueue.length ≤ 1 := by
  cases hissued : issued cur c with
  | some op' => exact length_of_issued hissued
  | none =>
    rw [completed_of_none hissued] at h
    split_ifs at h with hstate
    rw [Bool.or_eq_true, not_or, bne_iff_ne, not_not] at hstate
    exact hread hstate.2

end Completed

/-! ## The uops that stay -/

theorem mem_patchLoop {ex : Execute} {a : Word} {us : List Uop} {u : Uop}
    (h : u ∈ patchLoop ex a us) : ∃ v ∈ us, u.address = v.address := by
  induction us with
  | nil => cases h
  | cons v us ih =>
    rw [patchLoop] at h
    split_ifs at h
    · rcases List.mem_cons.mp h with rfl | h
      · refine ⟨v, List.mem_cons_self, ?_⟩
        rw [patchUop]
        split_ifs <;> rfl
      · obtain ⟨w, hw, haddr⟩ := ih h
        exact ⟨w, List.mem_cons_of_mem v hw, haddr⟩
    · exact ⟨u, h, rfl⟩

/-- `Execute` adds no address to its queue. -/
theorem mem_work_deUopQueue {inp : CycleInput} {cur : Signals} {c : Core} {u : Uop}
    (h : u ∈ (work inp cur c).deUopQueue) : ∃ v ∈ c.deUopQueue, u.address = v.address := by
  have hselect : ∀ front, u ∈ (select front (start c)).deUopQueue →
      ∃ v ∈ c.deUopQueue, u.address = v.address := fun front hu ↦ mem_patchLoop hu
  have hwork := work_outcome inp cur c
  generalize work inp cur c = c' at h hwork
  generalize issued cur c = ran at hwork
  cases hwork with
  | idle => exact ⟨u, h, rfl⟩
  | cleared => cases h
  | ret | pop | load => exact ⟨u, List.mem_of_mem_tail h, rfl⟩
  | dropped front => exact hselect front (List.mem_of_mem_tail h)
  | ran front =>
    have hran := runOp_ran inp (forward c.ex c.offsetregValue front)
      { select front (start c) with ex.firstrun := false }
    generalize runOp inp (forward c.ex c.offsetregValue front)
      { select front (start c) with ex.firstrun := false } = c' at h hran
    cases hran with
    | read addr hreads => exact hselect front h
    | died => exact hselect front h
    | finished op' c' hreads hswitch =>
      rw [finish_deUopQueue, (switchOp_kept hswitch).2.deUopQueue] at h
      exact hselect front (List.mem_of_mem_tail h)

/-- **A wait begins with room in the queue**, and nothing is pushed while it lasts. -/
theorem length_of_read {inp : CycleInput} {cur : Signals} {c : Core}
    (hread : c.ex.state = .read → reads c.ex.op.opcode = true ∧ c.ewUopQueue.length ≤ 1)
    (h : (work inp cur c).ex.state = .read) :
    reads (work inp cur c).ex.op.opcode = true ∧ (work inp cur c).ewUopQueue.length ≤ 1 := by
  have hbusy : ¬(waiting cur c.ex = false ∧ c.ex.state = .read) := by
    rintro ⟨hwait, hstate⟩
    exact absurd (hwait.symm.trans (waiting_of_reads hstate (hread hstate).1)) Bool.noConfusion
  have hwork := work_outcome inp cur c
  generalize work inp cur c = c' at h hwork ⊢
  generalize issued cur c = ran at hwork
  cases hwork with
  | idle | cleared => exact hread h
  | ret | pop | load => cases h
  | dropped front rest hclear hwait => exact absurd ⟨hwait, h⟩ hbusy
  | ran front rest hclear hwait hew =>
    have hran := runOp_ran inp (forward c.ex c.offsetregValue front)
      { select front (start c) with ex.firstrun := false }
    generalize runOp inp (forward c.ex c.offsetregValue front)
      { select front (start c) with ex.firstrun := false } = c' at h hran ⊢
    cases hran with
    | read addr hreads => exact ⟨hreads, hew⟩
    | died => exact absurd ⟨hwait, h⟩ hbusy
    | finished op' c' hreads hswitch =>
      rw [finish_state, (switchOp_kept hswitch).2.state] at h
      exact absurd ⟨hwait, h⟩ hbusy

end Cse502.Execute

namespace Cse502.Pipeline

open Execute (completed reads)

variable {F D : Type*} (deliver : D → Signals → F → List Uop × F)

/-! ## The pipeline with a record of what was executed -/

/-- The pipeline and the uops whose execution has ended, in order. -/
structure Recorded (F : Type*) where
  pipe : Pipe F
  executed : List Uop

/-- One process of one cycle. -/
def recordAct (i : Input D) (st : Stage) (r : Recorded F) : Recorded F where
  pipe := act deliver i st r.pipe
  executed := match st with
    | .execute => r.executed ++ (completed i.cycle r.pipe.cur r.pipe.core).toList
    | _ => r.executed

/-- The end of a cycle. -/
def recordCommit (i : Input D) (r : Recorded F) : Recorded F := { r with pipe := commit i r.pipe }

/-- A run of the pipeline with its record. -/
def recordRun (cs : Cycles D) (r : Recorded F) : Recorded F :=
  Schedule.run (recordAct deliver) recordCommit cs r

/-- The record leaves the pipeline alone. -/
theorem recordRun_pipe (cs : Cycles D) (r : Recorded F) :
    (recordRun deliver cs r).pipe = run deliver cs r.pipe :=
  Schedule.run_map (f := Recorded.pipe) (fun _ _ _ ↦ rfl) (fun _ _ ↦ rfl) cs r

/-! ## The invariant -/

/-- What the queues hold. -/
structure Bounded (r : Recorded F) : Prop where
  length : r.pipe.core.ewUopQueue.length ≤ 2
  reading : r.pipe.core.ex.state = .read →
    reads r.pipe.core.ex.op.opcode = true ∧ r.pipe.core.ewUopQueue.length ≤ 1
  recent : r.pipe.core.ewUopQueue <:+ r.executed
  same : ∃ a, ∀ u ∈ r.pipe.core.deUopQueue, u.address = a

variable {deliver} {i : Input D} {r : Recorded F}

theorem Bounded.dispatch (h : Bounded r) : Bounded (recordAct deliver i .dispatch r) := by
  obtain ⟨hlength, hreading, hrecent, hsame⟩ := h
  have hwork := Dispatch.work_outcome r.pipe.cur r.pipe.core
  simp only [recordAct, act]
  generalize Dispatch.work r.pipe.cur r.pipe.core = c' at hwork ⊢
  cases hwork with
  | idle => exact ⟨hlength, hreading, hrecent, hsame⟩
  | cleared => exact ⟨hlength, hreading, hrecent, hsame⟩
  | moved front rest k hclear hdd hde haddr =>
    refine ⟨hlength, hreading, hrecent, front.address, ?_⟩
    intro u hu
    obtain ⟨v, hv, rfl⟩ := List.mem_map.mp hu
    rw [Dispatch.readOperands_address]
    rcases List.mem_cons.mp hv with rfl | hv
    · rfl
    · exact haddr v hv

theorem Bounded.writeback (h : Bounded r) : Bounded (recordAct deliver i .writeback r) := by
  obtain ⟨hlength, hreading, hrecent, hsame⟩ := h
  simp only [recordAct, act]
  rcases Writeback.work_eq r.pipe.cur r.pipe.core with hwork | ⟨op, rest, hew, hwork⟩
  · rw [hwork]
    exact ⟨hlength, hreading, hrecent, hsame⟩
  · rw [hwork]
    rw [hew] at hlength hreading hrecent
    rw [List.length_cons] at hlength hreading
    refine ⟨by dsimp only; omega, fun hstate ↦ ⟨(hreading hstate).1, ?_⟩,
      (List.suffix_cons op rest).trans hrecent, hsame⟩
    have := (hreading hstate).2
    dsimp only
    omega

theorem Bounded.execute (h : Bounded r) : Bounded (recordAct deliver i .execute r) := by
  obtain ⟨hlength, hreading, hrecent, a, hsame⟩ := h
  have hpushes := Execute.work_pushes i.cycle r.pipe.cur r.pipe.core
  constructor
  case length =>
    simp only [recordAct, act]
    rw [hpushes, List.length_append]
    cases hcompleted : completed i.cycle r.pipe.cur r.pipe.core with
    | none => exact hlength
    | some op =>
      have := Execute.length_of_completed (fun hstate ↦ (hreading hstate).2) hcompleted
      rw [Option.toList_some, List.length_singleton]
      omega
  case reading => exact Execute.length_of_read hreading
  case recent =>
    simp only [recordAct, act]
    obtain ⟨before, hbefore⟩ := hrecent
    exact ⟨before, by rw [hpushes, ← hbefore, List.append_assoc]⟩
  case same =>
    refine ⟨a, fun u hu ↦ ?_⟩
    obtain ⟨v, hv, haddr⟩ := Execute.mem_work_deUopQueue hu
    rw [haddr, hsame v hv]

/-- **Every stage keeps the bounds**, whenever it runs. -/
theorem Bounded.act (st : Stage) (h : Bounded r) : Bounded (recordAct deliver i st r) := by
  cases st with
  | decode => exact ⟨h.length, h.reading, h.recent, h.same⟩
  | dispatch => exact h.dispatch
  | execute => exact h.execute
  | writeback => exact h.writeback

theorem Bounded.commit (h : Bounded r) : Bounded (recordCommit i r) :=
  ⟨h.length, h.reading, h.recent, h.same⟩

/-- **The buffers of the pipeline stay bounded.** For every source of uops, every answer of the
memory in every cycle, and every order of the stages: after any number of cycles and any stages of
the next one, `ew_uop_queue` holds two uops at most, they are the last ones executed, in order, and
the uops in `de_uop_queue` have one address. -/
theorem buffers_bounded (deliver : D → Signals → F → List Uop × F) (feed : F) (regs : Gpr → Word)
    (eflags : Eflags) (m : Mem) (expectedAddr : Word) (op : Uop) (cs : Cycles D) (i : Input D)
    (done : List Stage) :
    let c := Core.boot regs eflags m (Execute.init expectedAddr op)
    let r := Schedule.runOrder (recordAct deliver) i done
      (recordRun deliver cs ⟨Pipe.start c feed, []⟩)
    r.pipe.core.ewUopQueue.length ≤ 2 ∧ r.pipe.core.ewUopQueue <:+ r.executed ∧
      ∀ u ∈ r.pipe.core.deUopQueue, ∀ v ∈ r.pipe.core.deUopQueue, u.address = v.address := by
  intro c r
  have hstart : Bounded (⟨Pipe.start c feed, []⟩ : Recorded F) :=
    ⟨Nat.zero_le 2, nofun, List.suffix_refl _, 0, List.forall_mem_nil _⟩
  have hcycles : Bounded (recordRun deliver cs ⟨Pipe.start c feed, []⟩) :=
    Schedule.run_invariant (fun _ st _ h ↦ h.act st) (fun _ _ h ↦ h.commit) hstart cs
  have h : Bounded r := Schedule.runOrder_invariant (fun st _ h ↦ h.act st) done hcycles
  obtain ⟨a, hsame⟩ := h.same
  exact ⟨h.length, h.recent, fun u hu v hv ↦ (hsame u hu).trans (hsame v hv).symm⟩

end Cse502.Pipeline
