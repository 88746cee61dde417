import Cse502.Pipeline.BranchRuns

/-!
# The pipeline never comes to a standstill

Four ready signals and three queues stand between an instruction that was delivered and its
execution. A uop in `de_uop_queue` is executed in the next cycle: `ew_uop_queue` is never full at
the start of a cycle, since `Writeback` is told to retire whenever `Execute` has added to it, and
`Dispatch` raises its signal in the cycle it fills the queue.

## The rank

How far the pipeline is from executing something: `0` if a uop waits in `de_uop_queue`, `1` if one
waits in `dd_uop_queue`, `2` if both are empty, `3` if `clear` is seen. A cycle that executes
nothing never raises the rank and, if the decoder delivers something in it, lowers it.
-/

namespace Cse502.Pipeline

open Execute (issued)

/-! ## Activations that must do something -/

/-- A uop waits, and the queue in front of it is empty. -/
theorem deUopQueue_of_moves {cur : Signals} {c : Core} (hreset : cur.reset = false)
    (hclear : cur.clear = false) (hready : cur.ddOutReady = true) (hdd : c.ddUopQueue ≠ [])
    (hde : c.deUopQueue = []) : (Dispatch.work cur c).deUopQueue ≠ [] := by
  obtain ⟨front, rest, hcons⟩ := List.exists_cons_of_ne_nil hdd
  simp only [Dispatch.work, hreset, hclear, hready, hcons, hde, Bool.false_eq_true, if_false,
    Bool.not_true, List.length_nil, Nat.lt_irrefl]
  rw [Dispatch.loop, if_pos ⟨Nat.succ_pos _, rfl⟩]
  obtain ⟨k, hloop, -⟩ := Dispatch.loop_eq c.regfile front.address 1 rest
    ([] ++ [Dispatch.readOperands c.regfile front])
  rw [hloop]
  simp

/-- An expected uop waits, and there is room behind `Execute`. -/
theorem issued_of_takes {cur : Signals} {c : Core} {front : Uop} {rest : List Uop}
    (hreset : cur.reset = false) (hclear : cur.clear = false) (hstate : c.ex.state = .normal)
    (hready : cur.deOutReady = true) (hew : c.ewUopQueue.length ≤ 1)
    (hde : c.deUopQueue = front :: rest) (hexp : Execute.unexpected c.ex front = false) :
    issued cur c ≠ none := by
  have hwait : Execute.waiting cur c.ex = false := by
    rw [Execute.waiting, hstate]
    rfl
  have hlt : ¬1 < c.ewUopQueue.length := Nat.not_lt.mpr hew
  simp [issued, hreset, hclear, hwait, hready, hlt, hde, hexp]

/-! ## The signal and the queue of the decoder -/

private theorem doJump_ddOutReady (op : Uop) (c : Core) :
    (Execute.doJump op c).nxt.ddOutReady = c.nxt.ddOutReady := by
  rw [Execute.doJump]
  split <;> rfl

private theorem switchOp_ddOutReady {inp : CycleInput} {op op' : Uop} {c c' : Core}
    (h : Execute.switchOp inp op c = some (op', c')) :
    c'.nxt.ddOutReady = c.nxt.ddOutReady := by
  rw [Execute.switchOp] at h
  split at h
  · obtain ⟨c₁, hcall, heq⟩ := Option.map_eq_some_iff.mp h
    obtain ⟨rfl, rfl⟩ := Prod.mk.inj heq
    rw [Execute.doSyscall, Option.map_eq_some_iff] at hcall
    obtain ⟨r, -, rfl⟩ := hcall
    rfl
  · obtain ⟨rfl, rfl⟩ := Prod.mk.inj (Option.some.inj h)
    exact doJump_ddOutReady _ _
  iterate 3
    · obtain ⟨rfl, rfl⟩ := Prod.mk.inj (Option.some.inj h)
      rfl
  iterate 9
    · obtain ⟨rfl, rfl⟩ := Prod.mk.inj (Option.some.inj h)
      split_ifs
      · exact doJump_ddOutReady _ _
      · rfl
  · split_ifs at h
    obtain ⟨rfl, rfl⟩ := Prod.mk.inj (Option.some.inj h)
    rfl

/-- `Execute` drives other signals, and has other queues. -/
theorem execute_dd (inp : CycleInput) (cur : Signals) (c : Core) :
    (Execute.work inp cur c).nxt.ddOutReady = c.nxt.ddOutReady ∧
      (Execute.work inp cur c).ddUopQueue = c.ddUopQueue := by
  have houtcome := Execute.work_outcome inp cur c
  generalize Execute.work inp cur c = c' at houtcome
  generalize issued cur c = ran at houtcome
  cases houtcome with
  | idle | cleared | ret | pop | load | dropped => exact ⟨rfl, rfl⟩
  | ran front rest =>
    have hran := Execute.runOp_ran inp (Execute.forward c.ex c.offsetregValue front)
      { Execute.select front (Execute.start c) with ex.firstrun := false }
    generalize Execute.runOp inp (Execute.forward c.ex c.offsetregValue front)
      { Execute.select front (Execute.start c) with ex.firstrun := false } = c' at hran ⊢
    cases hran with
    | read | died => exact ⟨rfl, rfl⟩
    | finished op' c' hreads hswitch =>
      have hready := switchOp_ddOutReady hswitch
      rw [Execute.finish_nxt, Execute.finish_ddUopQueue,
        (Execute.switchOp_kept hswitch).2.ddUopQueue]
      exact ⟨hready, rfl⟩

namespace BranchProgram

variable {prog : BranchProgram} {s₀ : Point} {p : Pipe Word} {n r : ℕ} {done : List Stage}

/-! ## The invariant -/

/-- How far the pipeline is from executing a uop. -/
def rank (p : Pipe Word) : ℕ :=
  if p.cur.clear then 3
  else if p.core.deUopQueue ≠ [] then 0
  else if p.core.ddUopQueue ≠ [] then 1
  else 2

theorem rank_le (p : Pipe Word) : rank p ≤ 3 := by
  rw [rank]
  split_ifs <;> omega

theorem rank_of_not_clear (h : p.cur.clear = false) : rank p =
    if p.core.deUopQueue ≠ [] then 0 else if p.core.ddUopQueue ≠ [] then 1 else 2 :=
  if_neg (by rw [h]; exact Bool.false_ne_true)

/-- The ready signals, inside a cycle that began with `t` uops executed. -/
structure Lively (t : ℕ) (done : List Stage) (p : Pipe Word) : Prop where
  grown : t ≤ p.trace.length ∧ p.trace.length ≤ t + 1
  executed : t < p.trace.length → .execute ∈ done ∧ p.core.nxt.ewOutReady = true
  left : p.cur.clear = false → p.core.nxt.clear = true → t < p.trace.length
  ewLength : p.core.ewUopQueue.length ≤
    (if .writeback ∈ done then 0 else p.cur.ewOutReady.toNat) + (p.trace.length - t)
  held : p.cur.clear = false → p.core.nxt.clear = false → p.core.deUopQueue ≠ [] →
    (.dispatch ∈ done ∧ p.core.nxt.deOutReady = true) ∨
      (.execute ∉ done ∧ p.cur.deOutReady = true)

/-- The rank falls, inside a cycle that began at rank `k` and in which nothing was executed yet. -/
structure Falling (k : ℕ) (delivers : Prop) (done : List Stage) (p : Pipe Word) : Prop where
  zero : k = 0 → .execute ∉ done ∧ p.core.deUopQueue ≠ [] ∧ p.cur.deOutReady = true
  one : k = 1 → if .dispatch ∈ done then p.core.deUopQueue ≠ []
    else p.core.deUopQueue = [] ∧ p.core.ddUopQueue ≠ [] ∧ p.cur.ddOutReady = true
  two : k = 2 → delivers → .decode ∈ done → p.core.deUopQueue ≠ [] ∨ p.core.ddUopQueue ≠ []

variable {t k : ℕ} {delivers : Prop}

/-- Before `Execute` has run nothing was executed. -/
theorem Lively.length_eq (h : Lively t done p) (hdone : .execute ∉ done) : p.trace.length = t := by
  by_contra hne
  have hgrown := h.grown.1
  exact hdone (h.executed (by omega)).1

/-! ## One process -/

/-- Inside the program the decoder has something to deliver. -/
theorem Delivered.ne_nil {a feed : Word} {us : List Uop} (h : prog.Delivered a us feed)
    (ha : prog.insn a ≠ none) {ds : List Delivery} (hds : ds ≠ []) :
    us ++ (prog.fallThrough ds feed).1 ≠ [] := by
  obtain ⟨insn, hinsn⟩ := Option.ne_none_iff_exists'.mp ha
  obtain ⟨d, ds, rfl⟩ := List.exists_cons_of_ne_nil hds
  obtain ⟨ds', h⟩ := h
  cases ds' with
  | nil =>
    obtain ⟨rfl, rfl⟩ := Prod.mk.inj h
    simp [fallThrough, hinsn]
  | cons d' ds' =>
    simp only [fallThrough, hinsn, Prod.mk.injEq] at h
    rw [← h.1]
    simp

private theorem lively_decode (h : Lively t done p) (i : Input (List Delivery)) :
    Lively t (done ++ [.decode]) (act prog.deliver i .decode p) where
  grown := h.grown
  executed := fun hlt ↦ (h.executed hlt).imp_left (List.mem_append_left _)
  left := h.left
  ewLength := by
    simp only [mem_concat_iff (show Stage.writeback ≠ .decode by decide)]
    exact h.ewLength
  held := by
    simp only [mem_concat_iff (show Stage.dispatch ≠ .decode by decide),
      mem_concat_iff (show Stage.execute ≠ .decode by decide)]
    exact h.held

private theorem falling_decode {i : Input (List Delivery)} (hclear : p.cur.clear = false)
    (hknown : prog.insn (prog.after s₀ n).pc ≠ none)
    (hqueued : prog.Queued s₀ n p.core.deUopQueue p.core.ddUopQueue p.feed)
    (h : Falling k (i.choice ≠ []) done p) :
    Falling k (i.choice ≠ []) (done ++ [.decode]) (act prog.deliver i .decode p) := by
  have hdeliver : prog.deliver i.choice p.cur p.feed = prog.fallThrough i.choice p.feed :=
    if_neg (by rw [hclear]; exact Bool.false_ne_true)
  have hdd : (act prog.deliver i .decode p).core.ddUopQueue =
      p.core.ddUopQueue ++ (prog.fallThrough i.choice p.feed).1 :=
    congrArg (p.core.ddUopQueue ++ ·) (congrArg Prod.fst hdeliver)
  have hde : (act prog.deliver i .decode p).core.deUopQueue = p.core.deUopQueue := rfl
  refine ⟨?_, ?_, fun _ hchoice _ ↦ ?_⟩
  · rw [mem_concat_iff (by decide)]
    exact h.zero
  · intro hk
    have hone := h.one hk
    simp only [mem_concat_iff (show Stage.dispatch ≠ .decode by decide)]
    split_ifs with hdone
    · rw [if_pos hdone] at hone
      exact hone
    · rw [if_neg hdone] at hone
      refine ⟨hone.1, ?_, hone.2.2⟩
      rw [hdd]
      exact List.append_ne_nil_of_left_ne_nil hone.2.1 _
  · rw [hdd, hde]
    rcases hqueued with ⟨-, hdelivered⟩ | ⟨insn, u, rf, r, rest, -, hcons, -⟩
    · exact .inr (hdelivered.ne_nil hknown hchoice)
    · exact .inl (by rw [hcons]; exact List.cons_ne_nil _ _)

private theorem lively_dispatch (hdone : .dispatch ∉ done)
    (h : Lively t done p) (i : Input (List Delivery)) :
    Lively t (done ++ [.dispatch]) (act prog.deliver i .dispatch p) := by
  change Lively t _ { p with core := Dispatch.work p.cur p.core }
  have houtcome := Dispatch.work_outcome p.cur p.core
  generalize Dispatch.work p.cur p.core = c at houtcome ⊢
  have hew : ∀ c : Core, c.ewUopQueue = p.core.ewUopQueue → c.ewUopQueue.length ≤
      (if .writeback ∈ done ++ [.dispatch] then 0 else p.cur.ewOutReady.toNat) +
        (p.trace.length - t) := by
    intro c hc
    simp only [hc, mem_concat_iff (show Stage.writeback ≠ .dispatch by decide)]
    exact h.ewLength
  have hexecuted : t < p.trace.length →
      .execute ∈ done ++ [.dispatch] ∧ p.core.nxt.ewOutReady = true := fun hlt ↦
    (h.executed hlt).imp_left (List.mem_append_left _)
  have hmem : .dispatch ∈ done ++ [.dispatch] := List.mem_append_right _ (List.mem_singleton_self _)
  cases houtcome with
  | idle ready _ =>
    refine ⟨h.grown, hexecuted, h.left, hew _ rfl, fun hcur hnxt hde ↦ ?_⟩
    rcases h.held hcur hnxt hde with ⟨hmem', -⟩ | ⟨hexecute, hready⟩
    · exact absurd hmem' hdone
    · exact .inr ⟨by rwa [mem_concat_iff (by decide)], hready⟩
  | cleared hclear =>
    exact ⟨h.grown, hexecuted, h.left, hew _ rfl, fun hcur ↦ absurd (hcur.symm.trans hclear)
      Bool.noConfusion⟩
  | moved front rest k hclear hdd hde haddr =>
    exact ⟨h.grown, hexecuted, h.left, hew _ rfl, fun _ _ _ ↦ .inl ⟨hmem, rfl⟩⟩

private theorem falling_dispatch (hreset : p.cur.reset = false) (hclear : p.cur.clear = false)
    (hdone : .dispatch ∉ done) (h : Falling k delivers done p) (i : Input (List Delivery)) :
    Falling k delivers (done ++ [.dispatch]) (act prog.deliver i .dispatch p) := by
  change Falling k delivers _ { p with core := Dispatch.work p.cur p.core }
  have hmem : .dispatch ∈ done ++ [.dispatch] := List.mem_append_right _ (List.mem_singleton_self _)
  have hkeep : p.core.deUopQueue ≠ [] → (Dispatch.work p.cur p.core).deUopQueue ≠ [] := by
    intro hde
    have houtcome := Dispatch.work_outcome p.cur p.core
    generalize Dispatch.work p.cur p.core = c at houtcome ⊢
    cases houtcome with
    | idle | cleared => exact hde
    | moved front rest k hclear hdd hempty haddr => exact absurd hempty hde
  refine ⟨fun hk ↦ ?_, fun hk ↦ ?_, fun hk hdelivers hdecode ↦ ?_⟩
  · obtain ⟨hexecute, hde, hready⟩ := h.zero hk
    exact ⟨by rwa [mem_concat_iff (by decide)], hkeep hde, hready⟩
  · have hone := h.one hk
    rw [if_neg hdone] at hone
    rw [if_pos hmem]
    exact deUopQueue_of_moves hreset hclear hone.2.2 hone.2.1 hone.1
  · rw [mem_concat_iff (by decide)] at hdecode
    rcases h.two hk hdelivers hdecode with hde | hdd
    · exact .inl (hkeep hde)
    · have houtcome := Dispatch.work_outcome p.cur p.core
      change (Dispatch.work p.cur p.core).deUopQueue ≠ [] ∨
        (Dispatch.work p.cur p.core).ddUopQueue ≠ []
      generalize Dispatch.work p.cur p.core = c at houtcome ⊢
      cases houtcome with
      | idle => exact .inr hdd
      | cleared hclear' => exact absurd (hclear.symm.trans hclear') Bool.noConfusion
      | moved front rest k hclear hdd hempty haddr => exact .inl (List.cons_ne_nil _ _)

private theorem lively_writeback (hreset : p.cur.reset = false) (hdone : .writeback ∉ done)
    (h : Lively t done p) (i : Input (List Delivery)) :
    Lively t (done ++ [.writeback]) (act prog.deliver i .writeback p) := by
  change Lively t _ { p with core := Writeback.work p.cur p.core }
  have hlength : (Writeback.work p.cur p.core).ewUopQueue.length ≤ p.trace.length - t := by
    have hew := h.ewLength
    rw [if_neg hdone] at hew
    cases hready : p.cur.ewOutReady with
    | false =>
      rw [hready] at hew
      simp only [Writeback.work, hreset, hready]
      simpa using hew
    | true =>
      rw [hready] at hew
      simp only [Writeback.work, hreset, hready]
      cases hqueue : p.core.ewUopQueue with
      | nil => simp [hqueue]
      | cons op rest =>
        rw [hqueue, List.length_cons] at hew
        simp only [Bool.toNat_true] at hew
        simp
        omega
  have hmem : .writeback ∈ done ++ [.writeback] :=
    List.mem_append_right _ (List.mem_singleton_self _)
  have hkeep : (Writeback.work p.cur p.core).nxt = p.core.nxt ∧
      (Writeback.work p.cur p.core).deUopQueue = p.core.deUopQueue := by
    rcases Writeback.work_eq p.cur p.core with hwork | ⟨op, rest, -, hwork⟩ <;> rw [hwork] <;>
      exact ⟨rfl, rfl⟩
  obtain ⟨hnxt, hde⟩ := hkeep
  refine ⟨h.grown, fun hlt ↦ ?_, ?_, ?_, ?_⟩
  · obtain ⟨hexecute, hready⟩ := h.executed hlt
    exact ⟨List.mem_append_left _ hexecute, (congrArg Signals.ewOutReady hnxt).trans hready⟩
  · change _ → (Writeback.work p.cur p.core).nxt.clear = true → _
    rw [hnxt]
    exact h.left
  · rw [if_pos hmem, Nat.zero_add]
    exact hlength
  · change _ → (Writeback.work p.cur p.core).nxt.clear = false →
      (Writeback.work p.cur p.core).deUopQueue ≠ [] →
        (_ ∧ (Writeback.work p.cur p.core).nxt.deOutReady = true) ∨ _
    rw [hnxt, hde, mem_concat_iff (by decide), mem_concat_iff (by decide)]
    exact h.held

private theorem falling_writeback (h : Falling k delivers done p) (i : Input (List Delivery)) :
    Falling k delivers (done ++ [.writeback]) (act prog.deliver i .writeback p) := by
  change Falling k delivers _ { p with core := Writeback.work p.cur p.core }
  have hkeep : (Writeback.work p.cur p.core).ddUopQueue = p.core.ddUopQueue ∧
      (Writeback.work p.cur p.core).deUopQueue = p.core.deUopQueue := by
    rcases Writeback.work_eq p.cur p.core with hwork | ⟨op, rest, -, hwork⟩ <;> rw [hwork] <;>
      exact ⟨rfl, rfl⟩
  obtain ⟨hdd, hde⟩ := hkeep
  refine ⟨?_, ?_, ?_⟩
  · rw [mem_concat_iff (by decide)]
    simp only [hde]
    exact h.zero
  · simp only [mem_concat_iff (show Stage.dispatch ≠ .writeback by decide), hdd, hde]
    exact h.one
  · simp only [mem_concat_iff (show Stage.decode ≠ .writeback by decide), hdd, hde]
    exact h.two

/-- A uop in `de_uop_queue` is executed if `Dispatch` has raised its signal. -/
private theorem issued_of_held (hdone : .execute ∉ done) (hvalues : prog.Values s₀ p n r)
    (hcontrol : prog.Control s₀ n done p) (h : Lively t done p) (hclear : p.cur.clear = false)
    (hde : p.core.deUopQueue ≠ []) (hready : p.cur.deOutReady = true) :
    issued p.cur p.core ≠ none := by
  obtain ⟨front, rest, hcons⟩ := List.exists_cons_of_ne_nil hde
  have hew : p.core.ewUopQueue.length ≤ 1 := by
    have hew := h.ewLength
    rw [h.length_eq hdone, Nat.sub_self] at hew
    have hle := Bool.toNat_le p.cur.ewOutReady
    split_ifs at hew <;> omega
  cases hcontrol with
  | flowing cur nxt expected queued =>
    exact issued_of_takes hvalues.reset.1 hclear hvalues.normal hready hew hcons
      (unexpected_eq_false expected queued hcons)
  | leaving ran => exact absurd ran hdone
  | clearing cur => exact absurd (hclear.symm.trans cur) Bool.noConfusion

/-- An activation that issues nothing changes the queue in front of it only if it sees `clear`. -/
private theorem work_of_not_issued (inp : CycleInput) (hvalues : prog.Values s₀ p n r)
    (hdone : .execute ∉ done) (hcontrol : prog.Control s₀ n done p)
    (hissued : issued p.cur p.core = none) :
    (Execute.work inp p.cur p.core).ewUopQueue = p.core.ewUopQueue ∧
      (Execute.work inp p.cur p.core).nxt.deOutReady = p.core.nxt.deOutReady ∧
      (p.cur.clear = false →
        (Execute.work inp p.cur p.core).deUopQueue = p.core.deUopQueue ∧
        (Execute.work inp p.cur p.core).ddUopQueue = p.core.ddUopQueue ∧
        (Execute.work inp p.cur p.core).nxt.clear = p.core.nxt.clear) := by
  have hread : p.core.ex.state ≠ .read := by
    rw [hvalues.normal]
    exact ExecState.noConfusion
  have houtcome := Execute.work_outcome inp p.cur p.core
  rw [hissued] at houtcome
  generalize Execute.work inp p.cur p.core = c at houtcome ⊢
  cases houtcome with
  | idle => exact ⟨rfl, rfl, fun _ ↦ ⟨rfl, rfl, rfl⟩⟩
  | cleared ready hclear =>
    exact ⟨rfl, rfl, fun hcur ↦ absurd (hcur.symm.trans hclear) Bool.noConfusion⟩
  | ret hclear hstate => exact absurd hstate hread
  | pop hclear hstate => exact absurd hstate hread
  | load hclear hstate => exact absurd hstate hread
  | dropped front rest hclear hwait hde hunexp =>
    cases hcontrol with
    | flowing cur nxt expected queued =>
      rw [unexpected_eq_false expected queued hde] at hunexp
      cases hunexp
    | leaving ran => exact absurd ran hdone
    | clearing cur => exact absurd (hclear.symm.trans cur) Bool.noConfusion

private theorem lively_execute (hdone : .execute ∉ done) (hvalues : prog.Values s₀ p n r)
    (hcontrol : prog.Control s₀ n done p) (h : Lively t done p) (i : Input (List Delivery))
    (hissued : issued p.cur p.core ≠ none →
      prog.Issued (prog.after s₀ n) p.core (act prog.deliver i .execute p).core) :
    Lively t (done ++ [.execute]) (act prog.deliver i .execute p) := by
  have hmem : .execute ∈ done ++ [.execute] := List.mem_append_right _ (List.mem_singleton_self _)
  have hlength := h.length_eq hdone
  have htrace : (act prog.deliver i .execute p).trace.length =
      t + (issued p.cur p.core).toList.length := by
    rw [← hlength]
    exact List.length_append
  have hew := h.ewLength
  rw [hlength, Nat.sub_self, Nat.add_zero] at hew
  cases hop : issued p.cur p.core with
  | none =>
    rw [hop, Option.toList_none, List.length_nil, Nat.add_zero] at htrace
    obtain ⟨hqueue, hready, hcalm⟩ := work_of_not_issued i.cycle hvalues hdone hcontrol hop
    refine ⟨⟨htrace.ge, by omega⟩, fun hlt ↦ absurd hlt (by omega), fun hcur hnxt ↦ ?_, ?_,
      fun hcur hnxt hde ↦ ?_⟩
    · rw [htrace]
      rw [← hlength]
      exact absurd (hlength ▸ h.left hcur ((hcalm hcur).2.2 ▸ hnxt)) (Nat.lt_irrefl _)
    · rw [htrace, Nat.sub_self, Nat.add_zero]
      simp only [mem_concat_iff (show Stage.writeback ≠ .execute by decide)]
      change (Execute.work i.cycle p.cur p.core).ewUopQueue.length ≤ _
      rw [hqueue]
      exact hew
    · have hde' : p.core.deUopQueue ≠ [] := (hcalm hcur).1 ▸ hde
      rcases h.held hcur ((hcalm hcur).2.2 ▸ hnxt) hde' with ⟨hdispatch, hraised⟩ | ⟨-, hraised⟩
      · exact .inl ⟨List.mem_append_left _ hdispatch, hready.trans hraised⟩
      · exact absurd hop (issued_of_held hdone hvalues hcontrol h hcur hde' hraised)
  | some op =>
    obtain ⟨hewLength, hewReady, hempty, -⟩ := hissued (by rw [hop]; exact Option.some_ne_none op)
    rw [hop, Option.toList_some, List.length_singleton] at htrace
    refine ⟨⟨by omega, htrace.le⟩, fun _ ↦ ⟨hmem, hewReady⟩, fun _ _ ↦ by omega, ?_,
      fun _ hnxt hde ↦ absurd (hempty hnxt) hde⟩
    rw [htrace, Nat.add_sub_cancel_left, hewLength]
    simp only [mem_concat_iff (show Stage.writeback ≠ .execute by decide)]
    exact Nat.succ_le_succ hew

private theorem falling_execute (hdone : .execute ∉ done) (hvalues : prog.Values s₀ p n r)
    (hcontrol : prog.Control s₀ n done p) (hlively : Lively t done p)
    (h : Falling k delivers done p) (i : Input (List Delivery))
    (hclear : p.cur.clear = false) (hissued : issued p.cur p.core = none) :
    Falling k delivers (done ++ [.execute]) (act prog.deliver i .execute p) := by
  obtain ⟨-, -, hcalm⟩ := work_of_not_issued i.cycle hvalues hdone hcontrol hissued
  obtain ⟨hde, hdd, -⟩ := hcalm hclear
  have hcore : (act prog.deliver i .execute p).core = Execute.work i.cycle p.cur p.core := rfl
  have hcur : (act prog.deliver i .execute p).cur = p.cur := rfl
  refine ⟨fun hk ↦ ?_, ?_, ?_⟩
  · obtain ⟨-, hwaits, hready⟩ := h.zero hk
    exact absurd hissued (issued_of_held hdone hvalues hcontrol hlively hclear hwaits hready)
  · simp only [mem_concat_iff (show Stage.dispatch ≠ .execute by decide), hcore, hdd, hde, hcur]
    exact h.one
  · simp only [mem_concat_iff (show Stage.decode ≠ .execute by decide), hcore, hdd, hde]
    exact h.two

/-! ## Cycles -/

/-- What holds inside a cycle that began at rank `k` with `t` uops executed. -/
structure Moving (prog : BranchProgram) (s₀ : Point) (t k : ℕ) (delivers : Prop) (done : List Stage)
    (p : Pipe Word) : Prop where
  inv : ∃ n r, prog.Values s₀ p n r ∧ prog.Control s₀ n done p
  lively : Lively t done p
  falling : p.trace.length = t → p.cur.clear = false → Falling k delivers done p
  straight : t < p.trace.length → p.core.nxt.clear = false → prog.targetAt (prog.after s₀ t) = none

/-- One process of a cycle. -/
private theorem moving_act {i : Input (List Delivery)} {st : Stage} (hdone : st ∉ done)
    (hinside : prog.Inside s₀ (act prog.deliver i st p).trace.length)
    (h : prog.Moving s₀ t k (i.choice ≠ []) done p) :
    prog.Moving s₀ t k (i.choice ≠ []) (done ++ [st]) (act prog.deliver i st p) := by
  have hinv := inv_act i hdone (fun _ ↦ h.inv) hinside
  obtain ⟨n, r, hvalues, hcontrol⟩ := h.inv
  have hknown : prog.insn (prog.after s₀ n).pc ≠ none :=
    hinside n (hvalues.length ▸ length_le_act i st p)
  -- while nothing was executed no jump was taken
  have hflows : p.trace.length = t → p.cur.clear = false →
      prog.Queued s₀ n p.core.deUopQueue p.core.ddUopQueue p.feed := by
    intro hlength hclear
    cases hcontrol with
    | flowing cur nxt expected queued => exact queued
    | leaving ran cur nxt => exact absurd (h.lively.left cur nxt) (by omega)
    | clearing cur => exact absurd (hclear.symm.trans cur) Bool.noConfusion
  cases st with
  | decode =>
    exact ⟨hinv, lively_decode h.lively i, fun hlength hclear ↦
      falling_decode hclear hknown (hflows hlength hclear) (h.falling hlength hclear), h.straight⟩
  | dispatch =>
    have hnxt : (act prog.deliver i .dispatch p).core.nxt.clear = p.core.nxt.clear := by
      change (Dispatch.work p.cur p.core).nxt.clear = p.core.nxt.clear
      have houtcome := Dispatch.work_outcome p.cur p.core
      generalize Dispatch.work p.cur p.core = c at houtcome ⊢
      cases houtcome <;> rfl
    exact ⟨hinv, lively_dispatch hdone h.lively i, fun hlength hclear ↦
      falling_dispatch hvalues.reset.1 hclear hdone (h.falling hlength hclear) i,
      fun hlt hclear ↦ h.straight hlt (hnxt.symm.trans hclear)⟩
  | writeback =>
    have hnxt : (act prog.deliver i .writeback p).core.nxt = p.core.nxt := by
      change (Writeback.work p.cur p.core).nxt = p.core.nxt
      rcases Writeback.work_eq p.cur p.core with hwork | ⟨op, rest, -, hwork⟩ <;> rw [hwork]
    exact ⟨hinv, lively_writeback hvalues.reset.1 hdone h.lively i, fun hlength hclear ↦
      falling_writeback (h.falling hlength hclear) i,
      fun hlt hclear ↦ h.straight hlt (by rwa [hnxt] at hclear)⟩
  | execute =>
    have hexecute : issued p.cur p.core ≠ none →
        prog.Issued (prog.after s₀ n) p.core (act prog.deliver i .execute p).core := by
      intro hop
      have hnext : prog.Inside s₀ (n + 1) := by
        obtain ⟨op, hop⟩ := Option.ne_none_iff_exists'.mp hop
        have hlength : (act prog.deliver i .execute p).trace.length = n + 1 := by
          change (p.trace ++ (issued p.cur p.core).toList).length = _
          rw [hop, List.length_append, hvalues.length]
          rfl
        rwa [hlength] at hinside
      obtain ⟨-, -, -, -, hissued⟩ := inv_execute hdone (.inl hnext) hvalues hcontrol i
      exact hissued hop
    have hsame := h.lively.length_eq hdone
    refine ⟨hinv, lively_execute hdone hvalues hcontrol h.lively i hexecute,
      fun hlength hclear ↦ ?_, fun hlt hclear ↦ ?_⟩
    · have hnone : issued p.cur p.core = none := by
        have htrace : (p.trace ++ (issued p.cur p.core).toList).length = t := hlength
        rw [List.length_append, hsame] at htrace
        cases hop : issued p.cur p.core with
        | none => rfl
        | some op =>
          rw [hop, Option.toList_some, List.length_singleton] at htrace
          omega
      exact falling_execute hdone hvalues hcontrol h.lively (h.falling hsame hclear) i hclear hnone
    · have hsome : issued p.cur p.core ≠ none := by
        intro hnone
        have htrace : t < (p.trace ++ (issued p.cur p.core).toList).length := hlt
        rw [hnone, Option.toList_none, List.append_nil, hsame] at htrace
        exact absurd htrace (Nat.lt_irrefl t)
      rw [← hsame, hvalues.length]
      exact (hexecute hsome).straight hclear

/-- What the decoder does to its signal and its queue in a cycle that began here. -/
structure Fed (i : Input (List Delivery)) (p₀ : Pipe Word) (done : List Stage) (p : Pipe Word) :
    Prop where
  cur : p.cur = p₀.cur
  ready : .decode ∈ done → p.core.nxt.ddOutReady = i.ddReady
  queue : p.core.ddUopQueue ≠ [] → p₀.core.ddUopQueue ≠ [] ∨ i.choice ≠ []

private theorem fed_act {i : Input (List Delivery)} {p₀ : Pipe Word} (st : Stage)
    (h : Fed i p₀ done p) : Fed i p₀ (done ++ [st]) (act prog.deliver i st p) := by
  cases st with
  | decode =>
    refine ⟨h.cur, fun _ ↦ rfl, fun hdd ↦ ?_⟩
    by_cases hchoice : i.choice = []
    · have hnone : (prog.deliver i.choice p.cur p.feed).1 = [] := by
        rw [hchoice, deliver]
        split_ifs <;> rfl
      change p.core.ddUopQueue ++ (prog.deliver i.choice p.cur p.feed).1 ≠ [] at hdd
      rw [hnone, List.append_nil] at hdd
      exact h.queue hdd
    · exact .inr hchoice
  | dispatch =>
    have houtcome := Dispatch.work_outcome p.cur p.core
    have hcore : (act prog.deliver i .dispatch p).core = Dispatch.work p.cur p.core := rfl
    rw [← hcore] at houtcome
    have hkeep : (act prog.deliver i .dispatch p).core.nxt.ddOutReady = p.core.nxt.ddOutReady ∧
        ((act prog.deliver i .dispatch p).core.ddUopQueue ≠ [] → p.core.ddUopQueue ≠ []) := by
      generalize (act prog.deliver i .dispatch p).core = c at houtcome ⊢
      cases houtcome with
      | idle => exact ⟨rfl, id⟩
      | cleared => exact ⟨rfl, fun hnil ↦ absurd rfl hnil⟩
      | moved front rest k _ hdd =>
        exact ⟨rfl, fun _ ↦ by rw [hdd]; exact List.cons_ne_nil _ _⟩
    refine ⟨h.cur, fun hmem ↦ ?_, fun hdd ↦ h.queue (hkeep.2 hdd)⟩
    rw [mem_concat_iff (by decide)] at hmem
    exact hkeep.1.trans (h.ready hmem)
  | execute =>
    obtain ⟨hready, hdd⟩ := execute_dd i.cycle p.cur p.core
    refine ⟨h.cur, fun hmem ↦ ?_, ?_⟩
    · rw [mem_concat_iff (by decide)] at hmem
      exact hready.trans (h.ready hmem)
    · change (Execute.work i.cycle p.cur p.core).ddUopQueue ≠ [] → _
      rw [hdd]
      exact h.queue
  | writeback =>
    have hkeep : (Writeback.work p.cur p.core).nxt = p.core.nxt ∧
        (Writeback.work p.cur p.core).ddUopQueue = p.core.ddUopQueue := by
      rcases Writeback.work_eq p.cur p.core with hwork | ⟨op, rest, -, hwork⟩ <;> rw [hwork] <;>
        exact ⟨rfl, rfl⟩
    refine ⟨h.cur, fun hmem ↦ ?_, ?_⟩
    · rw [mem_concat_iff (by decide)] at hmem
      exact (congrArg Signals.ddOutReady hkeep.1).trans (h.ready hmem)
    · change (Writeback.work p.cur p.core).ddUopQueue ≠ [] → _
      rw [hkeep.2]
      exact h.queue

/-- What holds of the ready signals between two cycles. -/
structure Primed (p : Pipe Word) : Prop where
  ewLength : p.core.ewUopQueue.length ≤ p.cur.ewOutReady.toNat
  held : p.cur.clear = false → p.core.deUopQueue ≠ [] → p.cur.deOutReady = true
  supplied : p.core.ddUopQueue ≠ [] → p.cur.ddOutReady = true

/-- At the start of a cycle. -/
private theorem moving_start (hinv : ∃ n r, prog.Values s₀ p n r ∧ prog.Control s₀ n [] p)
    (hprimed : Primed p) : prog.Moving s₀ p.trace.length (rank p) delivers [] p := by
  refine ⟨hinv, ⟨⟨le_rfl, Nat.le_succ _⟩, fun h ↦ absurd h (Nat.lt_irrefl _),
    fun hcur hnxt ↦ ?_, ?_, fun hcur _ hde ↦ .inr ⟨List.not_mem_nil, hprimed.held hcur hde⟩⟩,
    fun _ hclear ↦ ?_, fun hlt ↦ absurd hlt (Nat.lt_irrefl _)⟩
  · obtain ⟨n, r, -, hcontrol⟩ := hinv
    cases hcontrol with
    | flowing cur nxt => exact absurd (nxt.symm.trans hnxt) Bool.noConfusion
    | leaving ran => cases ran
    | clearing cur => exact absurd (hcur.symm.trans cur) Bool.noConfusion
  · rw [if_neg List.not_mem_nil, Nat.sub_self]
    exact hprimed.ewLength
  · rw [rank_of_not_clear hclear]
    refine ⟨fun hk ↦ ⟨List.not_mem_nil, ?_⟩, fun hk ↦ ?_, fun _ _ hmem ↦ by cases hmem⟩
    · split_ifs at hk with hde
      exact ⟨hde, hprimed.held hclear hde⟩
    · split_ifs at hk with hde hdd
      · rw [if_neg List.not_mem_nil]
        exact ⟨not_not.mp hde, hdd, hprimed.supplied hdd⟩
      · cases hk

/-- **A cycle executes a uop, or keeps the rank, or lowers it if the decoder delivers.** A taken
jump that is executed is seen in the next cycle. -/
theorem primed_cycle (c : Schedule.Cycle (Input (List Delivery)) stages) (hinv : prog.Inv s₀ [] p)
    (hprimed : Primed p)
    (hready : p.core.ddUopQueue ≠ [] ∨ c.input.choice ≠ [] → c.input.ddReady = true)
    (hinside : prog.Inside s₀ (Schedule.cycle (act prog.deliver) commit c p).trace.length) :
    let p' := Schedule.cycle (act prog.deliver) commit c p
    Primed p' ∧ (p'.core.ddUopQueue ≠ [] → p.core.ddUopQueue ≠ [] ∨ c.input.choice ≠ []) ∧
      (p'.trace.length = p.trace.length + 1 ∧
          (p'.cur.clear = false → prog.targetAt (prog.after s₀ p.trace.length) = none) ∨
        (p'.trace.length = p.trace.length ∧ rank p' ≤ rank p ∧
          (c.input.choice ≠ [] → rank p' < rank p))) := by
  intro p'
  have hnodup : c.order.Nodup := c.perm.nodup_iff.mpr (by decide)
  have hall : ∀ st : Stage, st ∈ c.order := fun st ↦ c.perm.mem_iff.mpr (by cases st <;> decide)
  have hmoving : prog.Moving s₀ p.trace.length (rank p) (c.input.choice ≠ []) c.order
      (Schedule.runOrder (act prog.deliver) c.input c.order p) :=
    Schedule.runOrder_induction (i := c.input) hnodup
      (Q := fun done q ↦ prog.Inside s₀ q.trace.length →
        prog.Moving s₀ p.trace.length (rank p) (c.input.choice ≠ []) done q)
      (fun hinside ↦ moving_start (hinv hinside) hprimed)
      (fun done st q _ hst h hinside ↦ moving_act hst hinside
        (h (hinside.mono (length_le_act c.input st q)))) hinside
  have hfed : Fed c.input p c.order (Schedule.runOrder (act prog.deliver) c.input c.order p) :=
    Schedule.runOrder_induction (i := c.input) hnodup (Q := fun done q ↦ Fed c.input p done q)
      ⟨rfl, fun hmem ↦ absurd hmem List.not_mem_nil, fun hdd ↦ .inl hdd⟩
      (fun done st q _ _ h ↦ fed_act st h)
  have hp' : p' = commit c.input (Schedule.runOrder (act prog.deliver) c.input c.order p) := rfl
  rw [hp']
  generalize Schedule.runOrder (act prog.deliver) c.input c.order p = q at hmoving hfed
  obtain ⟨⟨n, r, hvalues, hcontrol⟩, hlively, hfalling, hstraight⟩ := hmoving
  have hgrown := hlively.grown
  have hdd : q.core.ddUopQueue ≠ [] → p.core.ddUopQueue ≠ [] ∨ c.input.choice ≠ [] := hfed.queue
  have hsupplied : q.core.ddUopQueue ≠ [] → q.core.nxt.ddOutReady = true := fun hne ↦
    (hfed.ready (hall _)).trans (hready (hdd hne))
  refine ⟨⟨?_, fun hclear hde ↦ ?_, hsupplied⟩, hdd, ?_⟩
  · have hew := hlively.ewLength
    rw [if_pos (hall _), Nat.zero_add] at hew
    change q.core.ewUopQueue.length ≤ q.core.nxt.ewOutReady.toNat
    by_cases hlt : p.trace.length < q.trace.length
    · rw [(hlively.executed hlt).2, Bool.toNat_true]
      omega
    · omega
  · change q.core.nxt.clear = false at hclear
    change q.core.nxt.deOutReady = true
    cases hcontrol with
    | flowing cur nxt =>
      rcases hlively.held cur nxt hde with ⟨-, hraised⟩ | ⟨hmem, -⟩
      · exact hraised
      · exact absurd (hall _) hmem
    | leaving ran cur nxt => exact absurd (hclear.symm.trans nxt) Bool.noConfusion
    | clearing cur newRIP expected landed decoded dispatched executed =>
      exact absurd (executed (hall _)).1 hde
  · rcases Nat.eq_or_lt_of_le hgrown.1 with heq | hlt
    · right
      refine ⟨heq.symm, ?_⟩
      have hrank : q.core.nxt.clear = false → rank (commit c.input q) =
          if q.core.deUopQueue ≠ [] then 0 else if q.core.ddUopQueue ≠ [] then 1 else 2 :=
        rank_of_not_clear (p := commit c.input q)
      have hpcur : p.cur.clear = q.cur.clear := by rw [hfed.cur]
      cases hcontrol with
      | flowing cur nxt expected queued =>
        have hfall := hfalling heq.symm cur
        rw [hrank nxt]
        have hcases : rank p = 0 ∨ rank p = 1 ∨ rank p = 2 := by
          rw [rank_of_not_clear (hpcur.trans cur)]
          split_ifs <;> simp
        rcases hcases with hk | hk | hk
        · exact absurd (hall _) (hfall.zero hk).1
        · have hone := hfall.one hk
          rw [if_pos (hall _)] at hone
          rw [if_pos hone, hk]
          exact ⟨Nat.zero_le 1, fun _ ↦ Nat.zero_lt_one⟩
        · rw [hk]
          refine ⟨by split_ifs <;> omega, fun hchoice ↦ ?_⟩
          rcases hfall.two hk hchoice (hall _) with hde | hdd
          · rw [if_pos hde]
            omega
          · split_ifs <;> omega
      | leaving ran cur nxt => exact absurd (hlively.left cur nxt) (by omega)
      | clearing cur newRIP expected landed decoded dispatched executed =>
        have hk : rank p = 3 := if_pos (hpcur.trans cur)
        rw [hrank (executed (hall _)).2, hk]
        exact ⟨by split_ifs <;> omega, fun _ ↦ by split_ifs <;> omega⟩
    · left
      refine ⟨?_, hstraight hlt⟩
      change q.trace.length = _
      omega

/-! ## Runs -/

/-- The decoder raises its signal in the cycle in which it first delivers something, and keeps it
raised. -/
def DecoderReady (cs : Cycles (List Delivery)) : Prop :=
  ∀ cs' c, cs' ++ [c] <+: cs → (∃ c' ∈ cs' ++ [c], c'.input.choice ≠ []) → c.input.ddReady = true

/-- In how many cycles the decoder delivers something. -/
def deliveries (cs : Cycles (List Delivery)) : ℕ := cs.countP fun c ↦ !c.input.choice.isEmpty

private theorem deliveries_concat (cs : Cycles (List Delivery))
    (c : Schedule.Cycle (Input (List Delivery)) stages) :
    deliveries (cs ++ [c]) = deliveries cs + if c.input.choice = [] then 0 else 1 := by
  rw [deliveries, deliveries, List.countP_append, List.countP_singleton]
  by_cases h : c.input.choice = [] <;> simp [h]

/-- **The pipeline never comes to a standstill.** Under every schedule, and as long as the
sequential machine has not left the program, the pipeline executes at least one instruction in any
four cycles in which the decoder delivers something: `n` such cycles execute `(n - 2) / 4`
instructions or more. -/
theorem branchProgram_progress (prog : BranchProgram) (s₀ : Point) (m : Mem) (expectedAddr : Word)
    (op : Uop) (cs : Cycles (List Delivery)) (hready : DecoderReady cs) :
    let p := run prog.deliver cs (boot s₀ m expectedAddr op)
    prog.Inside s₀ p.trace.length → deliveries cs ≤ 4 * p.trace.length + 2 := by
  have hrun : ∀ cs : Cycles (List Delivery), DecoderReady cs →
      prog.Inside s₀ (run prog.deliver cs (boot s₀ m expectedAddr op)).trace.length →
      Primed (run prog.deliver cs (boot s₀ m expectedAddr op)) ∧
        ((run prog.deliver cs (boot s₀ m expectedAddr op)).core.ddUopQueue ≠ [] →
          ∃ c ∈ cs, c.input.choice ≠ []) ∧
        deliveries cs + rank (run prog.deliver cs (boot s₀ m expectedAddr op)) ≤
          4 * (run prog.deliver cs (boot s₀ m expectedAddr op)).trace.length + 2 := by
    intro cs
    induction cs using List.reverseRecOn with
    | nil =>
      intro _ _
      exact ⟨⟨Nat.zero_le _, fun _ h ↦ absurd rfl h, fun h ↦ absurd rfl h⟩, fun h ↦ absurd rfl h,
        le_rfl⟩
    | append_singleton cs c ih =>
      intro hready hinside
      have hconcat : run prog.deliver (cs ++ [c]) (boot s₀ m expectedAddr op) =
          Schedule.cycle (act prog.deliver) commit c
            (run prog.deliver cs (boot s₀ m expectedAddr op)) := Schedule.run_concat _ _ cs c _
      rw [hconcat] at hinside ⊢
      have hinv := inv_run prog s₀ m expectedAddr op cs
      have hgrows : (run prog.deliver cs (boot s₀ m expectedAddr op)).trace.length ≤
          (Schedule.cycle (act prog.deliver) commit c
            (run prog.deliver cs (boot s₀ m expectedAddr op))).trace.length :=
        Schedule.runOrder_invariant
          (I := fun q ↦ (run prog.deliver cs (boot s₀ m expectedAddr op)).trace.length ≤
            q.trace.length)
          (fun st q h ↦ h.trans (length_le_act c.input st q)) c.order le_rfl
      have hpre : DecoderReady cs := fun cs' c' hpre h ↦
        hready cs' c' (hpre.trans (List.prefix_append cs [c])) h
      obtain ⟨hprimed, hfed, hrank⟩ := ih hpre (hinside.mono hgrows)
      generalize run prog.deliver cs (boot s₀ m expectedAddr op) = p at *
      have hmem : ∀ c' ∈ cs, c' ∈ cs ++ [c] := fun c' h ↦ List.mem_append_left _ h
      have hlast : c ∈ cs ++ [c] := List.mem_append_right _ (List.mem_singleton_self c)
      have hdd : p.core.ddUopQueue ≠ [] ∨ c.input.choice ≠ [] →
          ∃ c' ∈ cs ++ [c], c'.input.choice ≠ [] := by
        rintro (hdd | hchoice)
        · obtain ⟨c', hc', hchoice⟩ := hfed hdd
          exact ⟨c', hmem c' hc', hchoice⟩
        · exact ⟨c, hlast, hchoice⟩
      obtain ⟨hprimed', hfed', hcases⟩ := primed_cycle c hinv hprimed
        (fun h ↦ hready cs c (List.prefix_refl _) (hdd h)) hinside
      refine ⟨hprimed', fun h ↦ hdd (hfed' h), ?_⟩
      rw [deliveries_concat]
      have hle := rank_le (Schedule.cycle (act prog.deliver) commit c p)
      rcases hcases with ⟨hlength, -⟩ | ⟨hlength, hrank', hlower⟩
      · rw [hlength]
        split_ifs <;> omega
      · rw [hlength]
        split_ifs with hchoice
        · omega
        · have hlt := hlower hchoice
          omega
  intro p hinside
  obtain ⟨-, -, hbound⟩ := hrun cs hready hinside
  exact (Nat.le_add_right _ _).trans hbound

theorem countdown_progress :
    deliveries countdownCycles ≤ 4 * (run countdown.deliver countdownCycles
      (boot ⟨0x100, fun _ ↦ 2, ⟨0⟩⟩ (fun _ ↦ 0) 0 Uop.zero)).trace.length + 2 := by
  refine branchProgram_progress countdown ⟨0x100, fun _ ↦ 2, ⟨0⟩⟩ (fun _ ↦ 0) 0 Uop.zero
    countdownCycles (fun cs' c hpre _ ↦ ?_) (by decide +kernel)
  have hmem : c ∈ countdownCycles := hpre.subset (by simp)
  rw [List.eq_of_mem_replicate hmem]

end BranchProgram

end Cse502.Pipeline
