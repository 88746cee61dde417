import Cse502.Model.Decoder
import Cse502.Pipeline.WideResults

/-!
# Runs with multiplications and divisions

In every run in which no step goes wrong in one of the ways `Meets` names, every reader of RDX gets
the second destination.

## The invariant

While the last write of RDX is a second destination with value `v`:

* `prev_reg1` names RDX only for `v`, and so does `prev_reg2` once a result was formed since;
* the register file has `v`, or the uop that will write it is in `ew_uop_queue` and nothing behind
  writes anything else to RDX;
* every uop in `de_uop_queue` that reads RDX was read with `v`.
-/

namespace Cse502.Pipeline

open Arch (IsWide)
open Execute (issued reads syscallArg)

/-! ## The invariant -/

/-- The uops that are still to be run. While `Execute` waits for the memory, the front one has
been. -/
def pending (c : Core) : List Uop :=
  if c.ex.state = .read then c.deUopQueue.tail else c.deUopQueue

/-- Where the value of the second destination is to be found. -/
structure Tracks (v : Word) (latest : Bool) (c : Core) : Prop where
  prev1 : c.ex.prevReg1 = .gpr .rdx → c.ex.prevValue1 = v
  prev2 : c.ex.prevReg2 = .gpr .rdx → latest = false → c.ex.prevValue2 = v
  retires : RdxRetires v c.regfile c.ewUopQueue
  queued : ∀ u ∈ pending c, RightRdx v u

/-- What holds between two activations. -/
structure RdxInv (c : Core) (rdx : Rdx) : Prop where
  wide : ∀ u ∈ c.deUopQueue, IsWide u → u.reg2 = .gpr .rax
  read : c.ex.state = .read → reads c.ex.op.opcode = true
  tracks : ∀ v ∈ rdx.value, Tracks v rdx.latest c

theorem pending_subset (c : Core) : pending c ⊆ c.deUopQueue := by
  intro u hu
  rw [pending] at hu
  split_ifs at hu
  · exact List.mem_of_mem_tail hu
  · exact hu

section Acts

variable {v : Word} {cur : Signals} {c c' : Core} {rdx : Rdx}

/-- `Dispatch` reads the operands of what it moves. -/
theorem RdxInv.dispatch (h : RdxInv c rdx)
    (hmeets : rdx.value.isSome → DispatchMeets cur c) : RdxInv (Dispatch.work cur c) rdx := by
  have hwork := Dispatch.work_outcome cur c
  unfold DispatchMeets at hmeets
  generalize Dispatch.work cur c = c' at hmeets hwork ⊢
  cases hwork with
  | idle =>
    refine ⟨h.wide, h.read, fun v hv ↦ ?_⟩
    have ht := h.tracks v hv
    exact ⟨ht.prev1, ht.prev2, ht.retires, ht.queued⟩
  | cleared =>
    refine ⟨h.wide, h.read, fun v hv ↦ ?_⟩
    have ht := h.tracks v hv
    exact ⟨ht.prev1, ht.prev2, ht.retires, ht.queued⟩
  | moved front rest k hclear hdd hde haddr =>
    refine ⟨fun u hu hwide ↦ ?_, h.read, fun v hv ↦ ?_⟩
    · obtain ⟨u₀, -, rfl⟩ := List.mem_map.mp hu
      exact reg2_readOperands hwide
    · have ht := h.tracks v hv
      refine ⟨ht.prev1, ht.prev2, ht.retires, fun u hu ↦ ?_⟩
      have hmem := pending_subset _ hu
      obtain ⟨u₀, -, rfl⟩ := List.mem_map.mp hmem
      by_cases hrdx : readsRdx (Dispatch.readOperands c.regfile u₀) = true
      · obtain ⟨hew, hsrc⟩ := hmeets (Option.isSome_of_mem hv) hde _ hmem hrdx
        rw [Dispatch.readOperands_src] at hsrc
        exact right_readOperands (ht.retires.regfile hew) hsrc
      · exact right_of_readsRdx (Bool.not_eq_true _ ▸ hrdx)

/-- `Writeback` retires one uop. -/
theorem RdxInv.writeback (h : RdxInv c rdx) : RdxInv (Writeback.work cur c) rdx := by
  rcases Writeback.work_eq cur c with hwork | ⟨op, rest, hew, hwork⟩
  · rw [hwork]
    exact h
  · rw [hwork]
    refine ⟨h.wide, h.read, fun v hv ↦ ?_⟩
    have ht := h.tracks v hv
    have hretires := ht.retires
    rw [hew] at hretires
    exact ⟨ht.prev1, ht.prev2, hretires.retire, ht.queued⟩

/-- No uop was completed. -/
theorem RdxInv.of_same (hew : c'.ewUopQueue = c.ewUopQueue) (h : RdxInv c' rdx) :
    RdxInv c' ((completed c c').foldl Rdx.after rdx) := by
  rw [completed, hew, List.drop_length]
  exact h

/-- One uop was. -/
theorem RdxInv.of_append {op : Uop} (hew : c'.ewUopQueue = c.ewUopQueue ++ [op])
    (h : RdxInv c' (rdx.after op)) : RdxInv c' ((completed c c').foldl Rdx.after rdx) := by
  rw [completed, hew, List.drop_left]
  exact h

/-- The value stays only if the uop does not write RDX. -/
theorem Rdx.mem_after {op : Uop} (hwide : ¬IsWide op) (hv : v ∈ (rdx.after op).value) :
    v ∈ rdx.value ∧ op.src ≠ .imul1 ∧ (op.reg2 = .gpr .rdx → keepsReg2 op.opcode = true) ∧
      (rdx.after op).latest = (rdx.latest && !formsResult op) := by
  rw [Rdx.after, if_neg hwide] at hv ⊢
  dsimp only at hv ⊢
  obtain ⟨hcond, hv⟩ := Option.ite_none_left_eq_some.mp hv
  rw [Bool.or_eq_true, Bool.and_eq_true, beq_iff_eq, beq_iff_eq, not_or] at hcond
  refine ⟨hv, hcond.1, fun hreg2 ↦ ?_, rfl⟩
  by_contra hkeeps
  rw [Bool.not_eq_true] at hkeeps
  exact hcond.2 ⟨hreg2, by rw [hkeeps]; rfl⟩

/-- The uop takes its place among the two latest results, and any of them that is RDX is right. -/
def Results (v : Word) (op : Uop) (ex ex' : Execute) : Prop :=
  (formsResult op = false ∧ Execute.SameResults ex ex') ∨
    ∃ r w, (r = .gpr .rdx → w = v) ∧ Execute.NewResult r w ex ex'

theorem Results.of_sameResults {op : Uop} {ex ex₁ ex' : Execute} (h : Results v op ex₁ ex')
    (hsame : Execute.SameResults ex ex₁) : Results v op ex ex' := by
  rcases h with ⟨hforms, hsame'⟩ | ⟨r, w, hrw, hnew⟩
  · exact .inl ⟨hforms, hsame.trans hsame'⟩
  · exact .inr ⟨r, w, hrw, hsame.newResult hnew⟩

/-- A uop is completed that does not change RDX. -/
theorem Tracks.complete {op : Uop} (h : Tracks v rdx.latest c) (hwide : ¬IsWide op)
    (hv : v ∈ (rdx.after op).value) (hreg2 : op.reg2 = .gpr .rdx → op.value2 = v)
    (hresults : Results v op c.ex c'.ex)
    (hregfile : c'.regfile = c.regfile ∨ ∃ w, c'.regfile = c.regfile.set .rax w)
    (hew : c'.ewUopQueue = c.ewUopQueue ++ [op]) (hqueued : ∀ u ∈ pending c', RightRdx v u) :
    Tracks v (rdx.after op).latest c' := by
  obtain ⟨-, hsrc, -, hlatest⟩ := Rdx.mem_after hwide hv
  have hleaves : Leaves v op := leaves_of_reg2 hreg2 hwide hsrc
  have hretires : RdxRetires v c'.regfile c'.ewUopQueue := by
    rw [hew]
    rcases hregfile with hrf | ⟨w, hrf⟩
    · rw [hrf]
      exact h.retires.append hleaves
    · rw [hrf]
      exact (h.retires.set_rax w).append hleaves
  rcases hresults with ⟨hforms, hsame⟩ | ⟨r, w, hrw, hnew⟩
  · refine ⟨fun hprev ↦ ?_, fun hprev hlast ↦ ?_, hretires, hqueued⟩
    · rw [hsame.value1]
      exact h.prev1 (hsame.reg1.symm.trans hprev)
    · rw [hlatest, hforms, Bool.not_false, Bool.and_true] at hlast
      rw [hsame.value2]
      exact h.prev2 (hsame.reg2.symm.trans hprev) hlast
  · refine ⟨fun hprev ↦ ?_, fun hprev _ ↦ ?_, hretires, hqueued⟩
    · rw [hnew.value1]
      exact hrw (hnew.reg1.symm.trans hprev)
    · rw [hnew.value2]
      exact h.prev1 (hnew.reg2.symm.trans hprev)

/-- The memory answers a uop that waited for it. -/
theorem RdxInv.answered {op : Uop} (h : RdxInv c rdx) (hstate : c.ex.state = .read)
    (hop : reads op.opcode = true) (hstate' : c'.ex.state = .normal)
    (hregfile : c'.regfile = c.regfile) (hew : c'.ewUopQueue = c.ewUopQueue ++ [op])
    (hde : c'.deUopQueue = c.deUopQueue.tail)
    (hresults : (op.opcode = .ret ∧ Execute.SameResults c.ex c'.ex) ∨
      Execute.NewResult op.reg2 op.value2 c.ex c'.ex) : RdxInv c' (rdx.after op) := by
  have hnarrow : ¬IsWide op := by
    rintro (hopcode | hopcode | hopcode | ⟨hopcode, -⟩) <;>
      · rw [hopcode] at hop
        exact Bool.noConfusion hop
  have hkeeps : keepsReg2 op.opcode ≠ true := by
    intro hkeeps
    rw [reads, Bool.or_eq_true, Bool.or_eq_true, beq_iff_eq, beq_iff_eq, beq_iff_eq] at hop
    rcases hop with (hopcode | hopcode) | hopcode <;>
      · rw [hopcode] at hkeeps
        exact Bool.noConfusion hkeeps
  refine ⟨fun u hu ↦ h.wide u (List.mem_of_mem_tail (hde ▸ hu)), fun hread ↦ ?_, fun v hv ↦ ?_⟩
  · rw [hstate'] at hread
    cases hread
  · obtain ⟨hv₀, hsrc, hreg2, -⟩ := Rdx.mem_after hnarrow hv
    have hother : op.reg2 ≠ .gpr .rdx := fun hrdx ↦ hkeeps (hreg2 hrdx)
    have ht := h.tracks v hv₀
    refine ht.complete hnarrow hv (fun hrdx ↦ absurd hrdx hother) ?_ (.inl hregfile) hew
      fun u hu ↦ ht.queued u ?_
    · rcases hresults with ⟨hret, hsame⟩ | hnew
      · exact .inl ⟨by rw [formsResult, hret], hsame⟩
      · exact .inr ⟨_, _, fun hrdx ↦ absurd hrdx hother, hnew⟩
    · rw [pending, if_pos hstate, ← hde]
      exact pending_subset c' hu

/-- The loop over the instruction's uops leaves those behind the front one right. -/
theorem Tracks.patchLoop {frontAddr : Word} {rest : List Uop} (h : Tracks v rdx.latest c)
    (hrest : ∀ u ∈ rest, u ∈ pending c)
    (hmeets : ∀ u ∈ rest, readsReg2 u = true → u.reg1 = c.ex.prevReg2 ∨ u.reg2 = c.ex.prevReg2 →
      c.ex.prevReg2 = .gpr .rdx ∧ rdx.latest = false) :
    ∀ u ∈ Execute.patchLoop c.ex frontAddr rest, RightRdx v u := by
  intro u hu
  obtain ⟨u₀, hmem, rfl | rfl⟩ := mem_patchLoop hu
  · exact h.queued u (hrest u hmem)
  · refine right_patchUop (h.queued u₀ (hrest u₀ hmem)) h.prev1 fun hreads hmatch ↦ ?_
    obtain ⟨hprev, hlast⟩ := hmeets u₀ hmem hreads hmatch
    exact h.prev2 hprev hlast

theorem wide_patchLoop {ex : Execute} {frontAddr : Word} {us : List Uop}
    (h : ∀ u ∈ us, IsWide u → u.reg2 = .gpr .rax) :
    ∀ u ∈ Execute.patchLoop ex frontAddr us, IsWide u → u.reg2 = .gpr .rax := by
  intro u hu hwide
  obtain ⟨u₀, hmem, rfl | rfl⟩ := mem_patchLoop hu
  · exact h u hmem hwide
  · rw [(patchUop_fields ex u₀).2.2.2.1]
    exact h u₀ hmem ((isWide_patchUop ex u₀).mp hwide)

theorem formsResult_eq_false {op : Uop} (hreads : reads op.opcode = false)
    (hsys : op.opcode ≠ .syscall)
    (h : ¬(op.opcode ≠ .nop ∧ op.opcode ≠ .syscall ∧ op.reg2 ≠ .none)) :
    formsResult op = false := by
  rw [formsResult]
  split
  · next hop => exact absurd hop hsys
  · next hop =>
    rw [hop] at hreads
    cases hreads
  · next hop =>
    rw [hop] at hreads
    cases hreads
  · rfl
  · rfl
  · next hnop _ => exact bne_eq_false_iff_eq.mpr (by_contra fun hreg2 ↦ h ⟨hnop, hsys, hreg2⟩)

/-- The results after the code behind the `switch`. -/
theorem results_finish {inp : CycleInput} {op op' : Uop} {c₁ c₂ : Core}
    (h : Execute.switchOp inp op c₁ = some (op', c₂)) (hop : reads op.opcode = false)
    (hreg2 : op'.reg2 = .gpr .rdx → op'.value2 = v) :
    Results v op' c₁.ex (Execute.finish op' c₂).ex ∧
      ((Execute.finish op' c₂).regfile = c₁.regfile ∨
        ∃ w, (Execute.finish op' c₂).regfile = c₁.regfile.set .rax w) := by
  rw [Execute.finish_regfile]
  have hopcode := (Execute.switchOp_kept h).1.opcode
  rcases Execute.switchOp_results h with ⟨hsys, hsame, hrf⟩ | ⟨hsys, rfl, w, hnew, hrf⟩
  · refine ⟨?_, .inl hrf⟩
    by_cases hforms : op'.opcode ≠ .nop ∧ op'.opcode ≠ .syscall ∧ op'.reg2 ≠ .none
    · exact .inr ⟨_, _, hreg2, hsame.newResult (Execute.finish_newResult c₂ hforms)⟩
    · refine .inl ⟨?_, hsame.trans (Execute.finish_sameResults c₂ hforms)⟩
      exact formsResult_eq_false (hopcode ▸ hop) (hopcode ▸ hsys) hforms
  · refine ⟨.inr ⟨.gpr .rax, w, nofun, ?_⟩, .inr ⟨w, hrf⟩⟩
    have hforms : ¬(op'.opcode ≠ .nop ∧ op'.opcode ≠ .syscall ∧ op'.reg2 ≠ .none) :=
      fun hforms ↦ hforms.2.1 hsys
    exact hnew.sameResults (Execute.finish_sameResults c₂ hforms)

theorem forms_of_isWide {op : Uop} (h : IsWide op) (hreg2 : op.reg2 = .gpr .rax) :
    op.opcode ≠ .nop ∧ op.opcode ≠ .syscall ∧ op.reg2 ≠ .none := by
  refine ⟨?_, ?_, by rw [hreg2]; exact Reg.noConfusion⟩ <;>
  · rcases h with hop | hop | hop | ⟨hop, -⟩ <;>
    · rw [hop]
      exact Mnemonic.noConfusion

/-- In `STATE_READ` no uop is taken from the queue. -/
theorem RdxInv.not_read (h : RdxInv c rdx) (hwait : Execute.waiting cur c.ex = false) :
    c.ex.state ≠ .read := fun hstate ↦
  Bool.noConfusion (hwait.symm.trans (Execute.waiting_of_reads hstate (h.read hstate)))

theorem mem_pending {front : Uop} {rest : List Uop} (hstate : c.ex.state ≠ .read)
    (hde : c.deUopQueue = front :: rest) : ∀ u ∈ front :: rest, u ∈ pending c := by
  rw [pending, if_neg hstate, hde]
  exact fun u hu ↦ hu

/-- The front uop is right after the forwarding code. -/
theorem RdxInv.right_front {front : Uop} {rest : List Uop} (h : RdxInv c rdx)
    (hstate : c.ex.state ≠ .read) (hde : c.deUopQueue = front :: rest)
    (hrecalls : readsRdx (Execute.forward c.ex c.offsetregValue front) = true → Recalls rdx c.ex)
    (hv : v ∈ rdx.value) : RightRdx v (Execute.forward c.ex c.offsetregValue front) := by
  have ht := h.tracks v hv
  refine right_forward (ht.queued front (mem_pending hstate hde front List.mem_cons_self)) _
    ht.prev1 fun hreads hprev ↦ ht.prev2 hprev ?_
  exact hrecalls hreads hprev

/-- What running the front uop starts from: it and the uops behind it are right. -/
structure RdxReady (c c₁ : Core) (rdx : Rdx) (op : Uop) : Prop where
  ex : Execute.SameResults c.ex c₁.ex
  regfile : c₁.regfile = c.regfile
  ewUopQueue : c₁.ewUopQueue = c.ewUopQueue
  state : c₁.ex.state ≠ .read
  wide : ∀ u ∈ c₁.deUopQueue, IsWide u → u.reg2 = .gpr .rax
  wideOp : IsWide op → op.reg2 = .gpr .rax ∧ ∀ u ∈ c₁.deUopQueue.tail, readsRdx u = false
  tracks : ∀ v ∈ rdx.value, Tracks v rdx.latest c ∧ RightRdx v op ∧
    ∀ u ∈ c₁.deUopQueue.tail, RightRdx v u

/-- The uop waits for the memory. -/
theorem RdxReady.startRead {c₁ : Core} {op : Uop} (h : RdxReady c c₁ rdx op)
    (hop : reads op.opcode = true) (addr : Word) : RdxInv (Execute.startRead op addr c₁) rdx := by
  refine ⟨h.wide, fun _ ↦ hop, fun v hv ↦ ?_⟩
  obtain ⟨ht, -, htail⟩ := h.tracks v hv
  refine ⟨fun hprev ↦ ?_, fun hprev hlast ↦ ?_, ?_, htail⟩
  · exact h.ex.value1.trans (ht.prev1 (h.ex.reg1.symm.trans hprev))
  · exact h.ex.value2.trans (ht.prev2 (h.ex.reg2.symm.trans hprev) hlast)
  · change RdxRetires v c₁.regfile c₁.ewUopQueue
    rw [h.regfile, h.ewUopQueue]
    exact ht.retires

/-- The code after the `switch` is reached. -/
theorem RdxReady.finish {inp : CycleInput} {c₁ c₂ : Core} {op op' : Uop} (h : RdxReady c c₁ rdx op)
    (hop : reads op.opcode = false) (hswitch : Execute.switchOp inp op c₁ = some (op', c₂)) :
    RdxInv (Execute.finish op' c₂) (rdx.after op') := by
  obtain ⟨hsame, hkept⟩ := Execute.switchOp_kept hswitch
  have hde : (Execute.finish op' c₂).deUopQueue = c₁.deUopQueue.tail := by
    rw [Execute.finish_deUopQueue, hkept.deUopQueue]
  have hstate : (Execute.finish op' c₂).ex.state ≠ .read := by
    rw [Execute.finish_state, hkept.state]
    exact h.state
  have hpending : pending (Execute.finish op' c₂) = c₁.deUopQueue.tail := by
    rw [pending, if_neg hstate, hde]
  have hew : (Execute.finish op' c₂).ewUopQueue = c.ewUopQueue ++ [op'] := by
    rw [Execute.finish_ewUopQueue, hkept.ewUopQueue, h.ewUopQueue]
  refine ⟨fun u hu ↦ h.wide u (List.mem_of_mem_tail (hde ▸ hu)), fun hread ↦ absurd hread hstate,
    fun v hv ↦ ?_⟩
  by_cases hwide : IsWide op
  · -- a new second destination, which no uop dispatched with this one reads
    have hwide' : IsWide op' := (isWide_of_sameUop hsame).mpr hwide
    obtain ⟨hrax, htail⟩ := h.wideOp hwide
    have hreg2 : op'.reg2 = .gpr .rax := (switchOp_isWide hswitch hwide).trans hrax
    rw [Rdx.after, if_pos hwide'] at hv ⊢
    obtain rfl := Option.some.inj hv
    have hnew := Execute.finish_newResult c₂ (forms_of_isWide hwide' hreg2)
    refine ⟨fun hprev ↦ ?_, fun _ hlast ↦ Bool.noConfusion hlast, ?_, fun u hu ↦ ?_⟩
    · -- the latest result is the one for RAX
      rw [hnew.reg1, hreg2] at hprev
      cases hprev
    · rw [hew]
      exact RdxRetires.of_isWide _ _ hwide'
    · exact right_of_readsRdx (htail u (hpending ▸ hu))
  · have hnarrow : ¬IsWide op' := fun hwide' ↦ hwide ((isWide_of_sameUop hsame).mp hwide')
    obtain ⟨hv₀, -, hkeeps, -⟩ := Rdx.mem_after hnarrow hv
    obtain ⟨ht, hright, htail⟩ := h.tracks v hv₀
    have hreg2 : op'.reg2 = .gpr .rdx → op'.value2 = v := by
      intro hrdx
      have hkeeps := hkeeps hrdx
      obtain rfl := switchOp_keepsReg2 hswitch (hsame.opcode ▸ hkeeps)
      exact hright.2.1 (readsReg2_of_keepsReg2 hrdx hkeeps)
    obtain ⟨hresults, hregfile⟩ := results_finish hswitch hop hreg2
    rw [h.regfile] at hregfile
    exact ht.complete hnarrow hv hreg2 (hresults.of_sameResults h.ex) hregfile hew
      fun u hu ↦ htail u (hpending ▸ hu)

/-- `Execute` runs the front uop. -/
theorem RdxReady.run {c₁ : Core} {op : Uop} (h : RdxReady c c₁ rdx op) (inp : CycleInput) :
    (Execute.runOp inp op c₁).aborted = true ∨
      RdxInv (Execute.runOp inp op c₁)
        ((completed c (Execute.runOp inp op c₁)).foldl Rdx.after rdx) := by
  have hran := Execute.runOp_ran inp op c₁
  generalize Execute.runOp inp op c₁ = c' at hran ⊢
  cases hran with
  | read addr hreads => exact .inr ((h.startRead hreads addr).of_same h.ewUopQueue)
  | died => exact .inl rfl
  | finished op' c₂ hreads hswitch =>
    refine .inr ((h.finish hreads hswitch).of_append ?_)
    rw [Execute.finish_ewUopQueue, (Execute.switchOp_kept hswitch).2.ewUopQueue, h.ewUopQueue]

/-- The uops behind the front one are right after the loop over the instruction's uops. -/
theorem RdxInv.right_tail {front : Uop} {rest : List Uop} (h : RdxInv c rdx)
    (hstate : c.ex.state ≠ .read) (hde : c.deUopQueue = front :: rest) (hv : v ∈ rdx.value)
    (hloop : ∀ u ∈ rest, rdx.value.isSome → readsReg2 u = true →
      u.reg1 = c.ex.prevReg2 ∨ u.reg2 = c.ex.prevReg2 →
        c.ex.prevReg2 = .gpr .rdx ∧ rdx.latest = false) :
    ∀ u ∈ (Execute.select front (Execute.start c)).deUopQueue.tail, RightRdx v u := by
  rw [Execute.select_tail hde]
  refine (h.tracks v hv).patchLoop (fun u hu ↦ ?_) fun u hu ↦ hloop u hu (Option.isSome_of_mem hv)
  exact mem_pending hstate hde u (List.mem_cons_of_mem _ hu)

/-- The front uop is ready once its operands have been forwarded. -/
theorem RdxInv.ready {front : Uop} {rest : List Uop} (h : RdxInv c rdx)
    (hstate : c.ex.state ≠ .read) (hde : c.deUopQueue = front :: rest)
    (hrecalls : rdx.value.isSome →
      readsRdx (Execute.forward c.ex c.offsetregValue front) = true → Recalls rdx c.ex)
    (hloop : ∀ u ∈ rest, rdx.value.isSome → readsReg2 u = true →
      u.reg1 = c.ex.prevReg2 ∨ u.reg2 = c.ex.prevReg2 →
        c.ex.prevReg2 = .gpr .rdx ∧ rdx.latest = false)
    (hwide : IsWide (Execute.forward c.ex c.offsetregValue front) →
      ∀ u ∈ rest, readsRdx u = false) :
    RdxReady c { Execute.select front (Execute.start c) with ex.firstrun := false } rdx
      (Execute.forward c.ex c.offsetregValue front) := by
  refine ⟨⟨rfl, rfl, rfl, rfl⟩, rfl, rfl, hstate, wide_patchLoop h.wide, fun hop ↦ ?_,
    fun v hv ↦ ?_⟩
  · refine ⟨h.wide front (hde ▸ List.mem_cons_self) hop, fun u hu ↦ ?_⟩
    have hu : u ∈ (Execute.select front (Execute.start c)).deUopQueue.tail := hu
    rw [Execute.select_tail hde] at hu
    obtain ⟨u₀, hmem, hu⟩ := mem_patchLoop hu
    have hreads : readsRdx u₀ = false := hwide hop u₀ hmem
    rcases hu with rfl | rfl
    · exact hreads
    · rw [readsRdx_patchUop, hreads]
  · exact ⟨h.tracks v hv, h.right_front hstate hde (hrecalls (Option.isSome_of_mem hv)) hv,
      h.right_tail hstate hde hv hloop⟩

/-- **`Execute` keeps the invariant**, as long as the condition is met. -/
theorem RdxInv.execute (inp : CycleInput) (h : RdxInv c rdx) (hmeets : ExecuteMeets cur rdx c) :
    (Execute.work inp cur c).aborted = true ∨
      RdxInv (Execute.work inp cur c)
        ((completed c (Execute.work inp cur c)).foldl Rdx.after rdx) := by
  have hwork := Execute.work_outcome inp cur c
  unfold ExecuteMeets at hmeets
  generalize Execute.work inp cur c = c' at hwork ⊢
  generalize issued cur c = ran at hwork hmeets
  cases hwork with
  | idle =>
    refine .inr (.of_same rfl ⟨h.wide, h.read, fun v hv ↦ ?_⟩)
    have ht := h.tracks v hv
    exact ⟨ht.prev1, ht.prev2, ht.retires, ht.queued⟩
  | cleared =>
    refine .inr (.of_same rfl ⟨fun u hu ↦ absurd hu List.not_mem_nil, h.read, fun v hv ↦ ?_⟩)
    have ht := h.tracks v hv
    exact ⟨ht.prev1, ht.prev2, ht.retires, fun u hu ↦ absurd (pending_subset _ hu) List.not_mem_nil⟩
  | ret hclear hstate hready hop htag =>
    have hew : (Execute.completeRet cur (Execute.start c)).ewUopQueue =
        c.ewUopQueue ++ [{ c.ex.op with value3 := c.ex.op.value3 + 8 }] := rfl
    refine .inr (.of_append hew (h.answered hstate ?_ rfl rfl hew rfl ?_))
    · rw [reads, hop]
      rfl
    · exact .inl ⟨hop, rfl, rfl, rfl, rfl⟩
  | pop hclear hstate hready hop htag =>
    have hew : (Execute.completePop cur (Execute.start c)).ewUopQueue =
        c.ewUopQueue ++
          [{ c.ex.op with value2 := cur.dData, value3 := c.ex.op.value3 + 8 }] := rfl
    refine .inr (.of_append hew (h.answered hstate ?_ rfl rfl hew rfl ?_))
    · rw [reads, hop]
      rfl
    · exact .inr ⟨rfl, rfl, rfl, rfl⟩
  | load hclear hstate hready hop htag =>
    have hew : (Execute.completeLoad cur (Execute.start c)).ewUopQueue =
        c.ewUopQueue ++ [{ c.ex.op with value2 := cur.dData }] := rfl
    refine .inr (.of_append hew (h.answered hstate ?_ rfl rfl hew rfl ?_))
    · rw [reads, hop]
      rfl
    · exact .inr ⟨rfl, rfl, rfl, rfl⟩
  | dropped front rest hclear hwait hde hunexp htakes =>
    -- the loop over the instruction's uops has run before the address was looked at
    have hstate := h.not_read hwait
    obtain ⟨-, -, hloop, -⟩ := hmeets htakes
    rw [hde, List.tail_cons] at hloop
    refine .inr (.of_same rfl ⟨fun u hu ↦ ?_, fun hread ↦ absurd hread hstate, fun v hv ↦ ?_⟩)
    · exact wide_patchLoop h.wide u (List.mem_of_mem_tail hu)
    · have ht := h.tracks v hv
      exact ⟨ht.prev1, ht.prev2, ht.retires,
        fun u hu ↦ h.right_tail hstate hde hv hloop u (pending_subset _ hu)⟩
  | ran front rest hclear hwait hew hde hexp htakes =>
    obtain ⟨hrecalls, -, hloop, hwide⟩ := hmeets htakes
    rw [hde, List.tail_cons] at hloop hwide
    exact (h.ready (h.not_read hwait) hde (hrecalls _ rfl) hloop (hwide _ rfl)).run inp

/-- **The uop that is run gets the value of the second destination.** -/
theorem RdxInv.getsRdx (h : RdxInv c rdx) (hmeets : ExecuteMeets cur rdx c) {op : Uop}
    (hop : op ∈ issued cur c) (hv : v ∈ rdx.value) : GetsRdx v c op := by
  have hwork := Execute.work_outcome CycleInput.zero cur c
  rw [Option.mem_def] at hop
  unfold ExecuteMeets at hmeets
  rw [hop] at hwork hmeets
  generalize Execute.work CycleInput.zero cur c = c' at hwork
  cases hwork with
  | ran front rest hclear hwait hew hde hexp htakes =>
    have hstate := h.not_read hwait
    obtain ⟨hrecalls, hcalls, -, -⟩ := hmeets htakes
    have hsome := Option.isSome_of_mem hv
    refine ⟨h.right_front hstate hde (hrecalls _ rfl hsome) hv, fun hsys ↦ ?_⟩
    have ht := h.tracks v hv
    rw [syscallArg]
    split_ifs with hprev
    · exact ht.prev1 hprev.1
    · rcases hcalls _ rfl hsome hsys with hrdx | hew'
      · exact absurd ⟨hrdx, by decide⟩ hprev
      · exact ht.retires.regfile hew'

end Acts

/-! ## Runs -/

/-- As long as every step met the condition every uop was right, and the invariant holds unless the
host process has died. -/
def WatchedInv (w : Watched) : Prop :=
  w.met = true → w.right = true ∧ (w.pipe.core.aborted = true ∨ RdxInv w.pipe.core w.rdx)

theorem watchAct_inv (i : Input (List Uop)) (st : Stage) {w : Watched} (h : WatchedInv w) :
    WatchedInv (watchAct i st w) := by
  intro hmet
  obtain ⟨hmet, hmeets⟩ := Bool.and_eq_true_iff.mp hmet
  replace hmeets := of_decide_eq_true hmeets
  obtain ⟨hright, hinv⟩ := h hmet
  have hnow : RightNow st w := by
    rintro rfl haborted op hop
    rcases hinv with hdead | hinv
    · exact absurd (haborted.symm.trans hdead) Bool.noConfusion
    · refine (Option.all_eq_true _ _).mpr fun v hv ↦ decide_eq_true ?_
      exact hinv.getsRdx hmeets hop hv
  refine ⟨Bool.and_eq_true_iff.mpr ⟨hright, decide_eq_true hnow⟩, ?_⟩
  cases st with
  | decode =>
    refine hinv.imp id fun hinv ↦ ⟨hinv.wide, hinv.read, fun v hv ↦ ?_⟩
    have ht := hinv.tracks v hv
    exact ⟨ht.prev1, ht.prev2, ht.retires, ht.queued⟩
  | dispatch =>
    have haborted : (Dispatch.work w.pipe.cur w.pipe.core).aborted = w.pipe.core.aborted := by
      have hwork := Dispatch.work_outcome w.pipe.cur w.pipe.core
      generalize Dispatch.work w.pipe.cur w.pipe.core = c' at hwork ⊢
      cases hwork <;> rfl
    exact hinv.imp haborted.trans fun hinv ↦ hinv.dispatch hmeets
  | execute =>
    rcases hinv with hdead | hinv
    · exact .inl (Execute.work_aborted i.cycle w.pipe.cur hdead)
    · exact hinv.execute i.cycle hmeets
  | writeback =>
    have haborted : (Writeback.work w.pipe.cur w.pipe.core).aborted = w.pipe.core.aborted := by
      rcases Writeback.work_eq w.pipe.cur w.pipe.core with hwork | ⟨op, rest, -, hwork⟩ <;>
          rw [hwork]
    exact hinv.imp haborted.trans fun hinv ↦ hinv.writeback

private def gprOperand (g : Gpr) : Decoder.Operand :=
  { Decoder.Operand.none with type := .reg, size := 64, base := .gpr g }

private def cracked (address : Word) (size : ℕ) (mnemonic : Mnemonic)
    (operand0 operand1 : Decoder.Operand) : List Uop :=
  Decoder.crackAt (fun _ ↦ ⟨0, 0, 0⟩) address size ⟨mnemonic, operand0, operand1, .none⟩

/-- One cycle in which the decoder delivers these uops. The stages run from the last to the first.
-/
private def lastFirst (us : List Uop) : Schedule.Cycle (Input (List Uop)) stages :=
  ⟨⟨us, true, false, 0, 0, CycleInput.zero⟩, [.writeback, .execute, .dispatch, .decode],
    writebackFirst_perm⟩

/-- RAX holds 100, RDX 55 and R8 7. -/
private def divisionCore : Core :=
  Core.boot (fun | .rax => 100 | .rdx => 55 | .r8 => 7 | _ => 0) ⟨0⟩ (fun _ ↦ 0)
    (.init 0 Uop.zero)

/-- `cqo; idiv r8; mov rbx, rdx`, an instruction in each cycle. -/
private def closeCycles : Cycles (List Uop) :=
  ([cracked 0x1000 2 .cqo .none .none, cracked 0x1002 3 .idiv (gprOperand .r8) .none,
    cracked 0x1005 3 .mov (gprOperand .rbx) (gprOperand .rdx)] ++
    List.replicate 9 []).map lastFirst

/-- `mov rdx, 0; mov r9, 0; idiv r8`, and `mov rbx, rdx` once the division has retired. -/
private def apartCycles : Cycles (List Uop) :=
  ([cracked 0x1000 7 .mov (gprOperand .rdx) ⟨.imm, 32, .none, .none, 0, 0, 0⟩,
    cracked 0x1007 7 .mov (gprOperand .r9) ⟨.imm, 32, .none, .none, 0, 0, 0⟩,
    cracked 0x100e 3 .idiv (gprOperand .r8) .none] ++ List.replicate 6 [] ++
    [cracked 0x1011 3 .mov (gprOperand .rbx) (gprOperand .rdx)] ++
    List.replicate 9 []).map lastFirst

end Cse502.Pipeline
