import Cse502.Model.Decoder
import Cse502.Pipeline.WideResults

/-!
# Runs of cracked instructions beside a monitor

The decoder delivers the uops of any instructions, in any cycle and in any order. A monitor
follows the uops that `Execute` completes with a state of its own, asks of every activation
whether it meets a condition, and whether what it has to be right about is right.

An invariant that every activation keeps as long as the condition is met gives the result for every
run: `Monitor.run_right`.
-/

namespace Cse502.Pipeline

open Arch (IsWide)
open Decoder (Ud Push Uninit crackAt)
open Execute (reads)

/-! ## The uops of instructions -/

/-- An instruction as `crack_opcodes` gets it, with what was in memory when its uops were pushed.
udis86 knows no instructions of the names `load` and `store`. -/
structure Insn where
  ud : Ud
  address : Word
  size : ℕ
  junk : ℕ → Uninit
  named : ud.mnemonic ≠ .load ∧ ud.mnemonic ≠ .store

/-- The uops of an instruction. -/
def Insn.uops (i : Insn) : List Uop := crackAt i.junk i.address i.size i.ud

/-- The decoder delivers the uops of these instructions. -/
def crackedUops (is : List Insn) (_ : Signals) (_ : Unit) : List Uop × Unit :=
  (is.flatMap Insn.uops, ())

/-- What all uops of the decoder have in common: only a multiplication has the source tag of the
form with one operand, and a load goes to the scratch register. -/
structure Formed (u : Uop) : Prop where
  imul1 : u.src = .imul1 → u.opcode = .imul
  load : u.opcode = .load → u.reg2 = .scratchregls

/-- The opcodes that use the stack pointer. -/
def usesStack : Mnemonic → Bool
  | .call | .ret | .pop | .push | .pushfq => true
  | _ => false

/-- What all uops have in common once `Dispatch` has filled in the operands they do not name. -/
structure Filled (u : Uop) : Prop extends Formed u where
  wide : IsWide u → u.reg2 = .gpr .rax
  stack : usesStack u.opcode = true → u.reg3 = .gpr .rsp

/-! ## What is pushed -/

/-- The calls of `push2q` whose uops are formed. -/
def Sound (p : Push) : Prop :=
  (p.source = .imul1 → p.mnemonic = .imul) ∧ (p.mnemonic = .load → p.reg2 = .scratchregls)

private theorem sound_append {ps qs : List Push} (hps : ∀ p ∈ ps, Sound p)
    (hqs : ∀ p ∈ qs, Sound p) :
    ∀ p ∈ ps ++ qs, Sound p := List.forall_mem_append.mpr ⟨hps, hqs⟩

private theorem sound_ite {c : Prop} [Decidable c] {ps qs : List Push} (hps : ∀ p ∈ ps, Sound p)
    (hqs : ∀ p ∈ qs, Sound p) : ∀ p ∈ (if c then ps else qs), Sound p := by
  split_ifs
  · exact hps
  · exact hqs

private theorem sound_cons {p : Push} {ps : List Push} (hp : Sound p) (hps : ∀ p ∈ ps, Sound p) :
    ∀ q ∈ p :: ps, Sound q := List.forall_mem_cons.mpr ⟨hp, hps⟩

private theorem sound_nil : ∀ p ∈ ([] : List Push), Sound p := List.forall_mem_nil _

/-- Uops with another mnemonic and another source tag have nothing to be sound about. -/
private theorem sound_of_ne {m : Mnemonic} {r1 r2 r3 : Reg} {imm : Word} {src : SrcType}
    (hm : m ≠ .load) (hsrc : src ≠ .imul1) : Sound ⟨m, r1, r2, r3, imm, src⟩ :=
  ⟨fun h ↦ absurd h hsrc, fun h ↦ absurd h hm⟩

/-- The uops of an instruction with a memory operand. -/
private theorem sound_crackMemory {ud : Ud} (hload : ud.mnemonic ≠ .load) :
    ∀ p ∈ Decoder.crackMemory ud, Sound p := by
  have hplain : ∀ {r1 r2 r3 imm}, Sound ⟨ud.mnemonic, r1, r2, r3, imm, .reg⟩ :=
    sound_of_ne hload SrcType.noConfusion
  have himm : ∀ {r1 r2 r3 imm}, Sound ⟨ud.mnemonic, r1, r2, r3, imm, .immed⟩ :=
    sound_of_ne hload SrcType.noConfusion
  have hoffset : ∀ o, ∀ p ∈ [Decoder.addOffset o], Sound p := fun o ↦
    sound_cons (sound_of_ne Mnemonic.noConfusion SrcType.noConfusion) sound_nil
  have hmov : ∀ {r1 r2}, Sound ⟨.mov, r1, r2, .none, 0, .reg⟩ :=
    sound_of_ne Mnemonic.noConfusion SrcType.noConfusion
  have hscale : ∀ {imm}, ∀ p ∈ [(⟨.imul, .none, .loadStoreReg, .none, imm, .loadmul⟩ : Push)],
      Sound p := sound_cons (sound_of_ne Mnemonic.noConfusion SrcType.noConfusion) sound_nil
  have hpushLoad : Sound Decoder.pushLoad := ⟨nofun, fun _ ↦ rfl⟩
  have hpushStore : Sound Decoder.pushStore := sound_of_ne Mnemonic.noConfusion SrcType.noConfusion
  have hcompare : ∀ oj, ∀ p ∈ Decoder.crackCompare ud oj, Sound p := by
    intro oj
    refine sound_cons hpushLoad (sound_cons ?_ sound_nil)
    split_ifs
    · exact hplain
    · exact himm
  have hloads : ∀ p ∈ Decoder.crackLoad ud, Sound p :=
    sound_cons hpushLoad (sound_cons hplain sound_nil)
  have hstore : ∀ p ∈ Decoder.crackStoreNoIndex ud, Sound p :=
    sound_cons hplain (sound_cons hpushStore sound_nil)
  have hstoreIndex : ∀ oj, ∀ p ∈ Decoder.crackStoreIndex ud oj, Sound p := by
    intro oj
    refine sound_cons ?_ (sound_cons hpushStore sound_nil)
    split_ifs
    · exact hplain
    · exact himm
  have hlea : ∀ dst, ∀ p ∈ Decoder.crackLea dst, Sound p := fun dst ↦ sound_cons hmov sound_nil
  rw [Decoder.crackMemory]
  -- a base alone, an index alone, or both: the address, and what is done with it
  refine sound_ite (sound_append ?_ ?_) (sound_ite (sound_append ?_ ?_) (sound_append ?_ ?_))
  · exact sound_cons hmov (sound_ite (hoffset _) sound_nil)
  · exact sound_ite (hcompare _) (sound_ite hloads (sound_ite hstore (hlea _)))
  · exact sound_cons hmov
      (sound_append (sound_ite hscale sound_nil) (sound_ite (hoffset _) sound_nil))
  · exact sound_ite (hlea _) (sound_ite (hcompare _) (sound_ite hloads (hstoreIndex _)))
  · refine sound_cons hmov (sound_append (sound_ite hscale sound_nil)
      (sound_append (sound_ite (sound_cons ?_ sound_nil) sound_nil)
        (sound_ite (hoffset _) sound_nil)))
    exact sound_of_ne Mnemonic.noConfusion SrcType.noConfusion
  · exact sound_ite (hlea _) (sound_ite (hcompare _) (sound_ite hloads (hstoreIndex _)))

/-- **Everything `crack_opcodes` pushes is sound.** -/
theorem sound_crack {ud : Ud} (hload : ud.mnemonic ≠ .load) {ps : List Push}
    (h : Decoder.crack ud = some ps) : ∀ p ∈ ps, Sound p := by
  have hplain : ∀ {r1 r2 r3 imm src}, src ≠ .imul1 →
      ∀ p ∈ [(⟨ud.mnemonic, r1, r2, r3, imm, src⟩ : Push)],
      Sound p := fun hsrc ↦ sound_cons (sound_of_ne hload hsrc) sound_nil
  have himul : ud.mnemonic = .imul → ∀ p ∈ Decoder.crackImul ud, Sound p := by
    intro hop
    have hone : ∀ {r1 r2 r3 imm src},
        ∀ p ∈ [(⟨ud.mnemonic, r1, r2, r3, imm, src⟩ : Push)], Sound p :=
      sound_cons ⟨fun _ ↦ hop, fun h ↦ absurd h hload⟩ sound_nil
    rw [Decoder.crackImul]
    exact sound_ite hone (sound_ite hone (sound_ite hone (sound_ite hone hone)))
  rw [Decoder.crack] at h
  split_ifs at h with h1 h2
  all_goals cases h
  · exact hplain SrcType.noConfusion
  · exact himul h2
  iterate 6 · exact hplain SrcType.noConfusion
  · exact sound_crackMemory hload

/-- The uops of an instruction are formed. -/
theorem formed_uops (i : Insn) : ∀ u ∈ i.uops, Formed u := by
  intro u hu
  rw [Insn.uops] at hu
  cases hcrack : Decoder.crack i.ud with
  | none =>
    simp only [crackAt, Decoder.crackOpcodes, List.foldl_cons, List.foldl_nil, Decoder.crackStep,
      hcrack, List.not_mem_nil] at hu
  | some ps =>
    rw [Decoder.crackAt_eq i.junk i.address i.size hcrack] at hu
    obtain ⟨k, hk, rfl⟩ := List.mem_mapIdx.mp hu
    obtain ⟨himul, hload⟩ := sound_crack i.named.1 hcrack _ (List.getElem_mem hk)
    exact ⟨himul, hload⟩

/-! ## The uops in the queues -/

/-- `Dispatch` fills in the operands that are not named. -/
theorem filled_readOperands (rf : Arf) {u : Uop} (h : Formed u) :
    Filled (Dispatch.readOperands rf u) := by
  have hreg2 : (Dispatch.readValue1 rf u).reg2 = u.reg2 := by
    rw [Dispatch.readValue1]
    split_ifs <;> rfl
  refine ⟨⟨fun hsrc ↦ ?_, fun hop ↦ ?_⟩, fun hwide ↦ ?_, fun hop ↦ ?_⟩
  · rw [Dispatch.readOperands_src] at hsrc
    rw [Dispatch.readOperands_opcode]
    exact h.imul1 hsrc
  · rw [Dispatch.readOperands_opcode] at hop
    rw [Dispatch.readOperands, Dispatch.implicitOperands]
    simp only [Dispatch.readValue1_opcode, hop]
    rw [hreg2]
    exact h.load hop
  · rw [IsWide, Dispatch.readOperands_opcode, Dispatch.readOperands_src] at hwide
    rw [Dispatch.readOperands, Dispatch.implicitOperands]
    rcases hwide with hop | hop | hop | ⟨hop, hsrc⟩ <;> simp [*]
  · rw [Dispatch.readOperands_opcode] at hop
    rw [Dispatch.readOperands, Dispatch.implicitOperands]
    unfold usesStack at hop
    split at hop
    iterate 5 · next hopcode => simp only [Dispatch.readValue1_opcode, hopcode]
    · cases hop

/-- A uop with the same registers, opcode and source. -/
theorem Filled.of_same {u u' : Uop} (h : Filled u) (hopcode : u'.opcode = u.opcode)
    (hsrc : u'.src = u.src) (hreg2 : u'.reg2 = u.reg2) (hreg3 : u'.reg3 = u.reg3) :
    Filled u' := by
  refine ⟨⟨?_, ?_⟩, ?_, ?_⟩
  · rw [hopcode, hsrc]
    exact h.imul1
  · rw [hopcode, hreg2]
    exact h.load
  · rw [IsWide, hopcode, hsrc, hreg2]
    exact h.wide
  · rw [hopcode, hreg3]
    exact h.stack

/-- What holds of the uops in the queues, whatever the instructions are. -/
structure Shaped (c : Core) : Prop where
  dd : ∀ u ∈ c.ddUopQueue, Formed u
  de : ∀ u ∈ c.deUopQueue, Filled u
  reading : c.ex.state = .read → reads c.ex.op.opcode = true ∧ Filled c.ex.op

section Shaped

variable {cur : Signals} {c c' : Core}

theorem Shaped.deliver (h : Shaped c) (is : List Insn) (ready : Bool) :
    Shaped { c with
      ddUopQueue := c.ddUopQueue ++ is.flatMap Insn.uops
      nxt.ddOutReady := ready } := by
  refine ⟨fun u hu ↦ ?_, h.de, h.reading⟩
  rcases List.mem_append.mp hu with hu | hu
  · exact h.dd u hu
  · obtain ⟨i, -, hu⟩ := List.mem_flatMap.mp hu
    exact formed_uops i u hu

theorem Shaped.dispatch (h : Shaped c) (cur : Signals) : Shaped (Dispatch.work cur c) := by
  have hwork := Dispatch.work_outcome cur c
  generalize Dispatch.work cur c = c' at hwork ⊢
  cases hwork with
  | idle => exact ⟨h.dd, h.de, h.reading⟩
  | cleared => exact ⟨fun u hu ↦ absurd hu List.not_mem_nil, h.de, h.reading⟩
  | moved front rest k hclear hdd hde haddr =>
    have hdd' := h.dd
    rw [hdd] at hdd'
    refine ⟨fun u hu ↦ hdd' u (List.mem_cons_of_mem _ (List.mem_of_mem_drop hu)), fun u hu ↦ ?_,
      h.reading⟩
    obtain ⟨u₀, hmem, rfl⟩ := List.mem_map.mp hu
    refine filled_readOperands _ (hdd' u₀ ?_)
    rcases List.mem_cons.mp hmem with rfl | hmem
    · exact List.mem_cons_self
    · exact List.mem_cons_of_mem _ (List.mem_of_mem_take hmem)

theorem Shaped.writeback (h : Shaped c) (cur : Signals) : Shaped (Writeback.work cur c) := by
  rcases Writeback.work_eq cur c with hwork | ⟨op, rest, -, hwork⟩ <;> rw [hwork]
  · exact h
  · exact ⟨h.dd, h.de, h.reading⟩

/-- In `STATE_READ` no uop is taken from the queue. -/
theorem Shaped.not_read (h : Shaped c) (hwait : Execute.waiting cur c.ex = false) :
    c.ex.state ≠ .read := fun hstate ↦
  Bool.noConfusion (hwait.symm.trans (Execute.waiting_of_reads hstate (h.reading hstate).1))

theorem filled_patchLoop {ex : Execute} {frontAddr : Word} {us : List Uop}
    (h : ∀ u ∈ us, Filled u) : ∀ u ∈ Execute.patchLoop ex frontAddr us, Filled u := by
  intro u hu
  obtain ⟨u₀, hmem, rfl | rfl⟩ := mem_patchLoop hu
  · exact h u hmem
  · obtain ⟨hopcode, hsrc, -, hreg2, hreg3, -⟩ := patchUop_fields ex u₀
    exact (h u₀ hmem).of_same hopcode hsrc hreg2 hreg3

/-- The front uop, once its operands have been forwarded. -/
theorem Filled.forward {u : Uop} (h : Filled u) (ex : Execute) (off : Word) :
    Filled (Execute.forward ex off u) := h.of_same rfl rfl rfl rfl

theorem Shaped.runOp (h : Shaped c) (inp : CycleInput) {op : Uop} (hop : Filled op)
    (hstate : c.ex.state ≠ .read) : Shaped (Execute.runOp inp op c) := by
  have hran := Execute.runOp_ran inp op c
  generalize Execute.runOp inp op c = c' at hran ⊢
  cases hran with
  | read addr hreads => exact ⟨h.dd, h.de, fun _ ↦ ⟨hreads, hop⟩⟩
  | died => exact ⟨h.dd, h.de, h.reading⟩
  | finished op' c₂ hreads hswitch =>
    have hkept := (Execute.switchOp_kept hswitch).2
    refine ⟨fun u hu ↦ ?_, fun u hu ↦ ?_, fun hread ↦ ?_⟩
    · rw [Execute.finish_ddUopQueue, hkept.ddUopQueue] at hu
      exact h.dd u hu
    · rw [Execute.finish_deUopQueue, hkept.deUopQueue] at hu
      exact h.de u (List.mem_of_mem_tail hu)
    · rw [Execute.finish_state, hkept.state] at hread
      exact absurd hread hstate

theorem Shaped.execute (h : Shaped c) (inp : CycleInput) (cur : Signals) :
    Shaped (Execute.work inp cur c) := by
  have hwork := Execute.work_outcome inp cur c
  generalize Execute.work inp cur c = c' at hwork ⊢
  generalize Execute.issued cur c = ran at hwork
  have htail : ∀ u ∈ c.deUopQueue.tail, Filled u := fun u hu ↦ h.de u (List.mem_of_mem_tail hu)
  cases hwork with
  | idle => exact ⟨h.dd, h.de, h.reading⟩
  | cleared => exact ⟨h.dd, fun u hu ↦ absurd hu List.not_mem_nil, h.reading⟩
  | ret | pop | load => exact ⟨h.dd, htail, fun hread ↦ ExecState.noConfusion hread⟩
  | dropped front rest hclear hwait =>
    refine ⟨h.dd, fun u hu ↦ ?_, fun hread ↦ absurd hread (h.not_read hwait)⟩
    exact filled_patchLoop h.de u (List.mem_of_mem_tail hu)
  | ran front rest hclear hwait hew hde =>
    have hselect : Shaped { Execute.select front (Execute.start c) with ex.firstrun := false } :=
      ⟨h.dd, filled_patchLoop h.de, fun hread ↦ absurd hread (h.not_read hwait)⟩
    exact hselect.runOp inp ((h.de front (hde ▸ List.mem_cons_self)).forward _ _) (h.not_read hwait)

end Shaped

/-! ## Completed uops -/

section Completed

variable {β : Type*} {c c' : Core} (f : β → Uop → β) (b : β)

/-- No uop was completed. -/
theorem foldl_completed_same (hew : c'.ewUopQueue = c.ewUopQueue) :
    (completed c c').foldl f b = b := by
  rw [completed, hew, List.drop_length, List.foldl_nil]

/-- One uop was. -/
theorem foldl_completed_append {op : Uop} (hew : c'.ewUopQueue = c.ewUopQueue ++ [op]) :
    (completed c c').foldl f b = f b op := by
  rw [completed, hew, List.drop_left, List.foldl_cons, List.foldl_nil]

end Completed

/-- What the `switch` and the code behind it do to the two latest results and the register file. -/
inductive Finishes (op : Uop) (c c' : Core) : Prop
  | result (hforms : op.opcode ≠ .nop ∧ op.opcode ≠ .syscall ∧ op.reg2 ≠ .none)
      (hnew : Execute.NewResult op.reg2 op.value2 c.ex c'.ex) (hregfile : c'.regfile = c.regfile)
  | none (hforms : op.opcode = .nop ∨ op.reg2 = .none) (hsyscall : op.opcode ≠ .syscall)
      (hsame : Execute.SameResults c.ex c'.ex) (hregfile : c'.regfile = c.regfile)
  | syscall (hop : op.opcode = .syscall) (v : Word)
      (hnew : Execute.NewResult (.gpr .rax) v c.ex c'.ex)
      (hregfile : c'.regfile = c.regfile.set .rax v)

theorem finishes_of_switchOp {inp : CycleInput} {op op' : Uop} {c c' : Core}
    (h : Execute.switchOp inp op c = some (op', c')) : Finishes op' c (Execute.finish op' c') := by
  have hopcode := (Execute.switchOp_kept h).1.opcode
  rcases Execute.switchOp_results h with ⟨hsys, hsame, hrf⟩ | ⟨hsys, rfl, w, hnew, hrf⟩
  · by_cases hforms : op'.opcode ≠ .nop ∧ op'.opcode ≠ .syscall ∧ op'.reg2 ≠ .none
    · refine .result hforms (hsame.newResult (Execute.finish_newResult c' hforms)) ?_
      rw [Execute.finish_regfile, hrf]
    · have hsys' : op'.opcode ≠ .syscall := hopcode ▸ hsys
      refine .none ?_ hsys' (hsame.trans (Execute.finish_sameResults c' hforms)) ?_
      · by_contra hnone
        obtain ⟨hnop, hreg2⟩ := not_or.mp hnone
        exact hforms ⟨hnop, hsys', hreg2⟩
      · rw [Execute.finish_regfile, hrf]
  · have hforms : ¬(op'.opcode ≠ .nop ∧ op'.opcode ≠ .syscall ∧ op'.reg2 ≠ .none) :=
      fun hforms ↦ hforms.2.1 hsys
    refine .syscall hsys w (hnew.sameResults (Execute.finish_sameResults c' hforms)) ?_
    rw [Execute.finish_regfile, hrf]

/-! ## Monitors -/

/-- A monitor, with a state of its own: how it follows an activation of `Execute`, given the signals
and the states before and after; what an activation has to meet; and what is right before it. -/
structure Monitor (γ : Type*) where
  follow : CycleInput → Signals → Core → Core → γ → γ
  meets : Stage → Signals → Core → γ → Bool
  right : Stage → Signals → Core → γ → Bool

/-- The pipeline beside a monitor. `met` is whether every activation so far met the condition,
`right` whether everything so far was right. -/
structure Monitored (γ : Type*) where
  pipe : Pipe Unit
  seen : γ
  met : Bool
  right : Bool

namespace Monitor

variable {γ : Type*} (m : Monitor γ)

/-- One process of one cycle. The death of the host process ends what there is to be right about. -/
def act (i : Input (List Insn)) (st : Stage) (w : Monitored γ) : Monitored γ :=
  let pipe := Pipeline.act crackedUops i st w.pipe
  { pipe := pipe
    seen := match st with
      | .execute => m.follow i.cycle w.pipe.cur w.pipe.core pipe.core w.seen
      | _ => w.seen
    met := w.met && m.meets st w.pipe.cur w.pipe.core w.seen
    right := w.right && (w.pipe.core.aborted || m.right st w.pipe.cur w.pipe.core w.seen) }

/-- The end of a cycle. -/
def commit (i : Input (List Insn)) (w : Monitored γ) : Monitored γ :=
  { w with pipe := Pipeline.commit i w.pipe }

/-- A run of the pipeline beside the monitor. -/
def run (cs : Cycles (List Insn)) (w : Monitored γ) : Monitored γ := Schedule.run m.act commit cs w

/-- The pipeline after reset. -/
def start (c : Core) (s : γ) : Monitored γ := ⟨Pipe.start c (), s, true, true⟩

/-- What makes an invariant of the core and the monitor one of every run that meets the condition.
-/
structure Keeps (Inv : Core → γ → Prop) : Prop where
  deliver : ∀ {c s}, Shaped c → Inv c s → ∀ us ready,
    Inv { c with ddUopQueue := c.ddUopQueue ++ us, nxt.ddOutReady := ready } s
  dispatch : ∀ {cur c s}, Shaped c → Inv c s → m.meets .dispatch cur c s = true →
    Inv (Dispatch.work cur c) s
  execute : ∀ {cur c s} inp, Shaped c → Inv c s → m.meets .execute cur c s = true →
    (Execute.work inp cur c).aborted = true ∨
      Inv (Execute.work inp cur c) (m.follow inp cur c (Execute.work inp cur c) s)
  writeback : ∀ {cur c s}, Shaped c → Inv c s → m.meets .writeback cur c s = true →
    Inv (Writeback.work cur c) s
  right : ∀ {st cur c s}, Shaped c → Inv c s → m.meets st cur c s = true →
    m.right st cur c s = true

variable {m} {Inv : Core → γ → Prop}

theorem dispatch_aborted (cur : Signals) (c : Core) :
    (Dispatch.work cur c).aborted = c.aborted := by
  have hwork := Dispatch.work_outcome cur c
  generalize Dispatch.work cur c = c' at hwork ⊢
  cases hwork <;> rfl

theorem writeback_aborted (cur : Signals) (c : Core) :
    (Writeback.work cur c).aborted = c.aborted := by
  rcases Writeback.work_eq cur c with hwork | ⟨op, rest, -, hwork⟩ <;> rw [hwork]

/-- **An invariant that every activation keeps.** In a run that meets the condition everything is
right, and the invariant holds in the end unless the host process has died. -/
theorem run_right (hkeeps : m.Keeps Inv) {c : Core} {s : γ} (hshaped : Shaped c) (hinv : Inv c s)
    (cs : Cycles (List Insn)) (hmet : (m.run cs (start c s)).met = true) :
    (m.run cs (start c s)).right = true ∧ ((m.run cs (start c s)).pipe.core.aborted = true ∨
      Inv (m.run cs (start c s)).pipe.core (m.run cs (start c s)).seen) := by
  -- once the condition has failed or the process has died, nothing is claimed
  let I (w : Monitored γ) : Prop := Shaped w.pipe.core ∧
    (w.met = true → w.right = true ∧ (w.pipe.core.aborted = true ∨ Inv w.pipe.core w.seen))
  have hact : ∀ (i : Input (List Insn)) st w, I w → I (m.act i st w) := by
    rintro i st w ⟨hshaped, hinv⟩
    refine ⟨?_, fun hmet ↦ ?_⟩
    · cases st with
      | decode => exact hshaped.deliver _ _
      | dispatch => exact hshaped.dispatch _
      | execute => exact hshaped.execute _ _
      | writeback => exact hshaped.writeback _
    obtain ⟨hmet, hmeets⟩ := Bool.and_eq_true_iff.mp hmet
    obtain ⟨hright, hinv⟩ := hinv hmet
    refine ⟨Bool.and_eq_true_iff.mpr ⟨hright, ?_⟩, ?_⟩
    · rcases hinv with hdead | hinv
      · rw [hdead, Bool.true_or]
      · rw [hkeeps.right hshaped hinv hmeets, Bool.or_true]
    · cases st with
      | decode => exact hinv.imp id fun hinv ↦ hkeeps.deliver hshaped hinv _ _
      | dispatch =>
        exact hinv.imp (dispatch_aborted _ _).trans fun hinv ↦ hkeeps.dispatch hshaped hinv hmeets
      | execute =>
        rcases hinv with hdead | hinv
        · exact .inl (Execute.work_aborted i.cycle w.pipe.cur hdead)
        · exact hkeeps.execute i.cycle hshaped hinv hmeets
      | writeback =>
        exact hinv.imp (writeback_aborted _ _).trans fun hinv ↦ hkeeps.writeback hshaped hinv hmeets
  have hcommit : ∀ (i : Input (List Insn)) w, I w → I (commit i w) := fun i w h ↦ h
  have hstart : I (start c s) := ⟨hshaped, fun _ ↦ ⟨rfl, .inr hinv⟩⟩
  exact (Schedule.run_invariant hact hcommit hstart cs).2 hmet

end Monitor

theorem shaped_boot (regs : Gpr → Word) (eflags : Eflags) (m : Mem) (expectedAddr : Word)
    (op : Uop) :
    Shaped (Core.boot regs eflags m (.init expectedAddr op)) :=
  ⟨fun _ hu ↦ absurd hu List.not_mem_nil, fun _ hu ↦ absurd hu List.not_mem_nil,
    fun hread ↦ ExecState.noConfusion hread⟩

end Cse502.Pipeline
