import Cse502.Machine.Backend
import Cse502.Pipeline.Progress

/-!
# The machine runs the pipeline

What the later stages of the machine do is a run of the pipeline on its own, with the uops that the
decoder pushes as what is delivered. The order of a cycle is that of the machine, less `Memory` and
`Fetch`; the answers on the data port are those of `Memory`.

## What is shared

`Fetch` writes the register file once, in the first cycle, with the value that is there since the
reset. `RIP_jump` is written by `Fetch` and read by the decoder in the same cycle only if `clear` is
seen, and then the decoder does not look. So the uops pushed in a cycle are known at its start.
-/

namespace Cse502.Machine

open Pipeline (Stage stages Pipe)

/-- The processes that are stages of the pipeline. -/
def Process.stage : Process → Option Stage
  | .memory | .fetch => none
  | .decode => some .decode
  | .dispatch => some .dispatch
  | .execute => some .execute
  | .writeback => some .writeback

/-- What `Decoder::work` starts from in this cycle. -/
def decodeWork (u : Decoder.Udis) (i : MachineInput) (m : Machine) : Decoder.DecodeState × Core :=
  Decoder.work u i.uninit m.cur m.decoder m.core

/-- The uops the decoder pushes in this cycle. -/
def pushed (u : Decoder.Udis) (i : MachineInput) (m : Machine) : List Uop :=
  (decodeWork u i { m with core.ddUopQueue := [] }).2.ddUopQueue

variable {F D : Type*} {deliver : D → Signals → F → List Uop × F} {u : Decoder.Udis}

/-- The pipeline is the machine, but for the front end. -/
structure Sim (m : Machine) (p : Pipe F) : Prop where
  core : m.core = p.core.withFront m.core
  cur : m.cur = p.cur.withFront m.cur
  trace : m.trace = p.trace

/-- What holds between two cycles of the machine. -/
structure Coherent (m : Machine) : Prop where
  settled : m.cur = m.core.nxt
  reset : m.cur.reset = false
  redirect : m.cur.changeRIP = m.cur.clear
  first : m.fetch.firstRunFlag = true →
    m.cur = Signals.zero ∧ m.core.regfile.gpr .rsp = m.fetch.rsp

/-! ## The redirection signals -/

private theorem switchOp_redirect {inp : CycleInput} {op op' : Uop} {c c' : Core}
    (h : Execute.switchOp inp op c = some (op', c')) (hc : c.nxt.changeRIP = c.nxt.clear) :
    c'.nxt.changeRIP = c'.nxt.clear := by
  have hjump : ∀ (op : Uop) (c : Core),
      (Execute.doJump op c).nxt.changeRIP = (Execute.doJump op c).nxt.clear := by
    intro op c
    rw [Execute.doJump]
    split <;> rfl
  rw [Execute.switchOp] at h
  split at h
  · obtain ⟨c₁, hcall, heq⟩ := Option.map_eq_some_iff.mp h
    obtain ⟨rfl, rfl⟩ := Prod.mk.inj heq
    rw [Execute.doSyscall, Option.map_eq_some_iff] at hcall
    obtain ⟨r, -, rfl⟩ := hcall
    exact hc
  · obtain ⟨rfl, rfl⟩ := Prod.mk.inj (Option.some.inj h)
    exact hjump _ _
  iterate 3
    · obtain ⟨rfl, rfl⟩ := Prod.mk.inj (Option.some.inj h)
      exact hc
  iterate 9
    · obtain ⟨rfl, rfl⟩ := Prod.mk.inj (Option.some.inj h)
      split_ifs
      · exact hjump _ _
      · exact hc
  · split_ifs at h
    obtain ⟨rfl, rfl⟩ := Prod.mk.inj (Option.some.inj h)
    exact hc

/-- `Execute` raises `change_RIP` and `clear` together, and lowers both when it sees `clear`. -/
theorem execute_redirect (inp : CycleInput) {cur : Signals} {c : Core} (hreset : cur.reset = false)
    (hnxt : c.nxt.clear = cur.clear) :
    (Execute.work inp cur c).nxt.changeRIP = (Execute.work inp cur c).nxt.clear ∧
      (Execute.work inp cur c).nxt.reset = c.nxt.reset := by
  have houtcome := Execute.work_outcome inp cur c
  generalize Execute.work inp cur c = c' at houtcome ⊢
  generalize Execute.issued cur c = ran at houtcome
  cases houtcome with
  | idle ready hclear =>
    rcases hclear with hreset' | hclear
    · exact absurd (hreset.symm.trans hreset') Bool.noConfusion
    · exact ⟨(hnxt.trans hclear).symm, rfl⟩
  | cleared => exact ⟨rfl, rfl⟩
  | ret => exact ⟨rfl, rfl⟩
  | pop hclear | load hclear | dropped _ _ hclear => exact ⟨(hnxt.trans hclear).symm, rfl⟩
  | ran front rest hclear =>
    have hran := Execute.runOp_ran inp (Execute.forward c.ex c.offsetregValue front)
      { Execute.select front (Execute.start c) with ex.firstrun := false }
    generalize Execute.runOp inp (Execute.forward c.ex c.offsetregValue front)
      { Execute.select front (Execute.start c) with ex.firstrun := false } = c' at hran ⊢
    cases hran with
    | read | died => exact ⟨(hnxt.trans hclear).symm, rfl⟩
    | finished op' c' hreads hswitch =>
      rw [Execute.finish_nxt]
      exact ⟨switchOp_redirect hswitch (hnxt.trans hclear).symm,
        (Execute.switchOp_kept hswitch).2.reset⟩

/-! ## The decoder -/

/-- `Decoder::work` decodes in this cycle. -/
def decodes (cur : Signals) : Bool := !cur.reset && cur.fdOutReady && !cur.clear

theorem decodeWork_ddUopQueue (i : MachineInput) (m : Machine) :
    (decodeWork u i m).2.ddUopQueue = m.core.ddUopQueue ++ pushed u i m := by
  cases hreset : m.cur.reset <;> cases hready : m.cur.fdOutReady <;>
    cases hclear : m.cur.clear <;>
      simp [pushed, decodeWork, Decoder.work, hreset, hready, hclear]

theorem decodeWork_ddOutReady (i : MachineInput) (m : Machine) :
    (decodeWork u i m).2.nxt.ddOutReady = (m.core.nxt.ddOutReady || decodes m.cur) := by
  cases hreset : m.cur.reset <;> cases hready : m.cur.fdOutReady <;>
    cases hclear : m.cur.clear <;>
      simp [decodes, decodeWork, Decoder.work, hreset, hready, hclear]

/-- What is pushed is known at the start of the cycle. -/
theorem pushed_congr (i : MachineInput) {m m' : Machine} (hcur : m'.cur = m.cur)
    (hdecoder : m'.decoder = m.decoder)
    (hjump : m.cur.clear = false → m'.core.ripJump = m.core.ripJump) :
    pushed u i m' = pushed u i m := by
  cases hreset : m.cur.reset <;> cases hready : m.cur.fdOutReady <;>
    cases hclear : m.cur.clear <;>
      simp [pushed, decodeWork, Decoder.work, hcur, hdecoder, hreset, hready, hclear]
  rw [hjump hclear]

/-! ## One process -/

/-- What holds inside a cycle that began in `m`, next to the pipeline that began in `p`. -/
structure Within (deliver : D → Signals → F → List Uop × F) (choice : D) (m : Machine) (p : Pipe F)
    (done : List Process) (m' : Machine) (p' : Pipe F) : Prop where
  sim : Sim m' p'
  cur : m'.cur = m.cur ∧ p'.cur = p.cur
  undecoded : .decode ∉ done → m'.decoder = m.decoder ∧ p'.feed = p.feed ∧
    m'.core.nxt.ddOutReady = m.core.nxt.ddOutReady ∧
    (m.cur.clear = false → m'.core.ripJump = m.core.ripJump)
  decoded : .decode ∈ done → p'.feed = (deliver choice p.cur p.feed).2 ∧
    m'.core.nxt.ddOutReady = (m.core.nxt.ddOutReady || decodes m.cur)
  reset : m'.core.nxt.reset = false
  redirect : m'.core.nxt.changeRIP = m'.core.nxt.clear
  unexecuted : .execute ∉ done → m'.core.nxt.clear = m.cur.clear
  first : m'.fetch.firstRunFlag = true → .fetch ∉ done ∧ m.cur = Signals.zero ∧
    m'.core.regfile.gpr .rsp = m'.fetch.rsp

/-- The input of the pipeline's cycle. -/
def pipeInput (choice : D) (i : MachineInput) (m m' : Machine) : Pipeline.Input D where
  choice := choice
  ddReady := m.core.nxt.ddOutReady || decodes m.cur
  dReady := m'.core.nxt.dReady
  dTagout := m'.core.nxt.dTagout
  dData := m'.core.nxt.dData
  cycle := cycleInput i m

variable {choice : D} {i : MachineInput} {m m₁ m' : Machine} {p p' : Pipe F} {done : List Process}

theorem Sim.aborted (h : Sim m p) : p.core.aborted = m.core.aborted := by
  rw [h.core]
  rfl

private theorem mem_concat_of_ne {st st' : Process} (hne : st' ≠ st) :
    st' ∈ done ++ [st] ↔ st' ∈ done := by
  rw [List.mem_append, List.mem_singleton, or_iff_left hne]

/-- A stage of the pipeline other than the decoder. -/
private theorem within_stage (st : Process) (hst : st ≠ .decode ∧ st ≠ .fetch)
    {c c' : Core} {t t' : List Uop} (h : Within deliver choice m p done m' p')
    (hcore : c = c'.withFront c) (hrip : c.ripJump = m'.core.ripJump)
    (hready : c.nxt.ddOutReady = m'.core.nxt.ddOutReady)
    (hreset : c.nxt.reset = m'.core.nxt.reset) (hredirect : c.nxt.changeRIP = c.nxt.clear)
    (hclear : st ≠ .execute → c.nxt.clear = m'.core.nxt.clear)
    (hregfile : m.cur = Signals.zero → c.regfile = m'.core.regfile) (htrace : t = t') :
    Within deliver choice m p (done ++ [st]) { m' with core := c, trace := t }
      { p' with core := c', trace := t' } where
  sim := ⟨hcore, h.sim.cur, htrace⟩
  cur := h.cur
  undecoded hdone := by
    obtain ⟨hdecoder, hfeed, hready', hrip'⟩ :=
      h.undecoded fun hmem ↦ hdone (List.mem_append_left _ hmem)
    exact ⟨hdecoder, hfeed, hready.trans hready', fun hclear ↦ hrip.trans (hrip' hclear)⟩
  decoded hdone := by
    obtain ⟨hfeed, hready'⟩ := h.decoded ((mem_concat_of_ne hst.1.symm).mp hdone)
    exact ⟨hfeed, hready.trans hready'⟩
  reset := hreset.trans h.reset
  redirect := hredirect
  unexecuted hdone := by
    have hne : st ≠ .execute := fun heq ↦ hdone (heq ▸ List.mem_append_right _ (by simp))
    exact (hclear hne).trans (h.unexecuted fun hmem ↦ hdone (List.mem_append_left _ hmem))
  first hflag := by
    obtain ⟨hfetch, hzero, hrsp⟩ := h.first hflag
    refine ⟨fun hmem ↦ hfetch ((mem_concat_of_ne hst.2.symm).mp hmem), hzero, ?_⟩
    change c.regfile.gpr .rsp = _
    rw [hregfile hzero, hrsp]

/-- A process of the front end other than the decoder. -/
private theorem within_front {st : Process} (hst : st ≠ .decode)
    (h : Within deliver choice m p done m' p') {m'' : Machine}
    (hcore : m''.core = m'.core.withFront m''.core) (hcur : m''.cur = m'.cur)
    (htrace : m''.trace = m'.trace) (hdecoder : m''.decoder = m'.decoder)
    (hrip : m.cur.clear = false → m''.core.ripJump = m'.core.ripJump)
    (hfirst : m''.fetch.firstRunFlag = true → m'.fetch.firstRunFlag = true ∧ st ≠ .fetch)
    (hrsp : m''.fetch.rsp = m'.fetch.rsp) :
    Within deliver choice m p (done ++ [st]) m'' p' where
  sim := by
    refine ⟨?_, ?_, htrace.trans h.sim.trace⟩
    · have hback := h.sim.core
      rw [hcore, hback]
      rfl
    · rw [hcur]
      exact h.sim.cur
  cur := ⟨hcur.trans h.cur.1, h.cur.2⟩
  undecoded hdone := by
    obtain ⟨hdecoder', hfeed, hready, hrip'⟩ :=
      h.undecoded fun hmem ↦ hdone (List.mem_append_left _ hmem)
    refine ⟨hdecoder.trans hdecoder', hfeed, ?_, fun hclear ↦ (hrip hclear).trans (hrip' hclear)⟩
    rw [hcore]
    exact hready
  decoded hdone := by
    rw [hcore]
    exact h.decoded ((mem_concat_of_ne hst.symm).mp hdone)
  reset := by
    rw [hcore]
    exact h.reset
  redirect := by
    rw [hcore]
    exact h.redirect
  unexecuted hdone := by
    rw [hcore]
    exact h.unexecuted fun hmem ↦ hdone (List.mem_append_left _ hmem)
  first hflag := by
    obtain ⟨hflag', hne⟩ := hfirst hflag
    obtain ⟨hfetch, hzero, hrsp'⟩ := h.first hflag'
    refine ⟨fun hmem ↦ hfetch ((mem_concat_of_ne hne.symm).mp hmem), hzero, ?_⟩
    rw [hcore, hrsp]
    exact hrsp'

/-- The first activation is the one that counts. -/
theorem fetch_firstRunFlag {cur : Signals} (hreset : cur.reset = false)
    (hchange : cur.changeRIP = false) (f : Fetch) (c : Core) :
    (Fetch.work cur f c).1.firstRunFlag = false := by
  have hport : ∀ (f : Fetch) (c : Core) (a : Word),
      (Fetch.port cur a f c).1.firstRunFlag = false := by
    intro f c a
    rw [Fetch.port]
    dsimp only
    split_ifs with hreply hflag hflag
    · rfl
    · exact eq_false_of_ne_true hflag
    · rfl
    · exact eq_false_of_ne_true hflag
  rw [Fetch.work, hreset, hchange]
  exact hport _ _ _

/-- The flag is never set again. -/
theorem fetch_firstRunFlag_of {cur : Signals} {f : Fetch} {c : Core}
    (h : (Fetch.work cur f c).1.firstRunFlag = true) : f.firstRunFlag = true := by
  by_contra hne
  have hport : ∀ (f : Fetch) (c : Core) (a : Word), f.firstRunFlag ≠ true →
      (Fetch.port cur a f c).1.firstRunFlag ≠ true := by
    intro f c a hne
    rw [Fetch.port]
    dsimp only
    split_ifs
    · exact Bool.false_ne_true
    · exact hne
    · exact hne
  revert h
  rw [Fetch.work]
  dsimp only
  split_ifs
  · exact hne
  · exact hne
  · exact hne
  · exact hport _ _ _ hne
  · exact hport _ _ _ hne

theorem fetch_rsp (cur : Signals) (f : Fetch) (c : Core) : (Fetch.work cur f c).1.rsp = f.rsp := by
  have hport : ∀ (f : Fetch) (c : Core) (a : Word), (Fetch.port cur a f c).1.rsp = f.rsp := by
    intro f c a
    rw [Fetch.port]
    dsimp only
    split_ifs <;> rfl
  rw [Fetch.work]
  dsimp only
  split_ifs
  · rfl
  · rfl
  · rfl
  · exact hport _ _ _
  · exact hport _ _ _

theorem fetch_ripJump {cur : Signals} (hchange : cur.changeRIP = false) (f : Fetch) (c : Core) :
    (Fetch.work cur f c).2.ripJump = c.ripJump := by
  have hport : ∀ (f : Fetch) (c : Core) (a : Word),
      (Fetch.port cur a f c).2.ripJump = c.ripJump := by
    intro f c a
    rw [Fetch.port]
    dsimp only
    split_ifs <;> rfl
  rw [Fetch.work, hchange]
  cases hreset : cur.reset
  · cases hclear : cur.clear
    · exact hport _ _ _
    · exact hport _ _ _
  · rfl

private theorem within_memory (h : Within deliver choice m p done m' p')
    (halive : (memoryWork i m').core.aborted = false) :
    Within deliver choice m p (done ++ [.memory]) (memoryWork i m') p' := by
  rw [memoryWork] at halive ⊢
  split at halive
  · cases halive
  · next r hr =>
    refine within_front (by decide) h ?_ rfl rfl rfl (fun _ ↦ rfl)
      (fun hflag ↦ ⟨hflag, by decide⟩) rfl
    cases hreset : m'.cur.reset <;> simp only [Bool.false_eq_true, if_false, if_true] <;> rfl

private theorem within_fetch (hc : Coherent m) (h : Within deliver choice m p done m' p') :
    Within deliver choice m p (done ++ [.fetch])
      { m' with
        fetch := (Fetch.work m'.cur m'.fetch m'.core).1
        core := (Fetch.work m'.cur m'.fetch m'.core).2 } p' := by
  refine within_front (by decide) h ?_ rfl rfl rfl (fun hclear ↦ ?_) (fun hflag ↦ ?_)
    (fetch_rsp _ _ _)
  · exact fetch_withFront _ _ fun hflag ↦ (h.first hflag).2.2
  · have hchange : m'.cur.changeRIP = false := by
      rw [h.cur.1]
      rw [hc.redirect, hclear]
    exact fetch_ripJump hchange _ _
  · obtain ⟨-, hzero, -⟩ := h.first (fetch_firstRunFlag_of hflag)
    have hcur : m'.cur = Signals.zero := h.cur.1.trans hzero
    rw [fetch_firstRunFlag (by rw [hcur]; rfl) (by rw [hcur]; rfl)] at hflag
    cases hflag

private theorem within_decode (h : Within deliver choice m p done m' p') (hdone : .decode ∉ done)
    (hchoice : (deliver choice p.cur p.feed).1 = pushed u i m) :
    Within deliver choice m p (done ++ [.decode])
      { m' with decoder := (decodeWork u i m').1, core := (decodeWork u i m').2 }
      (Pipeline.act deliver (pipeInput choice i m m₁) .decode p') := by
  obtain ⟨hdecoder, hfeed, hready, hrip⟩ := h.undecoded hdone
  have hdeliver : deliver choice p'.cur p'.feed = deliver choice p.cur p.feed := by
    rw [h.cur.2, hfeed]
  have hmem : .decode ∈ done ++ [.decode] := List.mem_append_right _ (List.mem_singleton_self _)
  have hback := h.sim.core
  have hfront : (decodeWork u i m').2 =
      { m'.core with
        ddUopQueue := (decodeWork u i m').2.ddUopQueue
        nxt.ddOutReady := (decodeWork u i m').2.nxt.ddOutReady }.withFront (decodeWork u i m').2 :=
    decode_withFront m'.cur m'.core u i.uninit m'.decoder
  have hdd : (decodeWork u i m').2.ddUopQueue = p'.core.ddUopQueue ++ pushed u i m := by
    rw [decodeWork_ddUopQueue, pushed_congr i h.cur.1 hdecoder hrip, hback]
    rfl
  have hdr : (decodeWork u i m').2.nxt.ddOutReady =
      (m.core.nxt.ddOutReady || decodes m.cur) := by
    rw [decodeWork_ddOutReady, hready, h.cur.1]
  refine ⟨⟨?_, h.sim.cur, h.sim.trace⟩, h.cur, fun hnot ↦ absurd hmem hnot,
    fun _ ↦ ⟨congrArg Prod.snd hdeliver, hdr⟩, ?_, ?_, fun hnot ↦ ?_, fun hflag ↦ ?_⟩
  · have hcore : (Pipeline.act deliver (pipeInput choice i m m₁) .decode p').core =
        { p'.core with
          ddUopQueue := p'.core.ddUopQueue ++ pushed u i m
          nxt.ddOutReady := m.core.nxt.ddOutReady || decodes m.cur } := by
      rw [← hchoice, ← hdeliver]
      rfl
    rw [hcore, ← hdd, ← hdr]
    refine hfront.trans ?_
    rw [hback]
    rfl
  · rw [hfront]
    exact h.reset
  · rw [hfront]
    exact h.redirect
  · rw [hfront]
    exact h.unexecuted fun hmem' ↦ hnot (List.mem_append_left _ hmem')
  · obtain ⟨hfetch, hzero, hrsp⟩ := h.first hflag
    refine ⟨fun hmem' ↦ hfetch ((mem_concat_of_ne (by decide)).mp hmem'), hzero, ?_⟩
    rw [hfront]
    exact hrsp

/-- Every process keeps the machine and the pipeline together. -/
private theorem within_act (hc : Coherent m)
    (hchoice : (deliver choice p.cur p.feed).1 = pushed u i m) {st : Process} (hdone : st ∉ done)
    (hnow : cycleInput i m' = cycleInput i m)
    (hbefore : m'.core.aborted = false) (hafter : (act u i st m').core.aborted = false)
    (h : Within deliver choice m p done m' p') :
    Within deliver choice m p (done ++ [st]) (act u i st m')
      ((Process.stage st).elim p' fun st' ↦
        Pipeline.act deliver (pipeInput choice i m m₁) st' p') := by
  have hact : act u i st m' = _ := if_neg (by rw [hbefore]; exact Bool.false_ne_true)
  rw [hact] at hafter ⊢
  have hback := h.sim.core
  have hcur := h.sim.cur
  cases st with
  | memory => exact within_memory h hafter
  | fetch => exact within_fetch hc h
  | decode => exact within_decode h hdone hchoice
  | dispatch =>
    have hcore : Dispatch.work m'.cur m'.core = (Dispatch.work p'.cur p'.core).withFront m'.core :=
      (congrArg₂ Dispatch.work hcur hback).trans (dispatch_withFront _ _ _ _)
    have hkeep : (Dispatch.work m'.cur m'.core).regfile = m'.core.regfile ∧
        (Dispatch.work m'.cur m'.core).ripJump = m'.core.ripJump ∧
        (Dispatch.work m'.cur m'.core).nxt.ddOutReady = m'.core.nxt.ddOutReady ∧
        (Dispatch.work m'.cur m'.core).nxt.reset = m'.core.nxt.reset ∧
        (Dispatch.work m'.cur m'.core).nxt.changeRIP = m'.core.nxt.changeRIP ∧
        (Dispatch.work m'.cur m'.core).nxt.clear = m'.core.nxt.clear := by
      have houtcome := Dispatch.work_outcome m'.cur m'.core
      generalize Dispatch.work m'.cur m'.core = c at houtcome
      cases houtcome <;> exact ⟨rfl, rfl, rfl, rfl, rfl, rfl⟩
    obtain ⟨hregfile, hrip, hready, hreset, hchange, hclear⟩ := hkeep
    exact within_stage .dispatch ⟨by decide, by decide⟩ h (by rw [hcore]; rfl) hrip hready
      hreset (by rw [hchange, hclear]; exact h.redirect) (fun _ ↦ hclear) (fun _ ↦ hregfile)
      h.sim.trace
  | execute =>
    obtain ⟨mem, hmem⟩ := execute_withFront p'.cur m'.cur p'.core m'.core (cycleInput i m)
    rw [← hcur, ← hback, ← hnow] at hmem
    obtain ⟨mem', hmem'⟩ := execute_withFront m'.cur m'.cur m'.core m'.core (cycleInput i m')
    have hissued : Execute.issued m'.cur m'.core = Execute.issued p'.cur p'.core := by
      rw [hcur, hback]
      exact issued_withFront _ _ _ _
    have hregfile : m.cur = Signals.zero →
        (Execute.work (cycleInput i m') m'.cur m'.core).regfile = m'.core.regfile := by
      intro hzero
      rw [h.cur.1, hzero, Execute.work]
      by_cases hstate : m'.core.ex.state = .read <;> simp [hstate, Signals.zero, Execute.issue]
    have hredirect := execute_redirect (cycleInput i m') (h.cur.1 ▸ hc.reset)
      ((h.unexecuted hdone).trans (congrArg Signals.clear h.cur.1.symm))
    refine within_stage .execute ⟨by decide, by decide⟩ h ?_ ?_ ?_ hredirect.2 hredirect.1
      (fun hne ↦ absurd rfl hne) hregfile ?_
    · rw [hmem, hnow]
      rfl
    · have hrip := congrArg Core.ripJump hmem'
      exact hrip
    · exact (Pipeline.execute_dd _ _ _).1
    · rw [h.sim.trace, hissued]
  | writeback =>
    have hcore : Writeback.work m'.cur m'.core =
        (Writeback.work p'.cur p'.core).withFront m'.core :=
      (congrArg₂ Writeback.work hcur hback).trans (writeback_withFront _ _ _ _)
    have hnxt : (Writeback.work m'.cur m'.core).nxt = m'.core.nxt := by
      rcases Writeback.work_eq m'.cur m'.core with hwork | ⟨op, rest, -, hwork⟩ <;> rw [hwork]
    refine within_stage .writeback ⟨by decide, by decide⟩ h (by rw [hcore]; rfl) ?_ ?_ ?_
      ?_ (fun _ ↦ ?_) (fun hzero ↦ ?_) h.sim.trace
    · rw [hcore]
      rfl
    · rw [hnxt]
    · rw [hnxt]
    · rw [hnxt]
      exact h.redirect
    · rw [hnxt]
    · rw [h.cur.1, hzero]
      rfl

/-! ## Cycles -/

theorem act_now (i : MachineInput) (st : Process) (m : Machine) : (act u i st m).now = m.now := by
  unfold act
  split_ifs
  · rfl
  · cases st with
    | memory =>
      change (memoryWork i m).now = m.now
      rw [memoryWork]
      split <;> rfl
    | fetch | decode | dispatch | execute | writeback => rfl

/-- Once the host process has died nothing runs any more. -/
theorem act_of_aborted (i : MachineInput) (st : Process) (h : m.core.aborted = true) :
    act u i st m = m := if_pos h

theorem mem_processes (st : Process) : st ∈ processes := by cases st <;> decide

theorem processes_nodup : processes.Nodup := by decide

/-- Inside a cycle, as long as the host process is alive. -/
theorem sim_order {order : List Process} (hnodup : order.Nodup) (hc : Coherent m) (hsim : Sim m p)
    (choice : D) (hchoice : (deliver choice p.cur p.feed).1 = pushed u i m) (m₁ : Machine)
    (halive : (Schedule.runOrder (act u) i order m).core.aborted = false) :
    Within deliver choice m p order (Schedule.runOrder (act u) i order m)
      (Schedule.runOrder (Pipeline.act deliver) (pipeInput choice i m m₁)
        (order.filterMap Process.stage) p) := by
  let Q : List Process → Machine → Pipe F → Prop := fun done m' p' ↦ m'.now = m.now ∧
    (m'.core.aborted = false → Within deliver choice m p done m' p')
  have hstart : Q [] m p :=
    ⟨rfl, fun _ ↦ ⟨hsim, ⟨rfl, rfl⟩, fun _ ↦ ⟨rfl, rfl, rfl, fun _ ↦ rfl⟩,
      fun h ↦ absurd h List.not_mem_nil, hc.settled ▸ hc.reset, hc.settled ▸ hc.redirect,
      fun _ ↦ hc.settled ▸ rfl, fun h ↦ ⟨List.not_mem_nil, hc.first h⟩⟩⟩
  have hwithin : Q order (Schedule.runOrder (act u) i order m)
      (Schedule.runOrder (Pipeline.act deliver) (pipeInput choice i m m₁)
        (order.filterMap Process.stage) p) := by
    refine Schedule.runOrder_related hnodup hstart fun done st m' p' _ hst ⟨hnow, hprev⟩ ↦
      ⟨(act_now _ _ _).trans hnow, fun hafter ↦ ?_⟩
    have hbefore : m'.core.aborted = false := by
      by_contra hne
      rw [Bool.not_eq_false] at hne
      rw [act_of_aborted _ _ hne, hne] at hafter
      cases hafter
    refine within_act hc hchoice hst ?_ hbefore hafter (hprev hbefore)
    rw [cycleInput, hnow]
    rfl
  exact hwithin.2 halive

/-- **A cycle of the machine is one of the pipeline**, in which what the decoder pushes is
delivered. -/
theorem sim_cycle (c : Schedule.Cycle MachineInput processes) (hc : Coherent m) (hsim : Sim m p)
    (choice : D) (hchoice : (deliver choice p.cur p.feed).1 = pushed u c.input m)
    (halive : (Schedule.cycle (act u) commit c m).core.aborted = false) :
    ∃ c' : Schedule.Cycle (Pipeline.Input D) stages, c'.input.choice = choice ∧
      c'.input.ddReady = (m.core.nxt.ddOutReady || decodes m.cur) ∧
      Sim (Schedule.cycle (act u) commit c m)
        (Schedule.cycle (Pipeline.act deliver) Pipeline.commit c' p) ∧
      Coherent (Schedule.cycle (act u) commit c m) ∧
      (Schedule.cycle (Pipeline.act deliver) Pipeline.commit c' p).feed =
        (deliver choice p.cur p.feed).2 ∧
      (Schedule.cycle (act u) commit c m).cur.ddOutReady = c'.input.ddReady := by
  have hmem : ∀ st, st ∈ c.order := fun st ↦ c.perm.mem_iff.mpr (mem_processes st)
  let m₁ := Schedule.runOrder (act u) c.input c.order m
  have h := sim_order (c.perm.nodup_iff.mpr processes_nodup) hc hsim choice hchoice m₁ halive
  have hback := congrArg Core.nxt h.sim.core
  refine ⟨⟨pipeInput choice c.input m m₁, c.order.filterMap Process.stage, c.perm.filterMap _⟩,
    rfl, rfl, ⟨h.sim.core, hback, h.sim.trace⟩, ⟨rfl, h.reset, h.redirect, fun hflag ↦ ?_⟩,
    h.decoded (hmem _)⟩
  exact absurd (hmem _) (h.first hflag).1

end Cse502.Machine
