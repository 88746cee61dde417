import Cse502.Pipeline.Path
import Cse502.Pipeline.Stages

/-!
# Squashing is exact

The decoder follows the fall-through path, and a taken transfer throws away what it delivered: in
the cycle after it `clear` is seen, `Dispatch` empties its queue and `Execute` its own, while the
decoder does nothing. Only after that do uops of the target arrive. The filter on `expected_addr`
then has to let every uop pass: it compares with `prev_addr` inside an instruction and with
`expected_addr` at its start.

## The invariant

Between a transfer and the end of the next cycle the queues hold anything. In every other state they
hold the next uops of the path, the address registers let the first of them pass, and the decoder
stands behind the last of them.
-/

namespace Cse502.Pipeline

open Execute (issued jumps takes jumpTarget unexpected expected Straight Redirected SameUop)

variable {code : Program} {entry : Word}

/-! ## The pipeline with a log -/

/-- The decoder's choice is how many uops of the fall-through path it delivers. Where `clear` is
seen, the fetching goes to the new address. -/
def followPath (n : ℕ) (cur : Signals) (p : Position code) : List Uop × Position code :=
  if cur.clear then ([], Position.first cur.newRIP) else (p.upcoming n, p.advance n)

/-- The pipeline and what `Execute` did. -/
structure Logged (code : Program) where
  pipe : Pipe (Position code)
  events : List Event

/-- What one activation of `Execute` did. -/
def eventsOf (cur : Signals) (before after : Core) : List Event :=
  (issued cur before).toList.map .ran ++
    if after.nxt.changeRIP then [.redirected after.nxt.newRIP] else []

/-- One process of one cycle, with its events. -/
def logAct (i : Input ℕ) (st : Stage) (r : Logged code) : Logged code :=
  let pipe := act followPath i st r.pipe
  { pipe := pipe
    events := match st with
      | .execute => r.events ++ eventsOf r.pipe.cur r.pipe.core pipe.core
      | _ => r.events }

/-- The end of a cycle. -/
def logCommit (i : Input ℕ) (r : Logged code) : Logged code := { r with pipe := commit i r.pipe }

/-- A run of the pipeline with its log. -/
def logRun (cs : Cycles ℕ) (r : Logged code) : Logged code := Schedule.run logAct logCommit cs r

/-- The pipeline after reset. -/
def Logged.start (c : Core) (entry : Word) :
    Logged code := ⟨Pipe.start c (Position.first entry), []⟩

/-! ## The invariant -/

/-- The filter lets the uop at this position pass. -/
def Ready (ex : Execute) (p : Position code) : Prop :=
  (ex.firstrun = true ∧ p.idx.val = 0) ∨ (p.idx.val = 0 ∧ ex.expectedAddr = p.addr) ∨
    (0 < p.idx.val ∧ ex.prevAddr = p.addr)

/-- It will, once the memory has answered. -/
def ReadyAfterRead (ex : Execute) (p : Position code) : Prop :=
  (ex.op.opcode = .load ∧ 0 < p.idx.val ∧ ex.prevAddr = p.addr) ∨
    (ex.op.opcode = .pop ∧ p.idx.val = 0 ∧ ex.op.nextAddr = p.addr)

/-- The queues hold the next uops, and the decoder stands behind them. -/
def Queued (us : List Uop) (p feed : Position code) : Prop :=
  ∃ n, us.map ident = (p.upcoming n).map ident ∧ feed = p.advance n

/-- The next uop can be run. -/
structure Running (entry : Word) (r : Logged code) (p : Position code) : Prop where
  path : Path code entry r.events p
  falls : Falls r.events
  state : r.pipe.core.ex.state = .normal
  ready : Ready r.pipe.core.ex p
  queued : Queued (r.pipe.core.deUopQueue ++ r.pipe.core.ddUopQueue) p r.pipe.feed

/-- A `load` or a `pop` waits for the memory, and stays in the queue until then. -/
structure Waiting (entry : Word) (r : Logged code) (p : Position code) : Prop where
  path : Path code entry r.events p
  falls : Falls r.events
  state : r.pipe.core.ex.state = .read
  ready : ReadyAfterRead r.pipe.core.ex p
  nonempty : r.pipe.core.deUopQueue ≠ []
  queued : Queued (r.pipe.core.deUopQueue.tail ++ r.pipe.core.ddUopQueue) p r.pipe.feed

/-- A `ret` waits for the memory. -/
structure Returning (entry : Word) (r : Logged code) : Prop where
  path : ∃ es op p, r.events = es ++ [.ran op] ∧ op.opcode = .ret ∧ Path code entry r.events p
  state : r.pipe.core.ex.state = .read
  opcode : r.pipe.core.ex.op.opcode = .ret

/-- A transfer was taken. -/
structure Leaving (entry target : Word) (r : Logged code) : Prop where
  path : Path code entry r.events (Position.first target)
  falls : Falls r.events
  state : r.pipe.core.ex.state = .normal
  expectedAddr : r.pipe.core.ex.expectedAddr = target

/-- No transfer is under way. -/
def Flowing (entry : Word) (r : Logged code) : Prop :=
  (∃ p, Running entry r p) ∨ (∃ p, Waiting entry r p) ∨ Returning entry r

/-- What holds all the time. -/
structure Calm (r : Logged code) : Prop where
  cur : r.pipe.cur.reset = false
  nxt : r.pipe.core.nxt.reset = false
  ripChanged : r.pipe.core.ex.ripChanged = false

/-- Inside a cycle that does not see `clear`. -/
def InFlow (entry : Word) (done : List Stage) (r : Logged code) : Prop :=
  r.pipe.cur.clear = false ∧
    ((r.pipe.core.nxt.clear = false ∧ Flowing entry r) ∨
      (.execute ∈ done ∧ r.pipe.core.nxt.clear = true ∧
        Leaving entry r.pipe.core.nxt.newRIP r))

/-- Inside a cycle that does. -/
structure InClear (entry : Word) (done : List Stage) (r : Logged code) : Prop where
  clear : r.pipe.cur.clear = true
  leaving : Leaving entry r.pipe.cur.newRIP r
  decode : .decode ∈ done → r.pipe.feed = Position.first r.pipe.cur.newRIP
  dispatch : .dispatch ∈ done → r.pipe.core.ddUopQueue = []
  execute : .execute ∈ done → r.pipe.core.deUopQueue = [] ∧ r.pipe.core.nxt.clear = false

/-- Between two cycles. -/
def Settled (entry : Word) (r : Logged code) : Prop :=
  (r.pipe.cur.clear = false ∧ r.pipe.core.nxt.clear = false ∧ Flowing entry r) ∨
    (r.pipe.cur.clear = true ∧ Leaving entry r.pipe.cur.newRIP r)

/-- Where the run stands on the path: the queues hold the next uops of it and the decoder stands
behind them, and the filter lets the first of them pass. A `load` or a `pop` that waits for the
memory is still in the queue. Where `clear` is seen the path goes on at the new address. -/
structure Stands (r : Logged code) (p : Position code) : Prop where
  running : r.pipe.cur.clear = false → r.pipe.core.ex.state = .normal →
    Ready r.pipe.core.ex p ∧
      Queued (r.pipe.core.deUopQueue ++ r.pipe.core.ddUopQueue) p r.pipe.feed
  waiting : r.pipe.cur.clear = false → r.pipe.core.ex.state = .read →
    r.pipe.core.ex.op.opcode ≠ .ret → ReadyAfterRead r.pipe.core.ex p ∧
      r.pipe.core.deUopQueue ≠ [] ∧
      Queued (r.pipe.core.deUopQueue.tail ++ r.pipe.core.ddUopQueue) p r.pipe.feed
  leaving : r.pipe.cur.clear = true → p = Position.first r.pipe.cur.newRIP ∧
    r.pipe.core.ex.state = .normal ∧ r.pipe.core.ex.expectedAddr = r.pipe.cur.newRIP

/-- Between two cycles the run stands at the end of its path. -/
theorem Settled.exists_path {r : Logged code} (h : Settled entry r) :
    ∃ p, Path code entry r.events p ∧ Stands r p := by
  rcases h with ⟨hcur, -, ⟨p, h⟩ | ⟨p, h⟩ | h⟩ | ⟨hcur, h⟩
  · refine ⟨p, h.path, fun _ _ ↦ ⟨h.ready, h.queued⟩, fun _ hread ↦ ?_, fun hclear ↦ ?_⟩
    · exact absurd (h.state.symm.trans hread) (by decide)
    · exact absurd (hcur.symm.trans hclear) (by decide)
  · refine ⟨p, h.path, fun _ hnormal ↦ ?_, fun _ _ _ ↦ ⟨h.ready, h.nonempty, h.queued⟩,
      fun hclear ↦ ?_⟩
    · exact absurd (h.state.symm.trans hnormal) (by decide)
    · exact absurd (hcur.symm.trans hclear) (by decide)
  · obtain ⟨es, op, p, hevents, -, hpath⟩ := h.path
    refine ⟨p, hpath, fun _ hnormal ↦ ?_, fun _ _ hop ↦ absurd h.opcode hop, fun hclear ↦ ?_⟩
    · exact absurd (h.state.symm.trans hnormal) (by decide)
    · exact absurd (hcur.symm.trans hclear) (by decide)
  · refine ⟨_, h.path, fun hclear ↦ ?_, fun hclear ↦ ?_, fun _ ↦ ⟨rfl, h.state, h.expectedAddr⟩⟩
    · exact absurd (hcur.symm.trans hclear) (by decide)
    · exact absurd (hcur.symm.trans hclear) (by decide)

/-! ## The stages other than `Execute` -/

section Queued

variable {us : List Uop} {p feed : Position code}

/-- The decoder puts the next uops behind those delivered. -/
theorem Queued.deliver (h : Queued us p feed) (n : ℕ) :
    Queued (us ++ feed.upcoming n) p (feed.advance n) := by
  obtain ⟨m, hus, rfl⟩ := h
  refine ⟨m + n, ?_, (p.advance_add m n).symm⟩
  rw [List.map_append, hus, p.upcoming_add, List.map_append]

/-- Only what tells the uops apart counts. -/
theorem Queued.congr {us' : List Uop} (h : Queued us p feed) (hus : us'.map ident = us.map ident) :
    Queued us' p feed := by
  obtain ⟨n, hn, hfeed⟩ := h
  exact ⟨n, hus.trans hn, hfeed⟩

/-- The first of the queued uops is the one at the position, and the others are those behind it. -/
theorem Queued.cons {u : Uop} (h : Queued (u :: us) p feed) :
    ident u = ident p.uop ∧ Queued us p.next feed := by
  obtain ⟨n, hn, hfeed⟩ := h
  cases n with
  | zero => cases hn
  | succ n =>
    rw [Position.upcoming, List.map_cons, List.map_cons, List.cons.injEq] at hn
    exact ⟨hn.1, n, hn.2, hfeed⟩

end Queued

section Frame

variable {r r' : Logged code}

/-- A stage that leaves `Execute` alone keeps the flow if it keeps what is queued. -/
theorem Flowing.frame (h : Flowing entry r) (hevents : r'.events = r.events)
    (hex : r'.pipe.core.ex = r.pipe.core.ex)
    (hrunning : ∀ p : Position code,
      Queued (r.pipe.core.deUopQueue ++ r.pipe.core.ddUopQueue) p r.pipe.feed →
        Queued (r'.pipe.core.deUopQueue ++ r'.pipe.core.ddUopQueue) p r'.pipe.feed)
    (hwaiting : ∀ p : Position code, r.pipe.core.deUopQueue ≠ [] →
      Queued (r.pipe.core.deUopQueue.tail ++ r.pipe.core.ddUopQueue) p r.pipe.feed →
        r'.pipe.core.deUopQueue ≠ [] ∧
          Queued (r'.pipe.core.deUopQueue.tail ++ r'.pipe.core.ddUopQueue) p r'.pipe.feed) :
    Flowing entry r' := by
  rcases h with ⟨p, h⟩ | ⟨p, h⟩ | h
  · exact .inl ⟨p, hevents ▸ h.path, hevents ▸ h.falls, hex ▸ h.state, hex ▸ h.ready,
      hrunning p h.queued⟩
  · obtain ⟨hne, hqueued⟩ := hwaiting p h.nonempty h.queued
    exact .inr (.inl ⟨p, hevents ▸ h.path, hevents ▸ h.falls, hex ▸ h.state, hex ▸ h.ready, hne,
      hqueued⟩)
  · exact .inr (.inr ⟨hevents ▸ h.path, hex ▸ h.state, hex ▸ h.opcode⟩)

theorem Leaving.frame {target : Word} (h : Leaving entry target r) (hevents : r'.events = r.events)
    (hex : r'.pipe.core.ex = r.pipe.core.ex) : Leaving entry target r' :=
  ⟨hevents ▸ h.path, hevents ▸ h.falls, hex ▸ h.state, hex ▸ h.expectedAddr⟩

end Frame

@[simp] theorem ident_readOperands (rf : Arf) (u : Uop) :
    ident (Dispatch.readOperands rf u) = ident u := by simp [ident]

theorem map_ident_readOperands (rf : Arf) (us : List Uop) :
    (us.map (Dispatch.readOperands rf)).map ident = us.map ident := by
  rw [List.map_map]
  exact List.map_congr_left fun u _ ↦ ident_readOperands rf u

/-- What a stage keeps if it touches neither `Execute` nor the signals it drives. -/
structure Aside (r r' : Logged code) : Prop where
  events : r'.events = r.events
  cur : r'.pipe.cur = r.pipe.cur
  ex : r'.pipe.core.ex = r.pipe.core.ex
  aborted : r'.pipe.core.aborted = r.pipe.core.aborted
  reset : r'.pipe.core.nxt.reset = r.pipe.core.nxt.reset
  clear : r'.pipe.core.nxt.clear = r.pipe.core.nxt.clear
  newRIP : r'.pipe.core.nxt.newRIP = r.pipe.core.nxt.newRIP

theorem Aside.calm {r r' : Logged code} (h : Aside r r') (hcalm : Calm r) : Calm r' :=
  ⟨h.cur ▸ hcalm.cur, h.reset.trans hcalm.nxt, h.ex ▸ hcalm.ripChanged⟩

section Stages

variable (i : Input ℕ) (r : Logged code)

theorem decode_aside : Aside r (logAct i .decode r) := ⟨rfl, rfl, rfl, rfl, rfl, rfl, rfl⟩

theorem dispatch_aside : Aside r (logAct i .dispatch r) := by
  have hkeep : ∀ {c c' : Core}, Dispatch.Outcome r.pipe.cur c c' → c'.ex = c.ex ∧
      c'.aborted = c.aborted ∧ c'.nxt.reset = c.nxt.reset ∧ c'.nxt.clear = c.nxt.clear ∧
        c'.nxt.newRIP = c.nxt.newRIP := by
    rintro c c' (_ | _ | _) <;> exact ⟨rfl, rfl, rfl, rfl, rfl⟩
  obtain ⟨hex, haborted, hreset, hclear, hnewRIP⟩ :=
    hkeep (Dispatch.work_outcome r.pipe.cur r.pipe.core)
  exact ⟨rfl, rfl, hex, haborted, hreset, hclear, hnewRIP⟩

theorem writeback_aside : Aside r (logAct i .writeback r) := by
  have hcore : (logAct i .writeback r).pipe.core = Writeback.work r.pipe.cur r.pipe.core := rfl
  rcases Writeback.work_eq r.pipe.cur r.pipe.core with hwork | ⟨op, rest, -, hwork⟩ <;>
    rw [hwork] at hcore <;>
    exact ⟨rfl, rfl, by rw [hcore], by rw [hcore], by rw [hcore], by rw [hcore], by rw [hcore]⟩

variable {i r}

/-- The decoder goes on along the path. -/
theorem decode_flowing (hclear : r.pipe.cur.clear = false) (h : Flowing entry r) :
    Flowing entry (logAct i .decode r) := by
  have hdeliver : followPath i.choice r.pipe.cur r.pipe.feed =
      (r.pipe.feed.upcoming i.choice, r.pipe.feed.advance i.choice) :=
    if_neg (by rw [hclear]; exact Bool.false_ne_true)
  have hdd : (logAct i .decode r).pipe.core.ddUopQueue =
      r.pipe.core.ddUopQueue ++ r.pipe.feed.upcoming i.choice :=
    congrArg (r.pipe.core.ddUopQueue ++ ·) (congrArg Prod.fst hdeliver)
  have hfeed : (logAct i .decode r).pipe.feed = r.pipe.feed.advance i.choice :=
    congrArg Prod.snd hdeliver
  refine h.frame rfl rfl (fun p hq ↦ ?_) fun p hne hq ↦ ⟨hne, ?_⟩
  · rw [hdd, hfeed, ← List.append_assoc]
    exact hq.deliver i.choice
  · rw [hdd, hfeed, ← List.append_assoc]
    exact hq.deliver i.choice

/-- Without a `clear` a uop in the second queue stays at its front, and none is lost or swapped. -/
private theorem dispatch_keeps {cur : Signals} {c c' : Core} (hclear : cur.clear = false)
    (h : Dispatch.Outcome cur c c') :
    (c'.deUopQueue ++ c'.ddUopQueue).map ident = (c.deUopQueue ++ c.ddUopQueue).map ident ∧
      (c.deUopQueue ≠ [] →
        c'.deUopQueue = c.deUopQueue ∧ c'.ddUopQueue = c.ddUopQueue) := by
  cases h with
  | idle ready _ => exact ⟨rfl, fun _ ↦ ⟨rfl, rfl⟩⟩
  | cleared hclear' => exact absurd hclear' (by rw [hclear]; exact Bool.false_ne_true)
  | moved front rest k _ hdd hde _ =>
    refine ⟨?_, fun hne ↦ absurd hde hne⟩
    rw [hdd, hde, List.map_append, map_ident_readOperands, ← List.map_append, List.cons_append,
      List.take_append_drop, List.nil_append]

/-- `Dispatch` moves uops from one queue to the other. -/
theorem dispatch_flowing (hclear : r.pipe.cur.clear = false) (h : Flowing entry r) :
    Flowing entry (logAct i .dispatch r) := by
  obtain ⟨hident, hstay⟩ := dispatch_keeps hclear (Dispatch.work_outcome r.pipe.cur r.pipe.core)
  have haside := dispatch_aside i r
  refine h.frame haside.events haside.ex (fun p hq ↦ hq.congr hident) fun p hne hq ↦ ?_
  obtain ⟨hde, hdd⟩ := hstay hne
  refine ⟨hde ▸ hne, hq.congr ?_⟩
  change ((Dispatch.work r.pipe.cur r.pipe.core).deUopQueue.tail ++
    (Dispatch.work r.pipe.cur r.pipe.core).ddUopQueue).map ident = _
  rw [hde, hdd]

/-- `Writeback` touches neither queue. -/
private theorem writeback_queues (i : Input ℕ) (r : Logged code) :
    (logAct i .writeback r).pipe.core.deUopQueue = r.pipe.core.deUopQueue ∧
      (logAct i .writeback r).pipe.core.ddUopQueue = r.pipe.core.ddUopQueue := by
  have hcore : (logAct i .writeback r).pipe.core = Writeback.work r.pipe.cur r.pipe.core := rfl
  rcases Writeback.work_eq r.pipe.cur r.pipe.core with hwork | ⟨op, rest, -, hwork⟩ <;>
    rw [hcore, hwork] <;> exact ⟨rfl, rfl⟩

theorem writeback_flowing (h : Flowing entry r) : Flowing entry (logAct i .writeback r) := by
  have haside := writeback_aside i r
  have hfeed : (logAct i .writeback r).pipe.feed = r.pipe.feed := rfl
  obtain ⟨hde, hdd⟩ := writeback_queues i r
  refine h.frame haside.events haside.ex (fun p hq ↦ ?_) fun p hne hq ↦ ⟨?_, ?_⟩
  · rw [hde, hdd, hfeed]
    exact hq
  · rw [hde]
    exact hne
  · rw [hde, hdd, hfeed]
    exact hq

end Stages

/-! ## `Execute` -/

theorem map_ident_patchLoop (ex : Execute) (a : Word) (us : List Uop) :
    (Execute.patchLoop ex a us).map ident = us.map ident := by
  have hpatch : ∀ u, ident (Execute.patchUop ex u) = ident u := fun u ↦ by
    rw [Execute.patchUop]; split_ifs <;> rfl
  induction us with
  | nil => rfl
  | cons u us ih =>
    rw [Execute.patchLoop]
    split_ifs
    · rw [List.map_cons, List.map_cons, hpatch, ih]
    · rfl

/-- The filter lets the next uop of the path pass. -/
theorem unexpected_of_ready {ex : Execute} {p : Position code} (h : Ready ex p) {front : Uop}
    (hfront : front.address = p.addr) : unexpected ex front = false := by
  rcases h with ⟨hfirst, -⟩ | ⟨-, hexpected⟩ | ⟨-, hprev⟩
  · rw [unexpected, hfirst, Bool.not_true, Bool.and_false]
  · have hpass : expected ex front = front.address := by
      rw [expected, hexpected, hfront]
      split_ifs <;> rfl
    rw [unexpected, hpass, bne_self_eq_false, Bool.false_and]
  · have hpass : expected ex front = front.address := if_pos (hfront.trans hprev.symm)
    rw [unexpected, hpass, bne_self_eq_false, Bool.false_and]

/-- The log once `Execute` has left this state and run this uop. -/
def Logged.executed (r : Logged code) (c : Core) (ran : Option Uop) : Logged code where
  pipe := { r.pipe with core := c, trace := r.pipe.trace ++ ran.toList }
  events := r.events ++
    (ran.toList.map .ran ++ if c.nxt.changeRIP then [.redirected c.nxt.newRIP] else [])

theorem logAct_execute (i : Input ℕ) (r : Logged code) :
    logAct i .execute r = r.executed (Execute.work i.cycle r.pipe.cur r.pipe.core)
      (issued r.pipe.cur r.pipe.core) := rfl

theorem executed_events_of_not (r : Logged code) {c : Core} (h : c.nxt.changeRIP = false)
    (ran : Option Uop) : (r.executed c ran).events = r.events ++ ran.toList.map .ran := by
  rw [Logged.executed, h, if_neg Bool.false_ne_true, List.append_nil]

theorem executed_events (r : Logged code) {c : Core} (h : c.nxt.changeRIP = true)
    (ran : Option Uop) : (r.executed c ran).events =
      r.events ++ ran.toList.map .ran ++ [.redirected c.nxt.newRIP] := by
  rw [Logged.executed, h, if_pos rfl, List.append_assoc]

theorem executed_events_none (r : Logged code) {c : Core} (h : c.nxt.changeRIP = false) :
    (r.executed c none).events = r.events :=
  (executed_events_of_not r h none).trans (List.append_nil _)

/-- What holds after an activation of `Execute` that did not see `clear`. -/
def Executed (entry : Word) (r : Logged code) : Prop :=
  r.pipe.core.nxt.reset = false ∧ r.pipe.core.ex.ripChanged = false ∧
    ((r.pipe.core.nxt.clear = false ∧ Flowing entry r) ∨
      (r.pipe.core.nxt.clear = true ∧ Leaving entry r.pipe.core.nxt.newRIP r))

section Ran

variable {r : Logged code} {p : Position code} {front : Uop} {rest : List Uop}

/-- The state in which the `switch` is reached. -/
private abbrev selected (r : Logged code) (front : Uop) : Core :=
  { Execute.select front (Execute.start r.pipe.core) with ex.firstrun := false }

private theorem tail_selected (hde : r.pipe.core.deUopQueue = front :: rest) :
    (selected r front).deUopQueue ≠ [] ∧
      (selected r front).deUopQueue.tail.map ident = rest.map ident := by
  have hmap := map_ident_patchLoop r.pipe.core.ex front.address r.pipe.core.deUopQueue
  constructor
  · intro hnil
    change Execute.patchLoop r.pipe.core.ex front.address r.pipe.core.deUopQueue = [] at hnil
    rw [hnil, hde] at hmap
    cases hmap
  · change
        (Execute.patchLoop r.pipe.core.ex front.address r.pipe.core.deUopQueue).tail.map ident = _
    rw [List.map_tail, hmap, hde]
    rfl

/-- The queue behind the uop that is run. -/
private theorem queued_rest (h : Running entry r p) (hde : r.pipe.core.deUopQueue = front :: rest) :
    ident front = ident p.uop ∧ Queued
      ((selected r front).deUopQueue.tail ++ r.pipe.core.ddUopQueue) p.next r.pipe.feed := by
  have hq := h.queued
  rw [hde, List.cons_append] at hq
  obtain ⟨hident, hrest⟩ := hq.cons
  refine ⟨hident, hrest.congr ?_⟩
  rw [List.map_append, (tail_selected hde).2, List.map_append]

variable (h : Running entry r p) (hcalm : Calm r) (hclear : r.pipe.core.nxt.clear = false)
  (hde : r.pipe.core.deUopQueue = front :: rest)

include h hde

/-- The log with the uop that is run. -/
private theorem path_ran (op : Uop) (hop : ident op = ident front) :
    Path code entry (r.events ++ [.ran op]) p.next :=
  .ran h.path h.falls (hop.trans (queued_rest h hde).1)

include hcalm

/-- A taken jump or a call. -/
private theorem executed_redirected (op : Uop) (hop : ident op = ident front) {op' : Uop}
    {c' : Core}
    (hjumps : jumps op.opcode = true)
    (hredirected : Redirected (jumpTarget op) (selected r front) c') :
    Executed entry (r.executed (Execute.finish op' c') (some op)) := by
  have hnxt := Execute.finish_nxt op' c'
  have hchange : (Execute.finish op' c').nxt.changeRIP = true := by
    rw [hnxt]
    exact hredirected.changeRIP
  have hnewRIP : (Execute.finish op' c').nxt.newRIP = jumpTarget op := by
    rw [hnxt]
    exact hredirected.newRIP
  have hevents := executed_events r hchange (some op)
  have hpath := (path_ran h hde op hop).redirected (.inr ⟨hjumps, rfl⟩)
  have hexpected : (Execute.finish op' c').ex.expectedAddr = jumpTarget op := by
    rw [Execute.finish_expectedAddr, hredirected.ripChanged, if_pos rfl, hredirected.expectedAddr]
  refine ⟨?_, Execute.finish_ripChanged op' c', .inr ⟨?_, ?_, ?_, ?_, ?_⟩⟩
  · change (Execute.finish op' c').nxt.reset = false
    rw [hnxt]
    exact hredirected.reset.trans hcalm.nxt
  · change (Execute.finish op' c').nxt.clear = true
    rw [hnxt]
    exact hredirected.clear
  · change Path code entry _ (Position.first (Execute.finish op' c').nxt.newRIP)
    rw [hevents, hnewRIP]
    exact hpath
  · rw [hevents]
    exact falls_concat_redirected _ _
  · exact (Execute.finish_state op' c').trans (hredirected.state.trans h.state)
  · exact hexpected.trans hnewRIP.symm

include hclear

/-- A uop that waits for the memory. -/
private theorem executed_read (op : Uop) (hop : ident op = ident front) (addr : Word)
    (hreads : Execute.reads op.opcode = true) :
    Executed entry (r.executed (Execute.startRead op addr (selected r front)) (some op)) := by
  obtain ⟨hident, hqueued⟩ := queued_rest h hde
  have hopcode : op.opcode = p.uop.opcode :=
    congrArg (fun x ↦ x.2.2.1) (hop.trans hident)
  have hnextAddr := nextAddr_of_ident (hop.trans hident)
  have hpath := path_ran h hde op hop
  have hwaiting : alwaysTaken op.opcode = false → ReadyAfterRead
      (Execute.startRead op addr (selected r front)).ex p.next → Flowing entry
        (r.executed (Execute.startRead op addr (selected r front)) (some op)) := fun hfalls hready ↦
    .inr (.inl ⟨p.next, hpath, falls_concat_ran hfalls, rfl, hready,
      (tail_selected hde).1, hqueued⟩)
  refine ⟨hcalm.nxt, hcalm.ripChanged, .inl ⟨hclear, ?_⟩⟩
  rw [Execute.reads, Bool.or_eq_true, Bool.or_eq_true, beq_iff_eq, beq_iff_eq, beq_iff_eq] at hreads
  rcases hreads with (hret | hpop) | hload
  · exact .inr (.inr ⟨⟨r.events, op, p.next, rfl, hret, hpath⟩, rfl, hret⟩)
  · obtain ⟨hidx, haddr⟩ := Position.next_of_pop (hopcode.symm.trans hpop)
    exact hwaiting (by rw [hpop]; rfl) (.inr ⟨hpop, hidx, hnextAddr.trans haddr.symm⟩)
  · obtain ⟨hidx, haddr, hidx'⟩ := Position.next_of_load (hopcode.symm.trans hload)
    have hprev : r.pipe.core.ex.prevAddr = p.addr := by
      rcases h.ready with ⟨-, hzero⟩ | ⟨hzero, -⟩ | ⟨-, hprev⟩
      · exact absurd hzero hidx.ne'
      · exact absurd hzero hidx.ne'
      · exact hprev
    exact hwaiting (by rw [hload]; rfl) (.inl ⟨hload, hidx', hprev.trans haddr.symm⟩)

/-- A uop that goes straight on. -/
private theorem executed_straight (op : Uop) (hop : ident op = ident front) {op' : Uop} {c' : Core}
    (hfalls : alwaysTaken op.opcode = false) (hsame : SameUop op op')
    (hstraight : Straight (selected r front) c') :
    Executed entry (r.executed (Execute.finish op' c') (some op)) := by
  obtain ⟨hident, hqueued⟩ := queued_rest h hde
  have hnextAddr := nextAddr_of_ident (hop.trans hident)
  have haddress : op.address = p.addr :=
    (congrArg Prod.fst (hop.trans hident)).trans p.uop_address
  have hrip : c'.ex.ripChanged = false := hstraight.ripChanged.trans hcalm.ripChanged
  have hchange : (Execute.finish op' c').nxt.changeRIP = false := by
    rw [Execute.finish_nxt]
    exact hstraight.changeRIP
  have hevents := executed_events_of_not r hchange (some op)
  have hready : Ready (Execute.finish op' c').ex p.next := by
    rw [Ready, Execute.finish_expectedAddr, Execute.finish_prevAddr, hrip,
      if_neg Bool.false_ne_true, if_neg Bool.false_ne_true, hsame.nextAddr, hsame.address]
    rcases p.next_cases with ⟨haddr, hidx⟩ | ⟨hidx, haddr⟩
    · exact .inr (.inr ⟨hidx, haddress.trans haddr.symm⟩)
    · exact .inr (.inl ⟨hidx, hnextAddr.trans haddr.symm⟩)
  refine ⟨?_, Execute.finish_ripChanged op' c', .inl ⟨?_, .inl ⟨p.next, ?_, ?_, ?_, hready, ?_⟩⟩⟩
  · change (Execute.finish op' c').nxt.reset = false
    rw [Execute.finish_nxt]
    exact hstraight.reset.trans hcalm.nxt
  · change (Execute.finish op' c').nxt.clear = false
    rw [Execute.finish_nxt]
    exact hstraight.clear.trans hclear
  · rw [hevents]
    exact path_ran h hde op hop
  · rw [hevents]
    exact falls_concat_ran hfalls
  · exact (Execute.finish_state op' c').trans (hstraight.state.trans h.state)
  · change Queued ((Execute.finish op' c').deUopQueue ++ (Execute.finish op' c').ddUopQueue) p.next
      r.pipe.feed
    rw [Execute.finish_deUopQueue, Execute.finish_ddUopQueue, hstraight.deUopQueue,
      hstraight.ddUopQueue]
    exact hqueued

end Ran

/-- Running the next uop of the path. -/
private theorem executed_ran {r : Logged code} {p : Position code} {front : Uop} {rest : List Uop}
    (h : Running entry r p) (hcalm : Calm r) (hclear : r.pipe.core.nxt.clear = false)
    (hde : r.pipe.core.deUopQueue = front :: rest) (inp : CycleInput) (op : Uop)
    (hop : ident op = ident front) :
    (Execute.runOp inp op (selected r front)).aborted = true ∨
      Executed entry (r.executed (Execute.runOp inp op (selected r front)) (some op)) := by
  have hident := hop.trans (queued_rest h hde).1
  have hsrc : jumps op.opcode = true → op.src = .reg ∨ op.src = .immed := by
    have hopcode : op.opcode = p.uop.opcode := congrArg (fun x ↦ x.2.2.1) hident
    have hsource : op.src = p.uop.src := congrArg (fun x ↦ x.2.2.2) hident
    rw [hopcode, hsource]
    exact code.src p.addr p.uop p.uop_mem
  have hran := Execute.runOp_ran inp op (selected r front)
  generalize Execute.runOp inp op (selected r front) = c' at hran ⊢
  cases hran with
  | read addr hreads => exact .inr (executed_read h hcalm hclear hde op hop addr hreads)
  | died => exact .inl rfl
  | finished op' c' hreads hswitch =>
    have hret : op.opcode ≠ .ret := by
      intro hret
      rw [hret] at hreads
      cases hreads
    obtain ⟨hsame, ⟨htakes, hstraight⟩ | ⟨htakes, hredirected⟩⟩ :=
      Execute.switchOp_cases hsrc hswitch
    · have hfalls := alwaysTaken_of_not_takes htakes hret
      exact .inr (executed_straight h hcalm hclear hde op hop hfalls hsame hstraight)
    · have hjumps := jumps_of_takes htakes
      exact .inr (executed_redirected h hcalm hde op hop hjumps hredirected)

/-- While `Execute` waits for the memory it issues nothing. -/
private theorem waiting_of_read {cur : Signals} {ex : Execute} (hstate : ex.state = .read)
    (hop : ex.op.opcode = .ret ∨ ex.op.opcode = .pop ∨ ex.op.opcode = .load) :
    Execute.waiting cur ex = true := by
  rcases hop with hop | hop | hop <;> simp [Execute.waiting, hstate, hop]

private theorem returning_of_ret {r : Logged code} (h : Flowing entry r)
    (hstate : r.pipe.core.ex.state = .read) (hop : r.pipe.core.ex.op.opcode = .ret) :
    Returning entry r := by
  rcases h with ⟨p, h⟩ | ⟨p, h⟩ | h
  · rw [h.state] at hstate
    cases hstate
  · rcases h.ready with ⟨hop', -⟩ | ⟨hop', -⟩ <;> rw [hop] at hop' <;> cases hop'
  · exact h

private theorem waiting_of_ne_ret {r : Logged code} (h : Flowing entry r)
    (hstate : r.pipe.core.ex.state = .read) (hop : r.pipe.core.ex.op.opcode ≠ .ret) :
    ∃ p, Waiting entry r p := by
  rcases h with ⟨p, h⟩ | h | h
  · rw [h.state] at hstate
    cases hstate
  · exact h
  · exact absurd h.opcode hop

/-- **What an activation of `Execute` does to the flow.** Unless the process dies, it runs the next
uop of the path, or none. -/
theorem execute_flowing {i : Input ℕ} {r : Logged code} (hcalm : Calm r)
    (hcur : r.pipe.cur.clear = false) (hclear : r.pipe.core.nxt.clear = false)
    (h : Flowing entry r) :
    (logAct i .execute r).pipe.core.aborted = true ∨ Executed entry (logAct i .execute r) := by
  have hwork := Execute.work_outcome i.cycle r.pipe.cur r.pipe.core
  rw [logAct_execute]
  generalize Execute.work i.cycle r.pipe.cur r.pipe.core = c at hwork ⊢
  generalize issued r.pipe.cur r.pipe.core = ran at hwork ⊢
  have hread : r.pipe.core.ex.state = .read → Execute.waiting r.pipe.cur r.pipe.core.ex = true := by
    intro hstate
    rcases h with ⟨p, h⟩ | ⟨p, h⟩ | h
    · rw [h.state] at hstate
      cases hstate
    · rcases h.ready with ⟨hop, -⟩ | ⟨hop, -⟩
      · exact waiting_of_read hstate (.inr (.inr hop))
      · exact waiting_of_read hstate (.inr (.inl hop))
    · exact waiting_of_read hstate (.inl h.opcode)
  have hrunning : Execute.waiting r.pipe.cur r.pipe.core.ex = false → ∃ p, Running entry r p := by
    intro hwait
    rcases h with h | ⟨p, h⟩ | h
    · exact h
    · rw [hread h.state] at hwait
      cases hwait
    · rw [hread h.state] at hwait
      cases hwait
  cases hwork with
  | idle ready _ =>
    have hevents := executed_events_none r
      (c := { Execute.start r.pipe.core with nxt.ewOutReady := ready }) rfl
    exact .inr ⟨hcalm.nxt, hcalm.ripChanged, .inl ⟨hclear,
      h.frame hevents rfl (fun p hq ↦ hq) fun p hne hq ↦ ⟨hne, hq⟩⟩⟩
  | cleared _ hcur' => exact absurd hcur' (by rw [hcur]; exact Bool.false_ne_true)
  | ret _ hstate _ hop _ =>
    -- an answered `ret` redirects, whatever stands behind it
    obtain ⟨es, op, p, hes, hret, hpath⟩ := (returning_of_ret h hstate hop).path
    have hevents := executed_events r
      (c := Execute.completeRet r.pipe.cur (Execute.start r.pipe.core)) rfl none
    rw [Option.toList_none, List.map_nil, List.append_nil] at hevents
    refine .inr ⟨hcalm.nxt, hcalm.ripChanged, .inr ⟨rfl, ?_, ?_, rfl, rfl⟩⟩
    · rw [hevents, hes]
      exact (hes ▸ hpath).redirected (.inl hret)
    · rw [hevents]
      exact falls_concat_redirected _ _
  | pop _ hstate _ hop _ =>
    obtain ⟨p, h⟩ := waiting_of_ne_ret h hstate (by rw [hop]; exact Mnemonic.noConfusion)
    have hevents := executed_events_none r
      (c := Execute.completePop r.pipe.cur (Execute.start r.pipe.core)) rfl
    refine .inr ⟨hcalm.nxt, hcalm.ripChanged, .inl ⟨hclear, .inl ⟨p, hevents ▸ h.path,
      hevents ▸ h.falls, rfl, ?_, h.queued⟩⟩⟩
    rcases h.ready with ⟨hload, -⟩ | ⟨-, hidx, haddr⟩
    · rw [hop] at hload
      cases hload
    · exact .inr (.inl ⟨hidx, haddr⟩)
  | load _ hstate _ hop _ =>
    obtain ⟨p, h⟩ := waiting_of_ne_ret h hstate (by rw [hop]; exact Mnemonic.noConfusion)
    have hevents := executed_events_none r
      (c := Execute.completeLoad r.pipe.cur (Execute.start r.pipe.core)) rfl
    refine .inr ⟨hcalm.nxt, hcalm.ripChanged, .inl ⟨hclear, .inl ⟨p, hevents ▸ h.path,
      hevents ▸ h.falls, rfl, ?_, h.queued⟩⟩⟩
    rcases h.ready with ⟨-, hidx, haddr⟩ | ⟨hpop, -⟩
    · exact .inr (.inr ⟨hidx, haddr⟩)
    · rw [hop] at hpop
      cases hpop
  | dropped front rest _ hwait hde hunexp =>
    -- the front uop is the next one of the path, so it is not unexpected
    obtain ⟨p, h⟩ := hrunning hwait
    have hq := h.queued
    rw [hde, List.cons_append] at hq
    have haddr := (congrArg Prod.fst hq.cons.1).trans p.uop_address
    rw [unexpected_of_ready h.ready haddr] at hunexp
    cases hunexp
  | ran front rest _ hwait _ hde _ =>
    obtain ⟨p, h⟩ := hrunning hwait
    exact executed_ran h hcalm hclear hde i.cycle _ rfl

/-! ## Cycles -/

/-- The process is alive, and this holds. -/
def Alive (I : Logged code → Prop) (r : Logged code) : Prop :=
  r.pipe.core.aborted = true ∨ (Calm r ∧ I r)

/-- A dead process stays dead. -/
theorem logAct_aborted (i : Input ℕ) (st : Stage) {r : Logged code}
    (h : r.pipe.core.aborted = true) : (logAct i st r).pipe.core.aborted = true := by
  cases st with
  | decode => exact (decode_aside i r).aborted.trans h
  | dispatch => exact (dispatch_aside i r).aborted.trans h
  | execute => exact Execute.work_aborted i.cycle r.pipe.cur h
  | writeback => exact (writeback_aside i r).aborted.trans h

/-- The stages beside `Execute` keep what holds inside a cycle without `clear`. -/
private theorem inFlow_aside {i : Input ℕ} {st : Stage} {done : List Stage} {r : Logged code}
    (haside : Aside r (logAct i st r)) (hflowing : Flowing entry r → Flowing entry (logAct i st r))
    (h : InFlow entry done r) : InFlow entry (done ++ [st]) (logAct i st r) := by
  obtain ⟨hcur, ⟨hclear, h⟩ | ⟨hdone, hclear, h⟩⟩ := h
  · exact ⟨haside.cur ▸ hcur, .inl ⟨haside.clear.trans hclear, hflowing h⟩⟩
  · refine ⟨haside.cur ▸ hcur, .inr ⟨List.mem_append_left _ hdone, haside.clear.trans hclear, ?_⟩⟩
    rw [haside.newRIP]
    exact h.frame haside.events haside.ex

/-- One process of a cycle without `clear`. -/
theorem inFlow_step (i : Input ℕ) {st : Stage} {done : List Stage} {r : Logged code}
    (hst : st ∉ done) (h : Alive (InFlow entry done) r) :
    Alive (InFlow entry (done ++ [st])) (logAct i st r) := by
  rcases h with h | ⟨hcalm, h⟩
  · exact .inl (logAct_aborted i st h)
  cases st with
  | decode =>
    exact .inr ⟨(decode_aside i r).calm hcalm,
      inFlow_aside (decode_aside i r) (decode_flowing h.1) h⟩
  | dispatch =>
    exact .inr ⟨(dispatch_aside i r).calm hcalm,
      inFlow_aside (dispatch_aside i r) (dispatch_flowing h.1) h⟩
  | execute =>
    obtain ⟨hcur, ⟨hclear, h⟩ | ⟨hdone, -⟩⟩ := h
    · rcases execute_flowing (i := i) hcalm hcur hclear h with h | ⟨hreset, hrip, h⟩
      · exact .inl h
      · refine .inr ⟨⟨hcalm.cur, hreset, hrip⟩, hcur, h.imp id fun h ↦ ⟨?_, h⟩⟩
        exact List.mem_append_right _ (List.mem_singleton_self _)
    · exact absurd hdone hst
  | writeback =>
    exact .inr ⟨(writeback_aside i r).calm hcalm,
      inFlow_aside (writeback_aside i r) writeback_flowing h⟩

/-- `Dispatch` throws its queue away where it sees `clear`. -/
private theorem dispatch_clears {cur : Signals} {c c' : Core} (hreset : cur.reset = false)
    (hclear : cur.clear = true) (h : Dispatch.Outcome cur c c') :
    c'.ddUopQueue = [] ∧ c'.deUopQueue = c.deUopQueue := by
  cases h with
  | idle _ hidle => rcases hidle with h | h <;> simp_all
  | cleared _ => exact ⟨rfl, rfl⟩
  | moved _ _ _ hmoved => rw [hclear] at hmoved; cases hmoved

/-- `Execute` throws its own away, and takes `clear` back. -/
private theorem execute_clears {inp : CycleInput} {cur : Signals} {c c' : Core} {ran : Option Uop}
    (hreset : cur.reset = false) (hclear : cur.clear = true)
    (h : Execute.Outcome inp cur c c' ran) :
    ∃ ready, ran = none ∧ c' =
      { Execute.start c with nxt.ewOutReady := ready, nxt.clear := false, deUopQueue := [] } := by
  cases h with
  | cleared ready _ => exact ⟨ready, rfl, rfl⟩
  | idle _ hidle => rcases hidle with h | h <;> simp_all
  | ret h => rw [hclear] at h; cases h
  | pop h => rw [hclear] at h; cases h
  | load h => rw [hclear] at h; cases h
  | dropped _ _ h => rw [hclear] at h; cases h
  | ran _ _ h => rw [hclear] at h; cases h

private theorem mem_concat_of_ne {st st' : Stage} {done : List Stage} (hne : st' ≠ st)
    (h : st' ∈ done ++ [st]) : st' ∈ done := by
  rcases List.mem_append.mp h with h | h
  · exact h
  · exact absurd (List.mem_singleton.mp h) hne

/-- One process of the cycle that sees `clear`. -/
theorem inClear_step (i : Input ℕ) {st : Stage} {done : List Stage} {r : Logged code}
    (h : Alive (InClear entry done) r) :
    Alive (InClear entry (done ++ [st])) (logAct i st r) := by
  rcases h with h | ⟨hcalm, h⟩
  · exact .inl (logAct_aborted i st h)
  cases st with
  | decode =>
    have haside := decode_aside i r
    have hdeliver : followPath i.choice r.pipe.cur r.pipe.feed =
        ([], Position.first r.pipe.cur.newRIP) := if_pos h.clear
    have hdd : (logAct i .decode r).pipe.core.ddUopQueue = r.pipe.core.ddUopQueue ++ [] :=
      congrArg (r.pipe.core.ddUopQueue ++ ·) (congrArg Prod.fst hdeliver)
    refine .inr ⟨haside.calm hcalm, h.clear, h.leaving.frame rfl rfl,
      fun _ ↦ congrArg Prod.snd hdeliver, fun hmem ↦ ?_, fun hmem ↦ ?_⟩
    · rw [hdd, h.dispatch (mem_concat_of_ne (by decide) hmem)]
      rfl
    · exact h.execute (mem_concat_of_ne (by decide) hmem)
  | dispatch =>
    have haside := dispatch_aside i r
    obtain ⟨hdd, hde⟩ := dispatch_clears hcalm.cur h.clear
      (Dispatch.work_outcome r.pipe.cur r.pipe.core)
    refine .inr ⟨haside.calm hcalm, h.clear, h.leaving.frame haside.events haside.ex,
      fun hmem ↦ h.decode (mem_concat_of_ne (by decide) hmem), fun _ ↦ hdd, fun hmem ↦ ?_⟩
    obtain ⟨hempty, hclear⟩ := h.execute (mem_concat_of_ne (by decide) hmem)
    exact ⟨hde.trans hempty, haside.clear.trans hclear⟩
  | execute =>
    -- the queue is emptied before the front is looked at, so nothing is run
    obtain ⟨ready, hran, hcore⟩ := execute_clears hcalm.cur h.clear
      (Execute.work_outcome i.cycle r.pipe.cur r.pipe.core)
    have hevents := executed_events_of_not r (c := { Execute.start r.pipe.core with
      nxt.ewOutReady := ready, nxt.clear := false, deUopQueue := [] }) rfl none
    rw [Option.toList_none, List.map_nil, List.append_nil] at hevents
    rw [logAct_execute, hran, hcore]
    exact .inr ⟨⟨hcalm.cur, hcalm.nxt, hcalm.ripChanged⟩, h.clear, h.leaving.frame hevents rfl,
      fun hmem ↦ h.decode (mem_concat_of_ne (by decide) hmem),
      fun hmem ↦ h.dispatch (mem_concat_of_ne (by decide) hmem), fun _ ↦ ⟨rfl, rfl⟩⟩
  | writeback =>
    have haside := writeback_aside i r
    obtain ⟨hde, hdd⟩ := writeback_queues i r
    refine .inr ⟨haside.calm hcalm, h.clear, h.leaving.frame haside.events haside.ex,
      fun hmem ↦ h.decode (mem_concat_of_ne (by decide) hmem), fun hmem ↦ ?_, fun hmem ↦ ?_⟩
    · exact hdd.trans (h.dispatch (mem_concat_of_ne (by decide) hmem))
    · obtain ⟨hempty, hclear⟩ := h.execute (mem_concat_of_ne (by decide) hmem)
      exact ⟨hde.trans hempty, haside.clear.trans hclear⟩

/-- At the end of the cycle that sees `clear` nothing of the old path is left, and the decoder
stands at the target. -/
private theorem running_of_inClear {done : List Stage} (hdone : ∀ st : Stage, st ∈ done)
    {r : Logged code} (h : InClear entry done r) :
    Running entry r (Position.first r.pipe.cur.newRIP) := by
  refine ⟨h.leaving.path, h.leaving.falls, h.leaving.state,
    .inr (.inl ⟨rfl, h.leaving.expectedAddr⟩), 0, ?_, h.decode (hdone _)⟩
  rw [(h.execute (hdone _)).1, h.dispatch (hdone _)]
  rfl

/-- **A whole cycle, in any order.** -/
theorem settled_cycle (c : Schedule.Cycle (Input ℕ) stages) {r : Logged code}
    (h : Alive (Settled entry) r) :
    Alive (Settled entry) (Schedule.cycle logAct logCommit c r) := by
  have hnodup : c.order.Nodup := c.perm.nodup_iff.mpr (by decide)
  have hall : ∀ st : Stage, st ∈ c.order := fun st ↦
    c.perm.mem_iff.mpr (by cases st <;> decide)
  have hdead : ∀ r : Logged code, r.pipe.core.aborted = true → Alive (Settled entry)
      (logCommit c.input r) := fun r h ↦ .inl h
  rw [Schedule.cycle]
  rcases h with h | ⟨hcalm, ⟨hcur, hclear, h⟩ | ⟨hcur, h⟩⟩
  -- a dead process, a cycle without `clear`, and the cycle that sees it
  · have hrun := Schedule.runOrder_induction (i := c.input) hnodup
      (Q := fun _ (r : Logged code) ↦ r.pipe.core.aborted = true) h
        fun _ st _ _ _ h ↦ logAct_aborted c.input st h
    exact hdead _ hrun
  · have hrun := Schedule.runOrder_induction (i := c.input) hnodup
      (Q := fun done ↦ Alive (InFlow entry done)) (.inr ⟨hcalm, hcur, .inl ⟨hclear, h⟩⟩)
      fun _ st _ _ hst h ↦ inFlow_step c.input hst h
    rcases hrun with hrun | ⟨hcalm, hcur, ⟨hclear, h⟩ | ⟨-, hclear, h⟩⟩
    · exact hdead _ hrun
    · exact .inr ⟨⟨hcalm.nxt, hcalm.nxt, hcalm.ripChanged⟩, .inl ⟨hclear, hclear,
        h.frame rfl rfl (fun _ hq ↦ hq) fun _ hne hq ↦ ⟨hne, hq⟩⟩⟩
    · exact .inr ⟨⟨hcalm.nxt, hcalm.nxt, hcalm.ripChanged⟩, .inr ⟨hclear, h.frame rfl rfl⟩⟩
  · have hrun := Schedule.runOrder_induction (i := c.input) hnodup
      (Q := fun done ↦ Alive (InClear entry done))
      (.inr ⟨hcalm, hcur, h, by simp, by simp, by simp⟩)
      fun _ st _ _ _ h ↦ inClear_step c.input h
    rcases hrun with hrun | ⟨hcalm, h⟩
    · exact hdead _ hrun
    · have hclear := (h.execute (hall _)).2
      have hrunning := running_of_inClear hall h
      have hflowing : Flowing entry (Schedule.runOrder logAct c.input c.order r) :=
        .inl ⟨_, hrunning⟩
      exact .inr ⟨⟨hcalm.nxt, hcalm.nxt, hcalm.ripChanged⟩, .inl ⟨hclear, hclear,
        hflowing.frame rfl rfl (fun _ hq ↦ hq) fun _ hne hq ↦ ⟨hne, hq⟩⟩⟩

/-- The log is that of the pipeline. -/
theorem logRun_pipe (cs : Cycles ℕ) (r : Logged code) :
    (logRun cs r).pipe = run followPath cs r.pipe :=
  Schedule.run_map (f := Logged.pipe) (fun _ _ _ ↦ rfl) (fun _ _ ↦ rfl) cs r

/-- **Squashing is exact.** In every run from reset, with the stages in any order in every cycle and
any number of uops of the fall-through path delivered in it, what `Execute` does is a path of the
program: it runs every uop of the path and no other, and after a taken transfer it goes on at its
target. No uop of the path is dropped, since the queues hold the next ones and the first of them
passes the filter. The one way out is the death of the host process in a trapping division or an
unknown system call. -/
theorem logRun_path (code : Program) (entry : Word) (regs : Gpr → Word) (eflags : Eflags) (m : Mem)
    (expectedAddr : Word) (op : Uop) (cs : Cycles ℕ) :
    let c := Core.boot regs eflags m (Execute.init expectedAddr op)
    let r : Logged code := logRun cs (Logged.start c entry)
    r.pipe.core.aborted = true ∨ ∃ p, Path code entry r.events p ∧ Stands r p := by
  intro c r
  have hstart : Alive (Settled entry) (Logged.start c entry : Logged code) := by
    refine .inr ⟨⟨rfl, rfl, rfl⟩, .inl ⟨rfl, rfl, .inl ⟨Position.first entry, .start, ?_, rfl,
      .inl ⟨rfl, rfl⟩, 0, rfl, rfl⟩⟩⟩
    intro op h
    cases h
  have hrun : Alive (Settled entry) r :=
    Schedule.run_invariant_of_cycle (fun c _ h ↦ settled_cycle c h) hstart cs
  rcases hrun with hdead | ⟨-, h⟩
  · exact .inl hdead
  · exact .inr h.exists_path

end Cse502.Pipeline
