import Cse502.Library.DirectMapped
import Cse502.Warmup.CacheProject

/-!
# The stages of a request

A request that is accepted drives the SRAMs in the next cycle and is looked at again in the one
after. Inserts, reads and misses are answered then; a write or update that hits drives the SRAMs
once more and is answered two cycles later. Each stage is described by the values of the members and
signals in it, and each lemma takes one stage to the next, whatever the inputs: outside the idle
stage the port is unavailable, and the inputs are not looked at.

Both sets are bound to the same signals, so they stay copies of each other, and the lines of the
first are all there is.
-/

namespace Cse502.Warmup

open DirectMapped (Line Op)

/-! ## Requests -/

/-- The requests of the four kinds. -/
inductive Request
  | insert (addr : Addr) (state : State) (data : Block)
  | read (addr : Addr)
  | write (addr : Addr) (state : State) (data : Block)
  | update (addr : Addr) (state : State)

/-- The request the inputs make, if any. -/
def Input.request (inp : Input) : Option Request :=
  if !inp.ena then none
  else if inp.isInsert && inp.hasData && inp.updateState then
    some (.insert inp.addr inp.newState inp.data)
  else if inp.needsData then some (.read inp.addr)
  else if inp.hasData && inp.updateState then some (.write inp.addr inp.newState inp.data)
  else if inp.updateState then some (.update inp.addr inp.newState)
  else none

namespace Request

/-- `in_addr`. -/
def addr : Request → Addr
  | insert a _ _ | read a | write a _ _ | update a _ => a

/-- What the request is to the storage. -/
def op : Request → Op Index Addr State Block
  | insert a s d => .insert (indexOf a) (tagOf a) s d
  | read a => .read (indexOf a) (tagOf a)
  | write a s d => .write (indexOf a) (tagOf a) s d
  | update a s => .update (indexOf a) (tagOf a) s

/-- `operation` while the request is served. -/
def operation : Request → Operation
  | insert _ _ _ => .insert
  | read _ => .read
  | write _ _ _ => .write
  | update _ _ => .update

/-- `opstate` when the request is accepted. -/
def opstate : Request → OpState
  | insert _ _ _ | read _ => .none
  | write _ _ _ | update _ _ => .reading

/-- The members that keep the payload. -/
def Kept (c : Cache) : Request → Prop
  | insert _ _ _ | read _ => True
  | write _ s d => c.newstate = s ∧ c.newdata = d
  | update _ s => c.newstate = s

end Request

/-- The lines of the first set. -/
def System.lines (s : System) : Index → Line Addr State Block :=
  fun i ↦ ⟨s.set1.tag.data i, s.set1.state.data i, s.set1.data.data i⟩

/-- What `temptag` is compared with: the tag read out of either set. -/
def System.TagMatches (s : System) (a : Addr) : Prop :=
  s.cache.nxt.dout1.tag = tagOf a ∨ s.cache.nxt.dout2.tag = tagOf a

/-! ## Ports -/

namespace SramPort

variable {α : Type} {k : ℕ}

/-- A port that does nothing. -/
structure Off (p : SramPort α k) : Prop where
  ena : p.ena = false
  we : p.we = false

/-- A port that reads a row. -/
structure Reads (p : SramPort α k) (i : BitVec k) : Prop where
  ena : p.ena = true
  we : p.we = false
  addr : p.addr = i

/-- A port that writes a row. -/
structure Writes (p : SramPort α k) (i : BitVec k) (d : α) : Prop where
  ena : p.ena = true
  we : p.we = true
  addr : p.addr = i
  din : p.din = d

variable {p : SramPort α k} {s : Sram α k} {i : BitVec k} {d : α}

theorem Off.data (h : p.Off) : (s.work p).1.data = s.data := by
  rw [Sram.work_data, h.ena, h.we]
  rfl

theorem Reads.data (h : p.Reads i) : (s.work p).1.data = s.data := by
  rw [Sram.work_data, h.ena, h.we]
  rfl

theorem Writes.data (h : p.Writes i d) :
    (s.work p).1.data = Function.update s.data i d := by
  rw [Sram.work_data, h.ena, h.we, h.addr, h.din]
  rfl

theorem Reads.dout (h : p.Reads i) (hk : Sram.delay k = 1) (hptr : s.pipePtr = 0) :
    (s.work p).2 = s.data i := by
  rw [Sram.work_dout p s hk hptr h.ena, h.data, h.addr]

theorem Writes.dout (h : p.Writes i d) (hk : Sram.delay k = 1) (hptr : s.pipePtr = 0) :
    (s.work p).2 = d := by
  rw [Sram.work_dout p s hk hptr h.ena, h.data, h.addr, Function.update_self]

end SramPort

/-! ## What holds in every cycle -/

/-- The sets are copies of each other, and the rings are at their only entry. -/
structure System.Twin (s : System) : Prop where
  set2 : s.set2 = s.set1
  dout2 : s.cache.nxt.dout2 = s.cache.nxt.dout1
  dataPtr : s.set1.data.pipePtr = 0
  statePtr : s.set1.state.pipePtr = 0
  tagPtr : s.set1.tag.pipePtr = 0

theorem System.Twin.cycle {s : System} (h : s.Twin) (inp : Input) : (s.cycle inp).Twin := by
  have hset : s.set2.work s.cache.nxt = s.set1.work s.cache.nxt := by rw [h.set2]
  refine ⟨congrArg Prod.fst hset, congrArg Prod.snd hset, ?_, ?_, ?_⟩
  · exact Sram.work_pipePtr _ _ rfl
  · exact Sram.work_pipePtr _ _ rfl
  · exact Sram.work_pipePtr _ _ rfl

theorem System.twin_run (inputs : ℕ → Input) (n : ℕ) : (System.run inputs n).Twin := by
  induction n with
  | zero => exact ⟨rfl, rfl, rfl, rfl, rfl⟩
  | succ n ih => exact ih.cycle (inputs n)

/-! ## The stages -/

/-- No request is served. -/
structure Cache.Idle (c : Cache) : Prop where
  portAvailable : c.nxt.portAvailable = true
  outReady : c.nxt.outReady = c.deassertoutput
  waitdelay : c.waitdelay = 0
  operation : c.operation = .none
  data : c.nxt.data.Off
  state : c.nxt.state.Off
  tag : c.nxt.tag.Off

/-- The outputs answer a request with a state. -/
structure Cache.Answers (c : Cache) (r : Request) (state : State) : Prop where
  outReady : c.nxt.outReady = true
  outToken : c.nxt.outToken = r.addr
  outState : c.nxt.outState = state

/-- A request is served, in a phase of the operation and with a number of cycles to wait. -/
structure Cache.Serving (c : Cache) (r : Request) (opstate : OpState) (wait : ℕ) : Prop where
  portAvailable : c.nxt.portAvailable = false
  outReady : c.nxt.outReady = false
  deassertoutput : c.deassertoutput = false
  waitdelay : c.waitdelay = wait
  operation : c.operation = r.operation
  opstate : c.opstate = opstate
  servaddr : c.servaddr = r.addr
  kept : r.Kept c

/-- The ports in the first phase: an insert writes, a read reads, and a write or update reads the
tag alone. -/
def Request.Drives (sig : Signals) : Request → Prop
  | .insert a s d => sig.data.Writes (indexOf a) d ∧ sig.state.Writes (indexOf a) s ∧
      sig.tag.Writes (indexOf a) (tagOf a)
  | .read a => sig.data.Reads (indexOf a) ∧ sig.state.Reads (indexOf a) ∧ sig.tag.Reads (indexOf a)
  | .write a _ _ | .update a _ => sig.data.Off ∧ sig.state.Off ∧ sig.tag.Reads (indexOf a)

/-- The ports in the second phase of a write or update. -/
def Request.Rewrites (sig : Signals) : Request → Prop
  | .write a s d => sig.data.Writes (indexOf a) d ∧ sig.state.Writes (indexOf a) s ∧ sig.tag.Off
  | .update a s => sig.data.Off ∧ sig.state.Writes (indexOf a) s ∧ sig.tag.Off
  | .insert _ _ _ | .read _ => False

/-! ## The SRAMs in a stage -/

section Lines

variable {s : System} (inp : Input)

/-- Nothing is stored unless a write enable is up. -/
theorem System.lines_cycle (hdata : s.cache.nxt.data.we = false)
    (hstate : s.cache.nxt.state.we = false) (htag : s.cache.nxt.tag.we = false) :
    (s.cycle inp).lines = s.lines := by
  have hwork : ∀ {α : Type} (p : SramPort α 4) (m : Sram α 4), p.we = false →
      (m.work p).1.data = m.data := by
    intro α p m h
    rw [Sram.work_data, h, Bool.and_false, if_neg Bool.false_ne_true]
  funext i
  change (⟨(s.set1.tag.work _).1.data i, (s.set1.state.work _).1.data i,
    (s.set1.data.work _).1.data i⟩ : Line Addr State Block) = _
  rw [hwork _ _ hdata, hwork _ _ hstate, hwork _ _ htag]
  rfl

/-- A cycle in which the state is written, and the tag or the data with it or not. -/
theorem System.lines_cycle_write {a : Addr} {st : State} {t : Addr} {d : Block}
    (hstate : s.cache.nxt.state.Writes (indexOf a) st)
    (htag : s.cache.nxt.tag.Writes (indexOf a) t ∨
      (s.cache.nxt.tag.Off ∧ (s.lines (indexOf a)).tag = t))
    (hdata : s.cache.nxt.data.Writes (indexOf a) d ∨
      (s.cache.nxt.data.Off ∧ (s.lines (indexOf a)).data = d)) :
    (s.cycle inp).lines = Function.update s.lines (indexOf a) ⟨t, st, d⟩ := by
  have htag' : (s.set1.tag.work s.cache.nxt.tag).1.data =
      Function.update s.set1.tag.data (indexOf a) t := by
    rcases htag with h | ⟨h, ht⟩
    · exact h.data
    · rw [h.data, ← ht]
      exact (Function.update_eq_self _ _).symm
  have hdata' : (s.set1.data.work s.cache.nxt.data).1.data =
      Function.update s.set1.data.data (indexOf a) d := by
    rcases hdata with h | ⟨h, hd⟩
    · exact h.data
    · rw [h.data, ← hd]
      exact (Function.update_eq_self _ _).symm
  funext i
  change (⟨(s.set1.tag.work _).1.data i, (s.set1.state.work _).1.data i,
    (s.set1.data.work _).1.data i⟩ : Line Addr State Block) = _
  rw [htag', hdata', hstate.data]
  by_cases hi : i = indexOf a
  · rw [hi, Function.update_self, Function.update_self, Function.update_self, Function.update_self]
  · rw [Function.update_of_ne hi, Function.update_of_ne hi, Function.update_of_ne hi,
      Function.update_of_ne hi]
    rfl

end Lines

/-! ## What the SRAMs drive does not matter to the stages -/

/-- The cache at the end of a cycle, with the signals of the SRAMs. -/
def Cache.driven (c : Cache) (dout1 dout2 : Dout) : Cache :=
  { c with nxt.dout1 := dout1, nxt.dout2 := dout2 }

section Driven

variable {c : Cache} {r : Request} (dout1 dout2 : Dout)

theorem Cache.Idle.driven (h : c.Idle) : (c.driven dout1 dout2).Idle :=
  ⟨h.portAvailable, h.outReady, h.waitdelay, h.operation, h.data, h.state, h.tag⟩

theorem Cache.Serving.driven {opstate : OpState} {wait : ℕ} (h : c.Serving r opstate wait) :
    (c.driven dout1 dout2).Serving r opstate wait :=
  ⟨h.portAvailable, h.outReady, h.deassertoutput, h.waitdelay, h.operation, h.opstate, h.servaddr,
    h.kept⟩

theorem Cache.Answers.driven {state : State} (h : c.Answers r state) :
    (c.driven dout1 dout2).Answers r state := ⟨h.outReady, h.outToken, h.outState⟩

end Driven

/-! ## Idle -/

namespace Cache

/-- The cache without an answer, its port available. -/
def cleared (c : Cache) : Cache :=
  { c with nxt.outReady := false, deassertoutput := false, nxt.portAvailable := true }

/-- An idle cache takes its answer back and looks at the inputs. -/
theorem Idle.work {c : Cache} (h : c.Idle) (inp : Input) :
    c.work inp c.nxt = if inp.ena then c.cleared.accept inp else c.cleared := by
  obtain ⟨servaddr, newstate, temptag, newdata, waitdelay, deassertoutput, operation, opstate, set,
    ⟨portAvailable, data, state, tag, dout1, dout2, outReady, outAddr, outData, outToken,
      outState⟩⟩ := c
  obtain ⟨hport, hready, hwait, hop, -, -, -⟩ := h
  dsimp only at hport hready hwait hop
  subst hport hready hwait hop
  obtain ⟨ena, addr, isInsert, hasData, dataIn, needsData, updateState, newState⟩ := inp
  cases outReady <;> cases ena <;> rfl

/-- Without a request nothing is accepted. -/
theorem accept_of_none {inp : Input} (hreq : inp.request = none) (hena : inp.ena = true)
    (c : Cache) : c.accept inp = c := by
  rw [Input.request, hena, Bool.not_true, if_neg Bool.false_ne_true] at hreq
  rw [accept]
  split_ifs at hreq ⊢
  rfl

/-- A request that is accepted is served, and drives the SRAMs. -/
theorem accept_serving {inp : Input} {r : Request} (hreq : inp.request = some r) (c : Cache)
    (hdeassert : c.deassertoutput = false) (hdata : c.nxt.data.Off) (hstate : c.nxt.state.Off)
    (htag : c.nxt.tag.Off) :
    (c.accept inp).Serving r r.opstate 1 ∧ r.Drives (c.accept inp).nxt := by
  rw [Input.request] at hreq
  rw [accept]
  split_ifs at hreq ⊢ <;> obtain rfl := Option.some.inj hreq
  · exact ⟨⟨rfl, rfl, hdeassert, rfl, rfl, rfl, rfl, trivial⟩, ⟨rfl, rfl, rfl, rfl⟩,
      ⟨rfl, rfl, rfl, rfl⟩, ⟨rfl, rfl, rfl, rfl⟩⟩
  · exact ⟨⟨rfl, rfl, hdeassert, rfl, rfl, rfl, rfl, trivial⟩, ⟨rfl, hdata.we, rfl⟩,
      ⟨rfl, hstate.we, rfl⟩, ⟨rfl, htag.we, rfl⟩⟩
  · exact ⟨⟨rfl, rfl, hdeassert, rfl, rfl, rfl, rfl, rfl, rfl⟩, hdata, hstate, ⟨rfl, htag.we, rfl⟩⟩
  · exact ⟨⟨rfl, rfl, hdeassert, rfl, rfl, rfl, rfl, rfl⟩, hdata, hstate, ⟨rfl, htag.we, rfl⟩⟩

/-- An idle cache without a request stays idle. -/
theorem Idle.quiet {c : Cache} (h : c.Idle) {inp : Input} (hreq : inp.request = none) :
    (c.work inp c.nxt).Idle ∧ (c.work inp c.nxt).nxt.outReady = false := by
  have hwork : c.work inp c.nxt = c.cleared := by
    rw [h.work inp]
    split_ifs with hena
    · exact accept_of_none hreq hena _
    · rfl
  rw [hwork]
  exact ⟨⟨rfl, rfl, h.waitdelay, h.operation, h.data, h.state, h.tag⟩, rfl⟩

/-- An idle cache accepts a request. -/
theorem Idle.accept {c : Cache} (h : c.Idle) {inp : Input} {r : Request}
    (hreq : inp.request = some r) :
    (c.work inp c.nxt).Serving r r.opstate 1 ∧ r.Drives (c.work inp c.nxt).nxt := by
  have hena : inp.ena = true := by
    by_contra hena
    rw [Input.request, Bool.eq_false_iff.mpr hena] at hreq
    exact Option.noConfusion rfl (heq_of_eq hreq)
  rw [h.work inp, if_pos hena]
  exact accept_serving hreq c.cleared rfl h.data h.state h.tag

end Cache

/-! ## Served -/

namespace Cache

variable {c : Cache} {r : Request} {opstate : OpState}

/-- A cycle of waiting. -/
theorem Serving.wait (h : c.Serving r opstate 1) (inp : Input) :
    (c.work inp c.nxt).Serving r opstate 0 ∧ (c.work inp c.nxt).nxt.data = c.nxt.data ∧
      (c.work inp c.nxt).nxt.state = c.nxt.state ∧ (c.work inp c.nxt).nxt.tag = c.nxt.tag := by
  have hdeassert : c.deassert = c := by
    rw [deassert, if_neg (by rw [h.deassertoutput]; exact Bool.false_ne_true)]
  have hwait : 0 < c.waitdelay := by rw [h.waitdelay]; exact Nat.one_pos
  rw [work, hdeassert, if_pos hwait]
  refine ⟨⟨rfl, rfl, h.deassertoutput, ?_, h.operation, h.opstate, h.servaddr, h.kept⟩,
    rfl, rfl, rfl⟩
  exact congrArg (· - 1) h.waitdelay

/-- The cycle after: the inputs are not looked at. -/
theorem Serving.work (h : c.Serving r opstate 0) (inp : Input) :
    c.work inp c.nxt = c.finish c.nxt := by
  have hdeassert : c.deassert = c := by
    rw [deassert, if_neg (by rw [h.deassertoutput]; exact Bool.false_ne_true)]
  have hwait : ¬0 < c.waitdelay := by rw [h.waitdelay]; exact Nat.lt_irrefl 0
  rw [Cache.work, hdeassert, if_neg hwait, h.portAvailable, Bool.and_false]
  rfl

theorem finish_of_insert {cur : Signals} (h : c.operation = .insert) :
    c.finish cur = { c with nxt.portAvailable := true }.finishInsert cur := by
  rw [finish]
  split <;> first | rfl | exact absurd (h.symm.trans ‹_›) Operation.noConfusion

theorem finish_of_read {cur : Signals} (h : c.operation = .read) :
    c.finish cur = { c with nxt.portAvailable := true }.finishRead cur := by
  rw [finish]
  split <;> first | rfl | exact absurd (h.symm.trans ‹_›) Operation.noConfusion

theorem finish_of_write {cur : Signals} (h : c.operation = .write) :
    c.finish cur = { c with nxt.portAvailable := true }.finishWrite cur := by
  rw [finish]
  split <;> first | rfl | exact absurd (h.symm.trans ‹_›) Operation.noConfusion

theorem finish_of_update {cur : Signals} (h : c.operation = .update) :
    c.finish cur = { c with nxt.portAvailable := true }.finishUpdate cur := by
  rw [finish]
  split <;> first | rfl | exact absurd (h.symm.trans ‹_›) Operation.noConfusion

/-! ### The answers -/

variable (cur : Signals) (c)

/-- An insert is answered. -/
theorem finishInsert_spec (hdout : cur.dout2 = cur.dout1) (hport : c.nxt.portAvailable = true)
    (hservaddr : c.servaddr = r.addr) :
    (c.finishInsert cur).Idle ∧ (c.finishInsert cur).Answers r cur.dout1.state := by
  refine ⟨⟨hport, rfl, rfl, rfl, ⟨rfl, rfl⟩, ⟨rfl, rfl⟩, ⟨rfl, rfl⟩⟩, rfl, hservaddr, ?_⟩
  have hselected : c.selected cur = cur.dout1 := by rw [selected, hdout, ite_self]
  exact congrArg Dout.state hselected

/-- A read is answered: on a hit with what was read. -/
theorem finishRead_spec (hdout : cur.dout2 = cur.dout1) (hport : c.nxt.portAvailable = true)
    (hservaddr : c.servaddr = r.addr) (hdata : c.nxt.data.we = false)
    (hstate : c.nxt.state.we = false) (htag : c.nxt.tag.we = false) :
    (c.finishRead cur).Idle ∧
      if cur.dout1.tag = tagOf r.addr then
        (c.finishRead cur).Answers r cur.dout1.state ∧
          (c.finishRead cur).nxt.outData = cur.dout1.data
      else (c.finishRead cur).Answers r 0xff := by
  have h1 : ((c.readTags cur).temptag false = tagOf (c.readTags cur).servaddr) =
      (cur.dout1.tag = tagOf r.addr) := by rw [← hservaddr]; rfl
  have h2 : ((c.readTags cur).temptag true = tagOf (c.readTags cur).servaddr) =
      (cur.dout1.tag = tagOf r.addr) := by rw [← hservaddr, ← hdout]; rfl
  rw [finishRead]
  simp only [h1, h2]
  split_ifs with hhit
  · exact ⟨⟨hport, rfl, rfl, rfl, ⟨rfl, hdata⟩, ⟨rfl, hstate⟩, ⟨rfl, htag⟩⟩, ⟨rfl, hservaddr, rfl⟩,
      rfl⟩
  · exact ⟨⟨hport, rfl, rfl, rfl, ⟨rfl, hdata⟩, ⟨rfl, hstate⟩, ⟨rfl, htag⟩⟩, rfl, hservaddr, rfl⟩

/-- The cache in the first phase of a write or update, with the tags it has read. -/
def probed : Cache :=
  ({ c.tagOff with nxt.outReady := false, deassertoutput := false } : Cache).readTags cur

/-- Both comparisons of a probe are with the tag read out of the first set. -/
theorem probed_matches {a : Addr} (hdout : cur.dout2 = cur.dout1) (hservaddr : c.servaddr = a) :
    ((c.probed cur).temptag false = tagOf (c.probed cur).servaddr ↔ cur.dout1.tag = tagOf a) ∧
      ((c.probed cur).temptag true = tagOf (c.probed cur).servaddr ↔ cur.dout1.tag = tagOf a) := by
  subst hservaddr
  refine ⟨Iff.rfl, ?_⟩
  change cur.dout2.tag = _ ↔ _
  rw [hdout]
  rfl

/-- A write probe that hits goes on to write, and one that misses is answered. -/
theorem finishWrite_reading_spec {a : Addr} {st : State} {d : Block}
    (hdout : cur.dout2 = cur.dout1) (hport : c.nxt.portAvailable = true)
    (hop : c.operation = .write) (hservaddr : c.servaddr = (Request.write a st d).addr)
    (hkept : c.newstate = st ∧ c.newdata = d) (hopstate : c.opstate = .reading)
    (hdata : c.nxt.data.Off) (hstate : c.nxt.state.Off) :
    if cur.dout1.tag = tagOf (Request.write a st d).addr then
      (c.finishWrite cur).Serving (.write a st d) .updating 1 ∧
        Request.Rewrites (c.finishWrite cur).nxt (.write a st d)
    else (c.finishWrite cur).Idle ∧ (c.finishWrite cur).Answers (.write a st d) 0xff := by
  obtain ⟨h1, h2⟩ := c.probed_matches cur hdout hservaddr
  have hfinish : c.finishWrite cur =
      if (c.probed cur).temptag false = tagOf (c.probed cur).servaddr then
        (c.probed cur).toggle.writeState.writeData.again
      else if (c.probed cur).temptag true = tagOf (c.probed cur).servaddr then
        (c.probed cur).toggle.writeState.writeData.again
      else ((c.probed cur).answer 0xff ((c.probed cur).temptag (c.probed cur).set)).done := by
    rw [finishWrite, hopstate]
    rfl
  rw [hfinish]
  simp only [h1, h2]
  split_ifs with hhit
  · exact ⟨⟨rfl, rfl, rfl, rfl, hop, rfl, hservaddr, hkept⟩,
      ⟨rfl, rfl, congrArg indexOf hservaddr, hkept.2⟩,
      ⟨rfl, rfl, congrArg indexOf hservaddr, hkept.1⟩, ⟨rfl, rfl⟩⟩
  · exact ⟨⟨hport, rfl, rfl, rfl, hdata, hstate, ⟨rfl, rfl⟩⟩, rfl, hservaddr, rfl⟩

/-- An update that hits goes on to write, and one that misses is answered. -/
theorem finishUpdate_reading_spec {a : Addr} {st : State}
    (hdout : cur.dout2 = cur.dout1) (hport : c.nxt.portAvailable = true)
    (hop : c.operation = .update) (hservaddr : c.servaddr = (Request.update a st).addr)
    (hkept : c.newstate = st) (hopstate : c.opstate = .reading)
    (hdata : c.nxt.data.Off) (hstate : c.nxt.state.Off) :
    if cur.dout1.tag = tagOf (Request.update a st).addr then
      (c.finishUpdate cur).Serving (.update a st) .updating 1 ∧
        Request.Rewrites (c.finishUpdate cur).nxt (.update a st)
    else (c.finishUpdate cur).Idle ∧ (c.finishUpdate cur).Answers (.update a st) 0xff := by
  obtain ⟨h1, h2⟩ := c.probed_matches cur hdout hservaddr
  have hfinish : c.finishUpdate cur =
      if (c.probed cur).temptag false = tagOf (c.probed cur).servaddr then
        (c.probed cur).writeState.again
      else if (c.probed cur).temptag true = tagOf (c.probed cur).servaddr then
        (c.probed cur).writeState.again
      else ((c.probed cur).answer 0xff ((c.probed cur).temptag (c.probed cur).set)).done := by
    rw [finishUpdate, hopstate]
    rfl
  rw [hfinish]
  simp only [h1, h2]
  split_ifs with hhit
  · exact ⟨⟨rfl, rfl, rfl, rfl, hop, rfl, hservaddr, hkept⟩, hdata,
      ⟨rfl, rfl, congrArg indexOf hservaddr, hkept⟩, ⟨rfl, rfl⟩⟩
  · exact ⟨⟨hport, rfl, rfl, rfl, hdata, hstate, ⟨rfl, rfl⟩⟩, rfl, hservaddr, rfl⟩

/-- A write that hit is answered. -/
theorem finishWrite_updating_spec (hdout : cur.dout2 = cur.dout1)
    (hport : c.nxt.portAvailable = true) (hservaddr : c.servaddr = r.addr)
    (hopstate : c.opstate = .updating) (htag : c.nxt.tag.Off) :
    (c.finishWrite cur).Idle ∧ (c.finishWrite cur).Answers r cur.dout1.state := by
  have hselected : c.selected cur = cur.dout1 := by rw [selected, hdout, ite_self]
  rw [finishWrite, hopstate]
  exact ⟨⟨hport, rfl, rfl, rfl, ⟨rfl, rfl⟩, ⟨rfl, rfl⟩, htag⟩, rfl, hservaddr,
    congrArg Dout.state hselected⟩

/-- An update that hit is answered. -/
theorem finishUpdate_updating_spec (hdout : cur.dout2 = cur.dout1)
    (hport : c.nxt.portAvailable = true) (hservaddr : c.servaddr = r.addr)
    (hopstate : c.opstate = .updating) (hdata : c.nxt.data.Off) (htag : c.nxt.tag.Off) :
    (c.finishUpdate cur).Idle ∧ (c.finishUpdate cur).Answers r cur.dout1.state := by
  have hselected : c.selected cur = cur.dout1 := by rw [selected, hdout, ite_self]
  rw [finishUpdate, hopstate]
  exact ⟨⟨hport, rfl, rfl, rfl, hdata, ⟨rfl, rfl⟩, htag⟩, rfl, hservaddr,
    congrArg Dout.state hselected⟩

end Cache

end Cse502.Warmup
