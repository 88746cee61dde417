import Cse502.Library.Schedule
import Cse502.Model.Dispatch
import Cse502.Model.ExecuteCases
import Cse502.Model.Writeback

/-!
# The pipeline as a synchronous system

Decode, dispatch, execute and writeback as processes of a clocked system. In every cycle the
scheduler picks an order anew; the queues and the register file change at once, and the signals
written in a cycle are read in the next one.

Fetch and decode are seen through what they put in `dd_uop_queue`. Where the uops come from is a
parameter, `deliver`, with a state of its own and a choice made by the environment in every cycle,
so that one set of stages serves every kind of program.
-/

namespace Cse502.Pipeline

/-- The processes of the core. -/
inductive Stage
  | decode | dispatch | execute | writeback
  deriving DecidableEq, Repr

/-- Every process once. -/
def stages : List Stage := [.decode, .dispatch, .execute, .writeback]

/-- Two orders the later stages can run in. -/
theorem executeFirst_perm : [Stage.execute, .writeback, .dispatch, .decode].Perm stages := by
  decide

theorem writebackFirst_perm : [Stage.writeback, .execute, .dispatch, .decode].Perm stages := by
  decide

/-- The pipeline, with what is still to be delivered and the uops executed so far. -/
structure Pipe (F : Type*) where
  core : Core
  cur : Signals
  feed : F
  trace : List Uop

/-- What one cycle takes from outside: the choice of the decoder and the value of its `out_ready`,
the answer on the data port, and the inputs of `Execute`. -/
structure Input (D : Type*) where
  choice : D
  ddReady : Bool
  dReady : Bool
  dTagout : BitVec 32
  dData : Word
  cycle : CycleInput

variable {F D : Type*} (deliver : D → Signals → F → List Uop × F)

/-- The decoder puts uops in `dd_uop_queue`. -/
def decode (i : Input D) (p : Pipe F) : Pipe F :=
  let r := deliver i.choice p.cur p.feed
  { p with
    core := { p.core with
      ddUopQueue := p.core.ddUopQueue ++ r.1
      nxt.ddOutReady := i.ddReady }
    feed := r.2 }

/-- One process of one cycle. -/
def act (i : Input D) : Stage → Pipe F → Pipe F
  | .decode, p => decode deliver i p
  | .dispatch, p => { p with core := Dispatch.work p.cur p.core }
  | .execute, p =>
    { p with
      core := Execute.work i.cycle p.cur p.core
      trace := p.trace ++ (Execute.issued p.cur p.core).toList }
  | .writeback, p => { p with core := Writeback.work p.cur p.core }

/-- The end of a cycle: the signals take the values written, and the memory drives its own. -/
def commit (i : Input D) (p : Pipe F) : Pipe F :=
  { p with cur := { p.core.nxt with dReady := i.dReady, dTagout := i.dTagout, dData := i.dData } }

/-- A schedule of cycles. -/
abbrev Cycles (D : Type*) := List (Schedule.Cycle (Input D) stages)

/-- A run of the pipeline. -/
def run (cs : Cycles D) (p : Pipe F) : Pipe F := Schedule.run (act deliver) commit cs p

/-- The pipeline after reset, with everything still to be delivered. -/
def Pipe.start (c : Core) (feed : F) : Pipe F := ⟨c, Signals.zero, feed, []⟩

end Cse502.Pipeline
