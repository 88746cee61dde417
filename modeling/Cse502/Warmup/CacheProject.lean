import Cse502.Warmup.Sram

/-!
# The warm-up cache

`cache.h` of the warm-up project: `CacheProject`, with one port. A request is a number of flags and
an address; its operation goes through the state machine of `work`, which drives the SRAMs of both
sets over the same signals and answers some cycles later.

A signal written in one cycle is read in the next one. `nxt` holds the signal values written so
far; at the end of a cycle they become the current ones, so the last write wins. The SRAMs and the
cache share nothing but signals, so their order within a cycle does not matter.
-/

namespace Cse502.Warmup

/-! ## Data -/

/-- `sc_uint<64>`, an address or a tag. -/
abbrev Addr := BitVec 64

/-- `sc_uint<depthLog2>`, with `depthLog2 = 4`. -/
abbrev Index := BitVec 4

/-- `sc_bv<8*block_size>`, with `block_size = 64`. -/
abbrev Block := BitVec 512

/-- The `state` of a block. -/
abbrev State := BitVec 8

/-- `(addr & 0x3C0) >> 6`, assigned to an `sc_uint<depthLog2>`. -/
def indexOf (addr : Addr) : Index := ((addr &&& 0x3C0) >>> 6).setWidth 4

/-- `addr & ~0x3FF`. -/
def tagOf (addr : Addr) : Addr := addr &&& ~~~0x3FF

/-- The inputs `in_ena`, `in_addr`, `in_is_insert`, `in_has_data`, `in_data`, `in_needs_data`,
`in_update_state` and `in_new_state`. -/
structure Input where
  ena : Bool
  addr : Addr
  isInsert : Bool
  hasData : Bool
  data : Block
  needsData : Bool
  updateState : Bool
  newState : State

/-- `operation`, which the source numbers from 0 to 4. -/
inductive Operation
  | none | insert | read | write | update
  deriving DecidableEq, Repr

/-- `opstate`: 1 for reading, 2 for updating. -/
inductive OpState
  | none | reading | updating
  deriving DecidableEq, Repr

/-- The signals the SRAMs of one set drive. -/
structure Dout where
  data : Block
  state : State
  tag : Addr

/-- The signals of the module: `port_available`, those bound to the SRAMs, and the outputs. -/
structure Signals where
  portAvailable : Bool
  data : SramPort Block 4
  state : SramPort State 4
  tag : SramPort Addr 4
  dout1 : Dout
  dout2 : Dout
  outReady : Bool
  outAddr : Addr
  outData : Block
  outToken : Addr
  outState : State

/-- The data members of `CacheProject`, and the signal values written so far. `set` is 0 or 1. -/
structure Cache where
  servaddr : Addr
  newstate : State
  temptag : Bool → Addr
  newdata : Block
  waitdelay : ℕ
  deassertoutput : Bool
  operation : Operation
  opstate : OpState
  set : Bool
  nxt : Signals

/-- The SRAMs of one set. -/
structure Way where
  data : Sram Block 4
  state : Sram State 4
  tag : Sram Addr 4

/-- The module with its six SRAMs. -/
structure System where
  cache : Cache
  set1 : Way
  set2 : Way

/-! ## Reset -/

/-- Storage is zero at the start, and the constructor makes the port available. -/
def Cache.init : Cache where
  servaddr := 0
  newstate := 0
  temptag := fun _ ↦ 0
  newdata := 0
  waitdelay := 0
  deassertoutput := false
  operation := .none
  opstate := .none
  set := false
  nxt :=
    { portAvailable := true
      data := ⟨false, false, 0, 0⟩
      state := ⟨false, false, 0, 0⟩
      tag := ⟨false, false, 0, 0⟩
      dout1 := ⟨0, 0, 0⟩
      dout2 := ⟨0, 0, 0⟩
      outReady := false
      outAddr := 0
      outData := 0
      outToken := 0
      outState := 0 }

/-- Three arrays of zeros. -/
def Way.init : Way := ⟨Sram.init 0, Sram.init 0, Sram.init 0⟩

/-- The system at the start. -/
def System.init : System := ⟨Cache.init, Way.init, Way.init⟩

/-! ## `CacheProject::work` -/

namespace Cache

/-- The delay of every SRAM. -/
def sramDelay : ℕ := Sram.delay 4

/-- The signals of the set that `set` selects. -/
def selected (cur : Signals) (c : Cache) : Dout := if !c.set then cur.dout1 else cur.dout2

/-- The assignments of every answer. -/
def answer (state : State) (addr : Addr) (c : Cache) : Cache :=
  { c with
    nxt.outReady := true
    deassertoutput := true
    nxt.outState := state
    nxt.outToken := c.servaddr
    nxt.outAddr := addr }

/-- Back to no operation. -/
def done (c : Cache) : Cache := { c with opstate := .none, operation := .none, waitdelay := 0 }

/-- `temptag` takes the tags that were read. -/
def readTags (cur : Signals) (c : Cache) : Cache :=
  { c with temptag := fun s ↦ if s then cur.dout2.tag else cur.dout1.tag }

/-- `set = (set + 1) % 2`. -/
def toggle (c : Cache) : Cache := { c with set := !c.set }

/-- The enables of the port of the states go down. -/
def stateOff (c : Cache) : Cache := { c with nxt.state.ena := false, nxt.state.we := false }

/-- The enables of the port of the data go down. -/
def dataOff (c : Cache) : Cache := { c with nxt.data.ena := false, nxt.data.we := false }

/-- The enables of the port of the tags go down. -/
def tagOff (c : Cache) : Cache := { c with nxt.tag.ena := false, nxt.tag.we := false }

/-- Write `newstate` to the row of the served address. -/
def writeState (c : Cache) : Cache :=
  { c with nxt.state := ⟨true, true, indexOf c.servaddr, c.newstate⟩ }

/-- Write `newdata` to the row of the served address. -/
def writeData (c : Cache) : Cache :=
  { c with nxt.data := ⟨true, true, indexOf c.servaddr, c.newdata⟩ }

/-- Wait for the second phase of a write or update. -/
def again (c : Cache) : Cache :=
  { c with opstate := .updating, waitdelay := sramDelay, nxt.portAvailable := false }

/-- `operation == 1`. -/
def finishInsert (cur : Signals) (c : Cache) : Cache :=
  let c := c.stateOff.dataOff.tagOff
  (c.answer (c.selected cur).state (c.temptag c.set)).done

/-- `operation == 2`. -/
def finishRead (cur : Signals) (c : Cache) : Cache :=
  let c := c.readTags cur
  let c :=
    if c.temptag false = tagOf c.servaddr then
      let c := c.toggle.answer cur.dout1.state (c.temptag false)
      { c with nxt.outData := cur.dout1.data }
    else if c.temptag true = tagOf c.servaddr then
      let c := c.toggle.answer cur.dout2.state (c.temptag true)
      { c with nxt.outData := cur.dout2.data }
    else
      let c := c.answer 0xff (c.temptag c.set)
      { c with nxt.outData := (c.selected cur).data }
  { c.done with nxt.data.ena := false, nxt.state.ena := false, nxt.tag.ena := false }

/-- `operation == 3`, the write probe. -/
def finishWrite (cur : Signals) (c : Cache) : Cache :=
  match c.opstate with
  | .none => c
  | .reading =>
    let c := { c.tagOff with nxt.outReady := false, deassertoutput := false }
    let c := c.readTags cur
    if c.temptag false = tagOf c.servaddr then c.toggle.writeState.writeData.again
    else if c.temptag true = tagOf c.servaddr then c.toggle.writeState.writeData.again
    else (c.answer 0xff (c.temptag c.set)).done
  | .updating =>
    let c := c.stateOff.dataOff
    (c.answer (c.selected cur).state (c.temptag c.set)).done

/-- `operation == 4`. -/
def finishUpdate (cur : Signals) (c : Cache) : Cache :=
  match c.opstate with
  | .none => c
  | .reading =>
    let c := { c.tagOff with nxt.outReady := false, deassertoutput := false }
    let c := c.readTags cur
    if c.temptag false = tagOf c.servaddr then c.writeState.again
    else if c.temptag true = tagOf c.servaddr then c.writeState.again
    else (c.answer 0xff (c.temptag c.set)).done
  | .updating =>
    let c := c.stateOff
    (c.answer (c.selected cur).state (c.temptag c.set)).done

/-- The code under `waitdelay == 0`. -/
def finish (cur : Signals) (c : Cache) : Cache :=
  let c := { c with nxt.portAvailable := true }
  match c.operation with
  | .none => c
  | .insert => c.finishInsert cur
  | .read => c.finishRead cur
  | .write => c.finishWrite cur
  | .update => c.finishUpdate cur

/-- The assignments of every accepted request. -/
def take (operation : Operation) (opstate : OpState) (inp : Input) (c : Cache) : Cache :=
  { c with
    operation := operation
    opstate := opstate
    waitdelay := sramDelay
    servaddr := inp.addr
    nxt.portAvailable := false
    nxt.outReady := false }

/-- `ena` and the address of the port of the tags. -/
def probeTag (addr : Addr) (c : Cache) : Cache :=
  { c with nxt.tag.ena := true, nxt.tag.addr := indexOf addr }

/-- Take a request: insert, read, write and update, told apart by their flags. -/
def accept (inp : Input) (c : Cache) : Cache :=
  if inp.isInsert && inp.hasData && inp.updateState then
    { c.take .insert .none inp with
      newstate := inp.newState
      newdata := inp.data
      nxt.data := ⟨true, true, indexOf inp.addr, inp.data⟩
      nxt.state := ⟨true, true, indexOf inp.addr, inp.newState⟩
      nxt.tag := ⟨true, true, indexOf inp.addr, tagOf inp.addr⟩ }
  else if inp.needsData then
    { (c.take .read .none inp).probeTag inp.addr with
      nxt.data.ena := true
      nxt.data.addr := indexOf inp.addr
      nxt.state.ena := true
      nxt.state.addr := indexOf inp.addr }
  else if inp.hasData && inp.updateState then
    { (c.take .write .reading inp).probeTag inp.addr with
      newstate := inp.newState
      newdata := inp.data }
  else if inp.updateState then
    { (c.take .update .reading inp).probeTag inp.addr with newstate := inp.newState }
  else c

/-- `out_ready` stays up for one cycle only. -/
def deassert (c : Cache) : Cache :=
  if c.deassertoutput then { c with nxt.outReady := false, deassertoutput := false } else c

/-- `CacheProject::work`. -/
def work (inp : Input) (cur : Signals) (c : Cache) : Cache :=
  let c := c.deassert
  if 0 < c.waitdelay then
    { c with waitdelay := c.waitdelay - 1, nxt.portAvailable := false, nxt.outReady := false }
  else
    let c := c.finish cur
    if inp.ena && cur.portAvailable then c.accept inp else c

end Cache

/-- The SRAMs of one set in one cycle. -/
def Way.work (cur : Signals) (w : Way) : Way × Dout :=
  let data := w.data.work cur.data
  let state := w.state.work cur.state
  let tag := w.tag.work cur.tag
  (⟨data.1, state.1, tag.1⟩, ⟨data.2, state.2, tag.2⟩)

/-- One clock cycle. -/
def System.cycle (inp : Input) (s : System) : System :=
  let cur := s.cache.nxt
  let set1 := s.set1.work cur
  let set2 := s.set2.work cur
  { cache := { s.cache.work inp cur with nxt.dout1 := set1.2, nxt.dout2 := set2.2 }
    set1 := set1.1
    set2 := set2.1 }

/-- The system after `n` cycles of an input history. -/
def System.run (inputs : ℕ → Input) : ℕ → System
  | 0 => .init
  | n + 1 => (System.run inputs n).cycle (inputs n)

end Cse502.Warmup
