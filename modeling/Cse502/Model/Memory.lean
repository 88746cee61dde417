import Cse502.Library.ByteMemory
import Cse502.Library.Merging
import Cse502.Model.Common

/-!
# Memory

`delaybucket.h`, `lruset.h` and `memory.cc`. A request is answered after a latency that the three
caches decide; the caches hold no data, and all words are read from and written to the guest memory
at once. Requests for an address that is waited for already are merged in the MSHRs.

The two sides differ only in the caches they look at, in what they read, and in the writes of the
data side. Times are in picoseconds. An `assert` that fails ends the host process, which is `none`.
-/

namespace Cse502

/-! ## `delaybucket` -/

/-- `delaybucket<T>`: what was added, with the time from which it can be taken out. -/
structure DelayBucket (α : Type*) where
  pq : List (ℕ × α)

namespace DelayBucket

variable {α : Type*}

/-- `delaybucket::add`. -/
def add (now : ℕ) (v : α) (delay : ℕ) (b : DelayBucket α) :
    DelayBucket α := ⟨(now + delay, v) :: b.pq⟩

/-- The entries that `pq.top()` can be. The comparison of the priority queue puts entries with equal
times in no order. -/
def tops (b : DelayBucket α) : List (ℕ × α) := b.pq.filter fun e ↦ b.pq.all fun e' ↦ e.1 ≤ e'.1

/-- `delaybucket::get`, where `pick` tells which of the earliest entries is on top. -/
def get [DecidableEq α] (now pick : ℕ) (b : DelayBucket α) : Option (α × DelayBucket α) :=
  match b.tops[pick % b.tops.length]? with
  | none => none
  | some top => if top.1 ≤ now then some (top.2, ⟨b.pq.erase top⟩) else none

end DelayBucket

/-! ## `lruset` -/

/-- `lruset<K,V>`: at most `capacity` keys, the one used least recently first. -/
structure LruSet (κ ν : Type*) where
  capacity : ℕ
  s : List (κ × ν)

namespace LruSet

variable {κ ν : Type*} [DecidableEq κ]

/-- `lruset::get`. -/
def get (k : κ) (promote : Bool) (c : LruSet κ ν) : Option ν × LruSet κ ν :=
  match c.s.find? fun e ↦ e.1 = k with
  | none => (none, c)
  | some e =>
    (some e.2, if promote then { c with s := c.s.filter (fun e ↦ e.1 ≠ k) ++ [e] } else c)

/-- The assignment through the reference that `get` returns. -/
def assign (k : κ) (v : ν) (c : LruSet κ ν) : LruSet κ ν :=
  { c with s := c.s.map fun e ↦ if e.1 = k then (k, v) else e }

/-- `lruset::put`, on a key that is not there: the victim, and the set. -/
def put (victim : κ × ν) (k : κ) (v : ν) (c : LruSet κ ν) : (κ × ν) × LruSet κ ν :=
  if c.s.length = c.capacity then (c.s.headD victim, { c with s := c.s.tail ++ [(k, v)] })
  else (victim, { c with s := c.s ++ [(k, v)] })

end LruSet

/-! ## `Memory` -/

/-- `enum dirty`. -/
inductive Dirty
  | clean | dirty
  deriving DecidableEq, Repr

/-- A tag and an address. -/
abbrev Response := BitVec 32 × Word

/-- The bucket and the MSHRs of one side. -/
structure Side where
  resp : DelayBucket Response
  mshr : Finmap fun _ : Word ↦ List (BitVec 32)

/-- The data members of `Memory`, less the pointer to the guest memory. -/
structure Memory where
  l1i : LruSet Word Dirty
  l1d : LruSet Word Dirty
  l2 : LruSet Word Dirty
  i : Side
  d : Side

/-- `i_op`, `i_tagin` and `i_addr` of one port. -/
structure InstRequest where
  op : MemOp
  tagin : BitVec 32
  addr : Word

/-- `d_op`, `d_tagin`, `d_addr` and `d_din` of one port. -/
structure DataRequest where
  op : MemOp
  tagin : BitVec 32
  addr : Word
  din : Word

/-- `ready`, and with it `tagout` and `data`, of one port. -/
abbrev Answer (width : ℕ) := Option (BitVec 32 × BitVec width)

/-- What one activation of `Memory::work` takes: the reset, the time, the requests on the ports, and
for each port which of several responses due at one time it gets. -/
structure MemoryInput (iPorts dPorts : ℕ) where
  reset : Bool
  now : ℕ
  iPick : Fin iPorts → ℕ
  dPick : Fin dPorts → ℕ
  iReq : Fin iPorts → InstRequest
  dReq : Fin dPorts → DataRequest

/-- What it leaves: the guest memory, the members, and the answers on the ports. In reset the ports
are not driven. -/
structure MemoryResult where
  mem : Mem
  memory : Memory
  iOut : List (Answer 128)
  dOut : List (Answer 64)

namespace Side

/-- Nothing asked yet. -/
def init : Side := ⟨⟨[]⟩, ∅⟩

/-- The part of a loop over the ports that answers: a response is taken out, and the requests that
waited behind one with its address are due at once. -/
def respond (now pick : ℕ) (s : Side) : Option (Response × Side) :=
  (s.resp.get now pick).map fun r ↦
    match s.mshr.lookup r.1.2 with
    | some tags =>
      (r.1, ⟨tags.foldl (fun b tag ↦ b.add now (tag, r.1.2) 0) r.2, s.mshr.erase r.1.2⟩)
    | none => (r.1, { s with resp := r.2 })

/-- A request for an address that is waited for. -/
def merge (tag : BitVec 32) (addr : Word) (tags : List (BitVec 32)) (s : Side) : Side :=
  { s with mshr := s.mshr.insert addr (tags ++ [tag]) }

/-- A request for another one. -/
def launch (now : ℕ) (tag : BitVec 32) (addr : Word) (latency : ℕ) (s : Side) : Side :=
  ⟨s.resp.add now (tag, addr) (latency * 1000), s.mshr.insert addr []⟩

end Side

namespace Memory

/-- `mem_size`. -/
def size : Word := 64 * 1024 * 1024

/-- The asserts on the address of a request. -/
def inRange (addr : Word) : Bool := (0xffff : Word).ult addr && addr.ult size

/-- `mem_i_read`: the first byte is the highest. -/
def memIRead (mem : Mem) (addr : Word) : Option (BitVec 128) :=
  if addr.toNat % 16 = 0 then
    some (mem addr ++ mem (addr + 1) ++ mem (addr + 2) ++ mem (addr + 3) ++ mem (addr + 4) ++
      mem (addr + 5) ++ mem (addr + 6) ++ mem (addr + 7) ++ mem (addr + 8) ++ mem (addr + 9) ++
      mem (addr + 10) ++ mem (addr + 11) ++ mem (addr + 12) ++ mem (addr + 13) ++ mem (addr + 14) ++
      mem (addr + 15))
  else none

/-- `mem_d_read`. -/
def memDRead (mem : Mem) (addr : Word) : Option Word :=
  if ByteMemory.Aligned addr then some (ByteMemory.load mem addr) else none

/-- `mem_d_write`. -/
def memDWrite (mem : Mem) (addr data : Word) : Option Mem :=
  if ByteMemory.Aligned addr then some (ByteMemory.store mem addr data) else none

/-- The constructor. -/
def init : Memory := ⟨⟨128, []⟩, ⟨128, []⟩, ⟨1024, []⟩, Side.init, Side.init⟩

/-! ### The caches -/

/-- The victim of a set that is not full. -/
def noVictim : Word × Dirty := (0, .clean)

/-- A look into the second cache, after a miss in a first one: the latency so far and what it
adds. -/
def lookL2 (addr : Word) (latency : ℕ) (m : Memory) : ℕ × Memory :=
  let l2 := m.l2.get addr true
  match l2.1 with
  | some _ => (latency, { m with l2 := l2.2 })
  | none => (latency + 100, { m with l2 := (l2.2.put noVictim addr .clean).2 })

/-- The latency of an instruction, with the caches it leaves. -/
def iLatency (addr : Word) (m : Memory) : ℕ × Memory :=
  let l1 := m.l1i.get addr true
  match l1.1 with
  | some _ => (2, { m with l1i := l1.2 })
  | none => lookL2 addr (2 + 9) { m with l1i := (l1.2.put noVictim addr .clean).2 }

/-- The write back of a dirty victim, to the second cache. The key is the address of the request,
not that of the victim. -/
def writeback (victim : Dirty) (addr : Word) (m : Memory) : Memory :=
  if victim = .dirty then
    match (m.l2.get addr false).1 with
    | none => { m with l2 := (m.l2.put noVictim addr .dirty).2 }
    | some _ => { m with l2 := m.l2.assign addr .dirty }
  else m

/-- The latency of a word, with the caches it leaves. -/
def dLatency (op : MemOp) (addr : Word) (m : Memory) : ℕ × Memory :=
  let l1 := m.l1d.get addr true
  match l1.1 with
  | some _ => (3, { m with l1d := if op = .write then l1.2.assign addr .dirty else l1.2 })
  | none =>
    let l1e := l1.2.put noVictim addr (if op = .read then .clean else .dirty)
    lookL2 addr (3 + 9) (writeback l1e.1.2 addr { m with l1d := l1e.2 })

/-! ### The ports -/

/-- One port of a loop that answers. -/
def answer {width : ℕ} (read : Word → Option (BitVec width)) (now pick : ℕ) (s : Side) :
    Option (Answer width × Side) :=
  match s.respond now pick with
  | none => some (none, s)
  | some r => (read r.1.2).map fun data ↦ (some (r.1.1, data), r.2)

/-- A loop that answers. -/
def answers {width : ℕ} (read : Word → Option (BitVec width)) (now : ℕ) :
    List ℕ → Side → Option (List (Answer width) × Side)
  | [], s => some ([], s)
  | pick :: picks, s =>
    (answer read now pick s).bind fun r ↦
      (answers read now picks r.2).map fun rs ↦ (r.1 :: rs.1, rs.2)

/-- One port of the loop over the instruction requests. -/
def iRequest (now : ℕ) (req : InstRequest) (m : Memory) : Option Memory :=
  if req.op = .none then some m
  else if req.op ≠ .read then none
  else match m.i.mshr.lookup req.addr with
    | some tags => some { m with i := m.i.merge req.tagin req.addr tags }
    | none =>
      let l := m.iLatency req.addr
      if inRange req.addr then
        some { l.2 with i := l.2.i.launch now req.tagin req.addr l.1 }
      else none

/-- The loop over the instruction requests. -/
def iRequests (now : ℕ) : List InstRequest → Memory → Option Memory
  | [], m => some m
  | req :: reqs, m => (iRequest now req m).bind (iRequests now reqs)

/-- One port of the loop over the data requests. A write is done before the MSHRs are looked at. -/
def dRequest (now : ℕ) (req : DataRequest) (mem : Mem) (m : Memory) : Option (Mem × Memory) :=
  if req.op = .none then some (mem, m)
  else if !inRange req.addr then none
  else
    (if req.op = .write then memDWrite mem req.addr req.din else some mem).map fun mem ↦
      match m.d.mshr.lookup req.addr with
      | some tags => (mem, { m with d := m.d.merge req.tagin req.addr tags })
      | none =>
        let l := m.dLatency req.op req.addr
        (mem, { l.2 with d := l.2.d.launch now req.tagin req.addr l.1 })

/-- The loop over the data requests. -/
def dRequests (now : ℕ) : List DataRequest → Mem → Memory → Option (Mem × Memory)
  | [], mem, m => some (mem, m)
  | req :: reqs, mem, m => (dRequest now req mem m).bind fun r ↦ dRequests now reqs r.1 r.2

/-- `Memory::work`. -/
def work {iPorts dPorts : ℕ} (inp : MemoryInput iPorts dPorts) (mem : Mem) (m : Memory) :
    Option MemoryResult :=
  if inp.reset then some ⟨mem, m, [], []⟩
  else do
    let i ← answers (memIRead mem) inp.now (List.ofFn inp.iPick) m.i
    let d ← answers (memDRead mem) inp.now (List.ofFn inp.dPick) m.d
    let m ← iRequests inp.now (List.ofFn inp.iReq) { m with i := i.2, d := d.2 }
    let r ← dRequests inp.now (List.ofFn inp.dReq) mem m
    some ⟨r.1, r.2, i.1, d.1⟩

end Memory

end Cse502
