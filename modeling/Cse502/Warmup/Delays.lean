import Cse502.Library.RingDelay
import Cse502.Warmup.CacheProject

/-!
# SRAMs of any delay

`SRAM` of `sram.h` with any delay, depth and number of ports. Every port has a ring of `delay`
entries, and all share the pointer and the rows: the ports are served in order, each seeing the
writes of those before it and its own.

The cache next to such an SRAM raises its enables, waits as many cycles as the delay says, and reads
what the SRAM drives. The enables reach the SRAM one cycle later and its answer reaches the cache
one cycle later, which is what makes up for the ring being one entry shorter than the wait.
-/

namespace Cse502.Warmup

/-- The members of `SRAM`, with a ring for every port. -/
structure SramArray (α : Type) (depthLog2 ports : ℕ) where
  data : BitVec depthLog2 → α
  pipeline : Fin ports → ℕ → α
  pipePtr : ℕ

namespace SramArray

variable {α : Type} {depthLog2 ports : ℕ}

/-- One turn of the first loop of `SRAM::work`. -/
def serve (sig : Fin ports → SramPort α depthLog2) (s : SramArray α depthLog2 ports)
    (p : Fin ports) : SramArray α depthLog2 ports :=
  if (sig p).ena then
    let data :=
      if (sig p).we then Function.update s.data (sig p).addr (sig p).din else s.data
    { s with
      data := data
      pipeline := Function.update s.pipeline p
        (Function.update (s.pipeline p) s.pipePtr (data (sig p).addr)) }
  else s

/-- `SRAM::work`: the next state and what is written to `dout`. -/
def work (delay : ℕ) (sig : Fin ports → SramPort α depthLog2) (s : SramArray α depthLog2 ports) :
    SramArray α depthLog2 ports × (Fin ports → α) :=
  let s := (List.finRange ports).foldl (serve sig) s
  let s := { s with pipePtr := (s.pipePtr + 1) % delay }
  (s, fun p ↦ s.pipeline p s.pipePtr)

/-- The state after some cycles, for a history of the signals of the ports. -/
def run (delay : ℕ) (hist : ℕ → Fin ports → SramPort α depthLog2)
    (s : SramArray α depthLog2 ports) : ℕ → SramArray α depthLog2 ports
  | 0 => s
  | n + 1 => (work delay (hist n) (run delay hist s n)).1

/-- What a port drives in a cycle. -/
def dout (delay : ℕ) (hist : ℕ → Fin ports → SramPort α depthLog2)
    (s : SramArray α depthLog2 ports) (n : ℕ) (p : Fin ports) : α :=
  (work delay (hist n) (run delay hist s n)).2 p

/-! ## The rows without the pipeline -/

/-- What a port does to the rows. -/
def write (rows : BitVec depthLog2 → α) (p : SramPort α depthLog2) : BitVec depthLog2 → α :=
  if p.ena && p.we then Function.update rows p.addr p.din else rows

/-- The rows after the writes of some ports, one after another. -/
def writes (sig : Fin ports → SramPort α depthLog2) (ps : List (Fin ports))
    (rows : BitVec depthLog2 → α) : BitVec depthLog2 → α :=
  ps.foldl (fun rows p ↦ write rows (sig p)) rows

/-- The rows at the start of a cycle. -/
def rowsAt (hist : ℕ → Fin ports → SramPort α depthLog2) (rows : BitVec depthLog2 → α) :
    ℕ → BitVec depthLog2 → α
  | 0 => rows
  | n + 1 => writes (hist n) (List.finRange ports) (rowsAt hist rows n)

/-- The rows a port sees in a cycle: after its own write, and those of the ports before it. -/
def rowsSeen (hist : ℕ → Fin ports → SramPort α depthLog2) (rows : BitVec depthLog2 → α) (n : ℕ)
    (p : Fin ports) : BitVec depthLog2 → α :=
  writes (hist n) ((List.finRange ports).take (p + 1)) (rowsAt hist rows n)

/-- With one port that is after the write of the cycle. -/
theorem rowsSeen_one (hist : ℕ → Fin 1 → SramPort α depthLog2) (rows : BitVec depthLog2 → α)
    (n : ℕ) : rowsSeen hist rows n 0 = rowsAt hist rows (n + 1) := rfl

/-! ## One cycle -/

section Serve

variable (sig : Fin ports → SramPort α depthLog2) (s : SramArray α depthLog2 ports)
  {p q : Fin ports}

theorem serve_data : (serve sig s p).data = write s.data (sig p) := by
  rw [serve, write]
  cases (sig p).ena
  · rfl
  · cases (sig p).we <;> rfl

theorem serve_pipePtr : (serve sig s p).pipePtr = s.pipePtr := by
  rw [serve]
  split_ifs <;> rfl

theorem serve_pipeline_of_ne (h : q ≠ p) : (serve sig s p).pipeline q = s.pipeline q := by
  rw [serve]
  cases (sig p).ena
  · rfl
  · exact Function.update_of_ne h _ _

/-- What a port puts into its ring. -/
def captured (sig : Fin ports → SramPort α depthLog2) (rows : BitVec depthLog2 → α)
    (p : Fin ports) : Option α := if (sig p).ena then some (rows (sig p).addr) else none

/-- The ring of a port. -/
def ring (s : SramArray α depthLog2 ports) (p : Fin ports) : RingDelay.Ring α :=
  ⟨s.pipeline p, s.pipePtr⟩

theorem serve_pipeline_self :
    (serve sig s p).pipeline p =
      RingDelay.put (captured sig (write s.data (sig p)) p) (ring s p) := by
  rw [captured, ← serve_data, serve]
  cases (sig p).ena
  · rfl
  · exact Function.update_self p _ _

theorem foldl_serve_data (ps : List (Fin ports)) :
    (ps.foldl (serve sig) s).data = writes sig ps s.data := by
  induction ps generalizing s with
  | nil => rfl
  | cons p ps ih => rw [List.foldl_cons, ih, serve_data, writes, writes, List.foldl_cons]

theorem foldl_serve_pipePtr (ps : List (Fin ports)) :
    (ps.foldl (serve sig) s).pipePtr = s.pipePtr := by
  induction ps generalizing s with
  | nil => rfl
  | cons p ps ih => rw [List.foldl_cons, ih, serve_pipePtr]

theorem foldl_serve_pipeline {ps : List (Fin ports)} (h : q ∉ ps) :
    (ps.foldl (serve sig) s).pipeline q = s.pipeline q := by
  induction ps generalizing s with
  | nil => rfl
  | cons p ps ih =>
    rw [List.mem_cons, not_or] at h
    rw [List.foldl_cons, ih _ h.2, serve_pipeline_of_ne sig s h.1]

end Serve

/-- A port has its turn between those before it and those behind it. -/
private theorem finRange_split (p : Fin ports) :
    (List.finRange ports).take (p + 1) = (List.finRange ports).take p ++ [p] ∧
      p ∉ (List.finRange ports).take p ∧ p ∉ (List.finRange ports).drop (p + 1) := by
  have hlen : (p : ℕ) < (List.finRange ports).length := by
    rw [List.length_finRange]
    exact p.isLt
  refine ⟨?_, fun hmem ↦ ?_, fun hmem ↦ ?_⟩
  · rw [List.take_succ_eq_append_getElem hlen, List.getElem_finRange]
    rfl
  · obtain ⟨i, hi, hget⟩ := List.mem_take_iff_getElem.mp hmem
    rw [List.getElem_finRange] at hget
    have := congrArg Fin.val hget
    simp at this
    omega
  · obtain ⟨i, hi, hget⟩ := List.mem_drop_iff_getElem.mp hmem
    rw [List.getElem_finRange] at hget
    have := congrArg Fin.val hget
    simp at this
    omega

/-- **One cycle, seen from the ring of one port.** -/
theorem work_ring (delay : ℕ) (sig : Fin ports → SramPort α depthLog2)
    (s : SramArray α depthLog2 ports) (p : Fin ports) :
    let v := captured sig (writes sig ((List.finRange ports).take (p + 1)) s.data) p
    ring (work delay sig s).1 p = (RingDelay.cycle delay v (ring s p)).1 ∧
      (work delay sig s).2 p = (RingDelay.cycle delay v (ring s p)).2 := by
  intro v
  obtain ⟨htake, hbefore, hbehind⟩ := finRange_split p
  have hptr := foldl_serve_pipePtr sig s (List.finRange ports)
  have hrows : writes sig ((List.finRange ports).take (p + 1)) s.data =
      write (writes sig ((List.finRange ports).take p) s.data) (sig p) := by
    rw [htake, writes, List.foldl_append]
    rfl
  have hpipeline : ((List.finRange ports).foldl (serve sig) s).pipeline p =
      RingDelay.put v (ring s p) := by
    conv_lhs => rw [← List.take_append_drop (p + 1) (List.finRange ports)]
    rw [List.foldl_append, foldl_serve_pipeline sig _ hbehind, htake, List.foldl_append,
      List.foldl_cons, List.foldl_nil, serve_pipeline_self, foldl_serve_data, ← hrows, ring,
      foldl_serve_pipeline sig s hbefore, foldl_serve_pipePtr]
    rfl
  constructor
  · rw [work, ring, hpipeline, hptr]
    rfl
  · rw [work]
    dsimp only
    rw [hpipeline, hptr]
    rfl

theorem work_data (delay : ℕ) (sig : Fin ports → SramPort α depthLog2)
    (s : SramArray α depthLog2 ports) :
    (work delay sig s).1.data = writes sig (List.finRange ports) s.data :=
  foldl_serve_data sig s _

/-! ## Runs -/

section Run

variable {delay : ℕ} {hist : ℕ → Fin ports → SramPort α depthLog2} {s : SramArray α depthLog2 ports}

theorem run_data (n : ℕ) : (run delay hist s n).data = rowsAt hist s.data n := by
  induction n with
  | zero => rfl
  | succ n ih => rw [run, work_data, ih, rowsAt]

/-- What a port puts into its ring in a cycle. -/
def capturedAt (hist : ℕ → Fin ports → SramPort α depthLog2) (rows : BitVec depthLog2 → α)
    (p : Fin ports) (n : ℕ) : Option α := captured (hist n) (rowsSeen hist rows n p) p

theorem ring_run (p : Fin ports) (n : ℕ) :
    ring (run delay hist s n) p =
      RingDelay.ringAt delay (capturedAt hist s.data p) (ring s p) n := by
  induction n with
  | zero => rfl
  | succ n ih =>
    rw [run, (work_ring delay (hist n) _ p).1, run_data, ih]
    rfl

/-- **What an enabled port addressed comes out `delay - 1` cycles later**, as it was after that
cycle's write. -/
theorem dout_eq (hist : ℕ → Fin ports → SramPort α depthLog2) (p : Fin ports)
    (hptr : s.pipePtr < delay) {n : ℕ} (hn : delay - 1 ≤ n)
    (hena : (hist (n - (delay - 1)) p).ena = true) :
    dout delay hist s n p =
      rowsSeen hist s.data (n - (delay - 1)) p (hist (n - (delay - 1)) p).addr := by
  have hcaptured : capturedAt hist s.data p (n - (delay - 1)) =
      some (rowsSeen hist s.data (n - (delay - 1)) p (hist (n - (delay - 1)) p).addr) := by
    rw [capturedAt, captured, if_pos hena]
  have hout := RingDelay.out_eq (r := ring s p) hptr hn hcaptured
  rw [dout, (work_ring delay (hist n) _ p).2, run_data, ring_run]
  exact hout

end Run

end SramArray

/-! ## The SRAMs of the cache -/

/-- An SRAM with one port is one with one ring. -/
def Sram.toArray {α : Type} {depthLog2 : ℕ} (s : Sram α depthLog2) : SramArray α depthLog2 1 :=
  ⟨s.data, fun _ ↦ s.pipeline, s.pipePtr⟩

theorem Sram.toArray_work {α : Type} {depthLog2 : ℕ} (p : SramPort α depthLog2)
    (s : Sram α depthLog2) :
    s.toArray.work (Sram.delay depthLog2) (fun _ ↦ p) =
      ((s.work p).1.toArray, fun _ ↦ (s.work p).2) := by
  have hserve : SramArray.serve (fun _ ↦ p) s.toArray 0 =
      ⟨(s.work p).1.data, fun _ ↦ (s.work p).1.pipeline, s.pipePtr⟩ := by
    rw [SramArray.serve, Sram.work]
    cases p.ena with
    | false => rfl
    | true =>
      have hupdate : ∀ f : ℕ → α, Function.update s.toArray.pipeline 0 f = fun _ ↦ f := by
        intro f
        funext q
        rw [Subsingleton.elim q 0, Function.update_self]
      cases p.we with
      | false => exact congrArg (fun f ↦ (⟨_, f, _⟩ : SramArray α depthLog2 1)) (hupdate _)
      | true => exact congrArg (fun f ↦ (⟨_, f, _⟩ : SramArray α depthLog2 1)) (hupdate _)
  rw [SramArray.work, show List.finRange 1 = [0] from rfl, List.foldl_cons, List.foldl_nil, hserve]
  rfl

namespace Delayed

/-- `CacheProject::work` next to SRAMs with a given `Delay`: it is assigned to `waitdelay` wherever
an access is started. -/
def work (delay : ℕ) (inp : Input) (cur : Signals) (c : Cache) : Cache :=
  let c' := c.work inp cur
  if c.waitdelay = 0 ∧ c'.waitdelay ≠ 0 then { c' with waitdelay := delay } else c'

/-- The SRAMs of one set. -/
structure Way where
  data : SramArray Block 4 1
  state : SramArray State 4 1
  tag : SramArray Addr 4 1

/-- Three arrays of zeros. -/
def Way.init : Way :=
  ⟨(Sram.init 0).toArray, (Sram.init 0).toArray, (Sram.init 0).toArray⟩

/-- The SRAMs of one set in one cycle. -/
def Way.work (delay : ℕ) (cur : Signals) (w : Way) : Way × Dout :=
  let data := w.data.work delay fun _ ↦ cur.data
  let state := w.state.work delay fun _ ↦ cur.state
  let tag := w.tag.work delay fun _ ↦ cur.tag
  (⟨data.1, state.1, tag.1⟩, ⟨data.2 0, state.2 0, tag.2 0⟩)

/-- The module with its six SRAMs. -/
structure System where
  cache : Cache
  set1 : Way
  set2 : Way

/-- One clock cycle. -/
def System.cycle (delay : ℕ) (inp : Input) (s : System) : System :=
  let cur := s.cache.nxt
  let set1 := s.set1.work delay cur
  let set2 := s.set2.work delay cur
  { cache := { Delayed.work delay inp cur s.cache with nxt.dout1 := set1.2, nxt.dout2 := set2.2 }
    set1 := set1.1
    set2 := set2.1 }

/-- The system after `n` cycles of an input history. -/
def run (delay : ℕ) (inputs : ℕ → Input) : ℕ → System
  | 0 => ⟨Cache.init, Way.init, Way.init⟩
  | n + 1 => (run delay inputs n).cycle delay (inputs n)

/-- The cache starts to wait: it was idle, and has raised enables. -/
def Starts (delay : ℕ) (inputs : ℕ → Input) (t : ℕ) : Prop :=
  (run delay inputs t).cache.waitdelay = 0 ∧ (run delay inputs (t + 1)).cache.waitdelay ≠ 0

/-! ## The wait -/

section Wait

variable {inp : Input} {cur : Signals} {c : Cache}

theorem work_waitdelay_of_pos (delay : ℕ) (h : 0 < c.waitdelay) :
    (Delayed.work delay inp cur c).waitdelay = c.waitdelay - 1 := by
  have hpos : 0 < c.deassert.waitdelay := by
    rw [Cache.deassert]
    split_ifs <;> exact h
  rw [Delayed.work, if_neg fun hand ↦ h.ne' hand.1, Cache.work]
  dsimp only
  rw [if_pos hpos, Cache.deassert]
  split_ifs <;> rfl

theorem work_waitdelay_of_zero {delay : ℕ} (h : c.waitdelay = 0)
    (hstarts : (Delayed.work delay inp cur c).waitdelay ≠ 0) :
    (Delayed.work delay inp cur c).waitdelay = delay := by
  rw [Delayed.work] at hstarts ⊢
  by_cases hwork : (c.work inp cur).waitdelay = 0
  · rw [if_neg fun hand ↦ hand.2 hwork] at hstarts
    exact absurd hwork hstarts
  · rw [if_pos ⟨h, hwork⟩]

end Wait

variable {delay : ℕ} {inputs : ℕ → Input} {t : ℕ}

/-- The wait is counted down to zero. -/
theorem waitdelay_run (h : Starts delay inputs t) {k : ℕ} (hk : k ≤ delay) :
    (run delay inputs (t + 1 + k)).cache.waitdelay = delay - k := by
  induction k with
  | zero => exact work_waitdelay_of_zero h.1 h.2
  | succ k ih =>
    have hpos : 0 < (run delay inputs (t + 1 + k)).cache.waitdelay := by
      rw [ih (by omega)]
      omega
    have hstep : (run delay inputs (t + 1 + (k + 1))).cache.waitdelay =
        (run delay inputs (t + 1 + k)).cache.waitdelay - 1 := work_waitdelay_of_pos delay hpos
    rw [hstep, ih (by omega), Nat.sub_sub]

/-! ## What is sampled -/

/-- An SRAM of the system: where it is, the port it reads and the signal it drives. -/
structure Place (α : Type) where
  array : System → SramArray α 4 1
  port : Signals → SramPort α 4
  dout : Signals → α
  ptr_start : (array ⟨Cache.init, Way.init, Way.init⟩).pipePtr = 0
  cycle_array : ∀ (delay : ℕ) (inp : Input) (s : System),
    array (s.cycle delay inp) = ((array s).work delay fun _ ↦ port s.cache.nxt).1
  cycle_dout : ∀ (delay : ℕ) (inp : Input) (s : System),
    dout (s.cycle delay inp).cache.nxt = ((array s).work delay fun _ ↦ port s.cache.nxt).2 0

/-- The SRAMs of both sets. -/
def System.way (set : Bool) (s : System) : Way := if set then s.set2 else s.set1

/-- The signals the SRAMs of a set drive. -/
def doutOf (set : Bool) (cur : Signals) : Dout := if set then cur.dout2 else cur.dout1

/-- The SRAM of the data of a set. -/
def dataPlace (set : Bool) : Place Block where
  array s := (s.way set).data
  port cur := cur.data
  dout cur := (doutOf set cur).data
  ptr_start := by cases set <;> rfl
  cycle_array _ _ _ := by cases set <;> rfl
  cycle_dout _ _ _ := by cases set <;> rfl

/-- The SRAM of the states of a set. -/
def statePlace (set : Bool) : Place State where
  array s := (s.way set).state
  port cur := cur.state
  dout cur := (doutOf set cur).state
  ptr_start := by cases set <;> rfl
  cycle_array _ _ _ := by cases set <;> rfl
  cycle_dout _ _ _ := by cases set <;> rfl

/-- The SRAM of the tags of a set. -/
def tagPlace (set : Bool) : Place Addr where
  array s := (s.way set).tag
  port cur := cur.tag
  dout cur := (doutOf set cur).tag
  ptr_start := by cases set <;> rfl
  cycle_array _ _ _ := by cases set <;> rfl
  cycle_dout _ _ _ := by cases set <;> rfl

section Place

variable {α : Type} (x : Place α)

/-- The history of the port. -/
def Place.hist (delay : ℕ) (inputs : ℕ → Input) (n : ℕ) (_ : Fin 1) : SramPort α 4 :=
  x.port (run delay inputs n).cache.nxt

theorem Place.array_run (n : ℕ) :
    x.array (run delay inputs n) =
      SramArray.run delay (x.hist delay inputs) (x.array ⟨Cache.init, Way.init, Way.init⟩) n := by
  induction n with
  | zero => rfl
  | succ n ih =>
    rw [run, x.cycle_array, ih]
    rfl

/-- **The cache samples the access it launched.** -/
theorem Place.samples (hdelay : 0 < delay)
    (hena : (x.port (run delay inputs (t + 1)).cache.nxt).ena = true) :
    x.dout (run delay inputs (t + 1 + delay)).cache.nxt =
      (x.array (run delay inputs (t + 2))).data
        (x.port (run delay inputs (t + 1)).cache.nxt).addr := by
  have hsub : t + delay - (delay - 1) = t + 1 := by omega
  have hptr : (x.array ⟨Cache.init, Way.init, Way.init⟩).pipePtr < delay := by
    rw [x.ptr_start]
    exact hdelay
  have hdout := SramArray.dout_eq (x.hist delay inputs) 0 hptr
    (show delay - 1 ≤ t + delay by omega) (by rw [hsub]; exact hena)
  rw [hsub, SramArray.rowsSeen_one, ← SramArray.run_data, ← x.array_run,
    SramArray.dout, ← x.array_run] at hdout
  rw [show t + 1 + delay = t + delay + 1 by omega, run, x.cycle_dout]
  exact hdout

end Place

/-! ## The cache with its own delay -/

/-- A wait is as long as the delay of the SRAMs. -/
def WaitsDelay (c : Cache) : Prop := c.waitdelay = 0 ∨ c.waitdelay = Cache.sramDelay

theorem finish_waitsDelay (cur : Signals) {c : Cache} (h : c.waitdelay = 0) :
    WaitsDelay (c.finish cur) := by
  rw [Cache.finish]
  dsimp only
  split
  · exact .inl h
  · exact .inl rfl
  · exact .inl rfl
  · rw [Cache.finishWrite]
    split
    · exact .inl h
    · dsimp only
      split_ifs
      · exact .inr rfl
      · exact .inr rfl
      · exact .inl rfl
    · exact .inl rfl
  · rw [Cache.finishUpdate]
    split
    · exact .inl h
    · dsimp only
      split_ifs
      · exact .inr rfl
      · exact .inr rfl
      · exact .inl rfl
    · exact .inl rfl

theorem accept_waitsDelay (inp : Input) {c : Cache} (h : WaitsDelay c) :
    WaitsDelay (c.accept inp) := by
  rw [Cache.accept]
  split_ifs
  · exact .inr rfl
  · exact .inr rfl
  · exact .inr rfl
  · exact .inr rfl
  · exact h

theorem cacheWork_waitsDelay (inp : Input) (cur : Signals) {c : Cache} (h : c.waitdelay = 0) :
    WaitsDelay (c.work inp cur) := by
  have hzero : c.deassert.waitdelay = 0 := by
    rw [Cache.deassert]
    split_ifs <;> exact h
  rw [Cache.work]
  dsimp only
  rw [if_neg hzero.not_gt]
  split_ifs
  · exact accept_waitsDelay inp (finish_waitsDelay cur hzero)
  · exact finish_waitsDelay cur hzero

/-- Next to SRAMs of its own delay this is the cache. -/
theorem work_sramDelay (inp : Input) (cur : Signals) (c : Cache) :
    Delayed.work Cache.sramDelay inp cur c = c.work inp cur := by
  rw [Delayed.work]
  split_ifs with h
  · rw [← (cacheWork_waitsDelay inp cur h.1).resolve_left h.2]
  · rfl

/-- The SRAMs of a set, each as one with one ring. -/
def ofWay (w : Warmup.Way) : Way := ⟨w.data.toArray, w.state.toArray, w.tag.toArray⟩

theorem ofWay_work (cur : Signals) (w : Warmup.Way) :
    (ofWay w).work Cache.sramDelay cur = (ofWay (w.work cur).1, (w.work cur).2) := by
  rw [Way.work, ofWay, Cache.sramDelay, Sram.toArray_work, Sram.toArray_work, Sram.toArray_work]
  rfl

/-- The system, with its SRAMs seen that way. -/
def ofSystem (s : Warmup.System) : System := ⟨s.cache, ofWay s.set1, ofWay s.set2⟩

theorem ofSystem_cycle (inp : Input) (s : Warmup.System) :
    (ofSystem s).cycle Cache.sramDelay inp = ofSystem (s.cycle inp) := by
  simp only [System.cycle, ofSystem, ofWay_work, work_sramDelay]
  rfl

/-- **The warm-up cache is the system next to SRAMs of its own delay.** -/
theorem ofSystem_run (inputs : ℕ → Input) (n : ℕ) :
    ofSystem (Warmup.System.run inputs n) = run Cache.sramDelay inputs n := by
  induction n with
  | zero => rfl
  | succ n ih =>
    rw [run, ← ih, ofSystem_cycle]
    rfl

end Delayed

/-- **The SRAM pipeline and the wait of the cache agree**, whatever the delay. A port that is
enabled drives the row it addressed `delay - 1` cycles later, as it was after its write. A cache
that starts to wait is idle again after as many cycles as the delay says, and not before; and each
SRAM whose enable it has raised then drives the row as it was after the one access launched. -/
theorem sram_wait_agree {delay : ℕ} (hdelay : 0 < delay) :
    (∀ (α : Type) (depthLog2 ports : ℕ) (s : SramArray α depthLog2 ports)
        (hist : ℕ → Fin ports → SramPort α depthLog2) (n : ℕ) (p : Fin ports),
      s.pipePtr < delay → delay - 1 ≤ n → (hist (n - (delay - 1)) p).ena = true →
      SramArray.dout delay hist s n p =
        SramArray.rowsSeen hist s.data (n - (delay - 1)) p (hist (n - (delay - 1)) p).addr) ∧
    ∀ (inputs : ℕ → Input) (t : ℕ), Delayed.Starts delay inputs t →
      let s := Delayed.run delay inputs
      let launched := (s (t + 1)).cache.nxt
      let sampled := (s (t + 1 + delay)).cache.nxt
      (∀ k < delay, (s (t + 1 + k)).cache.waitdelay ≠ 0) ∧
      (s (t + 1 + delay)).cache.waitdelay = 0 ∧
      ∀ set : Bool,
        let rows := (s (t + 2)).way set
        let dout := Delayed.doutOf set sampled
        (launched.data.ena = true → dout.data = rows.data.data launched.data.addr) ∧
        (launched.state.ena = true → dout.state = rows.state.data launched.state.addr) ∧
        (launched.tag.ena = true → dout.tag = rows.tag.data launched.tag.addr) := by
  refine ⟨fun _ _ _ _ hist _ p hptr hn hena ↦ SramArray.dout_eq hist p hptr hn hena,
    fun inputs t hstarts ↦ ⟨fun k hk ↦ ?_, ?_, fun set ↦ ⟨?_, ?_, ?_⟩⟩⟩
  · rw [Delayed.waitdelay_run hstarts hk.le]
    omega
  · rw [Delayed.waitdelay_run hstarts le_rfl, Nat.sub_self]
  · exact (Delayed.dataPlace set).samples hdelay
  · exact (Delayed.statePlace set).samples hdelay
  · exact (Delayed.tagPlace set).samples hdelay

/-- A request that the cache takes in the first cycle, next to SRAMs with a delay of three. -/
theorem sram_wait_agree_three :
    Delayed.Starts 3 (fun _ ↦ ⟨true, 0x440, true, true, 7, false, true, 5⟩) 0 ∧
      (Delayed.run 3 (fun _ ↦ ⟨true, 0x440, true, true, 7, false, true, 5⟩) 4).cache.waitdelay =
        0 :=
  have hstarts : Delayed.Starts 3 (fun _ ↦ ⟨true, 0x440, true, true, 7, false, true, 5⟩) 0 :=
    ⟨rfl, Nat.noConfusion⟩
  ⟨hstarts, ((sram_wait_agree (show 0 < 3 by decide)).2 _ 0 hstarts).2.1⟩

end Cse502.Warmup
