import Cse502.Memory.Requests

/-!
# The steps of `Memory::work`

In a cycle each port asks its side for a response, and each port makes a request. A run is logged as
the steps of the two sides and the data requests with the states around them, and what holds at the
start and is kept by each of these steps holds of every run.
-/

namespace Cse502

/-! ## The steps of a side -/

/-- A port asks for a response, or makes a request, with the latency of one that is not merged. -/
inductive SideStep
  | answer (now pick : ℕ)
  | request (now : ℕ) (tag : BitVec 32) (addr : Word) (latency : ℕ)

/-- What a step does to a side. -/
def Side.perform (s : Side) : SideStep → Side
  | .answer now pick => ((s.respond now pick).map Prod.snd).getD s
  | .request now tag addr latency =>
    match s.mshr.lookup addr with
    | some tags => s.merge tag addr tags
    | none => s.launch now tag addr latency

namespace Memory

/-- One more entry at the end of a list that is split: it is the entry of the split, or behind
it. -/
theorem concat_eq_split {α : Type*} {log pre post : List α} {x y : α}
    (h : log ++ [x] = pre ++ y :: post) :
    (pre = log ∧ y = x ∧ post = []) ∨ ∃ post', post = post' ++ [x] ∧ log = pre ++ y :: post' := by
  rcases List.eq_nil_or_concat post with rfl | ⟨post', z, rfl⟩
  · obtain ⟨hlog, hlast⟩ := List.append_inj' h rfl
    exact .inl ⟨hlog.symm, (List.cons.inj hlast).1.symm, rfl⟩
  · rw [List.concat_eq_append, ← List.cons_append, ← List.append_assoc] at h
    obtain ⟨hlog, hlast⟩ := List.append_inj' h rfl
    obtain rfl := (List.cons.inj hlast).1
    exact .inr ⟨post', List.concat_eq_append, hlog⟩

/-! ## The log of a cycle -/

/-- An instruction request, with the state before it. -/
structure InstStep where
  now : ℕ
  req : InstRequest
  before : Memory

/-- A data request, with the states before and after it. -/
structure DataStep where
  now : ℕ
  req : DataRequest
  before : Memory
  after : Memory

/-- What an instruction request does to its side. -/
def InstStep.onSide (e : InstStep) : Option SideStep :=
  if e.req.op = .none then none
  else some (.request e.now e.req.tagin e.req.addr (e.before.iLatency e.req.addr).1)

/-- What a data request does to its side. -/
def DataStep.onSide (e : DataStep) : Option SideStep :=
  if e.req.op = .none then none
  else some (.request e.now e.req.tagin e.req.addr (e.before.dLatency e.req.op e.req.addr).1)

/-- The instruction requests of a cycle. -/
def iSteps (now : ℕ) : List InstRequest → Memory → List InstStep
  | [], _ => []
  | req :: reqs, m => ⟨now, req, m⟩ :: (iRequest now req m).elim [] (iSteps now reqs)

/-- The data requests of a cycle. -/
def dSteps (now : ℕ) : List DataRequest → Mem → Memory → List DataStep
  | [], _, _ => []
  | req :: reqs, mem, m =>
    (dRequest now req mem m).elim [] fun r ↦ ⟨now, req, m, r.2⟩ :: dSteps now reqs r.1 r.2

variable {iPorts dPorts : ℕ}

/-- The state once the ports have been answered. -/
def answered (inp : MemoryInput iPorts dPorts) (mem : Mem) (m : Memory) : Option Memory :=
  (answers (memIRead mem) inp.now (List.ofFn inp.iPick) m.i).bind fun i ↦
    (answers (memDRead mem) inp.now (List.ofFn inp.dPick) m.d).map fun d ↦
      { m with i := i.2, d := d.2 }

/-- The instruction requests of an activation. -/
def instSteps (inp : MemoryInput iPorts dPorts) (mem : Mem) (m : Memory) : List InstStep :=
  if inp.reset then [] else (answered inp mem m).elim [] (iSteps inp.now (List.ofFn inp.iReq))

/-- The data requests of an activation. -/
def dataSteps (inp : MemoryInput iPorts dPorts) (mem : Mem) (m : Memory) : List DataStep :=
  if inp.reset then []
  else ((answered inp mem m).bind (iRequests inp.now (List.ofFn inp.iReq))).elim []
    (dSteps inp.now (List.ofFn inp.dReq) mem)

/-- The steps of a side in an activation: first the ports are answered. -/
def sideSteps (reset : Bool) (now : ℕ) (picks : List ℕ) (requests : List SideStep) :
    List SideStep :=
  if reset then [] else picks.map (.answer now) ++ requests

/-- The guest memory and `Memory`, with what has happened so far. -/
structure History where
  mem : Mem
  memory : Memory
  iSide : List SideStep
  dSide : List SideStep
  data : List DataStep

/-- One activation of `Memory::work`. -/
def History.cycle (inp : MemoryInput iPorts dPorts) (t : History) : Option History :=
  (work inp t.mem t.memory).map fun r ↦
    { mem := r.mem
      memory := r.memory
      iSide := t.iSide ++ sideSteps inp.reset inp.now (List.ofFn inp.iPick)
        ((instSteps inp t.mem t.memory).filterMap InstStep.onSide)
      dSide := t.dSide ++ sideSteps inp.reset inp.now (List.ofFn inp.dPick)
        ((dataSteps inp t.mem t.memory).filterMap DataStep.onSide)
      data := t.data ++ dataSteps inp t.mem t.memory }

/-- The first `n` activations, from an empty `Memory`. -/
def History.run (mem : Mem) (inputs : ℕ → MemoryInput iPorts dPorts) : ℕ → Option History
  | 0 => some ⟨mem, init, [], [], []⟩
  | n + 1 => (History.run mem inputs n).bind (History.cycle (inputs n))

/-- The log leaves the run as it is. -/
theorem run_traffic (mem : Mem) (inputs : ℕ → MemoryInput iPorts dPorts) (n : ℕ) :
    (History.run mem inputs n).map (fun t ↦ (t.mem, t.memory)) =
      (Traffic.run mem inputs n).map fun t ↦ (t.mem, t.memory) := by
  induction n with
  | zero => rfl
  | succ n ih =>
    rw [History.run, Traffic.run]
    cases hh : History.run mem inputs n with
    | none =>
      rw [hh] at ih
      rw [Option.map_eq_none_iff.mp ih.symm]
      rfl
    | some t =>
      rw [hh] at ih
      obtain ⟨t', ht', heq⟩ := Option.map_eq_some_iff.mp ih.symm
      obtain ⟨hmem, hmemory⟩ := Prod.mk.inj heq
      rw [ht', Option.bind_some, Option.bind_some, History.cycle, Traffic.cycle, hmem, hmemory,
        Option.map_map, Option.map_map]
      rfl

/-- A run whose requests pass the asserts goes on. -/
theorem exists_run (mem : Mem) {inputs : ℕ → MemoryInput iPorts dPorts}
    (h : ∀ k, (inputs k).Valid) (n : ℕ) : ∃ t, History.run mem inputs n = some t := by
  obtain ⟨t, ht, -⟩ := exists_trafficInv mem h n
  have hrun := run_traffic mem inputs n
  rw [ht] at hrun
  obtain ⟨t', ht', -⟩ := Option.map_eq_some_iff.mp hrun
  exact ⟨t', ht'⟩

/-! ## What a step can do -/

variable {now : ℕ}

/-- An instruction request: none, merged, or looked up in the caches. -/
theorem iRequest_cases {req : InstRequest} {m m' : Memory} (h : iRequest now req m = some m') :
    (req.op = .none ∧ m' = m) ∨
      (req.op ≠ .none ∧ ∃ tags, m.i.mshr.lookup req.addr = some tags ∧
        m' = { m with i := m.i.merge req.tagin req.addr tags }) ∨
      (req.op ≠ .none ∧ m.i.mshr.lookup req.addr = none ∧
        m' = { (m.iLatency req.addr).2 with
          i := m.i.launch now req.tagin req.addr (m.iLatency req.addr).1 }) := by
  rw [iRequest] at h
  by_cases hnone : req.op = .none
  · rw [if_pos hnone] at h
    exact .inl ⟨hnone, (Option.some.inj h).symm⟩
  · rw [if_neg hnone] at h
    obtain ⟨-, h⟩ := Option.ite_none_left_eq_some.mp h
    split at h
    · next tags hlookup => exact .inr (.inl ⟨hnone, tags, hlookup, (Option.some.inj h).symm⟩)
    · next hlookup =>
      obtain ⟨-, h⟩ := Option.ite_none_right_eq_some.mp h
      refine .inr (.inr ⟨hnone, hlookup, ?_⟩)
      rw [← Option.some.inj h, (iLatency_sides req.addr m).1]

/-- A data request: none, merged, or looked up in the caches. -/
theorem dRequest_cases {req : DataRequest} {mem mem' : Mem} {m m' : Memory}
    (h : dRequest now req mem m = some (mem', m')) :
    (req.op = .none ∧ m' = m) ∨
      (req.op ≠ .none ∧ ∃ tags, m.d.mshr.lookup req.addr = some tags ∧
        m' = { m with d := m.d.merge req.tagin req.addr tags }) ∨
      (req.op ≠ .none ∧ m.d.mshr.lookup req.addr = none ∧
        m' = { (m.dLatency req.op req.addr).2 with
          d := m.d.launch now req.tagin req.addr (m.dLatency req.op req.addr).1 }) := by
  rw [dRequest] at h
  by_cases hnone : req.op = .none
  · rw [if_pos hnone] at h
    exact .inl ⟨hnone, (Prod.mk.inj (Option.some.inj h)).2.symm⟩
  · rw [if_neg hnone] at h
    obtain ⟨-, h⟩ := Option.ite_none_left_eq_some.mp h
    obtain ⟨mem₁, -, h⟩ := Option.map_eq_some_iff.mp h
    split at h
    · next tags hlookup =>
      exact .inr (.inl ⟨hnone, tags, hlookup, (Prod.mk.inj h).2.symm⟩)
    · next hlookup =>
      refine .inr (.inr ⟨hnone, hlookup, ?_⟩)
      rw [← (Prod.mk.inj h).2, (dLatency_sides req.op req.addr m).2]

/-- An activation: nothing in reset, else the ports are answered and make their requests. -/
theorem work_cases {inp : MemoryInput iPorts dPorts} {mem : Mem} {m : Memory} {r : MemoryResult}
    (h : work inp mem m = some r) :
    (inp.reset = true ∧ r.mem = mem ∧ r.memory = m) ∨
      (inp.reset = false ∧ ∃ i d m₁,
        answers (memIRead mem) inp.now (List.ofFn inp.iPick) m.i = some (r.iOut, i) ∧
        answers (memDRead mem) inp.now (List.ofFn inp.dPick) m.d = some (r.dOut, d) ∧
        iRequests inp.now (List.ofFn inp.iReq) { m with i := i, d := d } = some m₁ ∧
        dRequests inp.now (List.ofFn inp.dReq) mem m₁ = some (r.mem, r.memory)) := by
  rw [work] at h
  by_cases hreset : inp.reset = true
  · rw [if_pos hreset] at h
    obtain rfl := Option.some.inj h
    exact .inl ⟨hreset, rfl, rfl⟩
  · rw [if_neg hreset] at h
    simp only [Option.bind_eq_bind, Option.bind_eq_some_iff] at h
    obtain ⟨⟨iOut, i⟩, hi, ⟨dOut, d⟩, hd, m₁, hm₁, r', hr', h⟩ := h
    obtain rfl := Option.some.inj h
    exact .inr ⟨eq_false_of_ne_true hreset, i, d, m₁, hi, hd, hm₁, hr'⟩

/-! ## Cycles in which nothing is due -/

theorem get_of_not_due {α : Type*} [DecidableEq α] {b : DelayBucket α}
    (h : ∀ e ∈ b.pq, now < e.1) (pick : ℕ) : b.get now pick = none := by
  rw [DelayBucket.get]
  split
  · rfl
  · next top htop =>
    exact if_neg (Nat.not_le_of_lt (h top (List.mem_of_mem_filter (List.mem_of_getElem? htop))))

/-- A side with nothing due stays as it is. -/
theorem answers_of_not_due {width : ℕ} {read : Word → Option (BitVec width)} {picks : List ℕ}
    {s s' : Side} {out : List (Answer width)} (hdue : ∀ e ∈ s.resp.pq, now < e.1)
    (h : answers read now picks s = some (out, s')) : s' = s := by
  have hrespond : ∀ pick, s.respond now pick = none := fun pick ↦ by
    rw [Side.respond, get_of_not_due hdue, Option.map_none]
  induction picks generalizing out with
  | nil => exact (Prod.mk.inj (Option.some.inj h)).2.symm
  | cons pick picks ih =>
    obtain ⟨⟨out₁, s₁⟩, hanswer, h⟩ := Option.bind_eq_some_iff.mp h
    obtain ⟨⟨outs, s₂⟩, hanswers, h⟩ := Option.map_eq_some_iff.mp h
    obtain ⟨-, rfl⟩ := Prod.mk.inj h
    rw [answer, hrespond] at hanswer
    obtain ⟨-, rfl⟩ := Prod.mk.inj (Option.some.inj hanswer)
    exact ih hanswers

theorem iRequests_of_none {reqs : List InstRequest} (h : ∀ req ∈ reqs, req.op = .none)
    (m : Memory) : iRequests now reqs m = some m := by
  induction reqs generalizing m with
  | nil => rfl
  | cons req reqs ih =>
    rw [iRequests, iRequest, if_pos (h req List.mem_cons_self), Option.bind_some]
    exact ih (fun req' hreq' ↦ h req' (List.mem_cons_of_mem _ hreq')) m

/-- Where nothing is due and no instruction is asked for, only the data requests are left. -/
theorem cycle_of_not_due {inp : MemoryInput iPorts dPorts} {t t' : History}
    (hreset : inp.reset = false) (hi : ∀ e ∈ t.memory.i.resp.pq, inp.now < e.1)
    (hd : ∀ e ∈ t.memory.d.resp.pq, inp.now < e.1) (hreq : ∀ p, (inp.iReq p).op = .none)
    (h : History.cycle inp t = some t') :
    dRequests inp.now (List.ofFn inp.dReq) t.mem t.memory = some (t'.mem, t'.memory) ∧
      t'.data = t.data ++ dSteps inp.now (List.ofFn inp.dReq) t.mem t.memory ∧
      t'.dSide = t.dSide ++ ((List.ofFn inp.dPick).map (.answer inp.now) ++
        (dSteps inp.now (List.ofFn inp.dReq) t.mem t.memory).filterMap DataStep.onSide) := by
  have hnone : ∀ req ∈ List.ofFn inp.iReq, req.op = .none := by
    intro req hmem
    obtain ⟨p, rfl⟩ := List.mem_ofFn.mp hmem
    exact hreq p
  obtain ⟨r, hwork, rfl⟩ := Option.map_eq_some_iff.mp h
  rcases work_cases hwork with ⟨hreset', -, -⟩ | ⟨-, i, d, m₁, hi₁, hd₁, hm₁, hr⟩
  · exact absurd (hreset'.symm.trans hreset) (by simp)
  · obtain rfl := answers_of_not_due hi hi₁
    obtain rfl := answers_of_not_due hd hd₁
    rw [iRequests_of_none hnone] at hm₁
    obtain rfl := Option.some.inj hm₁
    have hsteps : dataSteps inp t.mem t.memory =
        dSteps inp.now (List.ofFn inp.dReq) t.mem t.memory := by
      rw [dataSteps, hreset, answered, hi₁, hd₁, Option.bind_some, Option.map_some,
        Option.bind_some, iRequests_of_none hnone]
      rfl
    refine ⟨hr, congrArg _ hsteps, ?_⟩
    dsimp only
    rw [hsteps, sideSteps, hreset]
    rfl

/-! ## Runs -/

/-- What the steps of the caches keep, in terms of the data requests so far. The sides may change
freely. -/
structure Kept (P : Memory → List DataStep → Prop) : Prop where
  sides : ∀ m i d log, P m log → P { m with i := i, d := d } log
  inst : ∀ now req m m' log, iRequest now req m = some m' → P m log → P m' log
  data : ∀ now req mem mem' m m' log, dRequest now req mem m = some (mem', m') → P m log →
    P m' (log ++ [⟨now, req, m, m'⟩])

section Kept

variable {P : Memory → List DataStep → Prop} (hP : Kept P)
include hP

theorem Kept.iRequests {reqs : List InstRequest} {m m' : Memory} {log : List DataStep}
    (h : iRequests now reqs m = some m') (hm : P m log) : P m' log := by
  induction reqs generalizing m with
  | nil =>
    obtain rfl := Option.some.inj h
    exact hm
  | cons req reqs ih =>
    obtain ⟨m₁, hreq, hreqs⟩ := Option.bind_eq_some_iff.mp h
    exact ih hreqs (hP.inst _ _ _ _ _ hreq hm)

theorem Kept.dRequests {reqs : List DataRequest} {mem mem' : Mem} {m m' : Memory}
    {log : List DataStep} (h : dRequests now reqs mem m = some (mem', m')) (hm : P m log) :
    P m' (log ++ dSteps now reqs mem m) := by
  induction reqs generalizing mem m log with
  | nil =>
    obtain ⟨rfl, rfl⟩ := Prod.mk.inj (Option.some.inj h)
    rw [dSteps, List.append_nil]
    exact hm
  | cons req reqs ih =>
    obtain ⟨⟨mem₁, m₁⟩, hreq, hreqs⟩ := Option.bind_eq_some_iff.mp h
    rw [dSteps, hreq, Option.elim_some, List.append_cons]
    exact ih hreqs (hP.data _ _ _ _ _ _ _ hreq hm)

theorem Kept.cycle {inp : MemoryInput iPorts dPorts} {t t' : History}
    (h : History.cycle inp t = some t') (ht : P t.memory t.data) : P t'.memory t'.data := by
  obtain ⟨r, hwork, rfl⟩ := Option.map_eq_some_iff.mp h
  rcases work_cases hwork with ⟨hreset, -, hmemory⟩ | ⟨hreset, i, d, m₁, hi, hd, hm₁, hr⟩
  · dsimp only
    rw [hmemory, dataSteps, if_pos hreset, List.append_nil]
    exact ht
  · have hsteps : dataSteps inp t.mem t.memory =
        dSteps inp.now (List.ofFn inp.dReq) t.mem m₁ := by
      rw [dataSteps, hreset, answered, hi, hd]
      simp only [Bool.false_eq_true, if_false, Option.bind_some, Option.map_some, hm₁,
        Option.elim_some]
    dsimp only
    rw [hsteps]
    exact hP.dRequests hr (hP.iRequests hm₁ (hP.sides _ _ _ _ ht))

/-- **What holds at the start and is kept by every step holds of every run.** -/
theorem Kept.run (hinit : P init []) {mem : Mem} {inputs : ℕ → MemoryInput iPorts dPorts} {n : ℕ}
    {t : History} (h : History.run mem inputs n = some t) : P t.memory t.data := by
  induction n generalizing t with
  | zero =>
    obtain rfl := Option.some.inj h
    exact hinit
  | succ n ih =>
    obtain ⟨t₀, hrun, hcycle⟩ := Option.bind_eq_some_iff.mp h
    exact hP.cycle hcycle (ih hrun)

/-- It also holds after each data request of the run. -/
theorem Kept.run_after (hinit : P init []) {mem : Mem} {inputs : ℕ → MemoryInput iPorts dPorts}
    {n : ℕ} {t : History} (h : History.run mem inputs n = some t) {pre post : List DataStep}
    {e : DataStep} (hsplit : t.data = pre ++ e :: post) : P e.after (pre ++ [e]) := by
  have hafter : Kept fun m log ↦
      P m log ∧ ∀ pre e post, log = pre ++ e :: post → P e.after (pre ++ [e]) := by
    constructor
    case sides => exact fun m i d log hm ↦ ⟨hP.sides m i d log hm.1, hm.2⟩
    case inst => exact fun now req m m' log hreq hm ↦ ⟨hP.inst _ _ _ _ _ hreq hm.1, hm.2⟩
    case data =>
      intro now req mem mem' m m' log hreq hm
      have hm' := hP.data _ _ _ _ _ _ _ hreq hm.1
      refine ⟨hm', fun pre e post hlog ↦ ?_⟩
      rcases concat_eq_split hlog with ⟨rfl, rfl, -⟩ | ⟨post', -, hlog⟩
      · exact hm'
      · exact hm.2 pre e post' hlog
  refine (hafter.run ⟨hinit, fun pre e post hlog ↦ ?_⟩ h).2 pre e post hsplit
  exact absurd hlog (by simp)

end Kept

/-- Every data request of a log was one of `Memory::work`. -/
theorem run_logged {mem : Mem} {inputs : ℕ → MemoryInput iPorts dPorts} {n : ℕ} {t : History}
    (h : History.run mem inputs n = some t) {e : DataStep} (he : e ∈ t.data) :
    ∃ mem mem', dRequest e.now e.req mem e.before = some (mem', e.after) := by
  have hlogged : Kept fun _ log ↦
      ∀ e ∈ log, ∃ mem mem', dRequest e.now e.req mem e.before = some (mem', e.after) := by
    constructor
    case sides => exact fun _ _ _ _ hlog ↦ hlog
    case inst => exact fun _ _ _ _ _ _ hlog ↦ hlog
    case data =>
      intro now req mem mem' m m' log hreq hlog e he
      rcases List.mem_append.mp he with he | he
      · exact hlog e he
      · obtain rfl := List.mem_singleton.mp he
        exact ⟨mem, mem', hreq⟩
  exact hlogged.run (fun e he ↦ absurd he List.not_mem_nil) h e he

/-! ## The sides of a run -/

/-- The loop that answers is one step for each port. -/
theorem answers_perform {width : ℕ} {read : Word → Option (BitVec width)} {picks : List ℕ}
    {s s' : Side} {out : List (Answer width)} (h : answers read now picks s = some (out, s')) :
    s' = (picks.map (SideStep.answer now)).foldl Side.perform s := by
  induction picks generalizing s out with
  | nil => exact (Prod.mk.inj (Option.some.inj h)).2.symm
  | cons pick picks ih =>
    obtain ⟨⟨out₁, s₁⟩, hanswer, h⟩ := Option.bind_eq_some_iff.mp h
    obtain ⟨⟨outs, s₂⟩, hanswers, h⟩ := Option.map_eq_some_iff.mp h
    obtain ⟨-, rfl⟩ := Prod.mk.inj h
    have hstep : s₁ = s.perform (.answer now pick) := by
      rw [answer] at hanswer
      rw [Side.perform]
      split at hanswer
      · next hnone =>
        rw [hnone]
        exact (Prod.mk.inj (Option.some.inj hanswer)).2.symm
      · next r hr =>
        obtain ⟨data, -, h⟩ := Option.map_eq_some_iff.mp hanswer
        rw [hr]
        exact (Prod.mk.inj h).2.symm
    rw [List.map_cons, List.foldl_cons, ← hstep]
    exact ih hanswers

/-- One more step of a side, or none. -/
theorem foldl_filterMap_cons {α : Type*} (f : α → Option SideStep) (e : α) (es : List α)
    {s s' : Side} (h : s' = (f e).elim s s.perform) :
    ((e :: es).filterMap f).foldl Side.perform s = (es.filterMap f).foldl Side.perform s' := by
  subst h
  rw [List.filterMap_cons]
  cases f e <;> rfl

/-- An instruction request is one step of its side, or none. -/
theorem iRequest_perform {req : InstRequest} {m m' : Memory} (h : iRequest now req m = some m') :
    m'.d = m.d ∧ m'.i = (InstStep.onSide ⟨now, req, m⟩).elim m.i m.i.perform := by
  rcases iRequest_cases h with ⟨hnone, rfl⟩ | ⟨hop, tags, hlookup, rfl⟩ | ⟨hop, hlookup, rfl⟩
  · exact ⟨rfl, by rw [InstStep.onSide, if_pos hnone, Option.elim_none]⟩
  · refine ⟨rfl, ?_⟩
    rw [InstStep.onSide, if_neg hop, Option.elim_some, Side.perform, hlookup]
  · refine ⟨(iLatency_sides req.addr m).2, ?_⟩
    rw [InstStep.onSide, if_neg hop, Option.elim_some, Side.perform, hlookup]

/-- A data request is one step of its side, or none. -/
theorem dRequest_perform {req : DataRequest} {mem mem' : Mem} {m m' : Memory}
    (h : dRequest now req mem m = some (mem', m')) :
    m'.i = m.i ∧ m'.d = (DataStep.onSide ⟨now, req, m, m'⟩).elim m.d m.d.perform := by
  rcases dRequest_cases h with ⟨hnone, rfl⟩ | ⟨hop, tags, hlookup, rfl⟩ | ⟨hop, hlookup, rfl⟩
  · exact ⟨rfl, by rw [DataStep.onSide, if_pos hnone, Option.elim_none]⟩
  · refine ⟨rfl, ?_⟩
    rw [DataStep.onSide, if_neg hop, Option.elim_some, Side.perform, hlookup]
  · refine ⟨(dLatency_sides req.op req.addr m).1, ?_⟩
    rw [DataStep.onSide, if_neg hop, Option.elim_some, Side.perform, hlookup]

theorem iRequests_perform {reqs : List InstRequest} {m m' : Memory}
    (h : iRequests now reqs m = some m') :
    m'.d = m.d ∧ m'.i = ((iSteps now reqs m).filterMap InstStep.onSide).foldl Side.perform m.i := by
  induction reqs generalizing m with
  | nil =>
    obtain rfl := Option.some.inj h
    exact ⟨rfl, rfl⟩
  | cons req reqs ih =>
    obtain ⟨m₁, hreq, hreqs⟩ := Option.bind_eq_some_iff.mp h
    obtain ⟨hd₁, hi₁⟩ := iRequest_perform hreq
    obtain ⟨hd, hi⟩ := ih hreqs
    rw [iSteps, hreq, Option.elim_some, foldl_filterMap_cons _ _ _ hi₁]
    exact ⟨hd.trans hd₁, hi⟩

theorem dRequests_perform {reqs : List DataRequest} {mem mem' : Mem} {m m' : Memory}
    (h : dRequests now reqs mem m = some (mem', m')) :
    m'.i = m.i ∧
      m'.d = ((dSteps now reqs mem m).filterMap DataStep.onSide).foldl Side.perform m.d := by
  induction reqs generalizing mem m with
  | nil =>
    obtain ⟨rfl, rfl⟩ := Prod.mk.inj (Option.some.inj h)
    exact ⟨rfl, rfl⟩
  | cons req reqs ih =>
    obtain ⟨⟨mem₁, m₁⟩, hreq, hreqs⟩ := Option.bind_eq_some_iff.mp h
    obtain ⟨hi₁, hd₁⟩ := dRequest_perform hreq
    obtain ⟨hi, hd⟩ := ih hreqs
    rw [dSteps, hreq, Option.elim_some, foldl_filterMap_cons _ _ _ hd₁]
    exact ⟨hi.trans hi₁, hd⟩

/-- The sides are what their steps make of them. -/
theorem cycle_sides {inp : MemoryInput iPorts dPorts} {t t' : History}
    (h : History.cycle inp t = some t') (hi : t.memory.i = t.iSide.foldl Side.perform Side.init)
    (hd : t.memory.d = t.dSide.foldl Side.perform Side.init) :
    t'.memory.i = t'.iSide.foldl Side.perform Side.init ∧
      t'.memory.d = t'.dSide.foldl Side.perform Side.init := by
  obtain ⟨r, hwork, rfl⟩ := Option.map_eq_some_iff.mp h
  rcases work_cases hwork with ⟨hreset, -, hmemory⟩ | ⟨hreset, i, d, m₁, hi₁, hd₁, hm₁, hr⟩
  · dsimp only
    rw [hmemory, sideSteps, sideSteps, if_pos hreset, if_pos hreset, List.append_nil,
      List.append_nil]
    exact ⟨hi, hd⟩
  · have hanswered : answered inp t.mem t.memory = some { t.memory with i := i, d := d } := by
      rw [answered, hi₁, hd₁]
      rfl
    have hreset' : ¬inp.reset = true := by rw [hreset]; exact Bool.false_ne_true
    obtain ⟨hd₂, hi₂⟩ := iRequests_perform hm₁
    obtain ⟨hi₃, hd₃⟩ := dRequests_perform hr
    dsimp only
    rw [sideSteps, sideSteps, instSteps, dataSteps, if_neg hreset', if_neg hreset', if_neg hreset',
      if_neg hreset', hanswered, Option.elim_some, Option.bind_some, hm₁, Option.elim_some,
      List.foldl_append, List.foldl_append, List.foldl_append, List.foldl_append, ← hi, ← hd,
      ← answers_perform hi₁, ← answers_perform hd₁]
    exact ⟨hi₃.trans hi₂, hd₃.trans (hd₂ ▸ rfl)⟩

/-- **In every run the two sides are what the logged steps make of empty ones.** -/
theorem run_sides {mem : Mem} {inputs : ℕ → MemoryInput iPorts dPorts} {n : ℕ} {t : History}
    (h : History.run mem inputs n = some t) :
    t.memory.i = t.iSide.foldl Side.perform Side.init ∧
      t.memory.d = t.dSide.foldl Side.perform Side.init := by
  induction n generalizing t with
  | zero =>
    obtain rfl := Option.some.inj h
    exact ⟨rfl, rfl⟩
  | succ n ih =>
    obtain ⟨t₀, hrun, hcycle⟩ := Option.bind_eq_some_iff.mp h
    obtain ⟨hi, hd⟩ := ih hrun
    exact cycle_sides hcycle hi hd

end Memory

end Cse502
