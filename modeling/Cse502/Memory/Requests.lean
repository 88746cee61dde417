import Cse502.Model.Memory

/-!
# Every request is answered once

Over any number of cycles and on any number of ports, the requests a side has accepted are those it
has answered, those in its bucket and those in its MSHRs. Each side is a merging of requests: a loop
that answers is a number of responses, and a loop over the requests is a number of requests.
-/

namespace Cse502

namespace DelayBucket

variable {α : Type*} [DecidableEq α] {now pick : ℕ} {b b' : DelayBucket α} {v : α}

/-- What is taken out was there, is due, and is there no more. -/
theorem get_eq_some (h : b.get now pick = some (v, b')) :
    ∃ t ≤ now, b.pq.Perm ((t, v) :: b'.pq) := by
  rw [get] at h
  split at h
  · cases h
  · next top htop =>
    split_ifs at h with hdue
    obtain ⟨rfl, rfl⟩ := Prod.mk.inj (Option.some.inj h)
    exact ⟨top.1, hdue,
      List.perm_cons_erase (List.mem_of_mem_filter (List.mem_of_getElem? htop))⟩

end DelayBucket

namespace Side

/-- The merging of requests that a side is, without the times. -/
def toState (s : Side) : Merging.State (BitVec 32) Word :=
  ⟨((s.resp.pq.map Prod.snd : List Response) : Multiset Response), s.mshr⟩

/-- The tags in the bucket. -/
def bucketTags (s : Side) : Multiset (BitVec 32) := (s.resp.pq.map fun e ↦ e.2.1 : List (BitVec 32))

/-- The tags in the MSHRs. -/
def mshrTags (s : Side) : Multiset (BitVec 32) := s.mshr.entries.bind fun e ↦ (e.2 : Multiset _)

/-- The requests that are not answered yet. -/
def outstanding (s : Side) : Multiset Response := s.toState.outstanding

variable {s s' : Side}

/-- The tags of both containers. -/
theorem map_fst_outstanding (s : Side) :
    s.outstanding.map Prod.fst = s.bucketTags + s.mshrTags := by
  rw [outstanding, Merging.State.outstanding, Multiset.map_add, Merging.waiting, Multiset.map_bind]
  congr 1
  · rw [toState, bucketTags, Multiset.map_coe, List.map_map]
    rfl
  · refine Multiset.bind_congr fun e _ ↦ ?_
    rw [Multiset.map_coe, List.map_map]
    exact congrArg _ (List.map_id _)

/-- The requests that waited behind a response are due at once. -/
private theorem pending_release (now : ℕ) (a : Word) (tags : List (BitVec 32))
    (b : DelayBucket Response) :
    (((tags.foldl (fun b tag ↦ b.add now (tag, a) 0) b).pq.map Prod.snd : List Response) :
        Multiset Response) =
      ((b.pq.map Prod.snd : List Response) : Multiset Response) +
        ((tags.map fun tag ↦ (tag, a) : List Response) : Multiset Response) := by
  induction tags generalizing b with
  | nil => exact (add_zero _).symm
  | cons tag tags ih =>
    rw [List.foldl_cons, ih, DelayBucket.add, List.map_cons, List.map_cons, ← Multiset.cons_coe,
      ← Multiset.cons_coe, Multiset.cons_add, Multiset.add_cons]

/-- **A response is one of the merging.** -/
theorem toState_respond {now pick : ℕ} {r : Response} (h : s.respond now pick = some (r, s')) :
    r ∈ s.toState.pending ∧ s'.toState = s.toState.respond r := by
  rw [respond, Option.map_eq_some_iff] at h
  obtain ⟨⟨v, resp⟩, hget, h⟩ := h
  obtain ⟨t, -, hperm⟩ := DelayBucket.get_eq_some hget
  have hfst : v = r := by
    split at h <;> exact congrArg Prod.fst h
  subst hfst
  have hcons : s.toState.pending = v ::ₘ ((resp.pq.map Prod.snd : List Response) : Multiset _) :=
    Multiset.coe_eq_coe.mpr (hperm.map Prod.snd)
  have hpending : ((resp.pq.map Prod.snd : List Response) : Multiset Response) =
      s.toState.pending.erase v := by
    rw [hcons, Multiset.erase_cons_head]
  refine ⟨hcons ▸ Multiset.mem_cons_self _ _, ?_⟩
  rw [Merging.State.respond, ← hpending]
  dsimp only at h
  split at h
  · next tags hlookup =>
    obtain ⟨-, rfl⟩ := Prod.mk.inj h
    simp only [toState, hlookup, pending_release]
  · next hlookup =>
    obtain ⟨-, rfl⟩ := Prod.mk.inj h
    simp only [toState, hlookup]

/-- **A request is one of the merging**, first of its address or merged. -/
theorem toState_merge {tag : BitVec 32} {addr : Word} {tags : List (BitVec 32)}
    (h : s.mshr.lookup addr = some tags) :
    (s.merge tag addr tags).toState = s.toState.request tag addr := by
  simp only [Merging.State.request, toState, h, merge]

theorem toState_launch {now latency : ℕ} {tag : BitVec 32} {addr : Word}
    (h : s.mshr.lookup addr = none) :
    (s.launch now tag addr latency).toState = s.toState.request tag addr := by
  simp only [Merging.State.request, toState, h, launch, DelayBucket.add, List.map_cons,
    Multiset.cons_coe]

end Side

namespace Memory

/-! ## The loops -/

section Answers

variable {width : ℕ} {read : Word → Option (BitVec width)} {now : ℕ}

/-- The tags of the answers. -/
def sentTags (out : List (Answer width)) : List (BitVec 32) := out.filterMap (Option.map Prod.fst)

/-- What a side gives away and keeps. -/
structure Answered (s s' : Side) (rs : List Response) : Prop where
  outstanding : s.outstanding = (rs : Multiset Response) + s'.outstanding
  covered : s.toState.Covered → s'.toState.Covered

theorem Answered.nil (s : Side) : Answered s s [] := ⟨(zero_add _).symm, id⟩

theorem Answered.append {s s' s'' : Side} {rs rs' : List Response} (h : Answered s s' rs)
    (h' : Answered s' s'' rs') : Answered s s'' (rs ++ rs') where
  outstanding := by
    rw [h.outstanding, h'.outstanding, ← add_assoc, Multiset.coe_add]
  covered hs := h'.covered (h.covered hs)

/-- A port gets an answer or none. -/
theorem answer_spec {pick : ℕ} {s s' : Side} {out : Answer width}
    (h : answer read now pick s = some (out, s')) :
    (out = none ∧ s' = s) ∨
      ∃ r data, out = some (r.1, data) ∧ read r.2 = some data ∧
        s.respond now pick = some (r, s') ∧ Answered s s' [r] := by
  rw [answer] at h
  split at h
  · obtain ⟨rfl, rfl⟩ := Prod.mk.inj (Option.some.inj h)
    exact .inl ⟨rfl, rfl⟩
  · next r hrespond =>
    obtain ⟨data, hdata, h⟩ := Option.map_eq_some_iff.mp h
    obtain ⟨rfl, rfl⟩ := Prod.mk.inj h
    obtain ⟨hmem, hstate⟩ := Side.toState_respond hrespond
    refine .inr ⟨r.1, data, rfl, hdata, hrespond, ?_, fun hs ↦ ?_⟩
    · rw [Side.outstanding, Merging.State.outstanding_respond hmem, ← hstate]
      exact (Multiset.singleton_add _ _).symm
    · rw [hstate]
      exact hs.respond _

/-- The loop that answers. -/
theorem answers_spec {picks : List ℕ} {s s' : Side} {out : List (Answer width)}
    (h : answers read now picks s = some (out, s')) :
    ∃ rs, rs.map Prod.fst = sentTags out ∧ Answered s s' rs := by
  induction picks generalizing s out with
  | nil =>
    obtain ⟨rfl, rfl⟩ := Prod.mk.inj (Option.some.inj h)
    exact ⟨[], rfl, .nil s⟩
  | cons pick picks ih =>
    obtain ⟨⟨out₁, s₁⟩, hanswer, h⟩ := Option.bind_eq_some_iff.mp h
    obtain ⟨⟨outs, s₂⟩, hanswers, h⟩ := Option.map_eq_some_iff.mp h
    obtain ⟨rfl, rfl⟩ := Prod.mk.inj h
    obtain ⟨rs, hrs, hanswered⟩ := ih hanswers
    rcases answer_spec hanswer with ⟨rfl, rfl⟩ | ⟨r, data, rfl, -, -, hanswered₁⟩
    · exact ⟨rs, hrs, hanswered⟩
    · exact ⟨r :: rs, congrArg (r.1 :: ·) hrs, hanswered₁.append hanswered⟩

/-- The loop that answers goes through if every word that is waited for can be read. -/
theorem exists_answers {picks : List ℕ} {s : Side}
    (hread : ∀ r ∈ s.outstanding, ∃ data, read r.2 = some data) :
    ∃ out s', answers read now picks s = some (out, s') := by
  induction picks generalizing s with
  | nil => exact ⟨[], s, rfl⟩
  | cons pick picks ih =>
    have hanswer : ∃ out s', answer read now pick s = some (out, s') := by
      rw [answer]
      split
      · exact ⟨none, s, rfl⟩
      · next r hrespond =>
        obtain ⟨hmem, -⟩ := Side.toState_respond hrespond
        obtain ⟨data, hdata⟩ := hread r.1 (Multiset.mem_add.mpr (.inl hmem))
        exact ⟨some (r.1.1, data), r.2, by rw [hdata]; rfl⟩
    obtain ⟨out, s', hanswer⟩ := hanswer
    have hread' : ∀ r ∈ s'.outstanding, ∃ data, read r.2 = some data := by
      intro r hr
      rcases answer_spec hanswer with ⟨-, rfl⟩ | ⟨r', data, -, -, -, hanswered⟩
      · exact hread r hr
      · exact hread r (hanswered.outstanding ▸ Multiset.mem_add.mpr (.inr hr))
    obtain ⟨outs, s'', hanswers⟩ := ih hread'
    exact ⟨out :: outs, s'', by rw [answers, hanswer, Option.bind_some, hanswers]; rfl⟩

end Answers

section Requests

variable {now : ℕ}

/-- What a side is asked. -/
structure Asked (s s' : Side) (rs : List Response) : Prop where
  outstanding : s'.outstanding = (rs : Multiset Response) + s.outstanding
  covered : s.toState.Covered → s'.toState.Covered

theorem Asked.nil (s : Side) : Asked s s [] := ⟨(zero_add _).symm, id⟩

theorem Asked.append {s s' s'' : Side} {rs rs' : List Response} (h : Asked s s' rs)
    (h' : Asked s' s'' rs') : Asked s s'' (rs ++ rs') where
  outstanding := by
    rw [h'.outstanding, h.outstanding, ← add_assoc, add_comm (rs' : Multiset Response),
      Multiset.coe_add]
  covered hs := h'.covered (h.covered hs)

/-- Merged or first of its address, a request is asked. -/
theorem asked_of_toState {s s' : Side} {tag : BitVec 32} {addr : Word}
    (h : s'.toState = s.toState.request tag addr) : Asked s s' [(tag, addr)] := by
  constructor
  · rw [Side.outstanding, h, Merging.State.outstanding_request]
    exact (Multiset.singleton_add _ _).symm
  · rw [h]
    exact fun hs ↦ hs.request _ _

/-- The requests of the instruction ports, with their addresses. -/
def iAsked (reqs : List InstRequest) : List Response :=
  reqs.filterMap fun req ↦ if req.op = .none then none else some (req.tagin, req.addr)

/-- The requests of the data ports, with their addresses. -/
def dAsked (reqs : List DataRequest) : List Response :=
  reqs.filterMap fun req ↦ if req.op = .none then none else some (req.tagin, req.addr)

/-- The caches leave both sides alone. -/
theorem lookL2_sides (addr : Word) (latency : ℕ) (m : Memory) :
    (m.lookL2 addr latency).2.i = m.i ∧ (m.lookL2 addr latency).2.d = m.d := by
  rw [lookL2]
  split <;> exact ⟨rfl, rfl⟩

theorem iLatency_sides (addr : Word) (m : Memory) :
    (m.iLatency addr).2.i = m.i ∧ (m.iLatency addr).2.d = m.d := by
  rw [iLatency]
  split
  · exact ⟨rfl, rfl⟩
  · exact lookL2_sides _ _ _

theorem writeback_sides (victim : Dirty) (addr : Word) (m : Memory) :
    (m.writeback victim addr).i = m.i ∧ (m.writeback victim addr).d = m.d := by
  rw [writeback]
  split_ifs
  · split <;> exact ⟨rfl, rfl⟩
  · exact ⟨rfl, rfl⟩

theorem dLatency_sides (op : MemOp) (addr : Word) (m : Memory) :
    (m.dLatency op addr).2.i = m.i ∧ (m.dLatency op addr).2.d = m.d := by
  rw [dLatency]
  split
  · exact ⟨rfl, rfl⟩
  · obtain ⟨hi, hd⟩ := lookL2_sides addr (3 + 9) _
    obtain ⟨hi', hd'⟩ := writeback_sides _ addr _
    exact ⟨hi.trans hi', hd.trans hd'⟩

theorem iAsked_cons (req : InstRequest) (reqs : List InstRequest) :
    iAsked (req :: reqs) = iAsked [req] ++ iAsked reqs :=
  List.filterMap_append (l := [req])

theorem dAsked_cons (req : DataRequest) (reqs : List DataRequest) :
    dAsked (req :: reqs) = dAsked [req] ++ dAsked reqs :=
  List.filterMap_append (l := [req])

/-- One port of the instruction side. -/
theorem iRequest_spec {req : InstRequest} {m m' : Memory} (h : iRequest now req m = some m') :
    m'.d = m.d ∧ Asked m.i m'.i (iAsked [req]) := by
  rw [iRequest] at h
  by_cases hnone : req.op = .none
  · rw [if_pos hnone] at h
    obtain rfl := Option.some.inj h
    rw [iAsked, List.filterMap_cons, if_pos hnone]
    exact ⟨rfl, .nil m.i⟩
  · have hasked : iAsked [req] = [(req.tagin, req.addr)] := by
      rw [iAsked, List.filterMap_cons, if_neg hnone]
      rfl
    rw [if_neg hnone] at h
    obtain ⟨-, h⟩ := Option.ite_none_left_eq_some.mp h
    rw [hasked]
    split at h
    · next tags hlookup =>
      obtain rfl := Option.some.inj h
      exact ⟨rfl, asked_of_toState (Side.toState_merge hlookup)⟩
    · next hlookup =>
      obtain ⟨-, h⟩ := Option.ite_none_right_eq_some.mp h
      obtain rfl := Option.some.inj h
      obtain ⟨hi, hd⟩ := iLatency_sides req.addr m
      refine ⟨hd, asked_of_toState ?_⟩
      rw [hi]
      exact Side.toState_launch hlookup

theorem iRequests_spec {reqs : List InstRequest} {m m' : Memory}
    (h : iRequests now reqs m = some m') : m'.d = m.d ∧ Asked m.i m'.i (iAsked reqs) := by
  induction reqs generalizing m with
  | nil =>
    obtain rfl := Option.some.inj h
    exact ⟨rfl, .nil m.i⟩
  | cons req reqs ih =>
    obtain ⟨m₁, hreq, hreqs⟩ := Option.bind_eq_some_iff.mp h
    obtain ⟨hd₁, hasked₁⟩ := iRequest_spec hreq
    obtain ⟨hd, hasked⟩ := ih hreqs
    rw [iAsked_cons]
    exact ⟨hd.trans hd₁, hasked₁.append hasked⟩

/-- One port of the data side. -/
theorem dRequest_spec {req : DataRequest} {mem mem' : Mem} {m m' : Memory}
    (h : dRequest now req mem m = some (mem', m')) :
    m'.i = m.i ∧ Asked m.d m'.d (dAsked [req]) := by
  rw [dRequest] at h
  by_cases hnone : req.op = .none
  · rw [if_pos hnone] at h
    obtain ⟨rfl, rfl⟩ := Prod.mk.inj (Option.some.inj h)
    rw [dAsked, List.filterMap_cons, if_pos hnone]
    exact ⟨rfl, .nil m.d⟩
  · have hasked : dAsked [req] = [(req.tagin, req.addr)] := by
      rw [dAsked, List.filterMap_cons, if_neg hnone]
      rfl
    rw [if_neg hnone] at h
    obtain ⟨-, h⟩ := Option.ite_none_left_eq_some.mp h
    obtain ⟨mem₁, -, h⟩ := Option.map_eq_some_iff.mp h
    rw [hasked]
    split at h
    · next tags hlookup =>
      obtain ⟨rfl, rfl⟩ := Prod.mk.inj h
      exact ⟨rfl, asked_of_toState (Side.toState_merge hlookup)⟩
    · next hlookup =>
      obtain ⟨rfl, rfl⟩ := Prod.mk.inj h
      obtain ⟨hi, hd⟩ := dLatency_sides req.op req.addr m
      refine ⟨hi, asked_of_toState ?_⟩
      rw [hd]
      exact Side.toState_launch hlookup

theorem dRequests_spec {reqs : List DataRequest} {mem mem' : Mem} {m m' : Memory}
    (h : dRequests now reqs mem m = some (mem', m')) :
    m'.i = m.i ∧ Asked m.d m'.d (dAsked reqs) := by
  induction reqs generalizing mem m with
  | nil =>
    obtain ⟨rfl, rfl⟩ := Prod.mk.inj (Option.some.inj h)
    exact ⟨rfl, .nil m.d⟩
  | cons req reqs ih =>
    obtain ⟨⟨mem₁, m₁⟩, hreq, hreqs⟩ := Option.bind_eq_some_iff.mp h
    obtain ⟨hi₁, hasked₁⟩ := dRequest_spec hreq
    obtain ⟨hi, hasked⟩ := ih hreqs
    rw [dAsked_cons]
    exact ⟨hi.trans hi₁, hasked₁.append hasked⟩

end Requests

/-! ## Requests that pass the asserts -/

end Memory

open Memory

/-- The asserts on an instruction request, now and when it is answered. -/
def InstRequest.Valid (req : InstRequest) : Prop :=
  req.op = .none ∨ (req.op = .read ∧ inRange req.addr = true ∧ req.addr.toNat % 16 = 0)

/-- The asserts on a data request. -/
def DataRequest.Valid (req : DataRequest) : Prop :=
  req.op = .none ∨ (inRange req.addr = true ∧ ByteMemory.Aligned req.addr)

instance : DecidablePred DataRequest.Valid := fun req ↦
  inferInstanceAs (Decidable (req.op = .none ∨ (inRange req.addr = true ∧
    ByteMemory.Aligned req.addr)))

/-- The requests on all ports. -/
structure MemoryInput.Valid {iPorts dPorts : ℕ} (inp : MemoryInput iPorts dPorts) : Prop where
  i : ∀ p, (inp.iReq p).Valid
  d : ∀ p, (inp.dReq p).Valid

namespace Memory

variable {now : ℕ}

theorem exists_iRequests {reqs : List InstRequest} (h : ∀ req ∈ reqs, req.Valid) (m : Memory) :
    ∃ m', iRequests now reqs m = some m' := by
  induction reqs generalizing m with
  | nil => exact ⟨m, rfl⟩
  | cons req reqs ih =>
    have hreq : ∃ m', iRequest now req m = some m' := by
      rw [iRequest]
      rcases h req List.mem_cons_self with hnone | ⟨hread, hrange, -⟩
      · exact ⟨m, if_pos hnone⟩
      · rw [if_neg (by rw [hread]; exact MemOp.noConfusion), if_neg (not_not.mpr hread)]
        split
        · exact ⟨_, rfl⟩
        · exact ⟨_, if_pos hrange⟩
    obtain ⟨m₁, hm₁⟩ := hreq
    obtain ⟨m', hm'⟩ := ih (fun req' hmem ↦ h req' (List.mem_cons_of_mem _ hmem)) m₁
    exact ⟨m', by rw [iRequests, hm₁, Option.bind_some, hm']⟩

theorem exists_dRequests {reqs : List DataRequest} (h : ∀ req ∈ reqs, req.Valid) (mem : Mem)
    (m : Memory) : ∃ mem' m', dRequests now reqs mem m = some (mem', m') := by
  induction reqs generalizing mem m with
  | nil => exact ⟨mem, m, rfl⟩
  | cons req reqs ih =>
    have hreq : ∃ r, dRequest now req mem m = some r := by
      rw [dRequest]
      rcases h req List.mem_cons_self with hnone | ⟨hrange, haligned⟩
      · exact ⟨_, if_pos hnone⟩
      · by_cases hnone : req.op = .none
        · exact ⟨_, if_pos hnone⟩
        · have hwrite : memDWrite mem req.addr req.din =
              some (ByteMemory.store mem req.addr req.din) := if_pos haligned
          rw [if_neg hnone, hrange, hwrite]
          by_cases hop : req.op = .write
          · rw [if_pos hop]
            exact ⟨_, rfl⟩
          · rw [if_neg hop]
            exact ⟨_, rfl⟩
    obtain ⟨r, hr⟩ := hreq
    obtain ⟨mem', m', hm'⟩ := ih (fun req' hmem ↦ h req' (List.mem_cons_of_mem _ hmem)) r.1 r.2
    exact ⟨mem', m', by rw [dRequests, hr, Option.bind_some, hm']⟩

/-- What valid instruction requests ask for can be read. -/
theorem aligned_of_mem_iAsked {reqs : List InstRequest} (h : ∀ req ∈ reqs, req.Valid) {r : Response}
    (hr : r ∈ iAsked reqs) : r.2.toNat % 16 = 0 := by
  obtain ⟨req, hreq, hr⟩ := List.mem_filterMap.mp hr
  split_ifs at hr with hnone
  obtain rfl := Option.some.inj hr
  rcases h req hreq with hnone' | ⟨-, -, haligned⟩
  · exact absurd hnone' hnone
  · exact haligned

/-- What valid data requests ask for can be read. -/
theorem aligned_of_mem_dAsked {reqs : List DataRequest} (h : ∀ req ∈ reqs, req.Valid) {r : Response}
    (hr : r ∈ dAsked reqs) : ByteMemory.Aligned r.2 := by
  obtain ⟨req, hreq, hr⟩ := List.mem_filterMap.mp hr
  split_ifs at hr with hnone
  obtain rfl := Option.some.inj hr
  rcases h req hreq with hnone' | ⟨-, haligned⟩
  · exact absurd hnone' hnone
  · exact haligned

/-! ## Runs -/

/-- The guest memory and `Memory`, with the tags each side has accepted and sent so far. -/
structure Traffic where
  mem : Mem
  memory : Memory
  iAccepted : List (BitVec 32)
  dAccepted : List (BitVec 32)
  iSent : List (BitVec 32)
  dSent : List (BitVec 32)

section Run

variable {iPorts dPorts : ℕ}

/-- One activation. In reset no request is accepted. -/
def Traffic.cycle (inp : MemoryInput iPorts dPorts) (t : Traffic) : Option Traffic :=
  (work inp t.mem t.memory).map fun r ↦
    { mem := r.mem
      memory := r.memory
      iAccepted :=
        t.iAccepted ++ if inp.reset then [] else (iAsked (List.ofFn inp.iReq)).map Prod.fst
      dAccepted :=
        t.dAccepted ++ if inp.reset then [] else (dAsked (List.ofFn inp.dReq)).map Prod.fst
      iSent := t.iSent ++ sentTags r.iOut
      dSent := t.dSent ++ sentTags r.dOut }

/-- The first `n` activations, from an empty `Memory`. -/
def Traffic.run (mem : Mem) (inputs : ℕ → MemoryInput iPorts dPorts) : ℕ → Option Traffic
  | 0 => some ⟨mem, init, [], [], [], []⟩
  | n + 1 => (Traffic.run mem inputs n).bind (Traffic.cycle (inputs n))

/-- The balance of one side: what it has accepted is what it has sent and what is in its two
containers, and every list of the MSHRs has a response on its way. -/
structure Balanced (accepted sent : List (BitVec 32)) (s : Side) : Prop where
  tags : (accepted : Multiset (BitVec 32)) =
    (sent : Multiset (BitVec 32)) + s.bucketTags + s.mshrTags
  pending : ∀ addr ∈ s.mshr, ∃ e ∈ s.resp.pq, e.2.2 = addr

/-- What holds in every cycle. -/
private structure Accounted (accepted sent : List (BitVec 32)) (s : Side) (readable : Word → Prop) :
    Prop where
  tags : (accepted : Multiset (BitVec 32)) = (sent : Multiset _) + s.outstanding.map Prod.fst
  covered : s.toState.Covered
  readable : ∀ r ∈ s.outstanding, readable r.2

private theorem Accounted.balanced {accepted sent : List (BitVec 32)} {s : Side}
    {readable : Word → Prop} (h : Accounted accepted sent s readable) :
    Balanced accepted sent s where
  tags := by rw [h.tags, Side.map_fst_outstanding, add_assoc]
  pending addr haddr := by
    obtain ⟨tag, hmem⟩ := h.covered addr haddr
    obtain ⟨e, he, heq⟩ := List.mem_map.mp (Multiset.mem_coe.mp hmem)
    exact ⟨e, he, congrArg Prod.snd heq⟩

private theorem Accounted.init (readable : Word → Prop) : Accounted [] [] Side.init readable where
  tags := rfl
  covered := Merging.State.covered_empty
  readable r hr := absurd hr (Multiset.notMem_zero r)

/-- A loop that answers and one over the requests. -/
private theorem Accounted.cycle {accepted sent sent' : List (BitVec 32)} {s s₁ s' : Side}
    {asked answered : List Response} {readable : Word → Prop}
    (h : Accounted accepted sent s readable) (hanswered : Answered s s₁ answered)
    (hsent : answered.map Prod.fst = sent') (hasked : Asked s₁ s' asked)
    (hreadable : ∀ r ∈ asked, readable r.2) :
    Accounted (accepted ++ asked.map Prod.fst) (sent ++ sent') s' readable where
  tags := by
    subst hsent
    rw [← Multiset.coe_add, ← Multiset.coe_add, h.tags, hanswered.outstanding, hasked.outstanding,
      Multiset.map_add, Multiset.map_add, Multiset.map_coe, Multiset.map_coe]
    abel
  covered := hasked.covered (hanswered.covered h.covered)
  readable r hr := by
    rw [hasked.outstanding] at hr
    rcases Multiset.mem_add.mp hr with hr | hr
    · exact hreadable r (Multiset.mem_coe.mp hr)
    · exact h.readable r (hanswered.outstanding ▸ Multiset.mem_add.mpr (.inr hr))

private structure TrafficInv (t : Traffic) : Prop where
  i : Accounted t.iAccepted t.iSent t.memory.i fun addr ↦ addr.toNat % 16 = 0
  d : Accounted t.dAccepted t.dSent t.memory.d ByteMemory.Aligned

private theorem TrafficInv.cycle {t : Traffic} (h : TrafficInv t) {inp : MemoryInput iPorts dPorts}
    (hvalid : inp.Valid) : ∃ t', Traffic.cycle inp t = some t' ∧ TrafficInv t' := by
  cases hreset : inp.reset with
  | true =>
    refine ⟨_, by rw [Traffic.cycle, work, hreset]; rfl, ?_⟩
    constructor
    · simpa [sentTags] using h.i
    · simpa [sentTags] using h.d
  | false =>
    have hivalid : ∀ req ∈ List.ofFn inp.iReq, req.Valid := by
      intro req hreq
      obtain ⟨p, rfl⟩ := List.mem_ofFn.mp hreq
      exact hvalid.i p
    have hdvalid : ∀ req ∈ List.ofFn inp.dReq, req.Valid := by
      intro req hreq
      obtain ⟨p, rfl⟩ := List.mem_ofFn.mp hreq
      exact hvalid.d p
    -- nothing that is waited for fails an assert when it is read
    obtain ⟨iOut, i, hi⟩ : ∃ out s,
        answers (memIRead t.mem) inp.now (List.ofFn inp.iPick) t.memory.i = some (out, s) :=
      exists_answers fun r hr ↦ ⟨_, if_pos (h.i.readable r hr)⟩
    obtain ⟨dOut, d, hd⟩ : ∃ out s,
        answers (memDRead t.mem) inp.now (List.ofFn inp.dPick) t.memory.d = some (out, s) :=
      exists_answers fun r hr ↦ ⟨_, if_pos (h.d.readable r hr)⟩
    obtain ⟨m₁, hm₁⟩ : ∃ m,
        iRequests inp.now (List.ofFn inp.iReq) { t.memory with i := i, d := d } = some m :=
      exists_iRequests hivalid _
    obtain ⟨mem', m', hm'⟩ : ∃ mem m,
        dRequests inp.now (List.ofFn inp.dReq) t.mem m₁ = some (mem, m) :=
      exists_dRequests hdvalid _ _
    have hwork : work inp t.mem t.memory = some ⟨mem', m', iOut, dOut⟩ := by
      rw [work, hreset]
      simp only [Bool.false_eq_true, if_false, hi, hd, hm₁, hm', Option.bind_eq_bind,
        Option.bind_some]
    obtain ⟨irs, hirs, hianswered⟩ := answers_spec hi
    obtain ⟨drs, hdrs, hdanswered⟩ := answers_spec hd
    obtain ⟨hd₁, hiasked⟩ := iRequests_spec hm₁
    obtain ⟨hi', hdasked⟩ := dRequests_spec hm'
    refine ⟨_, by rw [Traffic.cycle, hwork, hreset]; rfl, ?_⟩
    constructor
    · refine h.i.cycle hianswered hirs ?_ fun r hr ↦ aligned_of_mem_iAsked hivalid hr
      rw [show (_ : Side) = m'.i from rfl, hi']
      exact hiasked
    · refine h.d.cycle hdanswered hdrs ?_ fun r hr ↦ aligned_of_mem_dAsked hdvalid hr
      rw [hd₁] at hdasked
      exact hdasked

/-- No assert fails in such a run. -/
theorem exists_trafficInv (mem : Mem) {inputs : ℕ → MemoryInput iPorts dPorts}
    (h : ∀ k, (inputs k).Valid) (n : ℕ) :
    ∃ t, Traffic.run mem inputs n = some t ∧ TrafficInv t := by
  induction n with
  | zero => exact ⟨_, rfl, .init _, .init _⟩
  | succ n ih =>
    obtain ⟨t, hrun, ht⟩ := ih
    obtain ⟨t', hcycle, ht'⟩ := ht.cycle (h n)
    exact ⟨t', by rw [Traffic.run, hrun, Option.bind_some, hcycle], ht'⟩

/-- **Every request is answered once**, on any number of ports and in every run whose requests pass
the asserts. -/
theorem run_balanced (mem : Mem) (inputs : ℕ → MemoryInput iPorts dPorts)
    (h : ∀ k, (inputs k).Valid) (n : ℕ) :
    ∃ t, Traffic.run mem inputs n = some t ∧ Balanced t.iAccepted t.iSent t.memory.i ∧
      Balanced t.dAccepted t.dSent t.memory.d := by
  obtain ⟨t, hrun, ht⟩ := exists_trafficInv mem h n
  exact ⟨t, hrun, ht.i.balanced, ht.d.balanced⟩

/-- A word is asked for in two cycles; the second request is merged. -/
def askedTwice : ℕ → MemoryInput 1 1
  | 0 => ⟨false, 0, fun _ ↦ 0, fun _ ↦ 0, fun _ ↦ ⟨.none, 0, 0⟩, fun _ ↦ ⟨.read, 1, 0x10000, 0⟩⟩
  | 1 => ⟨false, 500, fun _ ↦ 0, fun _ ↦ 0, fun _ ↦ ⟨.none, 0, 0⟩, fun _ ↦ ⟨.read, 2, 0x10000, 0⟩⟩
  | n => ⟨false, 500 * n, fun _ ↦ 0, fun _ ↦ 0, fun _ ↦ ⟨.none, 0, 0⟩, fun _ ↦ ⟨.none, 0, 0, 0⟩⟩

theorem run_balanced_askedTwice :
    ∃ t, Traffic.run (fun _ ↦ 0) askedTwice 300 = some t ∧
      Balanced t.iAccepted t.iSent t.memory.i ∧ Balanced t.dAccepted t.dSent t.memory.d := by
  have hread : inRange 0x10000 = true ∧ ByteMemory.Aligned 0x10000 := ⟨by decide, by decide⟩
  refine run_balanced _ askedTwice (fun k ↦ ?_) 300
  match k with
  | 0 | 1 => exact ⟨fun _ ↦ .inl rfl, fun _ ↦ .inr hread⟩
  | n + 2 => exact ⟨fun _ ↦ .inl rfl, fun _ ↦ .inl rfl⟩

end Run

end Memory

end Cse502
