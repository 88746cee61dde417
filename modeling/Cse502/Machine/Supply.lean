import Cse502.Machine.Decoding
import Cse502.Machine.Frontend
import Cse502.Memory.Loads
import Cse502.Memory.Steps
import Cse502.Memory.Views

/-!
# What the decoder is handed

`Memory` answers late, answers a request that stays on the port again and again, and answers what
was asked for before a redirection. `Fetch` passes on what it waits for and nothing else, so the
blocks it hands over are those of the guest memory, each once, from the address it was redirected to
on.

## The invariants

Every request that is not answered yet has the lower half of its address for a tag, and the address
is in range (`Served`): a tag then tells the address. The instruction pointer of `Fetch` is where
the next block begins, behind the one that the decoder reads in this cycle (`Supplied`).
-/

namespace Cse502.Machine

open Fetch (block range)
open Frontend (blockBytes Awaited)
open Memory (inRange memIRead)

/-! ## The instruction port -/

/-- A request as `Fetch` makes it, that has passed the asserts. -/
def Tagged (r : Response) : Prop := r.1 = r.2.setWidth 32 ∧ inRange r.2 = true

/-- What `Memory::work` does with one instruction port. A request that is merged has the address of
one that was accepted before. -/
structure InstWork (mem : Mem) (req : InstRequest) (i i' : Side) (out : Answer 128) : Prop where
  answer : ∀ tag data, out = some (tag, data) →
    ∃ addr, (tag, addr) ∈ i.outstanding ∧ memIRead mem addr = some data
  outstanding : ∀ r ∈ i'.outstanding, r ∈ i.outstanding ∨ (req.op ≠ .none ∧
    r = (req.tagin, req.addr) ∧
      (inRange req.addr = true ∨ ∃ tag, (tag, req.addr) ∈ i.outstanding))
  covered : i'.toState.Covered

/-- A request is in range, or merged. -/
theorem iRequest_inRange {now : ℕ} {req : InstRequest} {m m' : Memory}
    (h : Memory.iRequest now req m = some m') (hop : req.op ≠ .none) :
    inRange req.addr = true ∨ req.addr ∈ m.i.mshr := by
  rw [Memory.iRequest, if_neg hop] at h
  obtain ⟨-, h⟩ := Option.ite_none_left_eq_some.mp h
  split at h
  · next tags hlookup => exact .inr (Finmap.mem_of_lookup_eq_some hlookup)
  · exact .inl (Option.ite_none_right_eq_some.mp h).1

/-- **`Memory::work` with one port on either side**, seen from the instruction port. -/
theorem work_inst {inp : MemoryInput 1 1} {mem : Mem} {m : Memory} {r : MemoryResult}
    (hreset : inp.reset = false) (hcovered : m.i.toState.Covered)
    (h : Memory.work inp mem m = some r) :
    ∃ out, r.iOut = [out] ∧ InstWork mem (inp.iReq 0) m.i r.memory.i out := by
  rcases Memory.work_cases h with ⟨hreset', -⟩ | ⟨-, i, d, m₁, hi, -, hm₁, hr⟩
  · exact absurd (hreset.symm.trans hreset') Bool.noConfusion
  obtain ⟨⟨out, i₁⟩, hanswer, hi⟩ := Option.bind_eq_some_iff.mp hi
  obtain ⟨⟨outs, i₂⟩, hnil, hi⟩ := Option.map_eq_some_iff.mp hi
  obtain ⟨rfl, rfl⟩ := Prod.mk.inj (Option.some.inj hnil)
  obtain ⟨hout, rfl⟩ := Prod.mk.inj hi
  obtain ⟨m₂, hrequest, hm₂⟩ := Option.bind_eq_some_iff.mp hm₁
  obtain rfl := Option.some.inj hm₂
  obtain ⟨hside, -⟩ := Memory.dRequests_spec hr
  obtain ⟨-, hasked⟩ := Memory.iRequest_spec hrequest
  have hrest : (∀ r ∈ i₁.outstanding, r ∈ m.i.outstanding) ∧ i₁.toState.Covered := by
    rcases Memory.answer_spec hanswer with ⟨-, rfl⟩ | ⟨r', data, -, -, -, hanswered⟩
    · exact ⟨fun r hr ↦ hr, hcovered⟩
    · exact ⟨fun r hr ↦ hanswered.outstanding ▸ Multiset.mem_add.mpr (.inr hr),
        hanswered.covered hcovered⟩
  refine ⟨out, hout.symm, ?_, fun r hr ↦ ?_, ?_⟩
  · rintro tag data rfl
    rcases Memory.answer_spec hanswer with ⟨hout, -⟩ | ⟨⟨tag', addr⟩, data', hout, hread, hresp, -⟩
    · cases hout
    · obtain ⟨rfl, rfl⟩ := Prod.mk.inj (Option.some.inj hout)
      exact ⟨addr, Multiset.mem_add.mpr (.inl (Side.toState_respond hresp).1), hread⟩
  · rw [hside, hasked.outstanding] at hr
    rcases Multiset.mem_add.mp hr with hr | hr
    · obtain ⟨req, hreq, hr⟩ := List.mem_filterMap.mp (Multiset.mem_coe.mp hr)
      obtain rfl := List.mem_singleton.mp hreq
      split_ifs at hr with hop
      refine .inr ⟨hop, (Option.some.inj hr).symm, ?_⟩
      rcases iRequest_inRange hrequest hop with hrange | hmerged
      · exact .inl hrange
      · obtain ⟨tag, htag⟩ := hrest.2 _ hmerged
        exact .inr ⟨tag, hrest.1 _ (Multiset.mem_add.mpr (.inl htag))⟩
    · exact .inl (hrest.1 r hr)
  · rw [hside]
    exact hasked.covered hrest.2

/-- The instruction side between two cycles, of a machine that leaves its guest memory alone. -/
structure Served (mem : Mem) (m : Machine) : Prop where
  unchanged : m.core.mem = mem
  idle : m.cur.dOp = .none
  request : m.cur.iOp ≠ .none → m.cur.iTagin = m.cur.iAddr.setWidth 32
  outstanding : ∀ r ∈ m.memory.i.outstanding, Tagged r
  covered : m.memory.i.toState.Covered
  answer : m.cur.iReady = true → ∃ a, inRange a = true ∧ m.cur.iTagout = a.setWidth 32 ∧
    memIRead mem a = some m.cur.iData

variable {u : Decoder.Udis} {i : MachineInput} {m m' : Machine} {mem : Mem} {next : Word}

/-- The tag that `Fetch` leaves on the port is that of the address. -/
theorem fetch_request (cur : Signals) (f : Fetch) {c : Core}
    (h : c.nxt.iOp ≠ .none → c.nxt.iTagin = c.nxt.iAddr.setWidth 32) :
    (Fetch.work cur f c).2.nxt.iOp ≠ .none →
      (Fetch.work cur f c).2.nxt.iTagin = (Fetch.work cur f c).2.nxt.iAddr.setWidth 32 := by
  have hport : ∀ (a : Word) (f : Fetch) (c : Core),
      (c.nxt.iOp ≠ .none → c.nxt.iTagin = c.nxt.iAddr.setWidth 32) →
      (Fetch.port cur a f c).2.nxt.iOp ≠ .none →
        (Fetch.port cur a f c).2.nxt.iTagin = (Fetch.port cur a f c).2.nxt.iAddr.setWidth 32 := by
    intro a f c h
    rw [Fetch.port]
    dsimp only
    split_ifs
    · exact fun _ ↦ rfl
    · exact fun _ ↦ rfl
    · exact fun _ ↦ rfl
    · exact h
  rw [Fetch.work]
  dsimp only
  split_ifs
  · exact h
  · exact fun _ ↦ rfl
  · exact fun _ ↦ rfl
  · exact hport _ _ _ fun hop ↦ absurd rfl hop
  · exact hport _ _ _ h

/-- **A cycle keeps the instruction side in order.** -/
theorem Served.cycle (h : Served mem m) (hc : Coherent m) (hfront : FrontCycle u i m m') :
    Served mem m' := by
  obtain ⟨r, hr⟩ := exists_memoryWork hfront.worked
  have hwork := memoryWork_of_some hc.reset hr
  obtain ⟨out, hout, hinst⟩ := work_inst hc.reset h.covered hr
  rw [h.unchanged] at hinst
  have hmemory : m'.memory = r.memory := by rw [hfront.memory, hwork]
  have hfetched := hfront.fetched
  have hreplied := hfront.replied
  rw [hwork] at hreplied
  simp only [fetched, replied, Signals.mk.injEq] at hfetched hreplied
  refine ⟨hfront.mem.trans h.unchanged, ?_, ?_, ?_, ?_, ?_⟩
  · exact (congrArg DataRequest.op hfront.request).trans h.idle
  · have hrequest := fetch_request m.cur m.fetch (c := m.core) (by
      rw [← hc.settled]
      exact h.request)
    simp only [hfetched]
    exact hrequest
  · intro r hr
    rw [hmemory] at hr
    rcases hinst.outstanding r hr with hr | ⟨hop, rfl, hrange⟩
    · exact h.outstanding r hr
    · refine ⟨h.request hop, ?_⟩
      rcases hrange with hrange | ⟨tag, htag⟩
      · exact hrange
      · exact (h.outstanding _ htag).2
  · rw [hmemory]
    exact hinst.covered
  · simp only [hreplied, Memory.drive, hout, List.headD_cons]
    cases out with
    | none => exact fun hready ↦ by cases hready
    | some answer =>
      intro _
      obtain ⟨addr, haddr, hdata⟩ := hinst.answer answer.1 answer.2 rfl
      obtain ⟨htag, hrange⟩ := h.outstanding _ haddr
      exact ⟨addr, hrange, htag, hdata⟩

/-! ## The blocks that are handed over -/

/-- The bytes of a block that was read. -/
theorem blockBytes_of_memIRead {a : Word} {data : BitVec 128} (h : memIRead mem a = some data) :
    blockBytes data = bytesFrom mem a 16 := by
  rw [← Memory.iRead_eq, Memory.iRead] at h
  obtain ⟨-, h⟩ := Option.ite_none_right_eq_some.mp h
  rw [← Option.some.inj h]
  refine Eq.trans ?_ (Memory.bytesDown_iBytes mem a)
  refine List.map_congr_left fun k hk ↦ ?_
  rw [WordBytes.byte]
  congr 1
  have hlt := List.mem_range.mp hk
  omega

/-- What `Fetch` has handed over, and where its next block begins. -/
structure Supplied (mem : Mem) (m : Machine) (next : Word) : Prop where
  rip : m.fetch.rip =
    if m.cur.fdOutReady then next + BitVec.ofNat 64 (16 - next.toNat % 16) else next
  handed : m.cur.fdOutReady = true →
    Handed mem m.cur.fdOutData m.cur.fdOutAddr m.cur.fdOutAlign next
  tag : m.fetch.firstRunFlag = false → m.fetch.prevTag = m.fetch.rip

/-- Behind the block of an address. -/
theorem block_add_sixteen (a : Word) :
    block a + 16 = a + BitVec.ofNat 64 (16 - a.toNat % 16) := by
  calc block a + 16
      = block a + (BitVec.ofNat 64 (a.toNat % 16) + BitVec.ofNat 64 (16 - a.toNat % 16)) := by
        rw [← BitVec.ofNat_add, Nat.add_sub_cancel' (Nat.mod_lt _ (by decide)).le]
        rfl
    _ = a + BitVec.ofNat 64 (16 - a.toNat % 16) := by
        rw [← BitVec.add_assoc, Frontend.block_add_offset]

/-- Without a redirection the work of `Fetch` is that of the port. -/
theorem fetchWork_port (hc : Coherent m) (hclear : m.cur.clear = false) :
    fetchWork m = Fetch.port m.cur (block m.fetch.rip) m.fetch m.core := by
  have hchange : m.cur.changeRIP = false := by rw [hc.redirect, hclear]
  rw [fetchWork, Fetch.work]
  simp [hc.reset, hclear, hchange]

/-- With one it takes the new address. -/
theorem fetchWork_redirect (hc : Coherent m) (hclear : m.cur.clear = true) :
    fetchWork m = Fetch.redirect m.cur.newRIP { m.fetch with prevTag := 0 }
      (Fetch.clearSignals m.core) := by
  have hchange : m.cur.changeRIP = true := by rw [hc.redirect, hclear]
  rw [fetchWork, Fetch.work]
  simp [hc.reset, hclear, hchange]

/-- The reply that is waited for holds the block of the instruction pointer. -/
private theorem supplied_awaited (hc : Coherent m) (hserved : Served mem m)
    (hfirst : m.fetch.firstRunFlag = false) (h : Supplied mem m next)
    (hfront : FrontCycle u i m m') (hclear : m.cur.clear = false)
    (hawaited : Awaited m.cur m.fetch) : Supplied mem m' m.fetch.rip := by
  have hport := fetchWork_port hc hclear
  have htag := h.tag hfirst
  obtain ⟨hrip, hprevTag, -, hready, haddr, halign⟩ :=
    Frontend.port_awaited (block m.fetch.rip) m.core hawaited
  obtain ⟨halign', hdata⟩ := Frontend.port_data (block m.fetch.rip) m.core hawaited
  rw [← hport] at hrip hprevTag hready haddr halign halign' hdata
  have hfetched := hfront.fetched
  simp only [fetched, Signals.mk.injEq] at hfetched
  obtain ⟨a, hrange, htagout, hread⟩ := hserved.answer hawaited.1
  have hblock : block m.fetch.rip = a := by
    have hreply := hawaited.2
    rw [Fetch.replyAddr, htagout, Memory.signExtend_setWidth hrange, htag] at hreply
    exact hreply.symm
  refine ⟨?_, fun _ ↦ ⟨?_, ?_, m.cur.iData, ?_, ?_⟩, fun _ ↦ ?_⟩
  · simp only [hfetched, hready, if_true]
    rw [hfront.fetch, hrip, block_add_sixteen]
  · simp only [hfetched]
    rw [haddr, hawaited.2, htag]
  · simp only [hfetched]
    rw [halign', htag]
  · simp only [hfetched]
    rw [hdata, htag]
  · rw [hblock]
    exact blockBytes_of_memIRead hread
  · rw [hfront.fetch, hprevTag, hrip]

/-- **`Fetch` hands over the blocks of the guest memory in order.** The next block to come is the
one that the instruction pointer is in, or that of the new address. -/
theorem Supplied.cycle (h : Supplied mem m next) (hc : Coherent m) (hserved : Served mem m)
    (hfront : FrontCycle u i m m') :
    Supplied mem m' (if m.cur.clear then m.cur.newRIP else m.fetch.rip) := by
  have hfetched := hfront.fetched
  simp only [fetched, Signals.mk.injEq] at hfetched
  cases hclear : m.cur.clear with
  | true =>
    have hwork := fetchWork_redirect hc hclear
    have hready : m'.cur.fdOutReady = false := by
      simp only [hfetched, hwork]
      rfl
    rw [if_pos rfl]
    refine ⟨?_, fun h ↦ absurd (h.symm.trans hready) Bool.noConfusion, fun _ ↦ ?_⟩
    · rw [hready, hfront.fetch, hwork]
      rfl
    · rw [hfront.fetch, hwork]
      rfl
  | false =>
    rw [if_neg Bool.false_ne_true]
    by_cases hawaited : Awaited m.cur m.fetch
    · refine supplied_awaited hc hserved ?_ h hfront hclear hawaited
      by_contra hfirst
      have hzero := (hc.first (eq_true_of_ne_false hfirst)).1
      have hready := hawaited.1
      rw [hzero] at hready
      cases hready
    · obtain ⟨hrip, hprevTag, -, hready⟩ :=
        Frontend.port_ignored (block m.fetch.rip) m.core hawaited
      rw [← fetchWork_port hc hclear] at hrip hprevTag hready
      have hready' : m'.cur.fdOutReady = false := by
        simp only [hfetched]
        exact hready
      refine ⟨?_, fun h ↦ absurd (h.symm.trans hready') Bool.noConfusion, fun _ ↦ ?_⟩
      · rw [hready', hfront.fetch, hrip]
        rfl
      · rw [hfront.fetch, hprevTag, hrip]
        cases hfirst : m.fetch.firstRunFlag with
        | true => rfl
        | false => exact h.tag hfirst

end Cse502.Machine
