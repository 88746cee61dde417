import Cse502.Machine.Supply
import Cse502.Memory.Latency

/-!
# The next block arrives

`Fetch` keeps the request for its next block on the port until the block is there, so `Memory` has
taken it in the cycle after it was made. From then on the block is due at a time, and the answers
that come first are few (`Side.Timely`). So a block is handed over within 451 cycles, as long as no
redirection comes in between: a latency of 112 ns or less is 224 cycles, and a request waits for
twice that.
-/

namespace Cse502.Machine

open Fetch (block)
open Frontend (Awaited)

variable {u : Decoder.Udis} {i : MachineInput} {m m' : Machine} {mem : Mem} {next : Word} {k : ℕ}

/-! ## The request on the port -/

/-- What `Fetch` asks for, and the state of what it is answered from. -/
structure Asking (m : Machine) : Prop where
  timely : Side.Timely 500 224 m.now m.memory.i
  asked : m.fetch.firstRunFlag = false → m.cur.iOp = .read ∧ m.cur.iAddr = block m.fetch.rip

theorem Asking.asked_of_ne (h : Asking m) (hc : Coherent m) (hop : m.cur.iOp ≠ .none) :
    m.cur.iOp = .read ∧ m.cur.iAddr = block m.fetch.rip := by
  refine h.asked ?_
  by_contra hne
  rw [(hc.first (eq_true_of_ne_false hne)).1] at hop
  exact hop rfl

/-- Nothing is awaited in the first cycle. -/
private theorem not_awaited_of_first (hc : Coherent m) (hfirst : m.fetch.firstRunFlag = true) :
    ¬Awaited m.cur m.fetch := by
  rintro ⟨hready, -⟩
  rw [(hc.first hfirst).1] at hready
  cases hready

/-- What `Fetch` asks for at the end of a cycle. -/
theorem asked_cycle (hc : Coherent m)
    (h : m.fetch.firstRunFlag = false → m.cur.iOp = .read ∧ m.cur.iAddr = block m.fetch.rip)
    (hfront : FrontCycle u i m m') : m'.fetch.firstRunFlag = false ∧ m'.cur.iOp = .read ∧
      m'.cur.iAddr = block m'.fetch.rip := by
  have hfetched := hfront.fetched
  simp only [fetched, Signals.mk.injEq] at hfetched
  simp only [hfront.fetch, hfetched]
  cases hclear : m.cur.clear with
  | true =>
    rw [fetchWork_redirect hc hclear]
    refine ⟨?_, rfl, rfl⟩
    by_contra hne
    have hcur := (hc.first (eq_true_of_ne_false hne)).1
    rw [hcur] at hclear
    cases hclear
  | false =>
    rw [fetchWork_port hc hclear]
    obtain ⟨hflag, hasks⟩ := Frontend.port_asks m.core (not_awaited_of_first hc)
    refine ⟨hflag, ?_⟩
    rcases hasks with ⟨hop, haddr, -⟩ | ⟨hoff, hrip, hop, haddr, -⟩
    · exact ⟨hop, haddr⟩
    · rw [hop, haddr, hrip, ← hc.settled]
      exact h hoff

/-- The turn that the instruction side takes in a cycle, and the answer that is seen after it. -/
theorem exists_instTurn (hc : Coherent m) (hfront : FrontCycle u i m m') :
    ∃ sent, m.memory.i.Turn m.now (224 * 500) sent
        (Memory.asks m.cur.iOp m.cur.iTagin m.cur.iAddr) m'.memory.i ∧
      ∀ r, sent = some r → m'.cur.iReady = true ∧ m'.cur.iTagout = r.1 := by
  obtain ⟨r, hr⟩ := exists_memoryWork hfront.worked
  have hwork := memoryWork_of_some hc.reset hr
  obtain ⟨iSent, dSent, hturns⟩ := Memory.work_turns (by decide : 112000 ≤ 224 * 500) hc.reset hr
  have hmemory : m'.memory = r.memory := by rw [hfront.memory, hwork]
  refine ⟨iSent, hmemory ▸ hturns.i, ?_⟩
  rintro sent rfl
  obtain ⟨out, hout, data, -, rfl⟩ := hturns.iOut
  have hreplied := hfront.replied
  rw [hwork] at hreplied
  simp only [replied, Memory.drive, hout, List.headD_cons, Signals.mk.injEq] at hreplied
  simp only [hreplied]
  exact ⟨rfl, rfl⟩

/-- A cycle goes on asking. -/
theorem Asking.cycle (h : Asking m) (hc : Coherent m) (hfront : FrontCycle u i m m')
    (hnow : m'.now = m.now + 500) : Asking m' := by
  obtain ⟨sent, hturn, -⟩ := exists_instTurn hc hfront
  refine ⟨?_, fun _ ↦ (asked_cycle hc h.asked hfront).2⟩
  rw [hnow]
  exact h.timely.turn (by decide) hturn

/-! ## How long it takes -/

/-- The block of the instruction pointer is to be handed over within so many cycles. -/
inductive Arriving (m : Machine) (k : ℕ) : Prop
  | answered (h : Awaited m.cur m.fetch) (hk : 0 < k)
  | pending (t : ℕ) (tag : BitVec 32) (hfirst : m.fetch.firstRunFlag = false)
    (he : (t, tag, block m.fetch.rip) ∈ m.memory.i.resp.pq)
    (hk : Side.wait 500 224 m.now t m.memory.i < k)
  | asking (hfirst : m.fetch.firstRunFlag = false) (hk : 450 ≤ k)
  | starting (hfirst : m.fetch.firstRunFlag = true) (hk : 451 ≤ k)

/-- It always is. -/
theorem Arriving.always (m : Machine) : Arriving m 451 := by
  cases hfirst : m.fetch.firstRunFlag with
  | true => exact .starting hfirst le_rfl
  | false => exact .asking hfirst (by decide)

/-- An answer for the block is the one that is awaited. -/
private theorem awaited_of_sent {tag : BitVec 32} (hserved : Served mem m)
    (hrip : m'.fetch.rip = m.fetch.rip) (htag : m'.fetch.prevTag = m'.fetch.rip)
    (he : (tag, block m.fetch.rip) ∈ m.memory.i.outstanding)
    (hsent : m'.cur.iReady = true ∧ m'.cur.iTagout = tag) : Awaited m'.cur m'.fetch := by
  obtain ⟨htagged, hrange⟩ := hserved.outstanding _ he
  refine ⟨hsent.1, ?_⟩
  change tag = _ at htagged
  rw [Fetch.replyAddr, hsent.2, htagged, Memory.signExtend_setWidth hrange, htag, hrip]

/-- **Without a redirection the block is handed over, or it comes nearer.** -/
theorem Arriving.cycle (h : Arriving m k) (hc : Coherent m) (hasking : Asking m)
    (hserved : Served mem m) (hsupplied : Supplied mem m next) (hfront : FrontCycle u i m m')
    (hclear : m.cur.clear = false) (hnow : m'.now = m.now + 500) :
    ∃ k', k = k' + 1 ∧ (m'.cur.fdOutReady = true ∨ Arriving m' k') := by
  have hpos : 0 < k := by
    cases h with
    | answered h hk => exact hk
    | pending t tag hfirst he hk => exact Nat.zero_lt_of_lt hk
    | asking hfirst hk => omega
    | starting hfirst hk => omega
  obtain ⟨k', rfl⟩ := Nat.exists_eq_add_one.mpr hpos
  refine ⟨k', rfl, ?_⟩
  have hfetched := hfront.fetched
  simp only [fetched, Signals.mk.injEq] at hfetched
  have hport := fetchWork_port hc hclear
  by_cases hawaited : Awaited m.cur m.fetch
  · left
    have hready := (Frontend.port_awaited (block m.fetch.rip) m.core hawaited).2.2.2.1
    rw [← hport] at hready
    simp only [hfetched]
    exact hready
  right
  obtain ⟨hrip, hprevTag, -⟩ := Frontend.port_ignored (block m.fetch.rip) m.core hawaited
  rw [← hport, ← hfront.fetch] at hrip hprevTag
  have htag : m'.fetch.prevTag = m'.fetch.rip := by
    rw [hprevTag, hrip]
    cases hfirst : m.fetch.firstRunFlag with
    | true => rfl
    | false => exact hsupplied.tag hfirst
  have hasked := (asked_cycle hc hasking.asked hfront).1
  obtain ⟨sent, hturn, hsent⟩ := exists_instTurn hc hfront
  cases h with
  | answered h => exact absurd h hawaited
  | pending t tag hfirst he hk =>
    have hmem : (tag, block m.fetch.rip) ∈ m.memory.i.outstanding :=
      Multiset.mem_add.mpr (.inl (Multiset.mem_coe.mpr (List.mem_map_of_mem he)))
    rcases Side.wait_turn (by decide) (by decide) hasking.timely hturn he with hanswer | ⟨he', hlt⟩
    · refine .answered (awaited_of_sent hserved hrip htag hmem (hsent _ hanswer)) ?_
      have hwait : 0 < Side.wait 500 224 m.now t m.memory.i := Side.wait_pos he
      omega
    · refine .pending t tag hasked (hrip.symm ▸ he') ?_
      rw [hnow]
      omega
  | asking hfirst hk =>
    obtain ⟨hop, haddr⟩ := hasking.asked hfirst
    rw [Memory.asks, if_neg (by rw [hop]; exact MemOp.noConfusion), haddr] at hturn
    obtain ⟨t, tag, he⟩ := hturn.exists_entry hasking.timely.covered
    have htimely := (hasking.cycle hc hfront hnow).timely
    have hwait := htimely.wait_le (by decide) he
    exact .pending t tag hasked (hrip.symm ▸ he) (by omega)
  | starting hfirst hk => exact .asking hasked (by omega)

end Cse502.Machine
