import Cse502.Library.Writes
import Cse502.Memory.Stores

/-!
# What a load returns

While `Execute` waits for a word, its request is on the data port, so every write before it has been
performed and the answers to it are read from the memory those writes leave. The one answer that can
be older is the first: in the cycle that issues the read, `Memory` still answers from the memory
before the write that is on the port, and a response for the address may be due then, left over from
an earlier access.
-/

namespace Cse502.Memory

open ByteMemory (Aligned load store)
open Execute (issued reads waiting)

/-! ## Reads of `Execute` -/

/-- The address a uop reads. -/
def readAddr (op : Uop) : Option Word :=
  match op.opcode with
  | .ret | .pop => some op.value3
  | .load => some op.value1
  | _ => none

theorem access_eq_read_iff {op : Uop} {e : Eflags} {a : Word} :
    access op e = some (.read a) ↔ readAddr op = some a := by
  cases hop : op.opcode <;> simp [access, readAddr, hop]

theorem reads_of_readAddr {op : Uop} {a : Word} (h : readAddr op = some a) :
    reads op.opcode = true := by
  rw [readAddr] at h
  split at h
  · next hop => rw [hop]; rfl
  · next hop => rw [hop]; rfl
  · next hop => rw [hop]; rfl
  · cases h

theorem exists_readAddr {op : Uop} (h : reads op.opcode = true) : ∃ a, readAddr op = some a := by
  rw [reads, Bool.or_eq_true, Bool.or_eq_true, beq_iff_eq, beq_iff_eq, beq_iff_eq] at h
  rcases h with (hop | hop) | hop
  · exact ⟨op.value3, by rw [readAddr, hop]⟩
  · exact ⟨op.value3, by rw [readAddr, hop]⟩
  · exact ⟨op.value1, by rw [readAddr, hop]⟩

/-- The address and the word of the answer that `Execute::work` accepts in `STATE_READ`. -/
def accepted (cur : Signals) (c : Core) : Option (Word × Word) :=
  if cur.reset || cur.clear || c.ex.state != .read || !cur.dReady then none
  else (readAddr c.ex.op).bind fun a ↦
    if cur.dTagout.signExtend 64 = a then some (a, cur.dData) else none

/-- What is accepted, and when. -/
theorem accepted_eq_some {cur : Signals} {c : Core} {a v : Word}
    (h : accepted cur c = some (a, v)) :
    (cur.reset = false ∧ cur.clear = false ∧ c.ex.state = .read ∧ cur.dReady = true) ∧
      readAddr c.ex.op = some a ∧ cur.dTagout.signExtend 64 = a ∧ cur.dData = v := by
  rw [accepted] at h
  obtain ⟨hcond, h⟩ := Option.ite_none_left_eq_some.mp h
  obtain ⟨a', haddr, h⟩ := Option.bind_eq_some_iff.mp h
  obtain ⟨htag, h⟩ := Option.ite_none_right_eq_some.mp h
  obtain ⟨rfl, rfl⟩ := Prod.mk.inj (Option.some.inj h)
  simp only [Bool.or_eq_true, bne_iff_ne, Bool.not_eq_true', not_or, Bool.not_eq_true, not_not,
    ne_eq, Bool.not_eq_false] at hcond
  exact ⟨⟨hcond.1.1.1, hcond.1.1.2, hcond.1.2, hcond.2⟩, haddr, htag, rfl⟩

/-- **The word that is accepted is the one the uop goes on with**: the result of a load or pop, the
new address of a return. -/
theorem work_of_accepted (inp : CycleInput) {cur : Signals} {c : Core} {a v : Word}
    (h : accepted cur c = some (a, v)) :
    (c.ex.op.opcode = .ret ∧ (Execute.work inp cur c).nxt.newRIP = v) ∨
      (c.ex.op.opcode ≠ .ret ∧ ∃ op, (Execute.work inp cur c).ewUopQueue = c.ewUopQueue ++ [op] ∧
        op.opcode = c.ex.op.opcode ∧ op.reg2 = c.ex.op.reg2 ∧ op.value2 = v) := by
  obtain ⟨⟨hreset, hclear, hstate, hready⟩, haddr, htag, rfl⟩ := accepted_eq_some h
  rw [readAddr] at haddr
  split at haddr
  · next hop =>
    obtain rfl := Option.some.inj haddr
    refine .inl ⟨hop, ?_⟩
    simp [Execute.work, hreset, hclear, hstate, hready, hop, htag, Execute.completeRet,
      Execute.completeRead]
  · next hop =>
    obtain rfl := Option.some.inj haddr
    refine .inr ⟨by rw [hop]; exact Mnemonic.noConfusion, ?_⟩
    simp [Execute.work, hreset, hclear, hstate, hready, hop, htag, Execute.completePop,
      Execute.completeRead, Execute.pushResult]
  · next hop =>
    obtain rfl := Option.some.inj haddr
    refine .inr ⟨by rw [hop]; exact Mnemonic.noConfusion, ?_⟩
    simp [Execute.work, hreset, hclear, hstate, hready, hop, htag, Execute.completeLoad,
      Execute.completeRead, Execute.pushResult]
  · cases haddr

/-! ## Runs -/

/-- The answer to a read can be older than the write on the port: in the cycle that issues the
read a response for its address is due, and the write is still to change the word there. -/
def System.Stale (inp : Input) (s : System) : Prop :=
  ∃ op a r, s.issues inp = some op ∧ readAddr op = some a ∧
    s.memory.d.respond inp.cycle.now inp.dPick = some r ∧ r.1.2 = a ∧
      load (perform (dataRequest s.core.nxt) s.core.mem) a ≠ load s.core.mem a

section Run

variable (s₀ : System) (inputs : ℕ → Input)

/-- The words written by the uops of the first `n` cycles, with their addresses, in program order.
-/
def written : ℕ → List (Word × Word)
  | 0 => []
  | n + 1 => written n ++ ((System.run s₀ inputs n).bind fun s ↦ s.stores (inputs n)).toList

variable {s₀ inputs}

theorem written_succ {n : ℕ} {s : System} (h : System.run s₀ inputs n = some s) :
    written s₀ inputs (n + 1) = written s₀ inputs n ++ (s.stores (inputs n)).toList := by
  rw [written, h, Option.bind_some]

/-- A word after writes to aligned addresses is what was written there last. -/
theorem load_foldl_store {ws : List (Word × Word)} (hws : ∀ w ∈ ws, Aligned w.1) {a : Word}
    (ha : Aligned a) (m : Mem) :
    load (ws.foldl (fun m w ↦ store m w.1 w.2) m) a = Writes.replay (load m) ws a := by
  induction ws using List.reverseRecOn with
  | nil => rfl
  | append_singleton ws w ih =>
    have hw : Aligned w.1 := hws w (by simp)
    rw [List.foldl_append, List.foldl_cons, List.foldl_nil, Writes.replay_concat,
      ByteMemory.load_store hw ha, ih fun w hmem ↦ hws w (List.mem_append_left _ hmem)]
    by_cases haw : w.1 = a
    · rw [if_pos haw, ← haw, Function.update_self]
    · rw [if_neg haw, Function.update_of_ne (Ne.symm haw)]

/-- Without system calls that write, the effects of the uops are their writes. -/
theorem effects_eq_foldl {n : ℕ}
    (hcalls : ∀ k < n, ∀ t, System.run s₀ inputs k = some t → t.clockCall (inputs k) = none) :
    effects s₀ inputs n =
      (written s₀ inputs n).foldl (fun m w ↦ store m w.1 w.2) s₀.core.mem := by
  induction n with
  | zero => rfl
  | succ n ih =>
    have ih := ih fun k hk ↦ hcalls k (Nat.lt_succ_of_lt hk)
    cases hrun : System.run s₀ inputs n with
    | none =>
      rw [effects, written, hrun, Option.bind_none, Option.toList_none, List.append_nil, ← ih]
      rfl
    | some s =>
      rw [effects_succ hrun, written_succ hrun, List.foldl_append, ← ih]
      cases hstores : s.stores (inputs n) with
      | none =>
        rw [System.effect_of_none hstores,
          System.executed_of_none (hcalls n (Nat.lt_succ_self n) s hrun)]
        rfl
      | some w => exact System.effect_of_some hstores _

/-- What holds of the data port after `n` cycles: its tag is its address, and so is that of every
request that is not answered; while `Execute` waits, the port asks for the word it waits for, and an
answer under that tag is the word the uops have left; every write but the one on the port was to an
aligned address. -/
private structure PortInv (s₀ : System) (inputs : ℕ → Input) (n : ℕ) (s : System) : Prop where
  tag : s.core.nxt.dOp ≠ .none → s.core.nxt.dTagin = s.core.nxt.dAddr.setWidth 32
  outstanding : ∀ r ∈ s.memory.d.outstanding, r.1 = r.2.setWidth 32 ∧ inRange r.2 = true
  reading : s.core.ex.state = .read →
    s.core.nxt.dOp = .read ∧ readAddr s.core.ex.op = some s.core.nxt.dAddr
  answer : s.core.ex.state = .read → ∀ a, readAddr s.core.ex.op = some a →
    s.core.nxt.dReady = true → s.core.nxt.dTagout.signExtend 64 = a →
      Aligned a ∧ s.core.nxt.dData = load (effects s₀ inputs n) a
  aligned : ∀ w ∈ written s₀ inputs n,
    Aligned w.1 ∨ (s.core.nxt.dOp = .write ∧ s.core.nxt.dAddr = w.1)

/-- An address in range is its tag. -/
theorem signExtend_setWidth {a : Word} (h : inRange a = true) :
    (a.setWidth 32).signExtend 64 = a := by
  rw [inRange, Bool.and_eq_true, size] at h
  have hlt : a.toNat < 67108864 := by
    have := h.2
    rw [BitVec.ult, decide_eq_true_eq] at this
    exact this
  apply BitVec.eq_of_toNat_eq
  have hmsb : (a.setWidth 32).msb = false := by
    rw [BitVec.msb_eq_decide, decide_eq_false_iff_not, BitVec.toNat_setWidth]
    omega
  rw [BitVec.signExtend_eq_setWidth_of_msb_false hmsb, BitVec.toNat_setWidth, BitVec.toNat_setWidth]
  omega

section Step

variable {inp : Input} {s s' : System}

/-- The port is driven by the uop that is run, or left alone. -/
private theorem port_cases (hstep : System.Step inp s s') :
    dataRequest s'.core.nxt = dataRequest s.core.nxt ∨
      ∃ op a, s.issues inp = some op ∧ access op s.core.eflags = some a ∧
        dataRequest s'.core.nxt = a.port (dataRequest s.core.nxt) := by
  have hport := hstep.port
  cases hissues : s.issues inp with
  | none =>
    rw [hissues] at hport
    exact .inl hport
  | some op =>
    rw [hissues] at hport
    cases haccess : access op s.core.eflags with
    | none => exact .inl (hport.trans (portAfter_of_none haccess _))
    | some a => exact .inr ⟨op, a, rfl, haccess, hport.trans (portAfter_of_some haccess _)⟩

/-- The tag on the port is its address. -/
private theorem tag_next (hstep : System.Step inp s s')
    (h : s.core.nxt.dOp ≠ .none → s.core.nxt.dTagin = s.core.nxt.dAddr.setWidth 32) :
    s'.core.nxt.dOp ≠ .none → s'.core.nxt.dTagin = s'.core.nxt.dAddr.setWidth 32 := by
  intro hop
  rcases port_cases hstep with hport | ⟨op, a, -, -, hport⟩
  · have hop' : s'.core.nxt.dOp = s.core.nxt.dOp := congrArg DataRequest.op hport
    have htag : s'.core.nxt.dTagin = s.core.nxt.dTagin := congrArg DataRequest.tagin hport
    have haddr : s'.core.nxt.dAddr = s.core.nxt.dAddr := congrArg DataRequest.addr hport
    rw [htag, haddr]
    exact h (hop' ▸ hop)
  · have htag : s'.core.nxt.dTagin = (a.port (dataRequest s.core.nxt)).tagin :=
      congrArg DataRequest.tagin hport
    have haddr : s'.core.nxt.dAddr = (a.port (dataRequest s.core.nxt)).addr :=
      congrArg DataRequest.addr hport
    rw [htag, haddr]
    cases a with
    | read addr => rfl
    | write addr data => rfl

/-- What `Execute` waits for after a cycle: the read it has just driven, or the one before, with the
port as it was. -/
private theorem reading_next (hstep : System.Step inp s s')
    (hreading : s.core.ex.state = .read →
      s.core.nxt.dOp = .read ∧ readAddr s.core.ex.op = some s.core.nxt.dAddr)
    (hstate : s'.core.ex.state = .read) :
    (∃ op a, s.issues inp = some op ∧ s'.core.ex.op = op ∧ readAddr op = some a ∧
        dataRequest s'.core.nxt = (Access.read a).port (dataRequest s.core.nxt)) ∨
      (s.issues inp = none ∧ s.core.ex.state = .read ∧ s'.core.ex.op = s.core.ex.op ∧
        dataRequest s'.core.nxt = dataRequest s.core.nxt) := by
  obtain ⟨c, hcex, hissued, hex⟩ := hstep.execute
  have hreads : c.ex.state = .read → reads c.ex.op.opcode = true := by
    rw [hcex]
    exact fun h ↦ reads_of_readAddr (hreading h).2
  rw [hex] at hstate ⊢
  rcases Execute.work_state hreads hstate with ⟨op, hop, hexop, hread⟩ | ⟨hnone, hstate', hexop⟩
  · obtain ⟨a, ha⟩ := exists_readAddr hread
    have hissues : s.issues inp = some op := hissued.symm.trans hop
    refine .inl ⟨op, a, hissues, hexop, ha, ?_⟩
    rw [hstep.port, hissues, portAfter_of_some (access_eq_read_iff.mpr ha)]
  · have hissues : s.issues inp = none := hissued.symm.trans hnone
    rw [hcex] at hstate' hexop
    refine .inr ⟨hissues, hstate', hexop, ?_⟩
    rw [hstep.port, hissues]
    rfl

/-- A write that is issued is on the port after the cycle. -/
private theorem port_of_stores (hstep : System.Step inp s s') {w : Word × Word}
    (hw : w ∈ s.stores inp) : s'.core.nxt.dOp = .write ∧ s'.core.nxt.dAddr = w.1 := by
  rw [System.stores] at hw
  split at hw
  · next addr data haccess =>
    obtain rfl := Option.some.inj hw
    have hport : dataRequest s'.core.nxt =
        (Access.write addr data).port (dataRequest s.core.nxt) := by
      rw [hstep.port, portAfter, haccess]
      rfl
    exact ⟨congrArg DataRequest.op hport, congrArg DataRequest.addr hport⟩
  · cases hw

end Step

/-- The word a read is answered with, before the request on the port is performed, is the one the
uops have left. -/
private theorem PortInv.answered {n : ℕ} {s s' : System} (h : PortInv s₀ inputs n s)
    (hsettled : Settled s₀ inputs n s) (hrun : System.run s₀ inputs n = some s)
    (hstep : System.Step (inputs n) s s') (hcall : s.clockCall (inputs n) = none)
    (hstale : ¬s.Stale (inputs n)) (hstate : s'.core.ex.state = .read) {addr : Word}
    (ha : readAddr s'.core.ex.op = some addr) {tag : BitVec 32} {d₁ : Side}
    (hrespond : s.memory.d.respond (inputs n).cycle.now (inputs n).dPick = some ((tag, addr), d₁)) :
    load s.core.mem addr = load (effects s₀ inputs (n + 1)) addr := by
  rcases reading_next hstep h.reading hstate with
    ⟨op, a, hissues, hexop, haddr, -⟩ | ⟨hissues, hstate', -, -⟩
  · -- the read has just been issued
    obtain rfl : a = addr := Option.some.inj (haddr.symm.trans (hexop ▸ ha))
    have hstores : s.stores (inputs n) = none := by
      rw [System.stores, hissues, Option.bind_some, access_eq_read_iff.mpr haddr]
    have hfresh : load (perform (dataRequest s.core.nxt) s.core.mem) a = load s.core.mem a := by
      by_contra hne
      exact hstale ⟨op, a, _, hissues, haddr, hrespond, rfl, hne⟩
    rw [effects_succ hrun, System.effect_of_none hstores, System.executed_of_none hcall,
      ← hsettled.settled, hfresh]
  · -- the read is on the port, and all writes have been performed
    have hread : (dataRequest s.core.nxt).op ≠ .write := by
      rw [show (dataRequest s.core.nxt).op = .read from (h.reading hstate').1]
      exact MemOp.noConfusion
    have hstores : s.stores (inputs n) = none := by
      rw [System.stores, hissues]
      rfl
    rw [effects_succ hrun, System.effect_of_none hstores, System.executed_of_none hcall,
      ← hsettled.settled, perform, if_neg hread]

private theorem PortInv.next {n : ℕ} {s s' : System} (h : PortInv s₀ inputs n s)
    (hsettled : Settled s₀ inputs n s) (hrun : System.run s₀ inputs n = some s)
    (hstep : System.Step (inputs n) s s') (hcall : s.clockCall (inputs n) = none)
    (hstale : ¬s.Stale (inputs n)) : PortInv s₀ inputs (n + 1) s' := by
  obtain ⟨mem', out, hwork, hready, hout⟩ := hstep.memory
  have hseen : s.seen (inputs n) = s.core.mem := by
    rw [System.seen, System.executed_of_none hcall, ite_self]
  rw [hseen] at hwork
  refine ⟨tag_next hstep h.tag, ?_, ?_, ?_, ?_⟩
  · intro r hr
    rcases hwork.outstanding r hr with hr | ⟨hop, rfl⟩
    · exact h.outstanding r hr
    · exact ⟨h.tag hop, hwork.inRange hop⟩
  · intro hstate
    rcases reading_next hstep h.reading hstate with
      ⟨op, a, -, hexop, ha, hport⟩ | ⟨-, hstate', hexop, hport⟩
    · rw [hexop, ha]
      exact ⟨congrArg DataRequest.op hport, (congrArg some (congrArg DataRequest.addr hport)).symm⟩
    · obtain ⟨hop, ha⟩ := h.reading hstate'
      have haddr : s'.core.nxt.dAddr = s.core.nxt.dAddr := congrArg DataRequest.addr hport
      rw [hexop, ha, haddr]
      exact ⟨(congrArg DataRequest.op hport).trans hop, rfl⟩
  · intro hstate a ha hdready htag
    -- the answer is a response for this address
    obtain ⟨⟨tag, data⟩, rfl⟩ := Option.isSome_iff_exists.mp (hready.symm.trans hdready)
    obtain ⟨hdtag, hddata⟩ := hout tag data rfl
    obtain ⟨addr, d₁, hrespond, hmem, hal, rfl⟩ := hwork.answer tag data rfl
    obtain ⟨htag', hrange⟩ := h.outstanding _ hmem
    dsimp only at htag' hrange
    obtain rfl : addr = a := by rw [← htag, hdtag, htag', signExtend_setWidth hrange]
    rw [hddata]
    exact ⟨hal, h.answered hsettled hrun hstep hcall hstale hstate ha hrespond⟩
  · intro w hw
    rw [written_succ hrun] at hw
    rcases List.mem_append.mp hw with hw | hw
    · -- the write that was on the port has passed the asserts
      rcases h.aligned w hw with hal | ⟨hop, haddr⟩
      · exact .inl hal
      · exact .inl (haddr ▸ hwork.aligned hop)
    · rw [Option.mem_toList] at hw
      exact .inr (port_of_stores hstep hw)

private theorem portInv (mem : Mem) (regs : Gpr → Word) (eflags : Eflags) (expectedAddr : Word)
    (inputs : ℕ → Input) {n : ℕ} {s : System}
    (hrun : System.run (.start mem regs eflags expectedAddr) inputs n = some s)
    (hcalls : ∀ k < n, ∀ t, System.run (.start mem regs eflags expectedAddr) inputs k = some t →
      t.clockCall (inputs k) = none)
    (hstale : ∀ k < n, ∀ t, System.run (.start mem regs eflags expectedAddr) inputs k = some t →
      ¬t.Stale (inputs k)) :
    PortInv (.start mem regs eflags expectedAddr) inputs n s := by
  induction n generalizing s with
  | zero =>
    obtain rfl := Option.some.inj hrun
    exact ⟨fun h ↦ absurd rfl h, fun r hr ↦ absurd hr (Multiset.notMem_zero r),
      fun h ↦ ExecState.noConfusion h, fun h ↦ ExecState.noConfusion h,
      fun w hw ↦ absurd hw List.not_mem_nil⟩
  | succ n ih =>
    obtain ⟨t, ht, hstep⟩ := exists_of_run_succ hrun
    have hinv := ih ht (fun k hk ↦ hcalls k (Nat.lt_succ_of_lt hk))
      fun k hk ↦ hstale k (Nat.lt_succ_of_lt hk)
    have hsettled : Settled (.start mem regs eflags expectedAddr) inputs n t :=
      settled rfl ht fun k hk u hu a ha ↦
        absurd (ha.symm.trans (hcalls k (Nat.lt_succ_of_lt hk) u hu)) (Option.some_ne_none a)
    exact hinv.next hsettled ht hstep (hcalls n (Nat.lt_succ_self n) t ht)
      (hstale n (Nat.lt_succ_self n) t ht)

/-- **A load returns the latest store**, in every run without system calls that write in which no
read is issued while an older answer for its address is due: the word `Execute` accepts for an
address is the one the uops before have written there last, or that of the initial memory. -/
theorem accepted_latest (mem : Mem) (regs : Gpr → Word) (eflags : Eflags) (expectedAddr : Word)
    (inputs : ℕ → Input) {n : ℕ} {s : System}
    (hrun : System.run (.start mem regs eflags expectedAddr) inputs n = some s)
    (hcalls : ∀ k < n, ∀ t, System.run (.start mem regs eflags expectedAddr) inputs k = some t →
      t.clockCall (inputs k) = none)
    (hstale : ∀ k < n, ∀ t, System.run (.start mem regs eflags expectedAddr) inputs k = some t →
      ¬t.Stale (inputs k)) {a v : Word}
    (h : accepted (s.signals (inputs n)) s.core = some (a, v)) :
    v = Writes.replay (load mem) (written (.start mem regs eflags expectedAddr) inputs n) a := by
  have hinv := portInv mem regs eflags expectedAddr inputs hrun hcalls hstale
  obtain ⟨⟨-, -, hstate, hready⟩, haddr, htag, hdata⟩ := accepted_eq_some h
  obtain ⟨ha, hword⟩ := hinv.answer hstate a haddr hready htag
  have haligned : ∀ w ∈ written (.start mem regs eflags expectedAddr) inputs n, Aligned w.1 := by
    intro w hw
    rcases hinv.aligned w hw with hal | ⟨hop, -⟩
    · exact hal
    · exact absurd ((hinv.reading hstate).1.symm.trans hop) MemOp.noConfusion
  rw [← hdata, show (s.signals (inputs n)).dData = _ from hword, effects_eq_foldl hcalls,
    load_foldl_store haligned ha]
  rfl

end Run

/-! ## Two stores and a load -/

/-- `mov rsi, [rdx]`, with its operands. -/
def loadUop (pc addr : Word) : Uop where
  src := .reg
  address := pc
  opcode := .load
  reg1 := .gpr .rdx
  value1 := addr
  reg2 := .gpr .rsi
  value2 := 0
  reg3 := .none
  value3 := 0
  immed := 0
  opsize := 3

/-- Cycles of the clock, with the uop that arrives in each. -/
def arrivals (ops : ℕ → Option Uop) (n : ℕ) : Input :=
  { emptyCycle (500 * n) with deUopQueue := (ops n).toList }

/-- A uop that is run has arrived. -/
theorem exists_of_issues {ops : ℕ → Option Uop} {n : ℕ} {s : System} {op : Uop}
    (h : s.issues (arrivals ops n) = some op) : ∃ u, ops n = some u ∧ op.opcode = u.opcode := by
  rw [System.issues, issued] at h
  obtain ⟨-, h⟩ := Option.ite_none_left_eq_some.mp h
  split at h
  · cases h
  · next front rest hqueue =>
    obtain ⟨-, h⟩ := Option.ite_none_left_eq_some.mp h
    obtain rfl := Option.some.inj h
    have hqueue' : (ops n).toList = front :: rest := hqueue
    refine ⟨front, ?_, rfl⟩
    rw [← Option.mem_toList, hqueue']
    exact List.mem_cons_self

/-- Where only stores and loads arrive, no system call is made. -/
theorem clockCall_arrivals {ops : ℕ → Option Uop} {n : ℕ} {s : System}
    (h : ∀ u, ops n = some u → u.opcode ≠ .syscall) : s.clockCall (arrivals ops n) = none := by
  rw [System.clockCall, clockGettime, Option.bind_eq_none_iff]
  intro op hop
  obtain ⟨u, hu, hopcode⟩ := exists_of_issues hop
  exact if_neg fun hand ↦ h u hu (hopcode ▸ hand.1)

/-- A store, and a load that waits for its word. -/
def storeLoad : ℕ → Option Uop
  | 0 => some (storeUop 0x1000 0x20000 7)
  | 1 => some (loadUop 0x1003 0x20000)
  | _ => none

theorem accepted_latest_storeLoad :
    7 = Writes.replay (load fun _ ↦ 0) (written emptyStart (arrivals storeLoad) 226) 0x20000 := by
  have haccepted : ((System.run emptyStart (arrivals storeLoad) 226).bind fun s ↦
      accepted (s.signals (arrivals storeLoad 226)) s.core) = some (0x20000, 7) := by decide +kernel
  have hidle : ((System.run emptyStart (arrivals storeLoad) 1).bind fun t ↦
      (t.memory.d.respond 500 0).map Prod.fst) = none := by decide +kernel
  obtain ⟨s, hs, haccepted⟩ := Option.bind_eq_some_iff.mp haccepted
  refine accepted_latest _ _ _ _ _ hs ?_ ?_ haccepted
  · intro k _ t _
    refine clockCall_arrivals fun u hu ↦ ?_
    match k, hu with
    | 0, hu | 1, hu =>
      obtain rfl := Option.some.inj hu
      exact Mnemonic.noConfusion
  · rintro k - t ht ⟨op, a, r, hop, ha, hrespond, -⟩
    obtain ⟨u, hu, hopcode⟩ := exists_of_issues hop
    match k, hu with
    | 0, hu =>
      obtain rfl := Option.some.inj hu
      rw [readAddr, hopcode] at ha
      cases ha
    | 1, hu =>
      -- nothing is due in the cycle after the store
      rw [show System.run emptyStart _ 1 = some t from ht, Option.bind_some] at hidle
      have hnone : t.memory.d.respond 500 0 = none := Option.map_eq_none_iff.mp hidle
      exact absurd (hrespond.symm.trans hnone) (Option.some_ne_none r)

/-- A second store, and a load of its word while the answer to the first store is due. -/
def storeStoreLoad : ℕ → Option Uop
  | 0 => some (storeUop 0x1000 0x20000 7)
  | 224 => some (storeUop 0x1003 0x20000 8)
  | 225 => some (loadUop 0x1006 0x20000)
  | _ => none

/-- The load returns the word of the first store. -/
theorem not_accepted_latest_storeStoreLoad :
    ∃ s, System.run emptyStart (arrivals storeStoreLoad) 226 = some s ∧
      accepted (s.signals (arrivals storeStoreLoad 226)) s.core = some (0x20000, 7) ∧
      Writes.replay (load fun _ ↦ 0)
        (written emptyStart (arrivals storeStoreLoad) 226) 0x20000 = 8 := by
  have haccepted : ((System.run emptyStart (arrivals storeStoreLoad) 226).bind fun s ↦
      accepted (s.signals (arrivals storeStoreLoad 226)) s.core) = some (0x20000, 7) := by
    decide +kernel
  have hstores : ((System.run emptyStart (arrivals storeStoreLoad) 224).bind fun t ↦
      t.stores (arrivals storeStoreLoad 224)) = some (0x20000, 8) := by decide +kernel
  obtain ⟨s, hs, haccepted⟩ := Option.bind_eq_some_iff.mp haccepted
  refine ⟨s, hs, haccepted, ?_⟩
  -- the last cycle runs a load, and the one before the second store
  have hload : ((System.run emptyStart (arrivals storeStoreLoad) 225).bind fun t ↦
      t.stores (arrivals storeStoreLoad 225)) = none := by
    rw [Option.bind_eq_none_iff]
    intro t _
    rw [System.stores]
    split
    · next addr data haccess =>
      obtain ⟨op, hop, haccess⟩ := Option.bind_eq_some_iff.mp haccess
      obtain ⟨u, hu, hopcode⟩ := exists_of_issues hop
      obtain rfl := Option.some.inj hu
      rw [access, hopcode] at haccess
      cases haccess
    · rfl
  rw [written, written, hload, hstores, Option.toList_none, List.append_nil, Option.toList_some,
    Writes.replay_concat, Function.update_self]

end Cse502.Memory
