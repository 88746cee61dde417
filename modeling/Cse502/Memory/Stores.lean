import Cse502.Memory.System

/-!
# When a store takes effect

`Execute` drives a write on the data port and leaves it there, so `Memory` performs it in every
cycle until the next request. As long as nothing else writes these bytes the repetitions change
nothing, and the guest memory is what the uops have left, each once and in program order. The one
other writer is `clock_gettime`.
-/

namespace Cse502.Memory

open ByteMemory (store)

/-! ## Bytes -/

section Bytes

variable {m m' : Mem} {x : Word}

theorem store_congr (a v : Word) (h : m x = m' x) : store m a v x = store m' a v x := by
  rw [store, store, h]

/-- Performing a request twice is performing it once. -/
theorem perform_perform (req : DataRequest) (m : Mem) :
    perform req (perform req m) = perform req m := by
  by_cases hop : req.op = .write
  · simp only [perform, if_pos hop, ByteMemory.store_idem]
  · simp only [perform, if_neg hop]

theorem perform_congr (req : DataRequest) (h : m x = m' x) :
    perform req m x = perform req m' x := by
  by_cases hop : req.op = .write
  · rw [perform, perform, if_pos hop, if_pos hop]
    exact store_congr _ _ h
  · rw [perform, perform, if_neg hop, if_neg hop, h]

/-- The words of `clock_gettime` are two neighbours. -/
theorem clockWords_of_le {now : ℕ} {a : Word} (h : 16 ≤ (x - a).toNat) :
    clockWords now a m x = m x := by
  have hsnd : 8 ≤ (x - (a + 8)).toNat := by bv_omega
  rw [clockWords, ByteMemory.store_of_le _ _ hsnd, ByteMemory.store_of_le _ _ (by omega)]

theorem clockWords_of_lt {now : ℕ} {a : Word} (h : (x - a).toNat < 16) :
    clockWords now a m x = clockWords now a m' x := by
  by_cases hsnd : (x - (a + 8)).toNat < 8
  · rw [clockWords, clockWords, store, if_pos hsnd, store, if_pos hsnd]
  · have hfst : (x - a).toNat < 8 := by bv_omega
    rw [clockWords, clockWords, ByteMemory.store_of_le _ _ (not_lt.mp hsnd),
      ByteMemory.store_of_le _ _ (not_lt.mp hsnd), store, if_pos hfst, store, if_pos hfst]

end Bytes

/-- Performing the request leaves the words of `clock_gettime` as they were written. -/
def Spares (req : DataRequest) (now : ℕ) (a : Word) : Prop :=
  ∀ m x, (x - a).toNat < 16 → perform req (clockWords now a m) x = clockWords now a m x

/-- A request that spares the words of `clock_gettime` can be performed before or after them. -/
theorem Spares.comm {req : DataRequest} {now : ℕ} {a : Word} (h : Spares req now a) (m : Mem) :
    perform req (clockWords now a m) = clockWords now a (perform req m) := by
  funext x
  by_cases hx : (x - a).toNat < 16
  · rw [h m x hx]
    exact clockWords_of_lt hx
  · rw [clockWords_of_le (not_lt.mp hx)]
    exact perform_congr req (clockWords_of_le (not_lt.mp hx))

/-! ## Runs -/

namespace System

/-- The word that is written, and its address, by the uop run in a cycle. -/
def stores (inp : Input) (s : System) : Option (Word × Word) :=
  match (s.issues inp).bind (access · s.core.eflags) with
  | some (.write addr data) => some (addr, data)
  | _ => none

/-- What the uop run in a cycle is to leave in the guest memory. -/
def effect (inp : Input) (s : System) (m : Mem) : Mem :=
  match s.stores inp with
  | some w => store m w.1 w.2
  | none => s.executed inp m

/-- The request on the data port spares the words of a system call made in this cycle. -/
def Undisturbed (inp : Input) (s : System) : Prop :=
  ∀ a, s.clockCall inp = some a → Spares (dataRequest s.core.nxt) inp.cycle.now a

variable {inp : Input} {s s' : System}

/-- A uop that makes a system call drives no request. -/
theorem access_of_clockCall {a : Word} (h : s.clockCall inp = some a) :
    (s.issues inp).bind (access · s.core.eflags) = none := by
  rw [clockCall, clockGettime, Option.bind_eq_some_iff] at h
  obtain ⟨op, hop, h⟩ := h
  obtain ⟨⟨hsyscall, -⟩, -⟩ := Option.ite_none_right_eq_some.mp h
  rw [hop, Option.bind_some, access, hsyscall]

theorem stores_of_clockCall {a : Word} (h : s.clockCall inp = some a) : s.stores inp = none := by
  rw [stores, access_of_clockCall h]

theorem executed_of_none (h : s.clockCall inp = none) (m : Mem) : s.executed inp m = m := by
  rw [executed, h]
  rfl

theorem executed_of_some {a : Word} (h : s.clockCall inp = some a) (m : Mem) :
    s.executed inp m = clockWords inp.cycle.now a m := by
  rw [executed, h]
  rfl

theorem effect_of_some {w : Word × Word} (h : s.stores inp = some w) (m : Mem) :
    s.effect inp m = store m w.1 w.2 := by
  rw [effect, h]

theorem effect_of_none (h : s.stores inp = none) (m : Mem) : s.effect inp m = s.executed inp m := by
  rw [effect, h]

theorem clockCall_of_stores {w : Word × Word} (h : s.stores inp = some w) :
    s.clockCall inp = none := by
  cases hclock : s.clockCall inp with
  | none => rfl
  | some a => exact absurd (h.symm.trans (stores_of_clockCall hclock)) (Option.some_ne_none w)

/-- The request a write leaves on the port. -/
theorem Step.stored (h : Step inp s s') {w : Word × Word} (hw : s.stores inp = some w) (m : Mem) :
    perform (dataRequest s'.core.nxt) m = store m w.1 w.2 := by
  rw [stores] at hw
  split at hw
  · next addr data haccess =>
    obtain rfl := Option.some.inj hw
    rw [h.port, portAfter, haccess]
    exact if_pos rfl
  · cases hw

/-- Without a write the port keeps its request, or a read takes its place. -/
theorem Step.held (h : Step inp s s') (hw : s.stores inp = none) :
    (s'.core.nxt.dOp = .read) ∨ dataRequest s'.core.nxt = dataRequest s.core.nxt := by
  have hport := h.port
  rw [portAfter] at hport
  rw [stores] at hw
  split at hw
  · cases hw
  · next hne =>
    cases haccess : (s.issues inp).bind (access · s.core.eflags) with
    | none =>
      rw [haccess] at hport
      exact .inr hport
    | some a =>
      rw [haccess] at hport
      cases a with
      | read addr => exact .inl (congrArg DataRequest.op hport)
      | write addr data => exact absurd haccess (hne addr data)

end System

section Run

variable (s₀ : System) (inputs : ℕ → Input)

/-- The guest memory once the uops of the first `n` cycles have taken effect, each once and in
program order. -/
def effects : ℕ → Mem
  | 0 => s₀.core.mem
  | n + 1 =>
      ((System.run s₀ inputs n).map fun s ↦ s.effect (inputs n)).elim (effects n) (· (effects n))

/-- A write was driven in the cycle before, and is still to be performed. -/
def Fresh : ℕ → Prop
  | 0 => False
  | n + 1 => ∃ s, System.run s₀ inputs n = some s ∧ s.stores (inputs n) ≠ none

/-- The uop run in cycle `k` leaves the byte alone. -/
def Untouched (k : ℕ) (x : Word) : Prop :=
  ∀ s, System.run s₀ inputs k = some s →
    (∀ w, s.stores (inputs k) = some w → 8 ≤ (x - w.1).toNat) ∧
      ∀ a, s.clockCall (inputs k) = some a → 16 ≤ (x - a).toNat

/-- Stores take effect once in the first `n` cycles, which end in this guest memory: the memory is
what the uops have left, up to a write that is still to be performed; it changes only when a new
write is performed or a system call is made; and the bytes of a system call keep their values until
another uop writes them. -/
structure TakesEffectOnce (n : ℕ) (m : Mem) : Prop where
  once : (Fresh s₀ inputs n ∧ m = effects s₀ inputs (n - 1)) ∨
    (¬Fresh s₀ inputs n ∧ m = effects s₀ inputs n)
  changes : ∀ k < n, ∀ s s', System.run s₀ inputs k = some s →
    System.run s₀ inputs (k + 1) = some s' →
    s'.core.mem ≠ s.core.mem → Fresh s₀ inputs k ∨ s.clockCall (inputs k) ≠ none
  keeps : ∀ k < n, ∀ s a, System.run s₀ inputs k = some s → s.clockCall (inputs k) = some a →
    ∀ x, (x - a).toNat < 16 → (∀ j, k < j → j < n → Untouched s₀ inputs j x) →
      m x = clockWords (inputs k).cycle.now a s.core.mem x

variable {s₀ inputs}

theorem effects_succ {n : ℕ} {s : System} (h : System.run s₀ inputs n = some s) :
    effects s₀ inputs (n + 1) = s.effect (inputs n) (effects s₀ inputs n) := by
  rw [effects, h]
  rfl

/-- A byte that is left alone. -/
theorem effects_of_untouched {n : ℕ} {x : Word} (h : Untouched s₀ inputs n x) :
    effects s₀ inputs (n + 1) x = effects s₀ inputs n x := by
  cases hrun : System.run s₀ inputs n with
  | none =>
    rw [effects, hrun]
    rfl
  | some s =>
    obtain ⟨hstores, hclock⟩ := h s hrun
    rw [effects_succ hrun]
    cases hw : s.stores (inputs n) with
    | some w =>
      rw [System.effect_of_some hw]
      exact ByteMemory.store_of_le _ _ (hstores w hw)
    | none =>
      rw [System.effect_of_none hw]
      cases hcall : s.clockCall (inputs n) with
      | none => rw [System.executed_of_none hcall]
      | some a =>
        rw [System.executed_of_some hcall]
        exact clockWords_of_le (hclock a hcall)

/-- What holds after `n` cycles: performing the request on the port leaves what the uops have left,
and it is only a fresh one that still has something to do. -/
structure Settled (s₀ : System) (inputs : ℕ → Input) (n : ℕ) (s : System) : Prop where
  settled : perform (dataRequest s.core.nxt) s.core.mem = effects s₀ inputs n
  fresh : Fresh s₀ inputs n → s.core.mem = effects s₀ inputs (n - 1)
  mem : ¬Fresh s₀ inputs n → s.core.mem = effects s₀ inputs n

private theorem fresh_succ_iff {n : ℕ} {s : System} (h : System.run s₀ inputs n = some s) :
    Fresh s₀ inputs (n + 1) ↔ s.stores (inputs n) ≠ none := by
  constructor
  · rintro ⟨t, ht, hstores⟩
    obtain rfl := Option.some.inj (h.symm.trans ht)
    exact hstores
  · exact fun hstores ↦ ⟨s, h, hstores⟩

/-- In a cycle without a system call the request on the port is performed, and that is all. -/
theorem Settled.mem_of_none {n : ℕ} {s s' : System} (h : Settled s₀ inputs n s)
    (hstep : System.Step (inputs n) s s') (hcall : s.clockCall (inputs n) = none) :
    s'.core.mem = effects s₀ inputs n := by
  rw [hstep.mem]
  split_ifs
  · rw [System.executed_of_none hcall, h.settled]
  · rw [System.executed_of_none hcall, h.settled]

/-- In a cycle with a system call its words are written as well, whatever the order. -/
private theorem Settled.mem_of_some {n : ℕ} {s s' : System} (h : Settled s₀ inputs n s)
    (hstep : System.Step (inputs n) s s') (hcalm : s.Undisturbed (inputs n)) {a : Word}
    (hcall : s.clockCall (inputs n) = some a) :
    s'.core.mem = clockWords (inputs n).cycle.now a (effects s₀ inputs n) := by
  rw [hstep.mem]
  split_ifs
  · rw [System.executed_of_some hcall, h.settled]
  · rw [System.executed_of_some hcall, (hcalm a hcall).comm, h.settled]

private theorem Settled.next {n : ℕ} {s s' : System} (h : Settled s₀ inputs n s)
    (hrun : System.run s₀ inputs n = some s) (hstep : System.Step (inputs n) s s')
    (hcalm : s.Undisturbed (inputs n)) : Settled s₀ inputs (n + 1) s' := by
  have hagain : perform (dataRequest s.core.nxt) (effects s₀ inputs n) = effects s₀ inputs n := by
    rw [← h.settled, perform_perform]
  cases hstores : s.stores (inputs n) with
  | some w =>
    -- a write: it is on the port now, and the one before has been performed
    have hmem := h.mem_of_none hstep (System.clockCall_of_stores hstores)
    have heffects : effects s₀ inputs (n + 1) = store (effects s₀ inputs n) w.1 w.2 := by
      rw [effects_succ hrun, System.effect_of_some hstores]
    have hfresh : Fresh s₀ inputs (n + 1) :=
      (fresh_succ_iff hrun).mpr (by rw [hstores]; exact Option.some_ne_none w)
    refine ⟨?_, fun _ ↦ hmem, fun hnot ↦ absurd hfresh hnot⟩
    rw [hstep.stored hstores, hmem, heffects]
  | none =>
    have hfresh : ¬Fresh s₀ inputs (n + 1) := fun hf ↦ (fresh_succ_iff hrun).mp hf hstores
    have heffects : effects s₀ inputs (n + 1) = s.executed (inputs n) (effects s₀ inputs n) := by
      rw [effects_succ hrun, System.effect_of_none hstores]
    have hmem : s'.core.mem = effects s₀ inputs (n + 1) ∧
        perform (dataRequest s.core.nxt) (effects s₀ inputs (n + 1)) =
          effects s₀ inputs (n + 1) := by
      rw [heffects]
      cases hcall : s.clockCall (inputs n) with
      | none =>
        rw [System.executed_of_none hcall]
        exact ⟨h.mem_of_none hstep hcall, hagain⟩
      | some a =>
        rw [System.executed_of_some hcall]
        refine ⟨h.mem_of_some hstep hcalm hcall, ?_⟩
        rw [(hcalm a hcall).comm, hagain]
    refine ⟨?_, fun hf ↦ absurd hf hfresh, fun _ ↦ hmem.1⟩
    rcases hstep.held hstores with hread | hheld
    · have hnot : (dataRequest s'.core.nxt).op ≠ .write := by
        rw [show (dataRequest s'.core.nxt).op = .read from hread]
        exact MemOp.noConfusion
      rw [perform, if_neg hnot, hmem.1]
    · rw [hheld, hmem.1, hmem.2]

/-- The cycle a state comes from. -/
theorem exists_of_run_succ {n : ℕ} {s' : System} (h : System.run s₀ inputs (n + 1) = some s') :
    ∃ s, System.run s₀ inputs n = some s ∧ System.Step (inputs n) s s' := by
  obtain ⟨s, hrun, hcycle⟩ := Option.bind_eq_some_iff.mp h
  exact ⟨s, hrun, System.cycle_step hcycle⟩

theorem settled (hstart : s₀.core.nxt.dOp = .none) {n : ℕ} {s : System}
    (hrun : System.run s₀ inputs n = some s)
    (hcalm : ∀ k < n, ∀ t, System.run s₀ inputs k = some t → t.Undisturbed (inputs k)) :
    Settled s₀ inputs n s := by
  induction n generalizing s with
  | zero =>
    obtain rfl := Option.some.inj hrun
    have hnot : (dataRequest s₀.core.nxt).op ≠ .write := by
      rw [show (dataRequest s₀.core.nxt).op = .none from hstart]
      exact MemOp.noConfusion
    exact ⟨if_neg hnot, fun h ↦ h.elim, fun _ ↦ rfl⟩
  | succ n ih =>
    obtain ⟨t, ht, hstep⟩ := exists_of_run_succ hrun
    have hsettled := ih ht fun k hk ↦ hcalm k (Nat.lt_succ_of_lt hk)
    exact hsettled.next ht hstep (hcalm n (Nat.lt_succ_self n) t ht)

/-- The words of a system call stay as they are while no uop writes them. -/
private theorem effects_keeps {k n : ℕ} (hkn : k < n) {s : System} {a x : Word}
    (hrun : System.run s₀ inputs k = some s) (hcall : s.clockCall (inputs k) = some a)
    (hx : (x - a).toNat < 16) (hquiet : ∀ j, k < j → j < n → Untouched s₀ inputs j x) :
    effects s₀ inputs n x = clockWords (inputs k).cycle.now a s.core.mem x := by
  induction n, hkn using Nat.le_induction with
  | base =>
    rw [effects_succ hrun, System.effect_of_none (System.stores_of_clockCall hcall),
      System.executed_of_some hcall]
    exact clockWords_of_lt hx
  | succ n hkn ih =>
    rw [effects_of_untouched (hquiet n hkn (Nat.lt_succ_self n))]
    exact ih fun j hkj hjn ↦ hquiet j hkj (Nat.lt_succ_of_lt hjn)

/-- **Stores take effect once** in every run whose system calls are not disturbed by the request
that is left on the data port. -/
theorem takesEffectOnce (mem : Mem) (regs : Gpr → Word) (eflags : Eflags) (expectedAddr : Word)
    (inputs : ℕ → Input) {n : ℕ} {s : System}
    (hrun : System.run (.start mem regs eflags expectedAddr) inputs n = some s)
    (hcalm : ∀ k < n, ∀ t, System.run (.start mem regs eflags expectedAddr) inputs k = some t →
      t.Undisturbed (inputs k)) :
    TakesEffectOnce (.start mem regs eflags expectedAddr) inputs n s.core.mem := by
  have hsettled := settled rfl hrun hcalm
  refine ⟨?_, ?_, ?_⟩
  · by_cases hfresh : Fresh (.start mem regs eflags expectedAddr) inputs n
    · exact .inl ⟨hfresh, hsettled.fresh hfresh⟩
    · exact .inr ⟨hfresh, hsettled.mem hfresh⟩
  · intro k hk t t' ht ht' hne
    by_contra hnone
    push Not at hnone
    obtain ⟨hfresh, hcall⟩ := hnone
    have hk' := settled rfl ht fun j hj ↦ hcalm j (hj.trans hk)
    obtain ⟨u, hu, hstep⟩ := exists_of_run_succ ht'
    obtain rfl := Option.some.inj (ht.symm.trans hu)
    exact hne ((hk'.mem_of_none hstep hcall).trans (hk'.mem hfresh).symm)
  · intro k hk t a ht hcall x hx hquiet
    by_cases hfresh : Fresh (.start mem regs eflags expectedAddr) inputs n
    · -- the last uop is a write, so it is not the one that made the system call
      rw [hsettled.fresh hfresh]
      match n, hfresh with
      | m + 1, ⟨u, hu, hstores⟩ =>
        have hkm : k ≠ m := by
          rintro rfl
          obtain rfl := Option.some.inj (ht.symm.trans hu)
          exact hstores (System.stores_of_clockCall hcall)
        exact effects_keeps (by omega) ht hcall hx fun j hkj hjm ↦
          hquiet j hkj (Nat.lt_succ_of_lt hjm)
    · rw [hsettled.mem hfresh]
      exact effects_keeps hk ht hcall hx hquiet

end Run

/-! ## A store and a system call -/

/-- A cycle in which no uop is waiting. -/
def emptyCycle (now : ℕ) : Input where
  cycle := ⟨now, 0, 0⟩
  deOutReady := true
  regfile := ⟨fun _ ↦ 0, 0⟩
  ddUopQueue := []
  deUopQueue := []
  ewUopQueue := []
  iReq := ⟨.none, 0, 0⟩
  iPick := 0
  dPick := 0
  memoryFirst := true

/-- `mov [rcx], rbx`, with its operands. -/
def storeUop (pc addr data : Word) : Uop where
  src := .reg
  address := pc
  opcode := .store
  reg1 := .gpr .rbx
  value1 := data
  reg2 := .gpr .rcx
  value2 := addr
  reg3 := .none
  value3 := 0
  immed := 0
  opsize := 3

/-- `syscall`. -/
def syscallUop (pc : Word) : Uop where
  src := .noSrc
  address := pc
  opcode := .syscall
  reg1 := .none
  value1 := 0
  reg2 := .none
  value2 := 0
  reg3 := .none
  value3 := 0
  immed := 0
  opsize := 2

/-- A store of 7 and, one cycle later, a `clock_gettime` at time 1000. -/
def storeThenClock (addr clock : Word) : ℕ → Input
  | 0 => { emptyCycle 0 with deUopQueue := [storeUop 0x1000 addr 7] }
  | 2 => { emptyCycle 1000 with
      deUopQueue := [syscallUop 0x1003]
      regfile := ⟨fun g ↦ if g = .rax then 228 else if g = .rsi then clock else 0, 0⟩ }
  | n => emptyCycle (500 * n)

/-- An empty memory after reset. -/
def emptyStart : System := .start (fun _ ↦ 0) (fun _ ↦ 0) ⟨0⟩ 0

theorem takesEffectOnce_apart :
    ∃ s, System.run emptyStart (storeThenClock 0x20000 0x30000) 4 = some s ∧
    TakesEffectOnce emptyStart (storeThenClock 0x20000 0x30000) 4 s.core.mem := by
  have hrun : (System.run emptyStart (storeThenClock 0x20000 0x30000) 4).isSome := by decide +kernel
  have hcall : ∀ k < 4, (System.run emptyStart (storeThenClock 0x20000 0x30000) k).map
      (fun t ↦ t.clockCall (storeThenClock 0x20000 0x30000 k)) =
        some (if k = 2 then some 0x30000 else none) := by decide +kernel
  have haddr : (System.run emptyStart (storeThenClock 0x20000 0x30000) 2).map
      (fun t ↦ (dataRequest t.core.nxt).addr) = some 0x20000 := by decide +kernel
  obtain ⟨s, hs⟩ := Option.isSome_iff_exists.mp hrun
  refine ⟨s, hs, takesEffectOnce _ _ _ _ _ hs ?_⟩
  intro k hk t ht a ha m x hx
  have hk2 := hcall k hk
  rw [show System.run emptyStart _ k = some t from ht, Option.map_some, ha] at hk2
  split_ifs at hk2 with h2
  · subst h2
    obtain rfl := Option.some.inj (Option.some.inj hk2)
    rw [show System.run emptyStart _ 2 = some t from ht, Option.map_some] at haddr
    -- the two addresses are far apart
    rw [perform, Option.some.inj haddr]
    split_ifs
    · exact ByteMemory.store_of_le _ _ (by bv_omega)
    · rfl
  · cases Option.some.inj hk2

/-- The store is performed again after the system call, although no uop asks for it. -/
theorem not_takesEffectOnce_same :
    ∃ s, System.run emptyStart (storeThenClock 0x20000 0x20000) 4 = some s ∧
      ¬TakesEffectOnce emptyStart (storeThenClock 0x20000 0x20000) 4 s.core.mem := by
  have hbefore : (System.run emptyStart (storeThenClock 0x20000 0x20000) 3).map
      (fun t ↦ (t.core.mem 0x20000, t.clockCall (storeThenClock 0x20000 0x20000 3))) =
        some (0xe8, none) := by decide +kernel
  have hafter : (System.run emptyStart (storeThenClock 0x20000 0x20000) 4).map
      (fun t ↦ t.core.mem 0x20000) = some 7 := by decide +kernel
  have hstores : (System.run emptyStart (storeThenClock 0x20000 0x20000) 2).map
      (fun t ↦ t.stores (storeThenClock 0x20000 0x20000 2)) = some none := by decide +kernel
  obtain ⟨t, ht, htmem⟩ := Option.map_eq_some_iff.mp hbefore
  obtain ⟨s, hs, hsmem⟩ := Option.map_eq_some_iff.mp hafter
  obtain ⟨hbyte, hclock⟩ := Prod.mk.inj htmem
  refine ⟨s, hs, fun h ↦ ?_⟩
  have hne : s.core.mem ≠ t.core.mem := by
    intro heq
    rw [heq, hbyte] at hsmem
    exact absurd hsmem (by decide)
  rcases h.changes 3 (by decide) t s ht hs hne with ⟨u, hu, hfresh⟩ | hcall
  · rw [hu] at hstores
    exact hfresh (Option.some.inj hstores)
  · exact hcall hclock

end Cse502.Memory
