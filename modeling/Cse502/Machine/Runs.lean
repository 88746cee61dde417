import Cse502.Machine.Survival

/-!
# Runs of the machine

Every program of register instructions and jumps that lies in the guest memory and jumps in time is
run as the sequential machine runs it: no assert fails, the instructions that are executed are those
of the sequential run with its values, and they are executed at a rate that nothing can lower. All
of it holds for every order of the processes in every cycle and every choice among the responses of
`Memory` that are due at once.
-/

namespace Cse502.Machine

open Decoder (Udis Ud Operand)
open Pipeline (BranchInsn BranchProgram Pipe Point)

variable {u : Udis} {mem : Mem}

/-! ## A program in the guest memory -/

theorem dec_mem_unaryOpcodes : Mnemonic.dec ∈ Pipeline.unaryOpcodes := by decide

theorem test_mem_regOpcodes : Mnemonic.test ∈ Pipeline.regOpcodes := by decide

theorem jnz_mem_jumpOpcodes : Mnemonic.jnz ∈ Pipeline.jumpOpcodes := by decide

theorem jmp_mem_jumpOpcodes : Mnemonic.jmp ∈ Pipeline.jumpOpcodes := by decide

/-- Count RCX down to zero, and stay behind the loop. -/
def counter : BranchProgram where
  insn a :=
    if a = 0x10000 then some (.plain (.unary ⟨.dec, dec_mem_unaryOpcodes⟩ .rcx))
    else if a = 0x10003 then some (.plain (.regReg ⟨.test, test_mem_regOpcodes⟩ .rcx .rcx))
    else if a = 0x10006 then some (.jump ⟨.jnz, jnz_mem_jumpOpcodes⟩ (-8))
    else if a = 0x10008 then some (.jump ⟨.jmp, jmp_mem_jumpOpcodes⟩ (-2))
    else none
  size a := if a = 0x10000 ∨ a = 0x10003 then 3 else 2
  sized a _ := by split_ifs <;> decide

/-- RCX as an operand. -/
def rcx : Operand := { Operand.none with type := .reg, base := .gpr .rcx }

/-- A jump offset as an operand. -/
def offset8 (lval : Word) : Operand :=
  { Operand.none with type := .jimm, size := 8, lval := lval }

/-- Its instructions, in their bytes and as udis86 reports them. -/
def counterTable : List (List (BitVec 8) × Ud) :=
  [([0x48, 0xff, 0xc9], ⟨.dec, rcx, .none, .none⟩),
    ([0x48, 0x85, 0xc9], ⟨.test, rcx, rcx, .none⟩),
    ([0x75, 0xf8], ⟨.jnz, offset8 0xf8, .none, .none⟩),
    ([0xeb, 0xfe], ⟨.jmp, offset8 0xfe, .none, .none⟩)]

/-- A disassembler that knows these instructions only. Of anything else it takes all bytes. -/
def counterUdis : Udis where
  toPrefixCode := .ofTable counterTable (by decide) (by decide)
  invalidLength := Frontend.movUdis.invalidLength
  invalidLength_nil := Frontend.movUdis.invalidLength_nil
  invalidLength_cut _ _ := rfl

/-- The guest memory with its bytes. -/
def counterMem : Mem := fun a ↦
  (counterTable.flatMap Prod.fst).getD (a - 0x10000).toNat 0

theorem counter_loaded : Loaded counterUdis counterMem counter := by
  intro a insn h
  simp only [counter] at h
  split_ifs at h with h₁ h₂ h₃ h₄ <;> obtain rfl := Option.some.inj h
  · subst h₁
    exact ⟨⟨[0x48, 0xff, 0xc9], ⟨.dec, rcx, .none, .none⟩, rfl⟩, by decide, rfl⟩
  · subst h₂
    exact ⟨⟨[0x48, 0x85, 0xc9], ⟨.test, rcx, rcx, .none⟩, rfl⟩, by decide, rfl⟩
  · subst h₃
    exact ⟨⟨[0x75, 0xf8], ⟨.jnz, offset8 0xf8, .none, .none⟩, rfl⟩, by decide, rfl⟩
  · subst h₄
    exact ⟨⟨[0xeb, 0xfe], ⟨.jmp, offset8 0xfe, .none, .none⟩, rfl⟩, by decide, rfl⟩

/-- Where its instructions are. -/
def counterPcs : List Word := [0x10000, 0x10003, 0x10006, 0x10008]

theorem hi_counterMem : ∀ a ∈ counterPcs, Frontend.hi (counterMem a) ≠ 0 := by
  intro a ha
  simp only [counterPcs, List.mem_cons, List.not_mem_nil, or_false] at ha
  rcases ha with rfl | rfl | rfl | rfl <;> decide

theorem counter_insn {a : Word} (h : a ∈ counterPcs) : counter.insn a ≠ none := by
  simp only [counterPcs, List.mem_cons, List.not_mem_nil, or_false] at h
  rcases h with rfl | rfl | rfl | rfl <;> simp [counter]

section Counter

variable (s : Point) (n : ℕ)

theorem counter_behind (a : Word) :
    counter.behind a = if a = 0x10000 ∨ a = 0x10003 then a + 3 else a + 2 := by
  rw [BranchProgram.behind]
  simp only [counter]
  split_ifs <;> rfl

theorem counter_targetAt : counter.targetAt s =
    if s.pc = 0x10006 then (if Execute.condition .jnz s.eflags then some 0x10000 else none)
    else if s.pc = 0x10008 then some 0x10008 else none := by
  rw [BranchProgram.targetAt]
  simp only [counter_behind]
  simp only [counter]
  split_ifs <;> simp_all [BranchInsn.target, Execute.condition]

theorem counter_step_pc (h : s.pc ∈ counterPcs) :
    (counter.step s).pc = (counter.targetAt s).getD (counter.behind s.pc) := by
  obtain ⟨insn, hinsn⟩ := Option.ne_none_iff_exists'.mp (counter_insn h)
  rw [counter.step_of_insn hinsn, counter.targetAt_of_insn hinsn]

theorem counter_after_pc (h : s.pc ∈ counterPcs) : (counter.after s n).pc ∈ counterPcs := by
  induction n with
  | zero => exact h
  | succ n ih =>
    rw [BranchProgram.after, counter_step_pc _ ih, counter_targetAt, counter_behind]
    simp only [counterPcs, List.mem_cons, List.not_mem_nil, or_false] at ih ⊢
    rcases ih with ih | ih | ih | ih <;> simp [ih]
    split_ifs <;> simp

/-- Without a jump here there is one in the steps behind. -/
private theorem turns_succ {k : ℕ} (h : s.pc ∈ counterPcs)
    (hnext : (counter.step s).pc = counter.behind s.pc →
      ∃ j < k, counter.targetAt (counter.after (counter.step s) j) ≠ none) :
    ∃ j < k + 1, counter.targetAt (counter.after s j) ≠ none := by
  cases htarget : counter.targetAt s with
  | some t =>
    refine ⟨0, Nat.succ_pos k, ?_⟩
    rw [BranchProgram.after, htarget]
    exact Option.some_ne_none t
  | none =>
    obtain ⟨j, hj, htaken⟩ := hnext (by rw [counter_step_pc s h, htarget]; rfl)
    refine ⟨1 + j, by omega, ?_⟩
    rw [BranchProgram.after_add]
    exact htaken

/-- One of any four instructions is a jump that is taken. -/
theorem counter_turns (h : s.pc ∈ counterPcs) :
    ∃ j < 4, counter.targetAt (counter.after s j) ≠ none := by
  have hjmp : ∀ s : Point, s.pc = 0x10008 →
      ∃ j < 1, counter.targetAt (counter.after s j) ≠ none := fun s hpc ↦
    ⟨0, Nat.one_pos, by rw [BranchProgram.after, counter_targetAt, hpc]; simp⟩
  have hjnz : ∀ s : Point, s.pc = 0x10006 →
      ∃ j < 2, counter.targetAt (counter.after s j) ≠ none := fun s hpc ↦
    turns_succ s (by simp [hpc, counterPcs]) fun hnext ↦
      hjmp _ (by rw [hnext, counter_behind, hpc]; simp)
  have htest : ∀ s : Point, s.pc = 0x10003 →
      ∃ j < 3, counter.targetAt (counter.after s j) ≠ none := fun s hpc ↦
    turns_succ s (by simp [hpc, counterPcs]) fun hnext ↦
      hjnz _ (by rw [hnext, counter_behind, hpc]; simp)
  have hdec : ∀ s : Point, s.pc = 0x10000 →
      ∃ j < 4, counter.targetAt (counter.after s j) ≠ none := fun s hpc ↦
    turns_succ s (by simp [hpc, counterPcs]) fun hnext ↦
      htest _ (by rw [hnext, counter_behind, hpc]; simp)
  simp only [counterPcs, List.mem_cons, List.not_mem_nil, or_false] at h
  rcases h with h | h | h | h
  · exact hdec s h
  · obtain ⟨j, hj, htaken⟩ := htest s h
    exact ⟨j, by omega, htaken⟩
  · obtain ⟨j, hj, htaken⟩ := hjnz s h
    exact ⟨j, by omega, htaken⟩
  · obtain ⟨j, hj, htaken⟩ := hjmp s h
    exact ⟨j, by omega, htaken⟩

theorem counter_placed (hmem : ∀ a ∈ counterPcs, Frontend.hi (mem a) ≠ 0) (h : s.pc = 0x10000) :
    Placed mem counter s 0x10008 4 n := by
  have hpc : ∀ k, (counter.after s k).pc ∈ counterPcs := fun k ↦
    counter_after_pc s k (by simp [h, counterPcs])
  have hrange : ∀ a ∈ counterPcs, 0x10000 ≤ a.toNat ∧ a.toNat ≤ 0x10008 := by
    intro a ha
    simp only [counterPcs, List.mem_cons, List.not_mem_nil, or_false] at ha
    rcases ha with rfl | rfl | rfl | rfl <;> exact ⟨by simp, by simp⟩
  exact
    { inside := fun k _ ↦ counter_insn (hpc k)
      enterable := ⟨hmem _ (hpc 0), fun k _ _ ↦ hmem _ (hpc (k + 1))⟩
      low := fun k _ ↦ (hrange _ (hpc k)).1
      high := fun k _ ↦ (hrange _ (hpc k)).2
      turns := fun k _ ↦ by
        obtain ⟨j, hj, htaken⟩ := counter_turns _ (hpc k)
        exact ⟨j, hj, by rwa [BranchProgram.after_add]⟩
      room := by decide }

end Counter

/-- Ten thousand cycles in the order of the processes. -/
@[irreducible]
def counterCycles : Cycles :=
  List.replicate 10000 ⟨⟨0, 0, fun _ ↦ ⟨0, 0, 0⟩, 0, 0⟩, processes, .refl _⟩

theorem length_counterCycles : counterCycles.length = 10000 := by
  rw [counterCycles, List.length_replicate]

/-- The point it starts from, with three in RCX. -/
abbrev counterStart : Point := bootPoint 0x10000 0x20000 (fun _ ↦ 3) ⟨0⟩

/-- The machine after these cycles. -/
abbrev counterMachine : Machine :=
  run counterUdis counterCycles
    (boot counterMem 0x10000 0x20000 (fun _ ↦ 3) ⟨0⟩ 0 ⟨0, 0, Uop.zero, 0⟩)

theorem counter_alive : counterMachine.core.aborted = false :=
  (exists_leashed counter_loaded 0x10000 0x20000 (fun _ ↦ 3) ⟨0⟩ 0 ⟨0, 0, Uop.zero, 0⟩
    (counter_placed counterStart _ hi_counterMem rfl) counterCycles le_rfl).1

/-! ## The results -/

/-- **The machine survives every program that jumps in time.** No assert fails, and `Fetch` gets no
further behind the program than the longest way between two jumps allows. -/
theorem machine_survives (prog : BranchProgram) (hload : Loaded u mem prog) (entry rsp : Word)
    (regs : Gpr → Word) (eflags : Eflags) (now : ℕ) (x : Unset) {top L N : ℕ}
    (hplaced : Placed mem prog (bootPoint entry rsp regs eflags) top L N) (cs : Cycles) :
    let m := run u cs (boot mem entry rsp regs eflags now x)
    m.trace.length ≤ N → m.core.aborted = false ∧
      0x10000 ≤ m.fetch.rip.toNat ∧ m.fetch.rip.toNat + 16 ≤ top + 57920 * (L + 1) := by
  intro m hN
  obtain ⟨halive, p, k, n, since, hrunning, hleashed⟩ :=
    exists_leashed hload entry rsp regs eflags now x hplaced cs hN
  exact ⟨halive, hleashed.low, hleashed.rip_lt hplaced (hrunning.sim.trace ▸ hN)⟩

theorem counter_survives : counterMachine.core.aborted = false ∧
    0x10000 ≤ counterMachine.fetch.rip.toNat ∧ counterMachine.fetch.rip.toNat + 16 ≤ 0x56b48 :=
  machine_survives counter counter_loaded 0x10000 0x20000 (fun _ ↦ 3) ⟨0⟩ 0 ⟨0, 0, Uop.zero, 0⟩
    (counter_placed counterStart _ hi_counterMem rfl) counterCycles le_rfl

/-- The machine has run the program from a point on, but for the results still in the queue. -/
structure Executed (prog : BranchProgram) (s₀ : Point) (mem : Mem) (m : Machine) : Prop where
  traced : ∀ k op, m.trace[k]? = some op → prog.Executes (prog.after s₀ k) op
  eflags : m.core.eflags = (prog.after s₀ m.trace.length).eflags
  pending : m.core.ewUopQueue.length ≤ 2
  regfile : m.core.regfile.gpr = (prog.after s₀ (m.trace.length - m.core.ewUopQueue.length)).regs
  unchanged : m.core.mem = mem

theorem Running.executed {prog : BranchProgram} {s₀ : Point} {m : Machine} {p : Pipe Word}
    (hrunning : Running mem prog m p) (hinv : prog.Inv s₀ [] p)
    (hinside : prog.Inside s₀ m.trace.length) : Executed prog s₀ mem m := by
  have htrace : m.trace = p.trace := hrunning.sim.trace
  have hew : m.core.ewUopQueue = p.core.ewUopQueue := hrunning.sim.ewUopQueue
  rw [htrace] at hinside
  obtain ⟨n, r, h, -⟩ := hinv hinside
  have hr : n - p.core.ewUopQueue.length = r := Nat.sub_eq_of_eq_add h.count
  constructor
  · rw [htrace]
    exact h.traced
  · rw [htrace, h.length]
    exact hrunning.sim.eflags.trans h.eflags
  · rw [hew]
    exact h.ewLength
  · rw [htrace, hew, h.length, hr, hrunning.sim.regfile]
    exact h.regfile
  · exact hrunning.served.unchanged

/-- The run of the pipeline behind a run of the machine, and how far it has got. -/
theorem exists_paced {prog : BranchProgram} (hload : Loaded u mem prog) (entry rsp : Word)
    (regs : Gpr → Word) (eflags : Eflags) (now : ℕ) (x : Unset) (cs : Cycles) :
    let s₀ := bootPoint entry rsp regs eflags
    let m := run u cs (boot mem entry rsp regs eflags now x)
    m.core.aborted = false → prog.Inside s₀ m.trace.length →
      Enterable mem prog s₀ m.trace.length → ∃ p, Running mem prog m p ∧ prog.Inv s₀ [] p ∧
        ∃ k, cs.length + pace p k ≤ 3620 * m.trace.length + 2714 := by
  intro s₀ m halive hinside henter
  let Q : ℕ → Machine → Pipe Word → Prop := fun n m p ↦
    ∃ k, Paced m p k ∧ n + pace p k ≤ 3620 * p.trace.length + 2714
  have hboot : Q 0 (boot mem entry rsp regs eflags now x)
      (BranchProgram.boot s₀ mem x.expectedAddr x.op) :=
    ⟨904, paced_boot entry rsp regs eflags now x, by rw [pace_boot]; exact le_rfl⟩
  obtain ⟨p, hrunning, hinv, k, -, hle⟩ := exists_running hload entry rsp regs eflags now x hboot
    (fun n c m p c' hrunning hinv hfollows hinside ⟨k, hpaced, hle⟩ ↦ by
      obtain ⟨⟨k', hpaced', hstep⟩, -⟩ := hpaced.cycle hrunning hinv hfollows hinside
      exact ⟨k', hpaced', by omega⟩) cs halive hinside henter
  have htrace : m.trace = p.trace := hrunning.sim.trace
  exact ⟨p, hrunning, hinv, k, by rwa [htrace]⟩

/-- **The machine runs the programs in its memory.** -/
theorem machine_refines (prog : BranchProgram) (hload : Loaded u mem prog) (entry rsp : Word)
    (regs : Gpr → Word) (eflags : Eflags) (now : ℕ) (x : Unset) (cs : Cycles) :
    let s₀ := bootPoint entry rsp regs eflags
    let m := run u cs (boot mem entry rsp regs eflags now x)
    m.core.aborted = false → prog.Inside s₀ m.trace.length →
      Enterable mem prog s₀ m.trace.length →
        (∀ k op, m.trace[k]? = some op → prog.Executes (prog.after s₀ k) op) ∧
        m.core.eflags = (prog.after s₀ m.trace.length).eflags ∧
        m.core.ewUopQueue.length ≤ 2 ∧
        m.core.regfile.gpr =
          (prog.after s₀ (m.trace.length - m.core.ewUopQueue.length)).regs ∧
        m.core.mem = mem := by
  intro s₀ m halive hinside henter
  obtain ⟨p, hrunning, hinv, -⟩ :=
    exists_paced hload entry rsp regs eflags now x cs halive hinside henter
  have h := hrunning.executed hinv hinside
  exact ⟨h.traced, h.eflags, h.pending, h.regfile, h.unchanged⟩

theorem counter_refines :
    (∀ k op, counterMachine.trace[k]? = some op →
      counter.Executes (counter.after counterStart k) op) ∧
    counterMachine.core.eflags = (counter.after counterStart counterMachine.trace.length).eflags ∧
    counterMachine.core.ewUopQueue.length ≤ 2 ∧
    counterMachine.core.regfile.gpr = (counter.after counterStart
      (counterMachine.trace.length - counterMachine.core.ewUopQueue.length)).regs ∧
    counterMachine.core.mem = counterMem := by
  have hplaced := counter_placed counterStart counterMachine.trace.length hi_counterMem rfl
  exact machine_refines counter counter_loaded 0x10000 0x20000 (fun _ ↦ 3) ⟨0⟩ 0
    ⟨0, 0, Uop.zero, 0⟩ counterCycles counter_alive hplaced.inside hplaced.enterable

/-- **The machine never comes to a standstill.** -/
theorem machine_progress (prog : BranchProgram) (hload : Loaded u mem prog) (entry rsp : Word)
    (regs : Gpr → Word) (eflags : Eflags) (now : ℕ) (x : Unset) (cs : Cycles) :
    let s₀ := bootPoint entry rsp regs eflags
    let m := run u cs (boot mem entry rsp regs eflags now x)
    m.core.aborted = false → prog.Inside s₀ m.trace.length →
      Enterable mem prog s₀ m.trace.length → cs.length < 3620 * m.trace.length + 2715 := by
  intro s₀ m halive hinside henter
  obtain ⟨p, -, -, k, hle⟩ :=
    exists_paced hload entry rsp regs eflags now x cs halive hinside henter
  exact Nat.lt_succ_of_le ((Nat.le_add_right _ _).trans hle)

theorem counter_progress : 2 < counterMachine.trace.length := by
  have hplaced := counter_placed counterStart counterMachine.trace.length hi_counterMem rfl
  have h : counterCycles.length < 3620 * counterMachine.trace.length + 2715 :=
    machine_progress counter counter_loaded 0x10000 0x20000 (fun _ ↦ 3) ⟨0⟩ 0 ⟨0, 0, Uop.zero, 0⟩
      counterCycles counter_alive hplaced.inside hplaced.enterable
  rw [length_counterCycles] at h
  omega

end Cse502.Machine
