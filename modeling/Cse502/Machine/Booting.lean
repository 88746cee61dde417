import Cse502.Machine.Runs
import Cse502.Memory.Arguments
import Cse502.Memory.Loader

/-!
# From a file to a run

`Memory` loads the file and lays out the arguments, and then the reset sends `Fetch` to the entry
point and sets the stack pointer to `stack_base`. What comes from the file stays where no later
segment and not the stack is written over it (`Host.Places`). So a program that is in the file is in
the guest memory when the first cycle starts, and what holds of the programs there holds of it.
-/

namespace Cse502

open Memory (size)

variable {h : Host} {m : Mem} {r : Logged m × Word} {args : Arguments} {a x : Word} {n pos : ℕ}

/-! ## What stays of the file -/

theorem stackBase_le_of_mem_written (hfits : args.Fits) {c : Copy 64 (BitVec 8)}
    (hc : c ∈ (initStack args m).written) : stackBase.toNat ≤ c.dst.toNat := by
  have hfirst := args.toNat_first
  have hargc := args.argc_lt
  have hbase : stackBase.toNat = 0x3fffc00 := rfl
  have htop := Arguments.first_add_span_lt hfits
  have hsize : size.toNat = 0x4000000 := rfl
  rw [Arguments.written_initStack, Arguments.lastCopies, List.mem_append, List.mem_cons,
    List.mem_singleton] at hc
  rcases hc with hc | rfl | rfl
  · rcases mem_copies hc (by omega) with ⟨hle, -⟩ | ⟨j, -, hj, hdst, -⟩
    · omega
    · rw [hdst, Arguments.toNat_newargv (by omega)]
      exact Nat.le_add_right _ _
  · dsimp only
    rw [Copy.toNat_add (by omega)]
    omega
  · exact le_rfl

/-- The arguments are laid out from `stack_base` on. -/
theorem Arguments.mem_below (hfits : args.Fits) (hx : x.toNat < stackBase.toNat) :
    (initStack args m).mem x = m x := by
  rw [(initStack args m).mem_eq]
  refine Copy.runAll_of_not_covers fun c hc ↦ ?_
  have hle := stackBase_le_of_mem_written hfits hc
  rcases Copy.inside_iff.mp ((inside_iff_fits args m).mpr hfits c hc) with hzero | hend
  · rw [Copy.Covers, hzero]
    exact Nat.not_lt_zero _
  · exact Copy.not_covers_of_lt (hx.trans_le hle) (hend.trans size.isLt.le)

/-- These are the file's bytes from `pos` on: they belong to a segment, no later one lies over them,
and they are below the stack. -/
def Host.Places (h : Host) (a : Word) (n pos : ℕ) : Prop :=
  ∃ before p after k, h.phdrs = before ++ p :: after ∧ p.type = ptLoad ∧ p.FitsGuest ∧
    a = p.vaddr + BitVec.ofNat 64 k ∧ pos = p.offset.toNat + k ∧ k + n ≤ p.filesz.toNat ∧
    (∀ i < n, ∀ q ∈ after, ¬q.Spans (a + BitVec.ofNat 64 i)) ∧ a.toNat + n ≤ stackBase.toNat

theorem Host.Places.getElem? (hplaces : h.Places a n pos) (hr : loadElf h m = .ok r)
    (hfits : args.Fits) {i : ℕ} (hi : i < n) :
    h.bytes[pos + i]? = some ((initStack args r.1.mem).mem (a + BitVec.ofNat 64 i)) := by
  obtain ⟨before, p, after, k, hsplit, hload, hguest, ha, rfl, hle, hspans, hstack⟩ := hplaces
  have hbase : stackBase.toNat = 0x3fffc00 := rfl
  have hadd : a + BitVec.ofNat 64 i = p.vaddr + BitVec.ofNat 64 (k + i) := by
    rw [ha, BitVec.add_assoc, ← BitVec.ofNat_add]
  have hbelow : (a + BitVec.ofNat 64 i).toNat < stackBase.toNat := by
    rw [Copy.toNat_add (by omega)]
    omega
  have hlater := hspans i hi
  rw [Arguments.mem_below hfits hbelow]
  rw [hadd] at hlater ⊢
  rw [Nat.add_assoc]
  exact fileBytes_of_fits hr hsplit hload hguest (by omega) hlater

theorem Host.Places.bytesFrom_eq (hplaces : h.Places a n pos) (hr : loadElf h m = .ok r)
    (hfits : args.Fits) :
    Machine.bytesFrom (initStack args r.1.mem).mem a n = (h.bytes.drop pos).take n := by
  refine List.ext_getElem? fun i ↦ ?_
  rcases Nat.lt_or_ge i n with hi | hi
  · rw [List.getElem?_take_of_lt hi, List.getElem?_drop, hplaces.getElem? hr hfits hi,
      Machine.bytesFrom, List.getElem?_map, List.getElem?_range hi, Option.map_some]
  · rw [List.getElem?_eq_none (by rwa [Machine.length_bytesFrom]),
      List.getElem?_eq_none ((List.length_take_le _ _).trans hi)]

theorem entry_loadElf (hr : loadElf h m = .ok r) : r.2 = h.ehdr.entry := by
  rw [loadElf] at hr
  split_ifs at hr
  cases hs : loadHeaders h h.phdrs (.start m) with
  | error e => simp [hs, Except.map] at hr
  | ok s =>
    rw [hs] at hr
    rw [← Except.ok.inj hr]

namespace Machine

open Decoder (Udis)
open Pipeline (BranchProgram)
open PrefixCode (Encoding)

variable {u : Udis} {prog : BranchProgram}

/-! ## Programs in a file -/

/-- The instructions of the program are in the file. -/
def Filed (u : Udis) (h : Host) (prog : BranchProgram) : Prop :=
  ∀ a insn, prog.insn a = some insn → ∃ pos, ∃ e : Encoding u.toPrefixCode,
    h.Places a (prog.size a) pos ∧ e.symbols = (h.bytes.drop pos).take (prog.size a) ∧
      Decoder.crack e.value = some [insn.push]

theorem loaded_of_filed (hfiled : Filed u h prog) (hr : loadElf h m = .ok r)
    (hfits : args.Fits) : Loaded u (initStack args r.1.mem).mem prog := by
  intro a insn hinsn
  obtain ⟨pos, e, hplaces, hsymbols, hcrack⟩ := hfiled a insn hinsn
  exact ⟨e, by rw [hsymbols, hplaces.bytesFrom_eq hr hfits], hcrack⟩

/-- **What is loaded is run.** A program in an accepted file that jumps in time and is never left is
run from the reset on, no assert fails, and the arguments stay where they are. -/
theorem booted_runs (hr : loadElf h m = .ok r) (hfits : args.Fits) (hfiled : Filed u h prog)
    (regs : Gpr → Word) (eflags : Eflags) (now : ℕ) (x : Unset) {top L : ℕ}
    (hplaced : ∀ N, Placed (initStack args r.1.mem).mem prog
      (bootPoint r.2 stackBase regs eflags) top L N) (cs : Cycles) :
    let mem := (initStack args r.1.mem).mem
    let machine := run u cs (boot mem r.2 stackBase regs eflags now x)
    machine.core.aborted = false ∧
      Executed prog (bootPoint r.2 stackBase regs eflags) mem machine ∧
      cs.length < 3620 * machine.trace.length + 2715 ∧
      ByteMemory.load machine.core.mem stackBase = BitVec.ofNat 64 args.argv.length ∧
      ∀ k arg, args.argv[k]? = some arg → ∀ i < arg.bytes.length, arg.bytes[i]? =
        some (machine.core.mem (ByteMemory.load machine.core.mem (newargv (k + 1)) +
          BitVec.ofNat 64 i)) := by
  intro mem machine
  have hload := loaded_of_filed hfiled hr hfits
  have hN := hplaced machine.trace.length
  have halive := (exists_leashed hload r.2 stackBase regs eflags now x hN cs le_rfl).1
  obtain ⟨p, hrunning, hinv, k, hle⟩ := exists_paced hload r.2 stackBase regs eflags now x cs
    halive hN.inside hN.enterable
  have hexecuted := hrunning.executed hinv hN.inside
  have hstack := Arguments.stackFormed_of_fits (m := r.1.mem) hfits
  have hmem : machine.core.mem = mem := hexecuted.unchanged
  refine ⟨halive, hexecuted, Nat.lt_succ_of_le ((Nat.le_add_right _ _).trans hle), ?_, ?_⟩
  · rw [hmem]
    exact hstack.argc
  · rw [hmem]
    exact fun k arg harg ↦ (hstack.strings k arg harg).2

/-! ## A file with a program -/

/-- `counter` at 0x10000, its entry point, in the segment of a file. -/
def counterFile : List (BitVec 8) :=
  List.replicate 24 0 ++ WordBytes.bytesUp 8 (0x10000 : Word) ++
    ((oneSegment 120 0x10000 10 10).drop 32).take 88 ++ counterTable.flatMap Prod.fst ++
    List.replicate 494 0

/-- The file, where the guest's memory can be written. -/
def counterHost : Host where
  bytes := counterFile
  length_lt := by decide +kernel
  writable dst := decide (dst < size)

/-- One argument of one character. -/
def counterArguments : Arguments where
  argv := [⟨[0x61], by decide⟩]
  argc_lt := by decide

theorem counter_places {k n : ℕ} (hle : k + n ≤ 10) :
    counterHost.Places (0x10000 + BitVec.ofNat 64 k) n (120 + k) := by
  have hphdrs : counterHost.phdrs = [] ++ ⟨1, 120, 0x10000, 10, 10⟩ :: [] := by decide +kernel
  refine ⟨[], _, [], k, hphdrs, rfl, by decide, rfl, rfl, hle,
    fun i _ q hq ↦ absurd hq List.not_mem_nil, ?_⟩
  have hbase : stackBase.toNat = 0x3fffc00 := rfl
  have haddr : (0x10000 : Word).toNat = 0x10000 := rfl
  rw [Copy.toNat_add (by omega)]
  omega

theorem counter_filed : Filed counterUdis counterHost counter := by
  intro a insn hinsn
  obtain ⟨e, hsymbols, hcrack⟩ := counter_loaded a insn hinsn
  have ha : a ∈ counterPcs := by
    simp only [counter] at hinsn
    split_ifs at hinsn <;> simp [counterPcs, *]
  simp only [counterPcs, List.mem_cons, List.not_mem_nil, or_false] at ha
  rcases ha with rfl | rfl | rfl | rfl
  · exact ⟨120, e, counter_places (k := 0) (by decide), hsymbols.trans (by decide +kernel), hcrack⟩
  · exact ⟨123, e, counter_places (k := 3) (by decide), hsymbols.trans (by decide +kernel), hcrack⟩
  · exact ⟨126, e, counter_places (k := 6) (by decide), hsymbols.trans (by decide +kernel), hcrack⟩
  · exact ⟨128, e, counter_places (k := 8) (by decide), hsymbols.trans (by decide +kernel), hcrack⟩

theorem hi_counterHost {r : Logged m × Word} (hr : loadElf counterHost m = .ok r)
    (hfits : args.Fits) : ∀ a ∈ counterPcs, Frontend.hi ((initStack args r.1.mem).mem a) ≠ 0 := by
  have hfirst : ∀ a i b, a = 0x10000 + BitVec.ofNat 64 i → i < 10 →
      counterHost.bytes[120 + i]? = some b → Frontend.hi b ≠ 0 →
        Frontend.hi ((initStack args r.1.mem).mem a) ≠ 0 := by
    intro a i b ha hi hb hne
    have hget := (counter_places (k := 0) (n := 10) le_rfl).getElem? hr hfits hi
    rw [BitVec.add_zero, ← ha, hb] at hget
    rwa [← Option.some.inj hget]
  intro a ha
  simp only [counterPcs, List.mem_cons, List.not_mem_nil, or_false] at ha
  rcases ha with rfl | rfl | rfl | rfl
  · exact hfirst _ 0 0x48 (by decide) (by decide) (by decide +kernel) (by decide)
  · exact hfirst _ 3 0x48 (by decide) (by decide) (by decide +kernel) (by decide)
  · exact hfirst _ 6 0x75 (by decide) (by decide) (by decide +kernel) (by decide)
  · exact hfirst _ 8 0xeb (by decide) (by decide) (by decide +kernel) (by decide)

theorem counter_booted : ∃ r, loadElf counterHost (fun _ ↦ 1) = .ok r ∧
    let machine := run counterUdis counterCycles (boot (initStack counterArguments r.1.mem).mem r.2
      stackBase (fun _ ↦ 3) ⟨0⟩ 0 ⟨0, 0, Uop.zero, 0⟩)
    machine.core.aborted = false ∧ 2 < machine.trace.length ∧
      ByteMemory.load machine.core.mem stackBase = 1 ∧
      machine.core.mem (ByteMemory.load machine.core.mem (newargv 1)) = 0x61 := by
  obtain ⟨r, hr⟩ := exists_of_isOk (h := counterHost) (m := fun _ ↦ 1) (by decide +kernel)
  have hfits : counterArguments.Fits := by decide +kernel
  have hentry : r.2 = 0x10000 := by
    rw [entry_loadElf hr]
    decide +kernel
  obtain ⟨halive, -, hlength, hargc, hstrings⟩ := booted_runs hr hfits counter_filed (fun _ ↦ 3)
    ⟨0⟩ 0 ⟨0, 0, Uop.zero, 0⟩ (fun N ↦ counter_placed _ N (hi_counterHost hr hfits) hentry)
    counterCycles
  have hone : BitVec.ofNat 64 counterArguments.argv.length = 1 := rfl
  have hbytes : ∀ arg, counterArguments.argv[0]? = some arg → arg.bytes[0]? = some 0x61 := by
    intro arg harg
    rw [← Option.some.inj harg]
    rfl
  refine ⟨r, hr, halive, ?_, hargc.trans hone, ?_⟩
  · rw [length_counterCycles] at hlength
    omega
  · have hchar := hstrings 0 _ rfl 0 (by decide)
    rw [hbytes _ rfl, BitVec.add_zero, Nat.zero_add] at hchar
    exact (Option.some.inj hchar).symm

end Machine

end Cse502
