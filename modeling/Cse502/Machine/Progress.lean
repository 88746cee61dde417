import Cse502.Machine.Arrival
import Cse502.Machine.Programs

/-!
# The machine never comes to a standstill

A program in the guest memory is executed at a rate that does not depend on the schedule: the next
block arrives in time, the decoder delivers an instruction out of it, and the pipeline executes one
or throws the delivery away behind a jump.

## The measure

The first block of a target may end before its first instruction does, and then the decoder needs
another one. So what it delivers next is at most two blocks away (`Nearing`). Together with the rank
of the pipeline that is a measure which falls in every cycle in which nothing is executed (`pace`).
-/

namespace Cse502.Machine

open Pipeline (BranchProgram Delivery Pipe Point)
open Pipeline.BranchProgram (Primed rank)

variable {u : Decoder.Udis} {mem : Mem} {prog : BranchProgram} {s₀ : Point} {m m' : Machine}
  {p : Pipe Word} {k : ℕ}

/-! ## The next delivery -/

/-- The further cycles that it takes if the next block is the first one of a target. -/
def extra (m : Machine) : ℕ := if m.decoder.firstRun || m.core.ripJump then 452 else 0

theorem extra_le (m : Machine) : extra m ≤ 452 := by
  rw [extra]
  split_ifs <;> decide

/-- Something is to be delivered within so many cycles. -/
inductive Nearing (m : Machine) (k : ℕ) : Prop
  | handed (h : m.cur.fdOutReady = true) (hk : 1 + extra m ≤ k)
  | coming (j : ℕ) (h : Arriving m j) (hk : j + 1 + extra m ≤ k)

/-- It always is. -/
theorem Nearing.always (m : Machine) : Nearing m 904 :=
  .coming 451 (.always m) (Nat.add_le_add_left (extra_le m) 452)

/-- **A delivery is made, or it comes nearer.** -/
theorem Nearing.cycle {c : Schedule.Cycle MachineInput processes}
    {c' : Schedule.Cycle (Pipeline.Input (List Delivery)) Pipeline.stages} (h : Nearing m k)
    (hrunning : Running mem prog m p) (hasking : Asking m) (hfollows : Follows u mem prog c m p c')
    (hnow : (Schedule.cycle (act u) commit c m).now = m.now + 500)
    (hnone : c'.input.choice = []) :
    ∃ k', k = k' + 1 ∧ Nearing (Schedule.cycle (act u) commit c m) k' := by
  have hfront := hfollows.front
  have hdelivers := hfollows.delivers
  generalize Schedule.cycle (act u) commit c m = m' at hnow hfront ⊢
  have hclear : m.cur.clear = false := by
    by_contra hne
    exact hdelivers.clearing (eq_true_of_ne_false hne) hnone
  have hextra : extra m' = if (decodeWork u c.input m).1.firstRun ||
      (decodeWork u c.input m).2.ripJump then 452 else 0 := by
    rw [extra, hfront.decoder, hfront.ripJump, hclear]
    rfl
  cases hready : m.cur.fdOutReady with
  | true =>
    have hdecodes : decodes m.cur = true := by
      rw [decodes, hready, hclear, hrunning.coherent.reset]
      rfl
    obtain ⟨hfirst, hjump, hsome⟩ := hdelivers.decoding hdecodes
    -- the block was too short, so it was the first one of a target
    have hshort : extra m = 452 := by
      refine if_pos ?_
      by_contra hne
      rw [Bool.not_eq_true, Bool.or_eq_false_iff] at hne
      exact hsome hne.1 hne.2 hnone
    have hextra' : extra m' = 0 := by
      rw [hextra, hfirst, hjump]
      rfl
    have hk : 453 ≤ k := by
      cases h <;> omega
    obtain ⟨k', rfl⟩ := Nat.exists_eq_add_of_lt (Nat.zero_lt_of_lt hk)
    exact ⟨0 + k', rfl, .coming 451 (.always m') (by omega)⟩
  | false =>
    have hdecodes : decodes m.cur = false := by rw [decodes, hready, Bool.and_false, Bool.false_and]
    have hextra' : extra m' = extra m := by
      rw [hextra, (decodeWork_of_idle c.input hdecodes).1, extra]
    cases h with
    | handed h => exact absurd (hready.symm.trans h) Bool.noConfusion
    | coming j h hk =>
      obtain ⟨next, hsupplied, -⟩ := hrunning.stands
      obtain ⟨j', rfl, hnext⟩ := h.cycle hrunning.coherent hasking hrunning.served hsupplied hfront
        hclear hnow
      obtain ⟨k', rfl⟩ := Nat.exists_eq_add_of_lt (show 0 < k by omega)
      refine ⟨0 + k', rfl, ?_⟩
      rcases hnext with hhanded | harriving
      · exact .handed hhanded (by omega)
      · exact .coming j' harriving (by omega)

/-! ## The next execution -/

/-- A bound on the cycles until something is executed: one delivery after another, as many as the
rank of the pipeline asks for. -/
def pace (p : Pipe Word) (k : ℕ) : ℕ := 905 * rank p + k

/-- What holds between two cycles, a number of cycles away from the next delivery. -/
structure Paced (m : Machine) (p : Pipe Word) (k : ℕ) : Prop where
  primed : Primed p
  asking : Asking m
  nearing : Nearing m k
  le : k ≤ 904

theorem cycle_now (c : Schedule.Cycle MachineInput processes) (m : Machine) :
    (Schedule.cycle (act u) commit c m).now = m.now + 500 :=
  congrArg (· + 500) (Schedule.runOrder_invariant (I := fun m' : Machine ↦ m'.now = m.now)
    (fun st m' hm ↦ (act_now c.input st m').trans hm) c.order rfl)

/-- **In every cycle something is executed, or the measure falls.** If a jump is taken, that is seen
in the next cycle. -/
theorem Paced.cycle {c : Schedule.Cycle MachineInput processes}
    {c' : Schedule.Cycle (Pipeline.Input (List Delivery)) Pipeline.stages} (h : Paced m p k)
    (hrunning : Running mem prog m p) (hinv : prog.Inv s₀ [] p)
    (hfollows : Follows u mem prog c m p c')
    (hinside : prog.Inside s₀
      (Schedule.cycle (Pipeline.act prog.deliver) Pipeline.commit c' p).trace.length) :
    let p' := Schedule.cycle (Pipeline.act prog.deliver) Pipeline.commit c' p
    (∃ k', Paced (Schedule.cycle (act u) commit c m) p' k' ∧
      pace p' k' + 1 + 3620 * p.trace.length ≤ pace p k + 3620 * p'.trace.length) ∧
    p.trace.length ≤ p'.trace.length ∧ ∀ j, p.trace.length ≤ j → j < p'.trace.length →
      prog.targetAt (prog.after s₀ j) = none ∨
        (j + 1 = p'.trace.length ∧ p'.cur.clear = true) := by
  intro p'
  obtain ⟨hprimed, -, hcases⟩ :=
    BranchProgram.primed_cycle c' hinv h.primed hfollows.ready hinside
  change (p'.trace.length = p.trace.length + 1 ∧
      (p'.cur.clear = false → prog.targetAt (prog.after s₀ p.trace.length) = none)) ∨
    (p'.trace.length = p.trace.length ∧ rank p' ≤ rank p ∧
      (c'.input.choice ≠ [] → rank p' < rank p)) at hcases
  have hnow := cycle_now (u := u) c m
  have hasking := h.asking.cycle hrunning.coherent hfollows.front hnow
  have hrank := BranchProgram.rank_le p'
  refine ⟨?_, ?_⟩
  · by_cases hnone : c'.input.choice = []
    · obtain ⟨k', rfl, hnearing⟩ := h.nearing.cycle hrunning h.asking hfollows hnow hnone
      have hle := h.le
      refine ⟨k', ⟨hprimed, hasking, hnearing, by omega⟩, ?_⟩
      rw [pace, pace]
      rcases hcases with ⟨hlength, -⟩ | ⟨hlength, hrank', -⟩ <;> rw [hlength]
      · omega
      · omega
    · refine ⟨904, ⟨hprimed, hasking, .always _, le_rfl⟩, ?_⟩
      rw [pace, pace]
      rcases hcases with ⟨hlength, -⟩ | ⟨hlength, -, hlower⟩ <;> rw [hlength]
      · omega
      · have hlt := hlower hnone
        omega
  · rcases hcases with ⟨hlength, hstraight⟩ | ⟨hlength, -⟩
    · refine ⟨by omega, fun j hj hlt ↦ ?_⟩
      obtain rfl : j = p.trace.length := by omega
      cases hclear : p'.cur.clear with
      | true => exact .inr ⟨hlength.symm, rfl⟩
      | false => exact .inl (hstraight hclear)
    · exact ⟨hlength.ge, fun j hj hlt ↦ absurd hlt (by omega)⟩

theorem pace_boot (s₀ : Point) (expectedAddr : Word) (op : Uop) :
    pace (BranchProgram.boot s₀ mem expectedAddr op) 904 = 2714 := rfl

theorem paced_boot (entry rsp : Word) (regs : Gpr → Word) (eflags : Eflags) (now : ℕ) (x : Unset) :
    Paced (boot mem entry rsp regs eflags now x)
      (BranchProgram.boot (bootPoint entry rsp regs eflags) mem x.expectedAddr x.op) 904 where
  primed := ⟨Nat.zero_le _, fun _ h ↦ absurd rfl h, fun h ↦ absurd rfl h⟩
  asking := ⟨Side.Timely.init 500 224 now, fun h ↦ by cases h⟩
  nearing := .always _
  le := le_rfl

end Cse502.Machine
